import TypeSchema.Primitive

/-!
# Type expressions

The tree of one type expression, such as `Array<User | 'guest'>` or `Record<string, number>?`.
-/

namespace TypeSchema

/-- A quoted string: the text between the quotes as written, and the quote. -/
structure StringLiteral where
  value : String
  quote : Char := '"'
  deriving DecidableEq, Repr

/-- A type expression. -/
inductive TypeExpr where
  /-- A keyword such as `string`. -/
  | primitive (p : Primitive)
  /-- A quoted string such as `'admin'`. -/
  | literal (l : StringLiteral)
  /-- The name of a declaration, such as `User` or `Api.User`. -/
  | reference (name : String)
  /-- `T[]`, also written `Array<T>`. -/
  | array (element : TypeExpr)
  /-- `Record<K, V>`; the key is only kept for display. -/
  | record (key : String) (value : TypeExpr)
  /-- `Record<…>` with arguments that cannot be read. -/
  | anyRecord
  /-- Any other name with arguments, such as `Promise<T>`. -/
  | generic (name : String) (args : List TypeExpr)
  /-- `A | B | C`. -/
  | union (branches : List TypeExpr)
  /-- `T?`. -/
  | optional (inner : TypeExpr)
  deriving Repr, Inhabited

namespace TypeExpr

/-! ## Equality -/

mutual

/-- Whether two expressions are the same tree. -/
def same : TypeExpr → TypeExpr → Bool
  | primitive p, primitive q => p == q
  | literal l, literal m => l == m
  | reference a, reference b => a == b
  | array e, array f => e.same f
  | record j e, record k f => j == k && e.same f
  | anyRecord, anyRecord => true
  | generic a es, generic b fs => a == b && sameAll es fs
  | union es, union fs => sameAll es fs
  | optional e, optional f => e.same f
  | _, _ => false

/-- Whether two lists hold the same trees. -/
def sameAll : List TypeExpr → List TypeExpr → Bool
  | [], [] => true
  | e :: es, f :: fs => e.same f && sameAll es fs
  | _, _ => false

end

mutual

theorem same_iff : ∀ e f : TypeExpr, e.same f = true ↔ e = f
  | primitive p, f => by cases f <;> simp [same]
  | literal l, f => by cases f <;> simp [same]
  | reference a, f => by cases f <;> simp [same]
  | array e, f => by cases f <;> simp [same, same_iff e]
  | record j e, f => by cases f <;> simp [same, same_iff e]
  | anyRecord, f => by cases f <;> simp [same]
  | generic a es, f => by cases f <;> simp [same, sameAll_iff es]
  | union es, f => by cases f <;> simp [same, sameAll_iff es]
  | optional e, f => by cases f <;> simp [same, same_iff e]

theorem sameAll_iff : ∀ es fs : List TypeExpr, sameAll es fs = true ↔ es = fs
  | [], fs => by cases fs <;> simp [sameAll]
  | e :: es, fs => by cases fs <;> simp [sameAll, same_iff e, sameAll_iff es]

end

instance : DecidableEq TypeExpr := fun e f => decidable_of_iff _ (same_iff e f)

/-! ## Properties -/

/-- Whether the expression only says that a value may be absent. -/
def isAbsent : TypeExpr → Bool
  | primitive p => p.isAbsent
  | _ => false

/-- Whether the expression is a union. -/
def isUnion : TypeExpr → Bool
  | union _ => true
  | _ => false

mutual

/-- The names in an expression from left to right, as often as they occur.  Keys are no types. -/
def mentions : TypeExpr → List String
  | reference name => [name]
  | array e | optional e | record _ e => e.mentions
  | generic _ es | union es => mentionsAll es
  | primitive _ | literal _ | anyRecord => []

/-- The names in a list of expressions. -/
def mentionsAll : List TypeExpr → List String
  | [] => []
  | e :: es => e.mentions ++ mentionsAll es

end

/-- The names in an expression, each once, in the order of their first mention. -/
def references (e : TypeExpr) : List String := e.mentions.eraseDups

end TypeExpr

end TypeSchema
