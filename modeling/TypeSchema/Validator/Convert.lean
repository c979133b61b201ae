import TypeSchema.Registry
import TypeSchema.TypeExpr.Parser
import TypeSchema.TypeExpr.Printer
import TypeSchema.Validator

/-!
# From types to validators

Every type expression has a validator; what has no meaning here lets anything pass.

1. `T?`, and a branch `undefined` or `null` beside others, make the result optional, once.
2. A keyword has its own validator.
3. `T[]` checks the elements.
4. `Record<K, V>` checks the values, and lets any pass if its arguments could not be read.
5. A union converts branch by branch; a single remaining branch stands for itself.
6. A quoted string is a literal.
7. The name of a declaration refers to its schema.
8. Anything else is unresolved.
-/

namespace TypeSchema

/-- Whether the expression itself says that a value may be absent: by a question mark, or by a
branch for absence beside other branches. -/
def TypeExpr.isOptional : TypeExpr → Bool
  | .optional _ => true
  | .union es => es.any isAbsent && !es.all isAbsent
  | _ => false

namespace Validator

/-- The number of branches that are not only for absence. -/
def presentBranches (es : List TypeExpr) : Nat := es.countP fun e => !e.isAbsent

mutual

/-- The validator of an expression in which `known` names are declared.  If `strip`, that the
expression itself may be absent is left out; otherwise a question mark is kept and all branches of a
union are converted. -/
def lower (known : String → Bool) (strip : Bool) : TypeExpr → Validator
  | .primitive p => .primitive p
  | .literal l => .literal l
  | .reference name => if known name then .reference name else .unresolved name
  | .array e => .array ((lower known true e).orAbsentIf e.isOptional)
  | .record _ e => .record ((lower known true e).orAbsentIf e.isOptional)
  | .anyRecord => .record (.primitive .any)
  | .generic name es => .unresolved (TypeExpr.generic name es).render
  | .optional e => if strip then lower known true e else (lower known true e).orAbsent
  | .union es =>
    if strip then
      match presentBranches es with
      | 0 => .union (lowerAll known es)
      | 1 => lowerSole known es
      | _ => .union (lowerPresent known es)
    else .union (lowerAll known es)

/-- The validators of all branches. -/
def lowerAll (known : String → Bool) : List TypeExpr → List Validator
  | [] => []
  | e :: es => (lower known true e).orAbsentIf e.isOptional :: lowerAll known es

/-- The validators of the branches that are not only for absence. -/
def lowerPresent (known : String → Bool) : List TypeExpr → List Validator
  | [] => []
  | e :: es =>
    if e.isAbsent then lowerPresent known es
    else (lower known true e).orAbsentIf e.isOptional :: lowerPresent known es

/-- The validator of the first branch that is not only for absence. -/
def lowerSole (known : String → Bool) : List TypeExpr → Validator
  | [] => .primitive .never
  | e :: es => if e.isAbsent then lowerSole known es else lower known false e

end

/-- The validator of an expression; `optional` allows absence whatever the expression says. -/
def convert (known : String → Bool) (e : TypeExpr) (optional : Bool) : Validator :=
  (lower known true e).orAbsentIf (optional || e.isOptional)

theorem lowerAll_eq_map (known : String → Bool) (es : List TypeExpr) :
    lowerAll known es = es.map fun e => convert known e false := by
  induction es with
  | nil => rfl
  | cons e es ih => simp [lowerAll, convert, ih]

theorem lowerPresent_eq_map (known : String → Bool) (es : List TypeExpr) :
    lowerPresent known es =
      (es.filter fun e => !e.isAbsent).map fun e => convert known e false := by
  induction es with
  | nil => rfl
  | cons e es ih => by_cases h : e.isAbsent <;> simp [lowerPresent, convert, ih, h]

/-- The validator of a text.  A text that is no type expression is unresolved as a whole. -/
def ofText (registry : Registry) (text : String) (optional : Bool) : Validator :=
  match TypeExpr.parse text with
  | .ok e => convert registry.contains e optional
  | .error _ => (unresolved (Text.collapse text)).orAbsentIf optional

/-! ## Declarations -/

/-- The validator of a field, with its description outside. -/
def ofField (registry : Registry) (f : Field) : Validator :=
  let v := ofText registry f.type f.optional
  match f.description with
  | some text => described v text
  | none => v

/-- An interface checks its fields, and extends the bases that are interfaces themselves. -/
def ofInterface (registry : Registry) (i : Interface) : Validator :=
  object (i.bases.filter registry.interfaces.contains)
    (i.fields.map fun f => (f.name, ofField registry f))

/-- A warning for every base that is not an interface. -/
def baseWarnings (registry : Registry) (i : Interface) : List Diagnostic :=
  (i.bases.filter fun base => !registry.interfaces.contains base).map fun base =>
    ⟨i.span, .unknownBase i.name base⟩

/-- An alias is its type. -/
def ofAlias (registry : Registry) (a : Alias) : Validator := ofText registry a.type false

/-- An enum is the enumeration of its values. -/
def ofEnum (e : Enumeration) : Validator := enum e.values

end Validator

end TypeSchema
