import TypeSchema.TypeExpr

/-!
# Validators

What is checked about a value: the converted form of a type expression or a declaration.
-/

namespace TypeSchema

/-- A validator. -/
inductive Validator where
  | primitive (p : Primitive)
  /-- Exactly this string. -/
  | literal (l : StringLiteral)
  /-- An array whose elements all pass. -/
  | array (element : Validator)
  /-- An object whose values all pass. -/
  | record (value : Validator)
  /-- What passes in some branch. -/
  | union (branches : List Validator)
  /-- One of these strings, each as written between quotes. -/
  | enum (values : List String)
  /-- An object that passes in all bases, and whose fields pass. -/
  | object (bases : List String) (fields : List (String × Validator))
  /-- What passes in the schema of this declaration. -/
  | reference (name : String)
  /-- Anything, since this expression has no validator. -/
  | unresolved (expression : String)
  /-- What passes inside, and absence. -/
  | optional (inner : Validator)
  /-- What passes inside, with a remark. -/
  | described (inner : Validator) (text : String)
  deriving Repr, Inhabited

namespace Validator

/-- Whether absence passes at the outermost level. -/
def isOptional : Validator → Bool
  | optional _ => true
  | described v _ => v.isOptional
  | _ => false

/-- The validator that also lets absence pass; an optional one is left as it is. -/
def orAbsent (v : Validator) : Validator := if v.isOptional then v else optional v

/-- The validator, with absence allowed if `absent`. -/
def orAbsentIf (v : Validator) (absent : Bool) : Validator := if absent then v.orAbsent else v

mutual

/-- The validator and all those in it, parents before their children, from left to right. -/
def walk : Validator → List Validator
  | primitive p => [primitive p]
  | literal l => [literal l]
  | array v => array v :: v.walk
  | record v => record v :: v.walk
  | union vs => union vs :: walkAll vs
  | enum values => [enum values]
  | object bases fields => object bases fields :: walkFields fields
  | reference name => [reference name]
  | unresolved e => [unresolved e]
  | optional v => optional v :: v.walk
  | described v text => described v text :: v.walk

/-- The validators in a list of branches. -/
def walkAll : List Validator → List Validator
  | [] => []
  | v :: vs => v.walk ++ walkAll vs

/-- The validators in a list of fields. -/
def walkFields : List (String × Validator) → List Validator
  | [] => []
  | (_, v) :: fields => v.walk ++ walkFields fields

end

/-- The names that the outermost level refers to. -/
def ownReferences : Validator → List String
  | reference name => [name]
  | object bases _ => bases
  | _ => []

/-- The declarations referred to, bases included, each once, in the order of first mention. -/
def references (v : Validator) : List String := (v.walk.flatMap ownReferences).eraseDups

/-- The expression, if the outermost level lacks a validator. -/
def ownUnresolved? : Validator → Option String
  | unresolved e => some e
  | _ => none

/-- The expressions without a validator, in order. -/
def unresolvedExpressions (v : Validator) : List String := v.walk.filterMap ownUnresolved?

end Validator

end TypeSchema
