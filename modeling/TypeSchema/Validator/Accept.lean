import TypeSchema.Json
import TypeSchema.Text.Quoted
import TypeSchema.Validator

/-!
# Which values pass

A value is a JSON value or absence.  JSON has no dates and no big integers: a string passes as a
date, and an integer of 64 bits as a big integer.  Following validators and references further than
`maxDepth` lets nothing pass.
-/

namespace TypeSchema

namespace Validator

/-- How many validators may be followed one into another. -/
def maxDepth : Nat := 512

/-- The schemas that names refer to. -/
abbrev Schemas := String → Option Validator

/-- Whether a value, or absence, passes as a primitive. -/
def acceptsPrimitive : Primitive → Option Json → Bool
  | .any, _ | .unknown, _ => true
  | .undefined, none | .void, none => true
  | .string, some (.string _) | .date, some (.string _) => true
  | .boolean, some (.bool _) => true
  | .number, some (.number _) => true
  | .null, some .null => true
  | .bigint, some (.number n) => n.isWord
  | _, _ => false

/-- Whether a value, or absence, passes when `budget` validators may be followed one into
another. -/
def acceptsWithin (schemas : Schemas) : Nat → Validator → Option Json → Bool
  | 0, _, _ => false
  | budget + 1, v, x =>
    match v with
    | primitive p => acceptsPrimitive p x
    | literal l =>
      match x with
      | some (.string s) => s == Text.unescape l.value
      | _ => false
    | enum values =>
      match x with
      | some (.string s) => values.any fun value => Text.unescape value == s
      | _ => false
    | array element =>
      match x with
      | some (.array items) =>
        items.all fun item => acceptsWithin schemas budget element (some item)
      | _ => false
    | record value =>
      match x with
      | some (.object members) =>
        (Json.settle members).all fun m => acceptsWithin schemas budget value (some m.2)
      | _ => false
    | union branches => branches.any fun branch => acceptsWithin schemas budget branch x
    | object bases fields =>
      match x with
      | some (.object members) =>
        (bases.all fun base =>
          match schemas base with
          | some v => acceptsWithin schemas budget v x
          | none => false)
        && fields.all fun f =>
          acceptsWithin schemas budget f.2 (Json.member? members (Text.unescape f.1))
      | _ => false
    | reference name =>
      match schemas name with
      | some v => acceptsWithin schemas budget v x
      | none => false
    | unresolved _ => true
    | optional inner => x.isNone || acceptsWithin schemas budget inner x
    | described inner _ => acceptsWithin schemas budget inner x

/-- Whether a value, or absence, passes. -/
def accepts (v : Validator) (schemas : Schemas) (x : Option Json) : Bool :=
  acceptsWithin schemas maxDepth v x

end Validator

end TypeSchema
