import TypeSchema.Text.Quoted
import TypeSchema.TypeExpr.Printer
import TypeSchema.Validator

/-!
# The code of a validator

A validator is written as a chain of builder calls.  Every field of an object has a line of its own,
two spaces deeper than the object.
-/

namespace TypeSchema

/-- The name of the constant that holds the schema of a declaration. -/
def schemaName (name : String) : String := name ++ "Schema"

namespace Validator

/-- The blanks at the start of a line. -/
def margin (indent : Nat) : String := String.join (List.replicate indent "  ")

/-- The code of an enumeration: none of no values, a literal of one, else a list. -/
def renderEnum : List String → String
  | [] => "z.never()"
  | [value] => "z.literal(" ++ Text.requote value ++ ")"
  | values => "z.enum([" ++ ", ".intercalate (values.map Text.requote) ++ "])"

/-- The code up to the fields of an object. -/
def renderBases : List String → String
  | [] => "z.object("
  | base :: bases =>
    schemaName base ++ String.join (bases.map fun b => ".extend(" ++ schemaName b ++ ".shape)")
      ++ ".extend("

mutual

/-- The code of a validator, on a line with `indent` levels of margin. -/
def renderAt (indent : Nat) : Validator → String
  | primitive p => "z." ++ p.builder ++ "()"
  | literal l => "z.literal(" ++ l.render ++ ")"
  | array v => "z.array(" ++ v.renderAt indent ++ ")"
  | record v => "z.record(" ++ v.renderAt indent ++ ")"
  | union vs => "z.union([" ++ ", ".intercalate (renderAll indent vs) ++ "])"
  | enum values => renderEnum values
  | object bases fields =>
    renderBases bases ++
      match fields with
      | [] => "\x7b\x7d)"
      | fields =>
        "\x7b\n" ++ String.join (renderFields (indent + 1) fields) ++ margin indent ++ "\x7d)"
  | reference name => schemaName name
  | unresolved e => "z.any() /* unresolved type: " ++ Text.hideCommentEnd e ++ " */"
  | optional v => v.renderAt indent ++ ".optional()"
  | described v text => v.renderAt indent ++ ".describe(" ++ Text.quoteText text ++ ")"

/-- The code of every branch. -/
def renderAll (indent : Nat) : List Validator → List String
  | [] => []
  | v :: vs => v.renderAt indent :: renderAll indent vs

/-- The line of every field. -/
def renderFields (indent : Nat) : List (String × Validator) → List String
  | [] => []
  | (name, v) :: fields =>
    (margin indent ++ Text.propertyKey name ++ ": " ++ v.renderAt indent ++ ",\n")
      :: renderFields indent fields

end

/-- The code of a validator. -/
def render (v : Validator) : String := v.renderAt 0

end Validator

end TypeSchema
