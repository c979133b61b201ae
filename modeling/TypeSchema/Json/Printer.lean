import TypeSchema.Json

/-!
# Printing JSON

Every item and member stands on a line of its own, two spaces deeper than what holds it.
-/

namespace TypeSchema.Json

/-- The digit of a number below sixteen. -/
def hexDigit (n : Nat) : Char := (Nat.toDigits 16 n).headD '0'

/-- The characters that stand for `c` in a string. -/
def quoteChar : Char → List Char
  | '"' => ['\\', '"']
  | '\\' => ['\\', '\\']
  | '\x08' => ['\\', 'b']
  | '\x0c' => ['\\', 'f']
  | '\n' => ['\\', 'n']
  | '\r' => ['\\', 'r']
  | '\t' => ['\\', 't']
  | c =>
    if c.toNat < 0x20 then ['\\', 'u', '0', '0', hexDigit (c.toNat / 16), hexDigit (c.toNat % 16)]
    else [c]

/-- A string in quotes. -/
def quote (s : String) : String := "\"" ++ String.ofList (s.toList.flatMap quoteChar) ++ "\""

/-- A number as it is written. -/
def Number.render (n : Number) : String :=
  (if n.negative then "-" else "") ++ toString n.whole
    ++ (match n.fraction with
      | some ds => "." ++ ds
      | none => "")
    ++ match n.exponent with
      | some ds => "e" ++ ds
      | none => ""

/-- The line end and the margin of a line. -/
def newline (indent : Nat) : String := "\n" ++ String.join (List.replicate indent "  ")

/-- Lines between two brackets. -/
def bracket (opening close : String) (indent : Nat) (lines : List String) : String :=
  match lines with
  | [] => opening ++ close
  | lines =>
    opening ++ newline (indent + 1) ++ ("," ++ newline (indent + 1)).intercalate lines
      ++ newline indent ++ close

mutual

/-- The text of a value that starts on a line with `indent` levels of margin. -/
def renderAt (indent : Nat) : Json → String
  | .null => "null"
  | .bool b => if b then "true" else "false"
  | .number n => n.render
  | .string s => quote s
  | .array vs => bracket "[" "]" indent (renderItems (indent + 1) vs)
  | .object ms => bracket "\x7b" "\x7d" indent (renderMembers (indent + 1) ms)

/-- The texts of items. -/
def renderItems (indent : Nat) : List Json → List String
  | [] => []
  | v :: vs => v.renderAt indent :: renderItems indent vs

/-- The texts of members. -/
def renderMembers (indent : Nat) : List (String × Json) → List String
  | [] => []
  | (key, v) :: ms => (quote key ++ ": " ++ v.renderAt indent) :: renderMembers indent ms

end

/-- The text of a value. -/
def render (v : Json) : String := v.renderAt 0

end TypeSchema.Json
