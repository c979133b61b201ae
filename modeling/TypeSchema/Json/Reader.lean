import TypeSchema.Json

/-!
# Reading JSON

A text is read if it is exactly one value with blanks around it.  Readers take the text before them
and give back a value and the text behind it.  Loops take the length of the whole text as a bound:
every turn reads a character, and so does every level of nesting.

A string may write a character outside the basic plane by its two surrogates.  `parse?` takes no
surrogate that stands alone.  `parseWanted?` looks at some members of the outermost object only:
the others have to be well-formed, but surrogates may stand alone in them.
-/

namespace TypeSchema.Json

/-- Reads a value from the start of a text, and gives back the text behind it. -/
abbrev Reader (α : Type) := List Char → Option (α × List Char)

namespace Reader

/-- The blanks between JSON tokens. -/
def isBlank (c : Char) : Bool := c == ' ' || c == '\t' || c == '\n' || c == '\r'

/-- The text behind the blanks at its start. -/
def skipBlanks (cs : List Char) : List Char := cs.dropWhile isBlank

/-- The value of a hexadecimal digit. -/
def hexDigit? (c : Char) : Option Nat :=
  if c.isDigit then some (c.toNat - '0'.toNat)
  else if 'a' ≤ c ∧ c ≤ 'f' then some (c.toNat - 'a'.toNat + 10)
  else if 'A' ≤ c ∧ c ≤ 'F' then some (c.toNat - 'A'.toNat + 10)
  else none

/-- Four hexadecimal digits. -/
def hexUnit? : Reader Nat
  | a :: b :: c :: d :: cs => do
    let a ← hexDigit? a
    let b ← hexDigit? b
    let c ← hexDigit? c
    let d ← hexDigit? d
    return (((a * 16 + b) * 16 + c) * 16 + d, cs)
  | _ => none

/-- Whether a UTF-16 unit is the first half of a character. -/
def isLeading (unit : Nat) : Bool := 0xd800 ≤ unit && unit < 0xdc00

/-- Whether a UTF-16 unit is the second half of a character. -/
def isTrailing (unit : Nat) : Bool := 0xdc00 ≤ unit && unit < 0xe000

/-- An escaped unit that is the second half of a character. -/
def trailing? : Reader Nat
  | '\\' :: 'u' :: cs => do
    let (unit, cs) ← hexUnit? cs
    if isTrailing unit then return (unit, cs) else none
  | _ => none

/-- What a surrogate that stands alone is read as, where it may. -/
def lone? (free : Bool) : Reader Char := fun cs => if free then some ('\ufffd', cs) else none

/-- A character written by its UTF-16 units, the first behind a `\u` that is already read. -/
def unicodeEscape? (free : Bool) : Reader Char := fun cs => do
  let (unit, cs) ← hexUnit? cs
  if isLeading unit then
    match trailing? cs with
    | some (low, cs) =>
      return (Char.ofNat (0x10000 + (unit - 0xd800) * 0x400 + (low - 0xdc00)), cs)
    | none => lone? free cs
  else if isTrailing unit then lone? free cs
  else return (Char.ofNat unit, cs)

/-- One character of a string that a backslash stands before. -/
def escape? (free : Bool) : Reader Char
  | '"' :: cs => some ('"', cs)
  | '\\' :: cs => some ('\\', cs)
  | '/' :: cs => some ('/', cs)
  | 'b' :: cs => some ('\x08', cs)
  | 'f' :: cs => some ('\x0c', cs)
  | 'n' :: cs => some ('\n', cs)
  | 'r' :: cs => some ('\r', cs)
  | 't' :: cs => some ('\t', cs)
  | 'u' :: cs => unicodeEscape? free cs
  | _ => none

/-- The characters of a string behind its opening quote. -/
def chars? (free : Bool) : Nat → Reader (List Char)
  | 0, _ => none
  | _ + 1, [] => none
  | bound + 1, c :: cs =>
    if c = '"' then some ([], cs)
    else if c = '\\' then do
      let (d, cs) ← escape? free cs
      let (value, cs) ← chars? free bound cs
      return (d :: value, cs)
    else if c.toNat < 0x20 then none
    else do
      let (value, cs) ← chars? free bound cs
      return (c :: value, cs)

/-- A string behind its opening quote. -/
def string? (free : Bool) (bound : Nat) : Reader String := fun cs =>
  (chars? free bound cs).map fun (value, cs) => (String.ofList value, cs)

/-- One or more digits. -/
def digits? : Reader (List Char) := fun cs =>
  match cs.takeWhile Char.isDigit with
  | [] => none
  | ds => some (ds, cs.dropWhile Char.isDigit)

/-- The whole part of a number: a zero, or digits that do not start with one. -/
def whole? : Reader Nat
  | '0' :: cs => some (0, cs)
  | cs => do
    let (ds, cs) ← digits? cs
    return (ds.foldl (fun n d => n * 10 + (d.toNat - '0'.toNat)) 0, cs)

/-- The fraction of a number, if a point comes next. -/
def fraction? : Reader (Option String)
  | '.' :: cs => do
    let (ds, cs) ← digits? cs
    return (some (String.ofList ds), cs)
  | cs => some (none, cs)

/-- The sign of an exponent. -/
def exponentSign : List Char → List Char × List Char
  | '+' :: cs => (['+'], cs)
  | '-' :: cs => (['-'], cs)
  | cs => ([], cs)

/-- The exponent of a number, if its mark comes next. -/
def exponent? : Reader (Option String) := fun cs =>
  match cs with
  | c :: cs' =>
    if c = 'e' ∨ c = 'E' then do
      let (sign, cs) := exponentSign cs'
      let (ds, cs) ← digits? cs
      return (some (String.ofList (sign ++ ds)), cs)
    else some (none, cs)
  | [] => some (none, [])

/-- The sign of a number. -/
def sign : List Char → Bool × List Char
  | '-' :: cs => (true, cs)
  | cs => (false, cs)

/-- A number. -/
def number? : Reader Number := fun cs => do
  let (negative, cs) := sign cs
  let (whole, cs) ← whole? cs
  let (fraction, cs) ← fraction? cs
  let (exponent, cs) ← exponent? cs
  return ({ negative, whole, fraction, exponent }, cs)

/-- The items of an array up to its closing bracket. -/
def items? (item : Reader Json) : Nat → Reader (List Json)
  | 0, _ => none
  | bound + 1, cs => do
    let (v, cs) ← item cs
    match skipBlanks cs with
    | ',' :: cs =>
      let (vs, cs) ← items? item bound cs
      return (v :: vs, cs)
    | ']' :: cs => return ([v], cs)
    | _ => none

/-- The key of a member, and the colon behind it. -/
def key? (free : Bool) (bound : Nat) : Reader String := fun cs =>
  match skipBlanks cs with
  | '"' :: cs => do
    let (key, cs) ← string? free bound cs
    match skipBlanks cs with
    | ':' :: cs => return (key, cs)
    | _ => none
  | _ => none

/-- The members of an object up to its closing brace. -/
def members? (free : Bool) (member : String → Reader Json) : Nat → Reader (List (String × Json))
  | 0, _ => none
  | bound + 1, cs => do
    let (key, cs) ← key? free bound cs
    let (v, cs) ← member key cs
    match skipBlanks cs with
    | ',' :: cs =>
      let (members, cs) ← members? free member bound cs
      return ((key, v) :: members, cs)
    | '\x7d' :: cs => return ([(key, v)], cs)
    | _ => none

/-- A value, by the readers of its items and of its members.  Surrogates may stand alone in its own
strings if `free` says so. -/
def valueOf? (free : Bool) (item : Reader Json) (member : String → Reader Json) (bound : Nat) :
    Reader Json := fun cs =>
  match skipBlanks cs with
  | 'n' :: 'u' :: 'l' :: 'l' :: cs => some (.null, cs)
  | 't' :: 'r' :: 'u' :: 'e' :: cs => some (.bool true, cs)
  | 'f' :: 'a' :: 'l' :: 's' :: 'e' :: cs => some (.bool false, cs)
  | '"' :: cs => (string? free bound cs).map fun (s, cs) => (.string s, cs)
  | '[' :: cs =>
    match skipBlanks cs with
    | ']' :: cs => some (.array [], cs)
    | cs => (items? item bound cs).map fun (items, cs) => (.array items, cs)
  | '\x7b' :: cs =>
    match skipBlanks cs with
    | '\x7d' :: cs => some (.object [], cs)
    | cs => (members? free member bound cs).map fun (members, cs) => (.object members, cs)
  | cs => (number? cs).map fun (n, cs) => (.number n, cs)

/-- A value with at most `depth` levels. -/
def value? (free : Bool) (bound : Nat) : (depth : Nat) → Reader Json
  | 0 => fun _ => none
  | depth + 1 => valueOf? free (value? free bound depth) (fun _ => value? free bound depth) bound

end Reader

/-- The value that a text is, if an outermost object is only looked at under `wanted` keys. -/
def parseWanted? (wanted : String → Bool) (text : String) : Option Json :=
  let cs := text.toList
  let bound := cs.length
  let inner (free : Bool) : Reader Json := Reader.value? free bound bound
  match Reader.valueOf? false (inner false) (fun key => inner (!wanted key)) bound cs with
  | some (v, rest) => if (Reader.skipBlanks rest).isEmpty then some v else none
  | none => none

/-- The value that a text is. -/
def parse? (text : String) : Option Json := parseWanted? (fun _ => true) text

end TypeSchema.Json
