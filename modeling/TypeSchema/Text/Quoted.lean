import TypeSchema.Identifier

/-!
# Escapes in quoted text

* `unescape`: what the text between two quotes stands for;
* `requote`: the text between any quotes, made fit for double quotes;
* `quoteText`: free text made fit for double quotes;
* `hideCommentEnd`: free text made fit for a block comment;
* `propertyKey`: a name as the key of an object.
-/

namespace TypeSchema.Text

/-- The character that a backslash and `c` stand for. -/
def escaped : Char → Char
  | 'n' => '\n'
  | 't' => '\t'
  | 'r' => '\r'
  | '0' => '\x00'
  | c => c

/-- What the text between two quotes stands for.  A last backslash stands for itself. -/
def unescapeChars : List Char → List Char
  | [] => []
  | '\\' :: [] => ['\\']
  | '\\' :: c :: cs => escaped c :: unescapeChars cs
  | c :: cs => c :: unescapeChars cs

/-- What the text between two quotes stands for. -/
def unescape (raw : String) : String := String.ofList (unescapeChars raw.toList)

/-- The text between quotes of any sort, made fit for double quotes: a bare double quote is escaped,
a last backslash is completed, and all else is copied. -/
def requoteChars : List Char → List Char
  | [] => []
  | '\\' :: [] => ['\\', '\\']
  | '\\' :: c :: cs => '\\' :: c :: requoteChars cs
  | '"' :: cs => '\\' :: '"' :: requoteChars cs
  | c :: cs => c :: requoteChars cs

/-- The text between quotes of any sort, in double quotes. -/
def requote (raw : String) : String := "\"" ++ String.ofList (requoteChars raw.toList) ++ "\""

/-- The characters that stand for `c` between double quotes; a line break becomes a space. -/
def quoteChar : Char → List Char
  | '\\' => ['\\', '\\']
  | '"' => ['\\', '"']
  | '\n' | '\r' => [' ']
  | c => [c]

/-- Free text in double quotes. -/
def quoteText (text : String) : String :=
  "\"" ++ String.ofList (text.toList.flatMap quoteChar) ++ "\""

/-- The text with a backslash in every comment end. -/
def hideCommentEndChars : List Char → List Char
  | [] => []
  | '*' :: '/' :: cs => '*' :: '\\' :: '/' :: hideCommentEndChars cs
  | c :: cs => c :: hideCommentEndChars cs

/-- The text with a backslash in every comment end. -/
def hideCommentEnd (text : String) : String := String.ofList (hideCommentEndChars text.toList)

/-- A name as the key of an object: bare if it is an identifier, else in double quotes. -/
def propertyKey (name : String) : String :=
  if Identifier.isIdentifier name.toList then name else requote name

end TypeSchema.Text
