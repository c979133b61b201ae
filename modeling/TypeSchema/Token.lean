import TypeSchema.Span

/-!
# Tokens

The pieces of a declaration source.  Only the punctuation of the type grammar has kinds of its own;
any other character is a token by itself, so that arbitrary code can be read.
-/

namespace TypeSchema

/-- Punctuation of the type grammar. -/
inductive Punct where
  | openBrace
  | closeBrace
  | openParen
  | closeParen
  | openBracket
  | closeBracket
  | openAngle
  | closeAngle
  | pipe
  | amp
  | question
  | colon
  | semicolon
  | comma
  | equals
  | dot
  | arrow
  deriving DecidableEq, Repr

namespace Punct

/-- The characters a punctuation is written with. -/
def symbol : Punct → List Char
  | openBrace => ['\x7b']
  | closeBrace => ['\x7d']
  | openParen => ['(']
  | closeParen => [')']
  | openBracket => ['[']
  | closeBracket => [']']
  | openAngle => ['<']
  | closeAngle => ['>']
  | pipe => ['|']
  | amp => ['&']
  | question => ['?']
  | colon => [':']
  | semicolon => [';']
  | comma => [',']
  | equals => ['=']
  | dot => ['.']
  | arrow => ['=', '>']

/-- The punctuation that is always a token by itself, by its character. -/
def ofChar? : Char → Option Punct
  | '\x7b' => some openBrace
  | '\x7d' => some closeBrace
  | '(' => some openParen
  | ')' => some closeParen
  | '[' => some openBracket
  | ']' => some closeBracket
  | '<' => some openAngle
  | '>' => some closeAngle
  | '|' => some pipe
  | '&' => some amp
  | '?' => some question
  | ':' => some colon
  | ';' => some semicolon
  | ',' => some comma
  | '.' => some dot
  | _ => none

theorem symbol_of_ofChar? {c : Char} {p : Punct} (h : ofChar? c = some p) : p.symbol = [c] := by
  unfold ofChar? at h
  split at h <;> cases h <;> rfl

/-- Whether a group opens here. -/
def isOpen : Punct → Bool
  | openBrace | openParen | openBracket | openAngle => true
  | _ => false

/-- Whether a group closes here. -/
def isClose : Punct → Bool
  | closeBrace | closeParen | closeBracket | closeAngle => true
  | _ => false

/-- Whether a type expression goes on after this, even on the next line. -/
def continues : Punct → Bool
  | pipe | amp | equals | openAngle | comma | colon | arrow | question => true
  | _ => false

end Punct

/-- What can be wrong with a lexeme. -/
inductive LexicalFault where
  | openString
  | openTemplate
  | openComment
  deriving DecidableEq, Repr

/-- The text of a lexical fault. -/
def LexicalFault.message : LexicalFault → String
  | openString => "unterminated string literal"
  | openTemplate => "unterminated template literal"
  | openComment => "unterminated block comment"

/-- What a token is, with the text that matters for it. -/
inductive TokenKind where
  /-- Punctuation of the type grammar. -/
  | punct (p : Punct)
  /-- A name or keyword. -/
  | ident (name : String)
  /-- A quoted string: the text between the quotes as written, and the quote. -/
  | str (value : String) (quote : Char)
  /-- A number as written. -/
  | number (text : String)
  /-- A template: the text between the backquotes as written. -/
  | template (value : String)
  /-- A documentation comment, without its frame. -/
  | docComment (text : String)
  /-- Any other comment as written. -/
  | comment (text : String)
  /-- Any other character. -/
  | other (c : Char)
  /-- The end of the text. -/
  | eof
  /-- A lexeme that is not closed. -/
  | error (fault : LexicalFault)
  deriving DecidableEq, Repr

namespace TokenKind

/-- Whether every reader passes over the token. -/
def isTrivia : TokenKind → Bool
  | comment _ => true
  | _ => false

/-- Whether the token is a comment of either sort. -/
def isComment : TokenKind → Bool
  | comment _ | docComment _ => true
  | _ => false

/-- Whether a group opens here. -/
def isOpen : TokenKind → Bool
  | punct p => p.isOpen
  | _ => false

/-- Whether a group closes here. -/
def isClose : TokenKind → Bool
  | punct p => p.isClose
  | _ => false

/-- Whether a type expression goes on after this token, even on the next line. -/
def continues : TokenKind → Bool
  | punct p => p.continues
  | _ => false

/-- The number of open groups after a token, for the number before it.  A close without an open
group changes nothing. -/
def nesting (kind : TokenKind) (depth : Nat) : Nat :=
  if kind.isOpen then depth + 1 else if kind.isClose then depth - 1 else depth

/-- The name of a kind in messages. -/
def name : TokenKind → String
  | punct p => String.ofList (['\''] ++ p.symbol ++ ['\''])
  | ident _ => "identifier"
  | str _ _ => "string"
  | number _ => "number"
  | template _ => "template literal"
  | docComment _ => "doc comment"
  | comment _ => "comment"
  | other _ => "character"
  | eof => "end of input"
  | error _ => "error"

/-- The identifier, if the token is one. -/
def ident? : TokenKind → Option String
  | ident name => some name
  | _ => none

end TokenKind

/-- A piece of a source: what it is, where it stands, and the text it covers. -/
structure Token where
  kind : TokenKind
  span : Span
  text : String
  deriving DecidableEq, Repr

namespace Token

/-- Whether the token is the identifier `name`. -/
def isIdent (t : Token) (name : String) : Bool := t.kind == .ident name

/-- Whether the token is the punctuation `p`. -/
def isPunct (t : Token) (p : Punct) : Bool := t.kind == .punct p

/-- The end of input at a span. -/
def eof (span : Span) : Token := ⟨.eof, span, ""⟩

end Token

end TypeSchema
