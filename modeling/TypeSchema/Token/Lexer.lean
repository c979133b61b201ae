import TypeSchema.Identifier
import TypeSchema.Text.Blank
import TypeSchema.Token

/-!
# Reading tokens

`Lexeme.read` cuts the first lexeme from a text; `Lexer.next` skips blanks and gives the next token
with its place; `tokenize` reads a whole text.  Reading never fails: what is not closed becomes an
error token, and a character without a meaning becomes a token by itself.

* `Lexeme.covered_append_rest`: a lexeme and what follows it make up the text;
* `Lexeme.covered_ne_nil`: a lexeme is never empty.
-/

namespace TypeSchema

/-- The first lexeme of a text: what it is, the characters it covers, and what follows it. -/
structure Lexeme where
  kind : TokenKind
  covered : List Char
  rest : List Char

namespace Lexeme

/-! ## Bodies with a closing mark -/

/-- What stands behind an opening mark: the characters before the closing mark, whether that mark
was found, and what follows it. -/
structure Body where
  value : List Char
  closed : Bool
  rest : List Char

/-- The body with `cs` in front. -/
def Body.push (cs : List Char) (b : Body) : Body := { b with value := cs ++ b.value }

/-- Reads up to `quote`.  A backslash takes the next character with it, and the string ends unclosed
at a line feed. -/
def quotedBody (quote : Char) : List Char → Body
  | [] => ⟨[], false, []⟩
  | '\\' :: [] => ⟨['\\'], false, []⟩
  | '\\' :: c :: cs =>
    if c = '\n' then ⟨['\\'], false, c :: cs⟩ else (quotedBody quote cs).push ['\\', c]
  | c :: cs =>
    if c = quote then ⟨[], true, cs⟩
    else if c = '\n' then ⟨[], false, c :: cs⟩
    else (quotedBody quote cs).push [c]

/-- The mark around a template. -/
def backquote : Char := '\x60'

/-- Reads up to a backquote.  A backslash takes the next character with it. -/
def templateBody : List Char → Body
  | [] => ⟨[], false, []⟩
  | '\\' :: [] => ⟨['\\'], false, []⟩
  | '\\' :: c :: cs => (templateBody cs).push ['\\', c]
  | c :: cs => if c = backquote then ⟨[], true, cs⟩ else (templateBody cs).push [c]

/-- Reads up to the end of a block comment. -/
def commentBody : List Char → Body
  | [] => ⟨[], false, []⟩
  | '*' :: '/' :: cs => ⟨[], true, cs⟩
  | c :: cs => (commentBody cs).push [c]

/-- The characters a body takes up when its closing mark is `mark`. -/
def Body.covered (b : Body) (mark : List Char) : List Char :=
  if b.closed then b.value ++ mark else b.value

theorem Body.covered_push (b : Body) (cs mark : List Char) :
    (b.push cs).covered mark = cs ++ b.covered mark := by
  by_cases h : b.closed <;> simp [Body.covered, Body.push, h]

theorem quotedBody_covered (quote : Char) (cs : List Char) :
    (quotedBody quote cs).covered [quote] ++ (quotedBody quote cs).rest = cs := by
  fun_induction quotedBody quote cs <;>
    simp_all [Body.covered_push] <;> simp_all [Body.covered, Body.push]

theorem templateBody_covered (cs : List Char) :
    (templateBody cs).covered [backquote] ++ (templateBody cs).rest = cs := by
  fun_induction templateBody cs <;>
    simp_all [Body.covered_push] <;> simp_all [Body.covered, Body.push]

theorem commentBody_covered (cs : List Char) :
    (commentBody cs).covered ['*', '/'] ++ (commentBody cs).rest = cs := by
  fun_induction commentBody cs <;>
    simp_all [Body.covered_push] <;> simp_all [Body.covered, Body.push]

/-! ## Documentation comments -/

/-- One line of a documentation comment without its margin. -/
def docLine (line : List Char) : List Char :=
  match Text.trim line with
  | '*' :: cs => Text.trim cs
  | cs => cs

/-- The text of a documentation comment: its lines without margins, the empty ones left out, joined
by single spaces. -/
def docText (body : List Char) : List Char :=
  [' '].intercalate (((Text.lines body).map docLine).filter fun l => !l.isEmpty)

/-! ## One lexeme -/

/-- Whether `c` may stand in a number: an ASCII letter or digit, an underscore or a point. -/
def isNumberPart (c : Char) : Bool := c.isAlphanum || c == '_' || c == '.'

/-- The lexeme that runs as long as `p` holds. -/
def run (kind : String → TokenKind) (p : Char → Bool) (cs : List Char) : Lexeme :=
  ⟨kind (String.ofList (cs.takeWhile p)), cs.takeWhile p, cs.dropWhile p⟩

/-- A string with its opening quote `quote` already read. -/
def quoted (quote : Char) (cs : List Char) : Lexeme :=
  let b := quotedBody quote cs
  ⟨if b.closed then .str (String.ofList b.value) quote else .error .openString,
    quote :: b.covered [quote], b.rest⟩

/-- A template with its opening backquote already read. -/
def templated (cs : List Char) : Lexeme :=
  let b := templateBody cs
  ⟨if b.closed then .template (String.ofList b.value) else .error .openTemplate,
    backquote :: b.covered [backquote], b.rest⟩

/-- A block comment with its opening slash and star already read.  It is a documentation comment if
a further star follows that does not close it. -/
def blockComment (cs : List Char) : Lexeme :=
  let b := commentBody cs
  let covered := '/' :: '*' :: b.covered ['*', '/']
  let kind :=
    if b.closed then
      match b.value with
      | '*' :: body => .docComment (String.ofList (docText body))
      | _ => .comment (String.ofList covered)
    else .error .openComment
  ⟨kind, covered, b.rest⟩

/-- The first lexeme of a text that starts with `c`. -/
def read (c : Char) (cs : List Char) : Lexeme :=
  match Punct.ofChar? c with
  | some p => ⟨.punct p, [c], cs⟩
  | none =>
    match c, cs with
    | '=', '>' :: cs => ⟨.punct .arrow, ['=', '>'], cs⟩
    | '=', cs => ⟨.punct .equals, ['='], cs⟩
    | '/', '/' :: cs => run .comment (· ≠ '\n') ('/' :: '/' :: cs)
    | '/', '*' :: cs => blockComment cs
    | c, cs =>
      if c = '"' ∨ c = '\'' then quoted c cs
      else if c = backquote then templated cs
      else if c.isDigit then run .number isNumberPart (c :: cs)
      else if Identifier.isStart c then run .ident Identifier.isPart (c :: cs)
      else ⟨.other c, [c], cs⟩

@[simp] theorem run_covered_append_rest (kind : String → TokenKind) (p : Char → Bool)
    (cs : List Char) : (run kind p cs).covered ++ (run kind p cs).rest = cs := by
  simp [run]

/-- A lexeme and what follows it make up the text. -/
theorem covered_append_rest (c : Char) (cs : List Char) :
    (read c cs).covered ++ (read c cs).rest = c :: cs := by
  unfold read
  split
  · rfl
  · split
    · rfl
    · rfl
    · simp
    · simpa [blockComment] using commentBody_covered _
    · split
      · simpa [quoted] using quotedBody_covered _ _
      · split
        · rename_i h; simpa [templated, h] using templateBody_covered _
        · split
          · simp
          · split <;> simp

theorem run_covered_ne_nil {kind : String → TokenKind} {p : Char → Bool} {c : Char}
    {cs : List Char} (h : p c) : (run kind p (c :: cs)).covered ≠ [] := by
  simp [run, h]

theorem isNumberPart_of_isDigit {c : Char} (h : c.isDigit) : isNumberPart c := by
  simp [isNumberPart, Char.isAlphanum, h]

/-- A lexeme is never empty. -/
theorem covered_ne_nil (c : Char) (cs : List Char) : (read c cs).covered ≠ [] := by
  unfold read
  split
  · simp
  · split
    · simp
    · simp
    · exact run_covered_ne_nil (by decide)
    · simp [blockComment]
    · split
      · simp [quoted]
      · split
        · simp [templated]
        · split
          · rename_i h; exact run_covered_ne_nil (isNumberPart_of_isDigit h)
          · split
            · rename_i h; exact run_covered_ne_nil (Identifier.isPart_of_isStart h)
            · simp

theorem length_rest_lt (c : Char) (cs : List Char) :
    (read c cs).rest.length < (c :: cs).length := by
  have h := congrArg List.length (covered_append_rest c cs)
  have := List.length_pos_iff.2 (covered_ne_nil c cs)
  simp only [List.length_append] at h
  omega

end Lexeme

/-! ## Whole texts -/

/-- A reader of tokens: the text still to be read, and its position. -/
structure Lexer where
  rest : List Char
  position : Position

/-- The tokens of a text, and the span of its end. -/
structure Tokens where
  body : List Token
  stop : Span

/-- The tokens, with the end of input as the last one. -/
def Tokens.toList (ts : Tokens) : List Token := ts.body ++ [Token.eof ts.stop]

namespace Lexer

/-- A reader at the start of a text. -/
def ofText (source : String) : Lexer := ⟨source.toList, .origin⟩

/-- The reader behind the blanks it stands before. -/
def skipBlanks (l : Lexer) : Lexer :=
  ⟨l.rest.dropWhile Text.isBlank, l.position.advance (l.rest.takeWhile Text.isBlank)⟩

/-- The reader behind a lexeme that it stands before. -/
def past (l : Lexer) (x : Lexeme) : Lexer := ⟨x.rest, l.position.advance x.covered⟩

/-- The token of a lexeme that the reader stands before. -/
def token (l : Lexer) (x : Lexeme) : Token :=
  ⟨x.kind, .between l.position (l.past x).position, String.ofList x.covered⟩

/-- The next token and the reader behind it.  At the end every further token is the end again. -/
def next (l : Lexer) : Token × Lexer :=
  let l := l.skipBlanks
  match l.rest with
  | [] => (.eof (.point l.position), l)
  | c :: cs => (l.token (.read c cs), l.past (.read c cs))

theorem length_skipBlanks_le (l : Lexer) : l.skipBlanks.rest.length ≤ l.rest.length :=
  (List.dropWhile_suffix _).length_le

/-- All tokens up to the end of the text. -/
def tokens (l : Lexer) : Tokens :=
  match _h : l.skipBlanks.rest with
  | [] => ⟨[], .point l.skipBlanks.position⟩
  | c :: cs =>
    let x := Lexeme.read c cs
    let behind := (l.skipBlanks.past x).tokens
    { behind with body := l.skipBlanks.token x :: behind.body }
termination_by l.rest.length
decreasing_by
  have h₁ := Lexeme.length_rest_lt c cs
  have h₂ := l.length_skipBlanks_le
  rw [_h] at h₂
  exact Nat.lt_of_lt_of_le h₁ h₂

end Lexer

/-- The tokens of a text, comments included. -/
def tokenize (source : String) : Tokens := (Lexer.ofText source).tokens

/-- The tokens without those that `p` picks. -/
def Tokens.without (ts : Tokens) (p : TokenKind → Bool) : Tokens :=
  { ts with body := ts.body.filter fun t => !p t.kind }

/-- The tokens of a text without plain comments; documentation comments stay. -/
def tokenizeSignificant (source : String) : Tokens := (tokenize source).without TokenKind.isTrivia

end TypeSchema
