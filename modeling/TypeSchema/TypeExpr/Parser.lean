import TypeSchema.Error
import TypeSchema.Token.Lexer
import TypeSchema.TypeExpr

/-!
# Reading type expressions

```text
type     := union '?'? end
union    := '|'? suffixed ('|' suffixed)*
suffixed := primary ('[' ']')*
primary  := '(' union ')' | string | name ('<' union (',' union)* '>')?
name     := identifier ('.' identifier)*
```

`Array<T>` is read as `T[]`.  `Record<K, V>` takes any run of tokens for `K`; if its arguments
cannot be read it is still a record, of anything.  Every union and every suffix stands one level
deeper than what is around it, and there are at most `maxNesting` levels.

A parser is a value: it can be run again where it stopped, also after a failure.
-/

namespace TypeSchema

/-- How deep a type expression may be nested. -/
def maxNesting : Nat := 128

/-- Why tokens are not a type expression. -/
inductive ParseFault where
  | unexpectedEnd
  | unclosed (fault : LexicalFault)
  | unsupported (found : TokenKind)
  | trailing (found : TokenKind)
  | expected (wanted : Punct) (found : TokenKind)
  | nameAfterDot
  | openArguments
  | tooDeep
  deriving DecidableEq, Repr

/-- The text of a fault. -/
def ParseFault.message : ParseFault → String
  | unexpectedEnd => "unexpected end of type expression"
  | unclosed fault => fault.message
  | unsupported found => s!"unsupported {found.name} in type expression"
  | trailing found => s!"unexpected {found.name}"
  | expected wanted found => s!"expected {(TokenKind.punct wanted).name}, found {found.name}"
  | nameAfterDot => "expected identifier after '.'"
  | openArguments => "unterminated generic argument list"
  | tooDeep => "type expression nested too deeply"

/-- A fault and the token at which it was found. -/
structure ParseFailure where
  fault : ParseFault
  span : Span
  deriving DecidableEq, Repr

/-- A parser of one text: the tokens still to be read, the level reached, and whether the nesting
limit has ever been hit. -/
structure Parser where
  source : String
  stop : Span
  rest : List Token
  depth : Nat := 0
  tooDeep : Bool := false

namespace Parser

/-- A parser at the start of a text.  Comments of both sorts are passed over. -/
def ofText (source : String) : Parser :=
  let tokens := (tokenize source).without TokenKind.isComment
  { source, stop := tokens.stop, rest := tokens.body }

/-- The token the parser stands before. -/
def current (p : Parser) : Token := p.rest.headD (.eof p.stop)

/-- A step of a parser.  A failed step also leaves a parser behind. -/
abbrev Step (α : Type) := EStateM ParseFailure Parser α

/-! ## Single tokens -/

/-- Fails at the current token. -/
def fail {α : Type} (fault : ParseFault) : Step α :=
  fun p => .error ⟨fault, p.current.span⟩ p

/-- The kind of the current token. -/
def peek : Step TokenKind := fun p => .ok p.current.kind p

/-- The number of tokens still to be read. -/
def remaining : Step Nat := fun p => .ok p.rest.length p

/-- Passes over the current token. -/
def advance : Step Unit := fun p => .ok () { p with rest := p.rest.tail }

/-- Passes over the current token if it is `x`, and says whether it was. -/
def eat (x : Punct) : Step Bool := do
  if (← peek) = .punct x then
    advance
    return true
  else return false

/-- Passes over the current token, which has to be `x`. -/
def expect (x : Punct) : Step Unit := do
  if ← eat x then return ()
  else fail (.expected x (← peek))

/-! ## Levels -/

/-- Fails for depth, and remembers it. -/
def failTooDeep {α : Type} : Step α := fun p => fail .tooDeep { p with tooDeep := true }

/-- Goes one level deeper. -/
def enter : Step Unit := fun p =>
  if p.depth + 1 > maxNesting then failTooDeep p
  else .ok () { p with depth := p.depth + 1 }

/-- Takes a step and comes back to the level it started from, also from a failure. -/
def onLevel {α : Type} (step : Step α) : Step α := fun p =>
  match step p with
  | .ok a q => .ok a { q with depth := p.depth }
  | .error e q => .error e { q with depth := p.depth }

/-! ## Pieces of the grammar

Each takes the reader `inner` of the unions one level deeper, and loops take a bound on their
number of turns: every turn reads a token, so the number of tokens left is enough. -/

/-- Reads `item` behind every further `separator`. -/
def more {α : Type} (separator : Punct) (item : Step α) : Nat → Step (List α)
  | 0 => return []
  | n + 1 => do
    if ← eat separator then
      let a ← item
      return a :: (← more separator item n)
    else return []

/-- Reads the identifiers that follow `name` behind dots. -/
def dotted (name : String) : Nat → Step String
  | 0 => return name
  | n + 1 => do
    if ← eat .dot then
      match ← peek with
      | .ident part =>
        advance
        dotted (name ++ "." ++ part) n
      | _ => fail .nameAfterDot
    else return name

/-- Splits tokens before the first comma outside of brackets.  There is no such comma if a bracket
closes that was not opened. -/
def splitKey? (depth : Nat) : List Token → Option (List Token × List Token)
  | [] => none
  | t :: ts =>
    if depth = 0 && t.isPunct .comma then some ([], t :: ts)
    else if depth = 0 && t.kind.isClose then none
    else (splitKey? (t.kind.nesting depth) ts).map fun (key, rest) => (t :: key, rest)

/-- The text from the first to the last of these tokens, blanks collapsed. -/
def keyText? (source : String) (key : List Token) : Option String :=
  match key.head?, key.getLast? with
  | some first, some last =>
    let text := Text.collapse ((first.span.upTo last.span).text source)
    if text.isEmpty then none else some text
  | _, _ => none

/-- Reads the arguments of a record up to the closing `>`; nothing if there is no key. -/
def recordArguments (inner : Step TypeExpr) : Step (Option (String × TypeExpr)) := do
  let p ← get
  match splitKey? 0 p.rest with
  | none => return none
  | some (key, rest) =>
    match keyText? p.source key with
    | none => return none
    | some text =>
      set { p with rest }
      expect .comma
      let value ← inner
      expect .closeAngle
      return some (text, value)

/-- What follows the `>` that closes `depth` groups, counting only `<` and `>`. -/
def afterAngles? (depth : Nat) : List Token → Option (List Token)
  | [] => none
  | t :: ts =>
    if t.isPunct .openAngle then afterAngles? (depth + 1) ts
    else if t.isPunct .closeAngle then
      if depth ≤ 1 then some ts else afterAngles? (depth - 1) ts
    else afterAngles? depth ts

/-- Passes over a group that starts at the current `<`. -/
def skipAngles : Step Unit := fun p =>
  match afterAngles? 0 p.rest with
  | some rest => .ok () { p with rest }
  | none => fail .openArguments { p with rest := [] }

/-- Reads the arguments of a record from its `<` on.  If they cannot be read, the parser goes back
and passes over them, unless the nesting limit has been hit. -/
def record (inner : Step TypeExpr) : Step TypeExpr := fun p =>
  let widen (q : Parser) : EStateM.Result ParseFailure Parser TypeExpr :=
    (do skipAngles; return .anyRecord : Step TypeExpr) { q with rest := p.rest }
  match (do advance; recordArguments inner : Step (Option (String × TypeExpr))) p with
  | .ok (some (key, value)) q => .ok (.record key value) q
  | .ok none q => widen q
  | .error e q => if q.tooDeep then .error e q else widen q

/-- Reads the arguments of any other generic from its `<` on. -/
def arguments (inner : Step TypeExpr) : Step (List TypeExpr) := do
  advance
  let first ← inner
  let others ← more .comma inner (← remaining)
  expect .closeAngle
  return first :: others

/-- A name with arguments.  An array has exactly one. -/
def applied (name : String) (args : List TypeExpr) : TypeExpr :=
  match args with
  | [element] => if name = "Array" then .array element else .generic name args
  | _ => .generic name args

/-- A name without arguments: a keyword or a reference. -/
def plain (name : String) : TypeExpr :=
  match Primitive.ofKeyword? name with
  | some p => .primitive p
  | none => .reference name

/-- Reads what follows the first identifier of a name. -/
def named (inner : Step TypeExpr) (first : String) : Step TypeExpr := do
  let name ← dotted first (← remaining)
  if (← peek) = .punct .openAngle then
    if name = "Record" then record inner
    else return applied name (← arguments inner)
  else return plain name

/-- Reads a group, a string or a name. -/
def primary (inner : Step TypeExpr) : Step TypeExpr := do
  match ← peek with
  | .punct .openParen =>
    advance
    let e ← inner
    expect .closeParen
    return e
  | .str value quote =>
    advance
    return .literal ⟨value, quote⟩
  | .ident name =>
    advance
    named inner name
  | .eof => fail .unexpectedEnd
  | .error fault => fail (.unclosed fault)
  | found => fail (.unsupported found)

/-- Reads the suffixes of `e`, each a level deeper. -/
def suffixes (e : TypeExpr) : Nat → Step TypeExpr
  | 0 => return e
  | n + 1 => do
    if ← eat .openBracket then
      expect .closeBracket
      enter
      suffixes (.array e) n
    else return e

/-- Reads a primary and its suffixes. -/
def suffixed (inner : Step TypeExpr) : Step TypeExpr := do
  let e ← primary inner
  onLevel do suffixes e (← remaining)

/-- Reads the branches of a union; a single one stands for itself. -/
def branches (inner : Step TypeExpr) : Step TypeExpr := do
  let _ ← eat .pipe
  let first ← suffixed inner
  match ← more .pipe (suffixed inner) (← remaining) with
  | [] => return first
  | others => return .union (first :: others)

/-- Reads a union that has `levels` levels left below its surroundings. -/
def union : Nat → Step TypeExpr
  | 0 => failTooDeep
  | levels + 1 => onLevel do
    enter
    branches (union levels)

/-- Reads a whole type expression. -/
def typeExpr : Step TypeExpr := do
  let e ← union maxNesting
  let e := if ← eat .question then .optional e else e
  match ← peek with
  | .eof => return e
  | found => fail (.trailing found)

/-! ## Whole texts -/

/-- The error that a failure is in a text. -/
def errorOf (source : String) (failure : ParseFailure) : Error :=
  { cause := .parse failure.fault.message failure.span.line failure.span.column
      (failure.span.sourceLine source) }

/-- Reads a type expression up to the end of the text, and leaves the parser where it stopped. -/
def run (p : Parser) : Except Error TypeExpr × Parser :=
  match typeExpr p with
  | .ok e q => (.ok e, q)
  | .error failure q => (.error (errorOf p.source failure), q)

end Parser

/-- Reads a text that is one type expression. -/
def TypeExpr.parse (source : String) : Except Error TypeExpr := (Parser.ofText source).run.1

end TypeSchema
