import TypeSchema.Proofs.Registry.Indexed
import TypeSchema.TypeExpr.Parser

/-!
# Reading type expressions by index

The readers of type expressions, over one list of tokens that ends with the end of input: the place of a parser is the
index of its current token, and the levels are a number that is counted up and down.  A token that is not there and a
number below zero give `none`, and so does a loop or a nesting of unions that goes on for more turns than it is given.

A machine also keeps what has happened to it: every place it has been at, and every call of a reader with the place
before and behind it (`Machine.passed`, `Machine.calls`).
-/

namespace TypeSchema

namespace Parser

namespace Indexed

open Extract.Indexed (minus?)

/-! ## Machines -/

/-- Where a parser stands: the index of the current token, the level, and whether the nesting limit has ever been
hit. -/
structure Place where
  pos : Nat
  depth : Nat
  tooDeep : Bool
  deriving DecidableEq, Repr

/-- The readers that call each other. -/
inductive Reader where
  | union
  | suffixed
  | primary
  | named
  | generic
  | recordArguments
  deriving DecidableEq, Repr

/-- A call of a reader that has come to its end. -/
structure Call where
  reader : Reader
  entry : Place
  exit : Place
  /-- Whether the reader has succeeded. -/
  ok : Bool
  /-- Where the union starts in which the call is made, if it is made in one. -/
  around : Option Nat
  deriving DecidableEq, Repr

/-- A parser by index, and what has happened to it. -/
structure Machine where
  place : Place
  /-- Where the innermost union starts that is being read. -/
  around : Option Nat := none
  passed : List Place := [place]
  calls : List Call := []

namespace Machine

/-- The machine at another place. -/
def goTo (m : Machine) (place : Place) : Machine := { m with place, passed := place :: m.passed }

/-- The machine some levels further up. -/
def leave (m : Machine) (levels : Nat) : Option Machine := do
  let depth ← minus? m.place.depth levels
  some (m.goTo { m.place with depth })

/-- The machine inside of a call. -/
def opened (m : Machine) (reader : Reader) : Machine :=
  if reader = .union then { m with around := some m.place.pos } else m

/-- The machine behind a call that was made by `m`. -/
def closed (n : Machine) (m : Machine) (reader : Reader) (ok : Bool) : Machine :=
  { n with around := m.around, calls := ⟨reader, m.place, n.place, ok, m.around⟩ :: n.calls }

end Machine

/-- A step of a machine. -/
abbrev Walk (α : Type) := ExceptT ParseFailure (StateT Machine Option) α

/-- No step. -/
def stuck {α : Type} : Walk α := fun _ => none

/-- Calls a reader, and keeps the call in mind. -/
def call {α : Type} (reader : Reader) (body : Walk α) : Walk α := fun m => do
  let (r, n) ← body (m.opened reader)
  some (r, n.closed m reader r.isOk)

section

variable (source : String) (ts : List Token)

/-! ## Single tokens -/

/-- The current token. -/
def current : Walk Token := fun m => do
  let last ← minus? ts.length 1
  let t ← ts[min m.place.pos last]?
  some (.ok t, m)

/-- Fails at the current token. -/
def fail {α : Type} (fault : ParseFault) : Walk α := do
  let t ← current ts
  throw ⟨fault, t.span⟩

/-- Passes over the current token, unless it is the last one. -/
def advance : Walk Unit := fun m =>
  some (.ok (), if m.place.pos + 1 < ts.length then m.goTo { m.place with pos := m.place.pos + 1 } else m)

/-- Passes over the current token if it is `x`, and says whether it was. -/
def eat (x : Punct) : Walk Bool := do
  let t ← current ts
  if t.kind = .punct x then
    advance ts
    return true
  else return false

/-- Passes over the current token, which has to be `x`. -/
def expect (x : Punct) : Walk Unit := do
  if ← eat ts x then return ()
  else
    let t ← current ts
    fail ts (.expected x t.kind)

/-- Goes one level deeper, within the limit. -/
def enter : Walk Unit := fun m =>
  if m.place.depth + 1 > maxNesting then fail ts .tooDeep (m.goTo { m.place with tooDeep := true })
  else some (.ok (), m.goTo { m.place with depth := m.place.depth + 1 })

/-! ## Loops -/

/-- Reads `item` behind every further `separator`. -/
def more {α : Type} (separator : Punct) (item : Walk α) : Nat → Walk (List α)
  | 0 => stuck
  | turns + 1 => do
    if ← eat ts separator then
      let a ← item
      return a :: (← more separator item turns)
    else return []

/-- Reads the identifiers that follow `name` behind dots. -/
def dotted (name : String) : Nat → Walk String
  | 0 => stuck
  | turns + 1 => do
    if ← eat ts .dot then
      let t ← current ts
      match t.kind with
      | .ident part =>
        advance ts
        dotted (name ++ "." ++ part) turns
      | _ => fail ts .nameAfterDot
    else return name

/-- Reads a suffix, a level deeper, and says whether there was one. -/
def suffix : Walk Bool := do
  if ← eat ts .openBracket then
    expect ts .closeBracket
    enter ts
    return true
  else return false

/-- Reads the suffixes of `e`, and counts them on from `count`. -/
def suffixes (e : TypeExpr) (count : Nat) : Nat → StateT Machine Option (Except ParseFailure TypeExpr × Nat)
  | 0, _ => none
  | turns + 1, m => do
    let (r, n) ← suffix ts m
    match r with
    | .ok true => suffixes (.array e) (count + 1) turns n
    | .ok false => some ((.ok e, count), n)
    | .error failure => some ((.error failure, count), n)

/-- Where the key ends that ends at `stop` so far, with `depth` brackets open: at the first comma outside of brackets,
unless a bracket closes before it that was not opened. -/
def keyEnd (depth stop : Nat) : Nat → Walk (Option Nat)
  | 0 => stuck
  | turns + 1 => do
    let t ← current ts
    if t.kind = .punct .comma ∧ depth = 0 then return some stop
    else if t.kind = .eof then return none
    else if t.kind.isOpen then
      advance ts
      keyEnd (depth + 1) t.span.stop turns
    else if t.kind.isClose then
      if depth = 0 then return none
      else
        let depth ← (fun m => (minus? depth 1).map fun depth => (.ok depth, m) : Walk Nat)
        advance ts
        keyEnd depth t.span.stop turns
    else
      advance ts
      keyEnd depth t.span.stop turns

/-- The text between two offsets, blanks collapsed, if there is any. -/
def keyText? (start stop : Nat) : Option String := do
  let cs ← Text.slice? start stop source.toList
  let text := Text.collapse (String.ofList cs)
  if text.isEmpty then none else some text

/-- Reads the key of a record as text. -/
def key (turns : Nat) : Walk (Option String) := do
  let first ← current ts
  let stop? ← keyEnd ts 0 first.span.start turns
  return stop?.bind (keyText? source first.span.start)

/-- Passes over a group that starts at the current `<`, with `depth` groups open. -/
def skipAngles (depth : Nat) : Nat → Walk Unit
  | 0 => stuck
  | turns + 1 => do
    let t ← current ts
    if t.kind = .punct .openAngle then
      advance ts
      skipAngles (depth + 1) turns
    else if t.kind = .punct .closeAngle then
      advance ts
      if depth - 1 = 0 then return () else skipAngles (depth - 1) turns
    else if t.kind = .eof then fail ts .openArguments
    else
      advance ts
      skipAngles depth turns

/-! ## Readers

Each takes the reader `inner` of the unions inside, and the number of turns that a loop may take. -/

section

variable (turns : Nat) (inner : Walk TypeExpr)

/-- Reads the arguments of a record up to the closing `>`; nothing if there is no key. -/
def recordArguments : Walk (Option (String × TypeExpr)) := call .recordArguments do
  match ← key source ts turns with
  | none => return none
  | some text =>
    expect ts .comma
    let value ← inner
    expect ts .closeAngle
    return some (text, value)

/-- Reads the arguments of a name from the `<` on.  If those of a record cannot be read, they are passed over, unless
the nesting limit has been hit. -/
def generic (name : String) : Walk TypeExpr := fun m => call .generic (do
  advance ts
  if name = "Record" then
    fun n => do
      let (r, n) ← recordArguments source ts turns inner n
      let widened := (do skipAngles ts 0 turns; return .anyRecord : Walk TypeExpr)
        (n.goTo { n.place with pos := m.place.pos })
      match r with
      | .ok (some (key, value)) => some (.ok (.record key value), n)
      | .ok none => widened
      | .error failure => if n.place.tooDeep then some (.error failure, n) else widened
  else
    let first ← inner
    let others ← more ts .comma inner turns
    expect ts .closeAngle
    return applied name (first :: others)) m

/-- Reads what follows the first identifier of a name. -/
def named (first : String) : Walk TypeExpr := call .named do
  let name ← dotted ts first turns
  let t ← current ts
  if t.kind = .punct .openAngle then generic source ts turns inner name else return plain name

/-- Reads a group, a string or a name. -/
def primary : Walk TypeExpr := call .primary do
  let t ← current ts
  match t.kind with
  | .punct .openParen =>
    advance ts
    let e ← inner
    expect ts .closeParen
    return e
  | .str value quote =>
    advance ts
    return .literal ⟨value, quote⟩
  | .ident name =>
    advance ts
    named source ts turns inner name
  | .eof => fail ts .unexpectedEnd
  | .error fault => fail ts (.unclosed fault)
  | found => fail ts (.unsupported found)

/-- Reads a primary and its suffixes. -/
def suffixed : Walk TypeExpr := call .suffixed do
  let e ← primary source ts turns inner
  fun n => do
    let ((r, count), n) ← suffixes ts e 0 turns n
    let n ← n.leave count
    some (r, n)

/-- Reads the branches of a union; a single one stands for itself. -/
def branches : Walk TypeExpr := do
  let _ ← eat ts .pipe
  let first ← suffixed source ts turns inner
  let t ← current ts
  if t.kind = .punct .pipe then
    let others ← more ts .pipe (suffixed source ts turns inner) turns
    return .union (first :: others)
  else return first

end

/-- Reads a union that may have `nested` others around one another inside. -/
def union (turns : Nat) : Nat → Walk TypeExpr
  | 0 => stuck
  | nested + 1 => call .union do
    enter ts
    fun n => do
      let (r, n) ← branches source ts turns (union turns nested) n
      let n ← n.leave 1
      some (r, n)

/-! ## Whole texts -/

/-- The tokens of a text that a parser reads, with the end of input as the last one. -/
def tokens : List Token := ((tokenize source).without TokenKind.isComment).toList

/-- The index of the end of input. -/
def eofIndex : Nat := ((tokenize source).without TokenKind.isComment).body.length

/-- Reads a whole type expression. -/
def typeExpr (turns : Nat) : Walk TypeExpr := do
  let e ← union source ts turns turns
  let e := if ← eat ts .question then .optional e else e
  let t ← current ts
  if t.kind = .eof then return e else fail ts (.trailing t.kind)

/-- What a machine gives that is asked for a type expression again and again, and where it then stands. -/
def runs (turns : Nat) : Nat → Machine → Option (List (Except Error TypeExpr × Place) × Machine)
  | 0, m => some ([], m)
  | n + 1, m => do
    let (r, m) ← typeExpr source ts turns m
    let (rs, last) ← runs turns n m
    some ((r.mapError (errorOf source), m.place) :: rs, last)

end

end Indexed

end Parser

end TypeSchema
