import TypeSchema.Text.Bytes
import TypeSchema.Text.Lines

/-!
# Positions and spans

A position counts bytes from the start of a text, and the line and column it falls on, both from
one.  A span is a byte range together with the line and column of its start.
-/

namespace TypeSchema

/-- A place in a text. -/
structure Position where
  offset : Nat
  line : Nat
  column : Nat
  deriving DecidableEq, Repr

namespace Position

/-- The position before the first character of a text. -/
def origin : Position := ⟨0, 1, 1⟩

/-- The position after `c`, for the position `p` before it. -/
def next (p : Position) (c : Char) : Position :=
  if c = '\n' then ⟨p.offset + c.utf8Size, p.line + 1, 1⟩
  else ⟨p.offset + c.utf8Size, p.line, p.column + 1⟩

/-- The position after all of `cs`, for the position `p` before it. -/
def advance (p : Position) (cs : List Char) : Position := cs.foldl next p

@[simp] theorem advance_nil (p : Position) : p.advance [] = p := rfl

@[simp] theorem advance_cons (p : Position) (c : Char) (cs : List Char) :
    p.advance (c :: cs) = (p.next c).advance cs := rfl

theorem advance_append (p : Position) (cs ds : List Char) :
    p.advance (cs ++ ds) = (p.advance cs).advance ds := by
  simp [advance]

@[simp] theorem offset_next (p : Position) (c : Char) :
    (p.next c).offset = p.offset + c.utf8Size := by
  unfold next; split <;> rfl

theorem offset_advance (p : Position) (cs : List Char) :
    (p.advance cs).offset = p.offset + Text.byteLength cs := by
  induction cs generalizing p with
  | nil => simp
  | cons c cs ih => simp [ih, Nat.add_assoc]

end Position

/-- A byte range of a text, with the line and column of its start. -/
structure Span where
  start : Nat := 0
  stop : Nat := 0
  line : Nat := 0
  column : Nat := 0
  deriving DecidableEq, Repr, Inhabited

namespace Span

/-- The span from one position to another. -/
def between (p q : Position) : Span := ⟨p.offset, q.offset, p.line, p.column⟩

/-- The empty span at a position. -/
def point (p : Position) : Span := between p p

/-- The span from the start of `s` to the end of `t`. -/
def upTo (s t : Span) : Span := { s with stop := t.stop }

/-- The number of bytes covered; a reversed span covers none. -/
def length (s : Span) : Nat := s.stop - s.start

/-- Whether the span covers nothing. -/
def isEmpty (s : Span) : Bool := s.length == 0

/-- The covered text, or nothing if the span does not lie between characters of `source`. -/
def text (s : Span) (source : String) : String :=
  match Text.slice? s.start s.stop source.toList with
  | some cs => String.ofList cs
  | none => ""

/-- The whole line on which the span starts. -/
def sourceLine (s : Span) (source : String) : String :=
  match (Text.lines source.toList)[s.line - 1]? with
  | some cs => String.ofList cs
  | none => ""

/-- A span is shown as the line and column of its start. -/
def render (s : Span) : String := s!"{s.line}:{s.column}"

end Span

end TypeSchema
