/-!
# Errors

What can go wrong for good: a type expression that is not one, references in a circle, and a type
without a validator where none is allowed.  Everything else is converted, at worst with a warning.
-/

namespace TypeSchema

/-- The cause of an error. -/
inductive Cause where
  /-- The text at this place is not a type expression; the whole line is kept for display. -/
  | parse (message : String) (line column : Nat) (sourceLine : String)
  /-- These declarations refer to each other in a circle; the first name comes last again. -/
  | cyclic (cycle : List String)
  /-- The expression in this declaration has no validator. -/
  | unresolved (declaration expression : String)
  deriving DecidableEq, Repr

/-- The text of a cause. -/
def Cause.message : Cause → String
  | parse message line column _ => s!"parse error at {line}:{column}: {message}"
  | cyclic cycle => "unsupported cyclic reference: " ++ " -> ".intercalate cycle
  | unresolved declaration expression => s!"unresolved type `{expression}` in {declaration}"

/-- Where an error arose: the input, the declaration, and the line and column in the input. -/
structure ErrorContext where
  source : Option String := none
  declaration : Option String := none
  position : Option (Nat × Nat) := none
  deriving DecidableEq, Repr

/-- The text of a context.  A position is only shown behind the input it belongs to. -/
def ErrorContext.render (c : ErrorContext) : String :=
  let source :=
    match c.source, c.position with
    | some source, some (line, column) => s!"at {source}:{line}:{column}"
    | some source, none => s!"at {source}"
    | none, _ => ""
  let gap := if c.source.isSome && c.declaration.isSome then " " else ""
  let declaration :=
    match c.declaration with
    | some declaration => s!"in {declaration}"
    | none => ""
  source ++ gap ++ declaration

/-- A cause with what is known about its place. -/
structure Error where
  cause : Cause
  context : Option ErrorContext := none
  deriving DecidableEq, Repr

namespace Error

/-- The text of an error is that of its cause. -/
def message (e : Error) : String := e.cause.message

/-- Whether a type expression could not be read. -/
def isParse (e : Error) : Bool :=
  match e.cause with
  | .parse .. => true
  | _ => false

/-- The error with this context in place of any other. -/
def withContext (e : Error) (c : ErrorContext) : Error := { e with context := some c }

/-- The error with the name of the input; the rest of its context stays. -/
def inSource (e : Error) (source : String) : Error :=
  e.withContext { e.context.getD {} with source := some source }

end Error

end TypeSchema
