import TypeSchema.Config

/-!
# The command line

Options take a value, as `--name value`, `--name=value`, `-n value`, `-nvalue` or `-n=value`; flags
take none, and short ones can be combined.  A value that stands in an argument of its own is only
checked when the next option or the end is met, so an unknown argument in between is reported first.
-/

namespace TypeSchema

/-- Where the source comes from. -/
inductive SourceInput where
  | file (path : String)
  | text (source : String)
  deriving DecidableEq, Repr

/-- What the command line asks for. -/
structure Invocation where
  input : SourceInput
  output : Option String := none
  config : Option String := none
  order : Option EmitOrder := none
  strict : Bool := false
  noBanner : Bool := false
  dumpRegistry : Bool := false
  verbosity : Nat := 0
  deriving DecidableEq, Repr

/-- Why a command line is not carried out. -/
inductive UsageError where
  | helpRequested
  | versionRequested
  | unknownArgument
  | invalidValue
  | tooManyValues
  | conflict
  | missingSource
  deriving DecidableEq, Repr

namespace CommandLine

/-- Options with a value. -/
inductive ValueOption where
  | input
  | inputString
  | output
  | order
  | config
  deriving DecidableEq, Repr

/-- Options without a value. -/
inductive Flag where
  | strict
  | noBanner
  | dumpRegistry
  | verbose
  | help
  | version
  deriving DecidableEq, Repr

/-- What can be given by name. -/
inductive Parameter where
  | value (option : ValueOption)
  | flag (flag : Flag)
  deriving DecidableEq, Repr

/-- The parameter with a long name. -/
def Parameter.ofLong? : String → Option Parameter
  | "input" => some (.value .input)
  | "input-string" => some (.value .inputString)
  | "output" => some (.value .output)
  | "order" => some (.value .order)
  | "config" => some (.value .config)
  | "strict" => some (.flag .strict)
  | "no-banner" => some (.flag .noBanner)
  | "dump-registry" => some (.flag .dumpRegistry)
  | "verbose" => some (.flag .verbose)
  | "help" => some (.flag .help)
  | "version" => some (.flag .version)
  | _ => none

/-- The parameter with a short name. -/
def Parameter.ofShort? : Char → Option Parameter
  | 'i' => some (.value .input)
  | 'o' => some (.value .output)
  | 'v' => some (.flag .verbose)
  | 'h' => some (.flag .help)
  | 'V' => some (.flag .version)
  | _ => none

/-- What has been given so far. -/
structure Given where
  input : Option String := none
  inputString : Option String := none
  output : Option String := none
  config : Option String := none
  order : Option EmitOrder := none
  strict : Bool := false
  noBanner : Bool := false
  dumpRegistry : Bool := false
  verbosity : Nat := 0
  deriving DecidableEq, Repr

/-- A value that has to be new and must not be empty. -/
def setPath (old : Option String) (path : String) : Except UsageError (Option String) :=
  if old.isSome then .error .conflict
  else if path.isEmpty then .error .invalidValue
  else .ok (some path)

/-- Takes over the value of an option.  That it was given before is noticed before its value is
checked. -/
def Given.assign (g : Given) (o : ValueOption) (value : String) : Except UsageError Given :=
  match o with
  | .input => (setPath g.input value).map fun input => { g with input }
  | .output => (setPath g.output value).map fun output => { g with output }
  | .config => (setPath g.config value).map fun config => { g with config }
  | .inputString =>
    if g.inputString.isSome then .error .conflict
    else .ok { g with inputString := some value }
  | .order =>
    if g.order.isSome then .error .conflict
    else
      match EmitOrder.ofText? value with
      | some order => .ok { g with order := some order }
      | none => .error .invalidValue

/-- Takes over a flag.  Only verbosity may be given repeatedly. -/
def Given.raise (g : Given) : Flag → Except UsageError Given
  | .strict => if g.strict then .error .conflict else .ok { g with strict := true }
  | .noBanner => if g.noBanner then .error .conflict else .ok { g with noBanner := true }
  | .dumpRegistry =>
    if g.dumpRegistry then .error .conflict else .ok { g with dumpRegistry := true }
  | .verbose => .ok { g with verbosity := g.verbosity + 1 }
  | .help => .error .helpRequested
  | .version => .error .versionRequested

/-- What has been given, the option whose value is still open or unchecked, and whether options have
ended. -/
structure State where
  given : Given := {}
  pending : Option (ValueOption × Option String) := none
  ended : Bool := false

/-- Checks the value of the pending option. -/
def State.settle (s : State) : Except UsageError State :=
  match s.pending with
  | none => .ok s
  | some (_, none) => .error .invalidValue
  | some (o, some value) =>
    (s.given.assign o value).map fun given => { s with given, pending := none }

/-- Takes over an option together with its value. -/
def State.assign (s : State) (o : ValueOption) (value : String) : Except UsageError State := do
  let s ← s.settle
  return { s with given := ← s.given.assign o value }

/-- Takes over an option whose value is still to come. -/
def State.await (s : State) (o : ValueOption) : Except UsageError State := do
  let s ← s.settle
  return { s with pending := some (o, none) }

/-- Takes over a flag. -/
def State.raise (s : State) (f : Flag) : Except UsageError State := do
  let s ← s.settle
  return { s with given := ← s.given.raise f }

/-- Splits at the first equals sign. -/
def splitEquals (cs : List Char) : List Char × Option (List Char) :=
  match cs.dropWhile (· ≠ '=') with
  | [] => (cs, none)
  | _ :: value => (cs.takeWhile (· ≠ '='), some value)

/-- Reads an argument behind its two dashes. -/
def long (s : State) (cs : List Char) : Except UsageError State :=
  let (name, value) := splitEquals cs
  match Parameter.ofLong? (String.ofList name), value with
  | none, _ => .error .unknownArgument
  | some (.value o), some value => s.assign o (String.ofList value)
  | some (.value o), none => s.await o
  | some (.flag _), some _ => .error .tooManyValues
  | some (.flag f), none => s.raise f

/-- Reads an argument behind its single dash: flags, up to an option that takes what is left. -/
def short (s : State) : List Char → Except UsageError State
  | [] => .ok s
  | c :: cs =>
    match Parameter.ofShort? c with
    | none => .error .unknownArgument
    | some (.flag f) => do short (← s.raise f) cs
    | some (.value o) =>
      match cs with
      | [] => s.await o
      | '=' :: value => s.assign o (String.ofList value)
      | value => s.assign o (String.ofList value)

/-- Reads an argument without dashes: the value of the option before it. -/
def operand (s : State) (arg : String) : Except UsageError State :=
  match s.pending with
  | some (o, none) => .ok { s with pending := some (o, some arg) }
  | _ => .error .unknownArgument

/-- Reads one argument. -/
def argument (s : State) (arg : String) : Except UsageError State :=
  if s.ended then .error .unknownArgument
  else
    match arg.toList with
    | ['-', '-'] => .ok { s with ended := true }
    | '-' :: '-' :: cs => long s cs
    | '-' :: c :: cs => short s (c :: cs)
    | _ => operand s arg

/-- What is asked for by what has been given: exactly one source is needed. -/
def Given.invocation (g : Given) : Except UsageError Invocation :=
  let invocation (input : SourceInput) : Invocation :=
    { input, output := g.output, config := g.config, order := g.order, strict := g.strict,
      noBanner := g.noBanner, dumpRegistry := g.dumpRegistry, verbosity := g.verbosity }
  match g.input, g.inputString with
  | some _, some _ => .error .conflict
  | some path, none => .ok (invocation (.file path))
  | none, some source => .ok (invocation (.text source))
  | none, none => .error .missingSource

/-- Reads the arguments behind the name of the program. -/
def parse (args : List String) : Except UsageError Invocation := do
  let s ← args.foldlM argument ({} : State)
  let s ← s.settle
  s.given.invocation

end CommandLine

namespace Invocation

/-- The name of the log level. -/
def logLevel (i : Invocation) : String :=
  match i.verbosity with
  | 0 => "warn"
  | 1 => "info"
  | _ => "debug"

/-- Settings with the flags of the command line on top. -/
def adjust (i : Invocation) (c : Config) : Config :=
  { c with
    order := i.order.getD c.order
    unresolved := if i.strict then .strict else c.unresolved
    banner := if i.noBanner then none else c.banner }

end Invocation

end TypeSchema
