import TypeSchema.CommandLine
import TypeSchema.FileTree
import TypeSchema.Json.Printer
import TypeSchema.Program.Compile
import TypeSchema.Registry.Dump

/-!
# Carrying out an invocation

A run reads its source, compiles it, and either gives back the generated file or writes it to the
output path and gives back a line that says so.  With `--dump-registry` it gives back the
declarations found, and neither the settings nor the output path matter.  What a run gives back is
printed at its end, so one that fails prints nothing.
-/

namespace TypeSchema

/-- Why a run fails. -/
inductive RunError where
  | inputNotFound (path : String)
  | inputUnreadable (path : String)
  | configUnreadable (path : String)
  | configInvalid (path : String)
  | compilation (error : Error)
  | folderNotCreated (path : String)
  | outputNotWritten (path : String)
  deriving DecidableEq, Repr

namespace RunError

/-- The outermost text of an error.  A compilation that failed is shown by its place. -/
def message : RunError → String
  | inputNotFound path => s!"input file not found: {path}"
  | inputUnreadable path => s!"failed to read {path}"
  | configUnreadable path => s!"failed to read config file {path}"
  | configInvalid path => s!"invalid config file {path}"
  | compilation e => (e.context.map ErrorContext.render).getD e.message
  | folderNotCreated path => s!"failed to create {path}"
  | outputNotWritten path => s!"failed to write {path}"

/-- The error behind an error. -/
def cause? : RunError → Option Error
  | compilation e => some e
  | _ => none

end RunError

namespace Invocation

section

variable {m : Type → Type} [Monad m] [FileStore m]

/-- The source, and its name in messages. -/
def readSource (i : Invocation) : ExceptT RunError m (String × String) := do
  match i.input with
  | .text source => return (source, "<input-string>")
  | .file path =>
    if !(← (FileStore.isPresent path : m Bool)) then throw (.inputNotFound path)
    match ← (FileStore.readText? path : m (Option String)) with
    | some source => return (source, path)
    | none => throw (.inputUnreadable path)

/-- The settings: those of the settings file or the defaults, with the flags on top. -/
def settings (i : Invocation) : ExceptT RunError m Config := do
  match i.config with
  | none => return i.adjust {}
  | some path =>
    match ← (FileStore.readText? path : m (Option String)) with
    | none => throw (.configUnreadable path)
    | some text =>
      match Config.ofText? text with
      | none => throw (.configInvalid path)
      | some c => return i.adjust c

/-- Writes the generated file, after creating the folder for it. -/
def writeOutput (path code : String) : ExceptT RunError m Unit := do
  let folder := Path.parent path
  if !folder.isEmpty then
    if !(← (FileStore.makeFolder folder : m Bool)) then throw (.folderNotCreated folder)
  if !(← (FileStore.writeText path code : m Bool)) then throw (.outputNotWritten path)

/-- Gives back the generated file, or writes it to the output path and gives back a line that
says so. -/
def deliver (i : Invocation) (code : String) : ExceptT RunError m String := do
  match i.output with
  | none => return code
  | some path =>
    writeOutput path code
    return "Generated Zod schemas written to: " ++ path ++ "\n"

/-- Carries out an invocation, and gives back what it prints. -/
def run (i : Invocation) : ExceptT RunError m String := do
  let (source, name) ← i.readSource
  if i.dumpRegistry then return (Registry.extract source).toJson.render ++ "\n"
  let c ← i.settings
  match Program.compileFile c source with
  | .error e => throw (.compilation (e.inSource name))
  | .ok code => i.deliver code

end

end Invocation

/-- A place where texts are shown. -/
class Console (m : Type → Type) where
  print : String → m Unit

/-- Carries out an invocation, and prints what it gives back. -/
def Invocation.perform {m : Type → Type} [Monad m] [FileStore m] [Console m] (i : Invocation) :
    ExceptT RunError m Unit := do
  let text ← i.run
  (Console.print text : m Unit)

/-- Stored files, and the text that has been printed. -/
structure Session (σ : Type) where
  files : σ
  printed : String := ""

namespace Session

variable {σ : Type}

/-- What is done with the files of a session. -/
def onFiles {α : Type} (action : StateM σ α) : StateM (Session σ) α := fun s =>
  let (a, files) := action s.files
  (a, { s with files })

instance [FileStore (StateM σ)] : FileStore (StateM (Session σ)) where
  isPresent path := onFiles (FileStore.isPresent path)
  readText? path := onFiles (FileStore.readText? path)
  makeFolder path := onFiles (FileStore.makeFolder path)
  writeText path text := onFiles (FileStore.writeText path text)

instance : Console (StateM (Session σ)) where
  print text := modify fun s => { s with printed := s.printed ++ text }

end Session

end TypeSchema
