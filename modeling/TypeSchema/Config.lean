import TypeSchema.Json.Reader

/-!
# Settings

How the generated file looks, in which order schemas are written, and what happens to types without
a validator.

Settings can be read from a JSON object: fields that are missing keep their defaults, unknown ones
are ignored, and a known one may stand there only once and with the right type.  They can also be
read from an array of the first few values in the order of `keys`.
-/

namespace TypeSchema

/-- The order in which schemas are written. -/
inductive EmitOrder where
  /-- Enums, then aliases, then interfaces, each in the order of the source. -/
  | fixed
  /-- Every schema behind those it refers to. -/
  | topological
  deriving DecidableEq, Repr

namespace EmitOrder

/-- The name of an order. -/
def text : EmitOrder → String
  | fixed => "fixed"
  | topological => "topological"

/-- The order with this name. -/
def ofText? (s : String) : Option EmitOrder := [fixed, topological].find? fun o => o.text == s

end EmitOrder

/-- What happens to types without a validator. -/
inductive UnresolvedPolicy where
  /-- They let anything pass. -/
  | lenient
  /-- They are an error. -/
  | strict
  deriving DecidableEq, Repr

namespace UnresolvedPolicy

/-- The name of a policy. -/
def text : UnresolvedPolicy → String
  | lenient => "lenient"
  | strict => "strict"

/-- The policy with this name. -/
def ofText? (s : String) : Option UnresolvedPolicy := [lenient, strict].find? fun p => p.text == s

end UnresolvedPolicy

/-- Settings of a compilation. -/
structure Config where
  /-- The first line of the file. -/
  importLine : String := "import \x7b z \x7d from 'zod';"
  /-- The comment below the first line. -/
  banner : Option String := some "// Auto-generated Zod schemas"
  /-- Whether schemas and types are exported. -/
  exported : Bool := true
  order : EmitOrder := .fixed
  unresolved : UnresolvedPolicy := .lenient
  deriving DecidableEq, Repr

namespace Config

/-- Order by dependency, and no type without a validator. -/
def strict : Config := { order := .topological, unresolved := .strict }

/-- No banner. -/
def minimal : Config := { banner := none }

/-- The keys of settings in a JSON object, in the order in which an array holds their values. -/
def keys : List String := ["import_line", "banner", "export", "order", "unresolved"]

/-- The name of a choice: a string, or an object with the name as its only key and no value. -/
def choice? : Json → Option String
  | .string name => some name
  | .object [(name, .null)] => some name
  | _ => none

/-- The settings with the value under one key taken over. -/
def set? (c : Config) (key : String) (v : Json) : Option Config :=
  match key, v with
  | "import_line", .string s => some { c with importLine := s }
  | "banner", .null => some { c with banner := none }
  | "banner", .string s => some { c with banner := some s }
  | "export", .bool b => some { c with exported := b }
  | "order", v => ((choice? v).bind EmitOrder.ofText?).map fun order => { c with order }
  | "unresolved", v =>
    ((choice? v).bind UnresolvedPolicy.ofText?).map fun unresolved => { c with unresolved }
  | key, _ => if keys.contains key then none else some c

/-- The settings with the values of members taken over, one after the other. -/
def setAll? (c : Config) (members : List (String × Json)) : Option Config :=
  members.foldlM (fun c m => c.set? m.1 m.2) c

/-- The settings that a JSON value holds. -/
def ofJson? : Json → Option Config
  | .object members =>
    if (keys.all fun key => members.countP (fun m => m.1 == key) ≤ 1) then
      ({} : Config).setAll? members
    else none
  | .array values =>
    if values.length ≤ keys.length then ({} : Config).setAll? (keys.zip values) else none
  | _ => none

/-- The settings that a JSON text holds. -/
def ofText? (text : String) : Option Config := (Json.parseWanted? keys.contains text).bind ofJson?

end Config

end TypeSchema
