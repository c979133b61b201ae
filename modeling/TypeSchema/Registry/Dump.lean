import TypeSchema.Json
import TypeSchema.Registry

/-!
# The registry as JSON
-/

namespace TypeSchema

/-- A span as JSON. -/
def Span.toJson (s : Span) : Json :=
  .object [("start", .ofNat s.start), ("end", .ofNat s.stop), ("line", .ofNat s.line),
    ("column", .ofNat s.column)]

/-- Names and texts as JSON. -/
def Json.ofStrings (l : List String) : Json := .array (l.map .string)

/-- A member of an interface as JSON. -/
def Field.toJson (f : Field) : Json :=
  .object [("name", .string f.name), ("type_text", .string f.type), ("optional", .bool f.optional),
    ("description", (f.description.map Json.string).getD .null), ("span", f.span.toJson)]

/-- An interface as JSON. -/
def Interface.toJson (i : Interface) : Json :=
  .object [("name", .string i.name), ("extends", .ofStrings i.bases),
    ("fields", .array (i.fields.map Field.toJson)), ("span", i.span.toJson)]

/-- An alias as JSON. -/
def Alias.toJson (a : Alias) : Json :=
  .object [("name", .string a.name), ("type_text", .string a.type), ("span", a.span.toJson)]

/-- An enum as JSON. -/
def Enumeration.toJson (e : Enumeration) : Json :=
  .object [("name", .string e.name), ("values", .ofStrings e.values), ("span", e.span.toJson)]

/-- A warning as JSON. -/
def Diagnostic.toJson (d : Diagnostic) : Json :=
  .object [("span", d.span.toJson), ("message", .string d.message)]

/-- A registry as JSON: its tables in order, and its warnings. -/
def Registry.toJson (r : Registry) : Json :=
  .object [("shapes", .array (r.interfaces.entries.map Interface.toJson)),
    ("aliases", .array (r.aliases.entries.map Alias.toJson)),
    ("enums", .array (r.enums.entries.map Enumeration.toJson)),
    ("diagnostics", .array (r.diagnostics.map Diagnostic.toJson))]

end TypeSchema
