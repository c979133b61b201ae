import TypeSchema.Config
import TypeSchema.Declaration
import TypeSchema.Validator.Render

/-!
# Programs

A program is what a source is compiled to: schemas in the order in which they are written, and the
warnings raised on the way.
-/

namespace TypeSchema

/-- The schema of one declaration. -/
structure Schema where
  name : String
  kind : DeclarationKind
  validator : Validator
  /-- The place of the declaration. -/
  span : Span := {}
  deriving Repr

namespace Schema

/-- The name of the constant that holds the schema. -/
def constant (s : Schema) : String := schemaName s.name

/-- The code of a schema: its constant, and the type inferred from it. -/
def render (s : Schema) (c : Config) : String :=
  let keyword := if c.exported then "export " else ""
  keyword ++ "const " ++ s.constant ++ " = " ++ s.validator.render ++ ";\n\n"
    ++ keyword ++ "type " ++ s.name ++ " = z.infer<typeof " ++ s.constant ++ ">;"

end Schema

/-- Schemas in order, and the warnings about them. -/
structure Program where
  schemas : List Schema
  diagnostics : List Diagnostic
  deriving Repr

namespace Program

/-- The schema of a declaration. -/
def get? (p : Program) (name : String) : Option Schema := p.schemas.find? fun s => s.name == name

/-- The validator of a declaration. -/
def validator? (p : Program) (name : String) : Option Validator :=
  (p.get? name).map Schema.validator

/-- The number of schemas. -/
def size (p : Program) : Nat := p.schemas.length

/-- Whether there are no schemas. -/
def isEmpty (p : Program) : Bool := p.schemas.isEmpty

/-- The text of the whole file. -/
def render (p : Program) (c : Config) : String :=
  let banner := c.banner.toList.flatMap fun line => [line, ""]
  let body := p.schemas.flatMap fun s => [s.render c, ""]
  "\n".intercalate ([c.importLine, ""] ++ banner ++ body)

end Program

end TypeSchema
