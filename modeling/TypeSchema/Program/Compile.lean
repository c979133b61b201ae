import TypeSchema.Program.Order
import TypeSchema.Registry.Extract
import TypeSchema.Validator.Convert

/-!
# Compiling a source

Every declaration becomes a schema.  With default settings compiling never fails; it fails for
references in a circle when schemas are ordered by dependency, and for types without a validator
when those are not allowed.
-/

namespace TypeSchema

namespace Program

/-- The schemas of a registry in the fixed order.  A name that is declared in several kinds has one
schema, of the kind it stands for. -/
def schemasOf (r : Registry) : List Schema :=
  let enums := r.enums.entries.filter fun e => r.kindOf? e.name = some .enum
  let aliases := r.aliases.entries.filter fun a => r.kindOf? a.name = some .typeAlias
  enums.map (fun e => ⟨e.name, .enum, .ofEnum e, e.span⟩)
    ++ aliases.map (fun a => ⟨a.name, .typeAlias, .ofAlias r a, a.span⟩)
    ++ r.interfaces.entries.map fun i => ⟨i.name, .interface, .ofInterface r i, i.span⟩

/-- The warnings of reading and converting a registry. -/
def warningsOf (r : Registry) : List Diagnostic :=
  r.diagnostics ++ r.interfaces.entries.flatMap (Validator.baseWarnings r)

/-- The program of a registry in the fixed order, with warnings about forward references. -/
def assemble (r : Registry) : Program :=
  let schemas := schemasOf r
  ⟨schemas, warningsOf r ++ Order.forwardReferences schemas⟩

/-- The program of a registry in a given order. -/
def arrange (r : Registry) : EmitOrder → Except Error Program
  | .fixed => .ok (assemble r)
  | .topological => do
    let schemas ← Order.topologicalOrder (schemasOf r)
    return ⟨schemas, warningsOf r⟩

/-- The error about the first type without a validator in a schema. -/
def unresolvedError? (s : Schema) : Option Error :=
  s.validator.unresolvedExpressions.head?.map fun expression =>
    { cause := .unresolved s.name expression,
      context := some
          { declaration := some s.name, position := some (s.span.line, s.span.column) } }

/-- The program of a registry under given settings. -/
def ofRegistry (c : Config) (r : Registry) : Except Error Program := do
  let p ← arrange r c.order
  match c.unresolved, p.schemas.findSome? unresolvedError? with
  | .strict, some e => .error e
  | _, _ => return p

/-- The program of a source under given settings. -/
def compile (c : Config) (source : String) : Except Error Program := ofRegistry c (.extract source)

/-- The file of a source under given settings. -/
def compileFile (c : Config) (source : String) : Except Error String :=
  (compile c source).map fun p => p.render c

/-- The file of a source with default settings. -/
def convertFile (source : String) : String := (assemble (.extract source)).render {}

end Program

end TypeSchema
