import TypeSchema.Token

/-!
# Declarations

The three sorts of declarations of a source, and the warnings that reading and converting them may
raise.
-/

namespace TypeSchema

/-- The sorts of declarations, in the order in which they are written out. -/
inductive DeclarationKind where
  | enum
  | typeAlias
  | interface
  deriving DecidableEq, Repr

/-- A sort of declarations in messages. -/
def DeclarationKind.text : DeclarationKind → String
  | enum => "enum"
  | typeAlias => "type alias"
  | interface => "interface"

/-- A member of an interface. -/
structure Field where
  /-- The name; of a quoted one the text between the quotes. -/
  name : String
  /-- The text of the type, with single spaces between its tokens. -/
  type : String
  /-- Whether a question mark stands behind the name. -/
  optional : Bool := false
  /-- The text of the documentation comment before the member. -/
  description : Option String := none
  span : Span := {}
  deriving DecidableEq, Repr

/-- `interface Name extends … { … }`. -/
structure Interface where
  name : String
  bases : List String
  fields : List Field
  span : Span := {}
  deriving DecidableEq, Repr

/-- `type Name = …`. -/
structure Alias where
  name : String
  type : String
  span : Span := {}
  deriving DecidableEq, Repr

/-- `enum Name { … }`. -/
structure Enumeration where
  name : String
  values : List String
  span : Span := {}
  deriving DecidableEq, Repr

/-- What a warning is about. -/
inductive Warning where
  /-- A block without a name. -/
  | unnamed (kind : DeclarationKind)
  /-- An interface or enum without braces. -/
  | noBody (kind : DeclarationKind) (name : String)
  /-- An interface or enum whose braces are not closed. -/
  | openBody (kind : DeclarationKind) (name : String)
  | genericInterface (name : String)
  | genericAlias (name : String)
  | malformedExtends (name : String)
  | genericBase (base name : String)
  | noEquals (name : String)
  | emptyAlias (name : String)
  /-- A token that starts no member. -/
  | strayToken (found : TokenKind) (kind : DeclarationKind) (owner : String)
  | indexSignature (owner : String)
  | method (member owner : String)
  | missingColon (member owner : String)
  | untypedMember (member owner : String)
  /-- An enum member that is set to something other than a string. -/
  | initializer (owner member : String)
  /-- A second declaration of the same kind and name. -/
  | duplicate (kind : DeclarationKind) (name : String)
  /-- A second declaration of the same name and another kind. -/
  | collision (name : String) (existing added : DeclarationKind)
  | unknownBase (owner base : String)
  | selfReference (name : String)
  | forwardReference (owner name : String)
  /-- Any other remark. -/
  | note (text : String)
  deriving DecidableEq, Repr

/-- The text of a warning. -/
def Warning.message : Warning → String
  | unnamed kind => s!"{kind.text} declaration without a name; skipped"
  | noBody kind name => s!"{kind.text} `{name}` has no body; skipped"
  | openBody kind name => s!"unterminated body for {kind.text} `{name}`; skipped"
  | genericInterface name => s!"generic interface `{name}` is not supported; skipped"
  | genericAlias name => s!"generic type alias `{name}` is not supported; skipped"
  | malformedExtends name => s!"malformed extends clause on interface `{name}`; skipped"
  | genericBase base name => s!"generic base `{base}` of interface `{name}` is ignored"
  | noEquals name => s!"type alias `{name}` has no '='; skipped"
  | emptyAlias name => s!"type alias `{name}` has an empty right-hand side; skipped"
  | strayToken found kind owner => s!"unexpected {found.name} in {kind.text} `{owner}`"
  | indexSignature owner =>
    s!"index signature in interface `{owner}` is not supported; skipped"
  | method member owner =>
    s!"method `{member}` in interface `{owner}` is not supported; skipped"
  | missingColon member owner =>
    s!"expected ':' after member `{member}` in interface `{owner}`; skipped"
  | untypedMember member owner =>
    s!"member `{member}` in interface `{owner}` has no type; skipped"
  | initializer owner member =>
    s!"enum member `{owner}.{member}` has a non-string initializer; using its name"
  | duplicate kind name =>
    s!"duplicate {kind.text} `{name}`; the later declaration replaces the earlier one"
  | collision name existing added =>
    s!"`{name}` is declared as both {existing.text} and {added.text}"
  | unknownBase owner base =>
    s!"interface `{owner}` extends `{base}`, which is not a known interface; base ignored"
  | selfReference name => s!"`{name}` references itself"
  | forwardReference owner name => s!"`{owner}` references `{name}` before it is defined"
  | note text => text

/-- A warning and the place it is about. -/
structure Diagnostic where
  span : Span
  warning : Warning
  deriving DecidableEq, Repr

namespace Diagnostic

/-- The text of the warning. -/
def message (d : Diagnostic) : String := d.warning.message

/-- The text of the warning with its place in front. -/
def render (d : Diagnostic) : String := s!"{d.span.render}: {d.message}"

end Diagnostic

end TypeSchema
