/-!
# Paths

Paths are texts whose parts are divided by slashes.  An empty part, and one that is a single dot,
leads nowhere; one of two dots leads back.
-/

namespace TypeSchema

namespace Path

/-- The parts of a path between slashes. -/
def parts (path : String) : List String := path.splitOn "/"

/-- Whether a path starts at the root. -/
def isAbsolute (path : String) : Bool := path.startsWith "/"

/-- The most bytes that a path can have. -/
def maxLength : Nat := 4095

/-- The most bytes that a name in a path can have. -/
def maxNameLength : Nat := 255

/-- Whether a path can lead to anything: it and its names are not too long, and it has no null
character. -/
def isUsable (path : String) : Bool :=
  path.utf8ByteSize ≤ maxLength && !path.toList.contains '\x00'
    && (parts path).all fun name => name.utf8ByteSize ≤ maxNameLength

/-- A reversed path without the slashes, and the dots that stand alone, at its end. -/
def dropTrailing : List Char → List Char
  | ['/'] => ['/']
  | '/' :: cs => dropTrailing cs
  | '.' :: '/' :: cs => dropTrailing ('/' :: cs)
  | cs => cs

/-- The path of the folder that a path stands in; empty if the path is a single part or
the root. -/
def parent (path : String) : String :=
  match dropTrailing path.toList.reverse with
  | ['/'] => ""
  | cs => String.ofList (dropTrailing (cs.dropWhile (· ≠ '/'))).reverse

end Path

end TypeSchema
