/-!
# Primitive types

The fixed table of type keywords that have a validator builder of their own.
-/

namespace TypeSchema

/-- A primitive type keyword. -/
inductive Primitive where
  | string
  | number
  | boolean
  | bigint
  | date
  | any
  | unknown
  | never
  | null
  | undefined
  | void
  deriving DecidableEq, Repr

namespace Primitive

/-- Every primitive, in table order. -/
def all : List Primitive :=
  [string, number, boolean, bigint, date, any, unknown, never, null, undefined, void]

theorem mem_all (p : Primitive) : p ∈ all := by
  cases p <;> decide

/-- The keyword as it is written in a source. -/
def keyword : Primitive → String
  | string => "string"
  | number => "number"
  | boolean => "boolean"
  | bigint => "bigint"
  | date => "Date"
  | any => "any"
  | unknown => "unknown"
  | never => "never"
  | null => "null"
  | undefined => "undefined"
  | void => "void"

/-- The primitive with exactly this keyword. -/
def ofKeyword? (keyword : String) : Option Primitive :=
  all.find? fun p => p.keyword == keyword

theorem ofKeyword?_keyword (p : Primitive) : ofKeyword? p.keyword = some p := by
  cases p <;> decide

/-- The name of the builder that makes this primitive's validator. -/
def builder : Primitive → String
  | date => "date"
  | p => p.keyword

/-- Whether a union branch of this type only says that the value may be absent. -/
def isAbsent : Primitive → Bool
  | null | undefined => true
  | _ => false

/-- The place of a primitive in the table. -/
def index (p : Primitive) : Nat := all.idxOf p

end Primitive

end TypeSchema
