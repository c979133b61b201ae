import TypeSchema.Declaration

/-!
# The registry of declarations

A table holds declarations of one kind, one per name, in the order in which the names were first
added; adding a name again replaces its declaration in place.  The registry holds three tables and
the warnings raised so far.

* `Table.get?_insert`: a table finds what was added last under a name;
* `Table.names_insert`: a name that is already there keeps its place, a new one goes last.
-/

namespace TypeSchema

/-- Things with a name. -/
class Named (α : Type) where
  nameOf : α → String

open Named (nameOf)

instance : Named Interface := ⟨Interface.name⟩

instance : Named Alias := ⟨Alias.name⟩

instance : Named Enumeration := ⟨Enumeration.name⟩

/-- Declarations of one kind in the order of their names' first addition. -/
structure Table (α : Type) where
  entries : List α := []
  deriving DecidableEq, Repr

namespace Table

variable {α : Type} [Named α]

/-- The names in order. -/
def names (t : Table α) : List String := t.entries.map nameOf

/-- The declaration with a name. -/
def get? (t : Table α) (name : String) : Option α := t.entries.find? fun a => nameOf a == name

/-- Whether there is a declaration with a name. -/
def contains (t : Table α) (name : String) : Bool := t.names.contains name

/-- The number of declarations. -/
def size (t : Table α) : Nat := t.entries.length

/-- Whether there are no declarations. -/
def isEmpty (t : Table α) : Bool := t.entries.isEmpty

/-- The table with `a` added: in the place of the declaration of that name, or last. -/
def insert (t : Table α) (a : α) : Table α :=
  if t.contains (nameOf a) then ⟨t.entries.map fun b => if nameOf b = nameOf a then a else b⟩
  else ⟨t.entries ++ [a]⟩

/-- Adds `a`, and gives back the declaration that it replaces. -/
def exchange (t : Table α) (a : α) : Option α × Table α := (t.get? (nameOf a), t.insert a)

theorem names_insert (t : Table α) (a : α) :
    (t.insert a).names = if t.contains (nameOf a) then t.names else t.names ++ [nameOf a] := by
  unfold insert
  split
  · simp only [names, List.map_map]
    apply List.map_congr_left
    intro b _
    simp only [Function.comp_apply]
    split
    · rename_i h; exact h.symm
    · rfl
  · simp [names]

theorem get?_insert (t : Table α) (a : α) : (t.insert a).get? (nameOf a) = some a := by
  unfold insert
  split
  · rename_i h
    rw [contains, List.contains_iff_mem, names, List.mem_map] at h
    obtain ⟨b, hb, hn⟩ := h
    simp only [get?]
    generalize t.entries = l at hb
    induction l with
    | nil => cases hb
    | cons c l ih =>
      by_cases hc : nameOf c = nameOf a
      · simp [hc]
      · have : b ∈ l := by
          rcases List.mem_cons.1 hb with rfl | h
          · exact absurd hn hc
          · exact h
        simpa [hc] using ih this
  · rename_i h
    have : t.entries.find? (fun b => nameOf b == nameOf a) = none := by
      rw [contains, List.contains_iff_mem, names, List.mem_map] at h
      simpa [List.find?_eq_none] using fun b hb hn => h ⟨b, hb, hn⟩
    simp [get?, List.find?_append, this]

end Table

/-- The declarations of a source, and the warnings raised so far. -/
structure Registry where
  interfaces : Table Interface := {}
  aliases : Table Alias := {}
  enums : Table Enumeration := {}
  diagnostics : List Diagnostic := []
  deriving DecidableEq, Repr

/-- What reading a source comes upon. -/
inductive Finding where
  | interface (i : Interface)
  | typeAlias (a : Alias)
  | enum (e : Enumeration)
  | warning (d : Diagnostic)
  deriving DecidableEq, Repr

namespace Registry

/-- The kind that a name stands for.  Interfaces come first, then aliases, then enums. -/
def kindOf? (r : Registry) (name : String) : Option DeclarationKind :=
  if r.interfaces.contains name then some .interface
  else if r.aliases.contains name then some .typeAlias
  else if r.enums.contains name then some .enum
  else none

/-- Whether some declaration has this name. -/
def contains (r : Registry) (name : String) : Bool := (r.kindOf? name).isSome

/-- The number of declarations. -/
def size (r : Registry) : Nat := r.interfaces.size + r.aliases.size + r.enums.size

/-- Whether there are no declarations. -/
def isEmpty (r : Registry) : Bool := r.size == 0

/-- The registry with one more warning. -/
def warn (r : Registry) (span : Span) (warning : Warning) : Registry :=
  { r with diagnostics := r.diagnostics ++ [⟨span, warning⟩] }

/-- Warns if `name` already stands for another kind. -/
def checkCollision (r : Registry) (name : String) (kind : DeclarationKind) (span : Span) :
    Registry :=
  match r.kindOf? name with
  | some existing => if existing = kind then r else r.warn span (.collision name existing kind)
  | none => r

/-- Warns if a declaration has been replaced. -/
def warnIf (r : Registry) (replaced : Bool) (span : Span) (warning : Warning) : Registry :=
  if replaced then r.warn span warning else r

/-- The registry with one more interface. -/
def addInterface (r : Registry) (i : Interface) : Registry :=
  let s := r.checkCollision i.name .interface i.span
  { s with interfaces := s.interfaces.insert i }.warnIf (s.interfaces.contains i.name) i.span
    (.duplicate .interface i.name)

/-- The registry with one more alias. -/
def addAlias (r : Registry) (a : Alias) : Registry :=
  let s := r.checkCollision a.name .typeAlias a.span
  { s with aliases := s.aliases.insert a }.warnIf (s.aliases.contains a.name) a.span
    (.duplicate .typeAlias a.name)

/-- The registry with one more enum. -/
def addEnum (r : Registry) (e : Enumeration) : Registry :=
  let s := r.checkCollision e.name .enum e.span
  { s with enums := s.enums.insert e }.warnIf (s.enums.contains e.name) e.span
    (.duplicate .enum e.name)

/-- The registry with one more finding. -/
def add (r : Registry) : Finding → Registry
  | .interface i => r.addInterface i
  | .typeAlias a => r.addAlias a
  | .enum e => r.addEnum e
  | .warning d => r.warn d.span d.warning

/-- The registry with all findings added in order. -/
def addAll (r : Registry) (found : List Finding) : Registry := found.foldl add r

end Registry

end TypeSchema
