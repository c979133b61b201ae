import TypeSchema.Registry.Extract

/-!
# The names of a registry

* `Table.mem_names_iff_get?`: a table finds a declaration under exactly the names that it holds;
* `Table.nodup_names_insert`: a table that holds no name twice still holds none twice after an addition;
* `Registry.Built.distinct`: no table of a registry that was built by additions holds a name twice;
* `Registry.contains_iff`: a registry contains exactly the names of its tables.
-/

namespace TypeSchema

open Named (nameOf)

namespace Table

variable {α : Type} [Named α] {t : Table α}

theorem contains_iff {name : String} : t.contains name = true ↔ name ∈ t.names := List.contains_iff_mem

theorem mem_names_iff_get? {name : String} : name ∈ t.names ↔ ∃ a, t.get? name = some a := by
  rw [← Option.isSome_iff_exists, get?, List.find?_isSome, names, List.mem_map]
  simp

theorem nodup_names_insert (h : t.names.Nodup) (a : α) : (t.insert a).names.Nodup := by
  rw [names_insert]
  split
  · exact h
  · rename_i ha
    rw [contains_iff] at ha
    refine List.nodup_append.2 ⟨h, by simp, ?_⟩
    rintro x hx y hy rfl
    rw [List.mem_singleton] at hy
    exact ha (hy ▸ hx)

end Table

namespace Registry

variable {r : Registry}

/-! ## Warnings leave the tables as they are -/

section Tables

variable (r) (name : String) (kind : DeclarationKind) (span : Span) (w : Warning) (replaced : Bool)

@[simp] theorem interfaces_warnIf : (r.warnIf replaced span w).interfaces = r.interfaces := by
  unfold warnIf
  split <;> rfl

@[simp] theorem aliases_warnIf : (r.warnIf replaced span w).aliases = r.aliases := by
  unfold warnIf
  split <;> rfl

@[simp] theorem enums_warnIf : (r.warnIf replaced span w).enums = r.enums := by
  unfold warnIf
  split <;> rfl

@[simp] theorem interfaces_checkCollision : (r.checkCollision name kind span).interfaces = r.interfaces := by
  unfold checkCollision
  split
  · split <;> rfl
  · rfl

@[simp] theorem aliases_checkCollision : (r.checkCollision name kind span).aliases = r.aliases := by
  unfold checkCollision
  split
  · split <;> rfl
  · rfl

@[simp] theorem enums_checkCollision : (r.checkCollision name kind span).enums = r.enums := by
  unfold checkCollision
  split
  · split <;> rfl
  · rfl

end Tables

/-! ## No table holds a name twice -/

/-- No table holds a name twice. -/
structure Distinct (r : Registry) : Prop where
  interfaces : r.interfaces.names.Nodup
  aliases : r.aliases.names.Nodup
  enums : r.enums.names.Nodup

theorem distinct_empty : ({} : Registry).Distinct := ⟨List.nodup_nil, List.nodup_nil, List.nodup_nil⟩

theorem Distinct.add (h : r.Distinct) (f : Finding) : (r.add f).Distinct := by
  cases f with
  | interface i =>
    have hi := Table.nodup_names_insert h.interfaces i
    constructor
    · simpa [Registry.add, addInterface] using hi
    · simpa [Registry.add, addInterface] using h.aliases
    · simpa [Registry.add, addInterface] using h.enums
  | typeAlias a =>
    have ha := Table.nodup_names_insert h.aliases a
    constructor
    · simpa [Registry.add, addAlias] using h.interfaces
    · simpa [Registry.add, addAlias] using ha
    · simpa [Registry.add, addAlias] using h.enums
  | enum e =>
    have he := Table.nodup_names_insert h.enums e
    constructor
    · simpa [Registry.add, addEnum] using h.interfaces
    · simpa [Registry.add, addEnum] using h.aliases
    · simpa [Registry.add, addEnum] using he
  | warning d => exact ⟨h.interfaces, h.aliases, h.enums⟩

theorem Distinct.addAll (h : r.Distinct) (found : List Finding) : (r.addAll found).Distinct := by
  induction found generalizing r with
  | nil => exact h
  | cons f found ih => exact ih (h.add f)

/-- The registry was built from the empty one by additions. -/
def Built (r : Registry) : Prop := ∃ found, r = ({} : Registry).addAll found

theorem built_extract (source : String) : (extract source).Built := ⟨_, rfl⟩

/-- No table of a registry that was built by additions holds a name twice. -/
theorem Built.distinct (h : r.Built) : r.Distinct := by
  obtain ⟨found, rfl⟩ := h
  exact distinct_empty.addAll found

/-! ## What a name stands for -/

theorem kindOf?_eq_interface_iff {name : String} :
    r.kindOf? name = some .interface ↔ name ∈ r.interfaces.names := by
  rw [← Table.contains_iff]
  unfold kindOf?
  cases r.interfaces.contains name <;> cases r.aliases.contains name <;> cases r.enums.contains name <;> simp

theorem kindOf?_eq_typeAlias_iff {name : String} :
    r.kindOf? name = some .typeAlias ↔ name ∉ r.interfaces.names ∧ name ∈ r.aliases.names := by
  rw [← Table.contains_iff, ← Table.contains_iff]
  unfold kindOf?
  cases r.interfaces.contains name <;> cases r.aliases.contains name <;> cases r.enums.contains name <;> simp

theorem kindOf?_eq_enum_iff {name : String} :
    r.kindOf? name = some .enum ↔
      name ∉ r.interfaces.names ∧ name ∉ r.aliases.names ∧ name ∈ r.enums.names := by
  rw [← Table.contains_iff, ← Table.contains_iff, ← Table.contains_iff]
  unfold kindOf?
  cases r.interfaces.contains name <;> cases r.aliases.contains name <;> cases r.enums.contains name <;> simp

/-- A registry contains the names of its tables. -/
theorem contains_iff {name : String} : r.contains name = true ↔
    name ∈ r.interfaces.names ∨ name ∈ r.aliases.names ∨ name ∈ r.enums.names := by
  rw [← Table.contains_iff, ← Table.contains_iff, ← Table.contains_iff]
  unfold contains kindOf?
  cases r.interfaces.contains name <;> cases r.aliases.contains name <;> cases r.enums.contains name <;> simp

end Registry

end TypeSchema
