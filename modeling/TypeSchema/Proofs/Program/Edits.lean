import Mathlib
import TypeSchema.Program.Compile
import TypeSchema.Proofs.Registry.Names
import TypeSchema.Proofs.Registry.Relocation

/-!
# Editing one declaration

A validator refers to other declarations by their names and never copies anything from them.  So the validator of a
declaration depends on the declaration and on the names of the registry only (`ofInterface_congr` and its siblings), a
schema on the declaration that its name stands for (`get?_assemble`), and a change to one declaration shows in its own
schema only (`assemble_edit`).
-/

namespace TypeSchema

open Named (nameOf)

/-! ## Registries with the same names -/

namespace Registry

/-- The tables of two registries hold the same names. -/
structure SameNames (r r' : Registry) : Prop where
  interfaces : ∀ name, name ∈ r.interfaces.names ↔ name ∈ r'.interfaces.names
  aliases : ∀ name, name ∈ r.aliases.names ↔ name ∈ r'.aliases.names
  enums : ∀ name, name ∈ r.enums.names ↔ name ∈ r'.enums.names

theorem contains_congr {α : Type} [Named α] {t t' : Table α} (h : ∀ name, name ∈ t.names ↔ name ∈ t'.names) :
    t.contains = t'.contains := by
  funext name
  rw [Bool.eq_iff_iff, Table.contains_iff, Table.contains_iff]
  exact h name

variable {r r' : Registry}

theorem SameNames.kindOf? (h : r.SameNames r') : r.kindOf? = r'.kindOf? := by
  funext name
  simp only [Registry.kindOf?, contains_congr h.interfaces, contains_congr h.aliases, contains_congr h.enums]

theorem SameNames.contains (h : r.SameNames r') : r.contains = r'.contains := by
  funext name
  rw [Registry.contains, Registry.contains, h.kindOf?]

/-- The declaration that a name stands for. -/
def declared? (r : Registry) (name : String) : Option Finding :=
  match r.kindOf? name with
  | some .interface => (r.interfaces.get? name).map .interface
  | some .typeAlias => (r.aliases.get? name).map .typeAlias
  | some .enum => (r.enums.get? name).map .enum
  | none => none

end Registry

/-! ## Validators depend on names -/

namespace Validator

variable {r r' : Registry}

theorem ofText_congr (h : r.SameNames r') : ofText r = ofText r' := by
  funext text optional
  simp only [ofText, h.contains]

theorem ofField_congr (h : r.SameNames r') {f f' : Field} (hf : f.mapSpan (fun _ => {}) = f'.mapSpan fun _ => {}) :
    ofField r f = ofField r' f' := by
  obtain ⟨name, type, optional, description, span⟩ := f
  obtain ⟨name', type', optional', description', span'⟩ := f'
  cases hf
  simp only [ofField, ofText_congr h]

/-- The validator of an alias depends on its text and on the names of the registry. -/
theorem ofAlias_congr (h : r.SameNames r') {a a' : Alias}
    (ha : Finding.bare (.typeAlias a) = Finding.bare (.typeAlias a')) : ofAlias r a = ofAlias r' a' := by
  obtain ⟨name, type, span⟩ := a
  obtain ⟨name', type', span'⟩ := a'
  cases ha
  simp only [ofAlias, ofText_congr h]

theorem ofEnum_congr {e e' : Enumeration} (he : Finding.bare (.enum e) = Finding.bare (.enum e')) :
    ofEnum e = ofEnum e' := by
  obtain ⟨name, values, span⟩ := e
  obtain ⟨name', values', span'⟩ := e'
  cases he
  rfl

/-- The validator of an interface depends on its bases and fields and on the names of the registry. -/
theorem ofInterface_congr (h : r.SameNames r') {i i' : Interface}
    (hi : Finding.bare (.interface i) = Finding.bare (.interface i')) : ofInterface r i = ofInterface r' i' := by
  simp only [Finding.bare, Finding.mapSpans, Interface.mapSpans, Finding.interface.injEq, Interface.mk.injEq] at hi
  obtain ⟨-, hbases, hfields, -⟩ := hi
  have hf : i.fields.map (fun f => (f.name, ofField r f)) = i'.fields.map fun f => (f.name, ofField r' f) := by
    have hall := List.forall₂_eq_eq_eq ▸ hfields
    rw [List.forall₂_map_left_iff, List.forall₂_map_right_iff] at hall
    rw [← List.forall₂_eq_eq_eq, List.forall₂_map_left_iff, List.forall₂_map_right_iff]
    refine hall.imp fun f f' hff => ?_
    have hname : f.name = f'.name := by simpa [Field.mapSpan] using congrArg Field.name hff
    rw [hname, ofField_congr h hff]
  rw [ofInterface, ofInterface, hbases, Registry.contains_congr h.interfaces, hf]

end Validator

/-! ## Schemas and the declarations that they are made from -/

namespace Program

/-- The schema of a declaration. -/
def schema? (r : Registry) : Finding → Option Schema
  | .interface i => some ⟨i.name, .interface, .ofInterface r i, i.span⟩
  | .typeAlias a => some ⟨a.name, .typeAlias, .ofAlias r a, a.span⟩
  | .enum e => some ⟨e.name, .enum, .ofEnum e, e.span⟩
  | .warning _ => none

section Tables

variable {α : Type} [Named α] {t : Table α} {f : α → Schema} (hf : ∀ a, (f a).name = nameOf a)

theorem get?_eq_none {name : String} (h : name ∉ t.names) : t.get? name = none := by
  refine List.find?_eq_none.2 fun a ha hn => h ?_
  rw [← beq_iff_eq.1 hn]
  exact List.mem_map_of_mem ha

include hf

theorem find?_map_entries (name : String) :
    (t.entries.map f).find? (fun s => s.name == name) = (t.get? name).map f := by
  rw [List.find?_map, Table.get?]
  simp only [Function.comp_def, hf]

/-- Of the entries that stand for their names, the one with a name. -/
theorem find?_map_filter (p : String → Bool) (name : String) :
    ((t.entries.filter fun a => p (nameOf a)).map f).find? (fun s => s.name == name) =
      if p name then (t.get? name).map f else none := by
  rw [List.find?_map, List.find?_filter, Table.get?]
  simp only [Function.comp_def, hf]
  split
  · rename_i hp
    congr 2
    funext a
    by_cases ha : nameOf a = name
    · simp [ha, hp]
    · simp [ha]
  · rename_i hp
    rw [Option.map_eq_none_iff, List.find?_eq_none]
    rintro a - ha
    simp only [beq_iff_eq, decide_eq_true_eq] at ha
    exact hp (ha.2 ▸ ha.1)

end Tables

/-- **A name has the schema of the declaration that it stands for.** -/
theorem get?_assemble (r : Registry) (name : String) :
    (assemble r).get? name = (r.declared? name).bind (schema? r) := by
  have henums := find?_map_filter (t := r.enums) (f := fun e => ⟨e.name, .enum, .ofEnum e, e.span⟩) (fun _ => rfl)
    (fun n => r.kindOf? n = some .enum) name
  have haliases := find?_map_filter (t := r.aliases) (f := fun a => ⟨a.name, .typeAlias, .ofAlias r a, a.span⟩)
    (fun _ => rfl) (fun n => r.kindOf? n = some .typeAlias) name
  have hinterfaces := find?_map_entries (t := r.interfaces)
    (f := fun i => ⟨i.name, .interface, .ofInterface r i, i.span⟩) (fun _ => rfl) name
  have hfind : (assemble r).get? name = _ := List.find?_append.trans
    (congrArg₂ Option.or (List.find?_append.trans (congrArg₂ Option.or henums haliases)) hinterfaces)
  rw [hfind, Registry.declared?]
  cases hk : r.kindOf? name with
  | none =>
    have hnot : name ∉ r.interfaces.names := fun h => by
      rw [Registry.kindOf?_eq_interface_iff.2 h] at hk
      cases hk
    simp [get?_eq_none hnot]
  | some kind =>
    cases kind with
    | interface => cases r.interfaces.get? name <;> simp [schema?]
    | typeAlias =>
      have hnot := (Registry.kindOf?_eq_typeAlias_iff.1 hk).1
      cases r.aliases.get? name <;> simp [schema?, get?_eq_none hnot]
    | enum =>
      have hnot := (Registry.kindOf?_eq_enum_iff.1 hk).1
      cases r.enums.get? name <;> simp [schema?, get?_eq_none hnot]

/-- A declaration that a name stands for has a schema. -/
theorem exists_schema? {r : Registry} {name : String} {x : Finding} (h : r.declared? name = some x) :
    ∃ s, schema? r x = some s := by
  unfold Registry.declared? at h
  split at h
  · obtain ⟨i, -, rfl⟩ := Option.map_eq_some_iff.1 h
    exact ⟨_, rfl⟩
  · obtain ⟨a, -, rfl⟩ := Option.map_eq_some_iff.1 h
    exact ⟨_, rfl⟩
  · obtain ⟨e, -, rfl⟩ := Option.map_eq_some_iff.1 h
    exact ⟨_, rfl⟩
  · cases h

/-- Declarations with the same content have the same validator under the same names. -/
theorem validator_schema?_congr {r r' : Registry} (h : r.SameNames r') {x x' : Finding} (hx : x.bare = x'.bare) :
    (schema? r x).map Schema.validator = (schema? r' x').map Schema.validator := by
  cases x with
  | interface i =>
    cases x' with
    | interface i' => exact congrArg some (Validator.ofInterface_congr h hx)
    | _ => cases hx
  | typeAlias a =>
    cases x' with
    | typeAlias a' => exact congrArg some (Validator.ofAlias_congr h hx)
    | _ => cases hx
  | enum e =>
    cases x' with
    | enum e' => exact congrArg some (Validator.ofEnum_congr hx)
    | _ => cases hx
  | warning d =>
    cases x' with
    | warning d' => rfl
    | _ => cases hx

end Program

/-! ## Editing one declaration -/

/-- Two declarations have the same name, and are the same unless it is `n`. -/
def SameUnless {α : Type} [Named α] (n : String) (a b : α) : Prop := nameOf a = nameOf b ∧ (nameOf a ≠ n → a = b)

/-- The tables of two registries hold the same names in the same order, and the same declarations apart from those
named `n`. -/
structure Registry.SameApartFrom (n : String) (r r' : Registry) : Prop where
  interfaces : List.Forall₂ (SameUnless n) r.interfaces.entries r'.interfaces.entries
  aliases : List.Forall₂ (SameUnless n) r.aliases.entries r'.aliases.entries
  enums : List.Forall₂ (SameUnless n) r.enums.entries r'.enums.entries

/-- Two schemas have the same name and kind, and are the same unless the name is `n`. -/
def Schema.SameUnless (n : String) (s s' : Schema) : Prop :=
  s.name = s'.name ∧ s.kind = s'.kind ∧ (s.name ≠ n → s = s')

namespace Program

variable {n : String} {r r' : Registry}

section Tables

variable {α : Type} [Named α] {as bs : List α}

theorem names_eq_of_sameUnless (h : List.Forall₂ (SameUnless n) as bs) : as.map nameOf = bs.map nameOf := by
  rw [← List.forall₂_eq_eq_eq, List.forall₂_map_left_iff, List.forall₂_map_right_iff]
  exact h.imp fun a b hab => hab.1

/-- Entries that are the same unless they are named `n` have schemas that are the same unless they are. -/
theorem sameUnless_map {f g : α → Schema} (h : List.Forall₂ (SameUnless n) as bs) (hname : ∀ a, (f a).name = nameOf a)
    (hname' : ∀ a, (g a).name = nameOf a) (hkind : ∀ a b, (f a).kind = (g b).kind) (hfg : ∀ a, f a = g a) :
    List.Forall₂ (Schema.SameUnless n) (as.map f) (bs.map g) := by
  rw [List.forall₂_map_left_iff, List.forall₂_map_right_iff]
  refine h.imp fun a b hab => ⟨?_, hkind a b, fun ha => ?_⟩
  · rw [hname, hname', hab.1]
  · rw [hname] at ha
    rw [hab.2 ha, hfg]

theorem sameUnless_filter {p : String → Bool} (h : List.Forall₂ (SameUnless n) as bs) :
    List.Forall₂ (SameUnless n) (as.filter fun a => p (nameOf a)) (bs.filter fun b => p (nameOf b)) :=
  List.rel_filter (fun a b hab => by simp only [hab.1]) h

end Tables

theorem sameNames_of_sameApartFrom (h : r.SameApartFrom n r') : r.SameNames r' := by
  refine ⟨fun name => ?_, fun name => ?_, fun name => ?_⟩
  · rw [Table.names, Table.names, names_eq_of_sameUnless h.interfaces]
  · rw [Table.names, Table.names, names_eq_of_sameUnless h.aliases]
  · rw [Table.names, Table.names, names_eq_of_sameUnless h.enums]

/-- A change to the declarations of one name changes the schema of that name only. -/
theorem schemasOf_sameUnless (h : r.SameApartFrom n r') :
    List.Forall₂ (Schema.SameUnless n) (schemasOf r) (schemasOf r') := by
  have hnames := sameNames_of_sameApartFrom h
  have hkind := hnames.kindOf?
  unfold schemasOf
  rw [← hkind]
  refine List.rel_append (List.rel_append ?_ ?_) ?_
  · exact sameUnless_map (sameUnless_filter (p := fun name => r.kindOf? name = some .enum) h.enums) (fun _ => rfl)
      (fun _ => rfl) (fun _ _ => rfl) fun _ => rfl
  · refine sameUnless_map (sameUnless_filter (p := fun name => r.kindOf? name = some .typeAlias) h.aliases)
      (fun _ => rfl) (fun _ => rfl) (fun _ _ => rfl) fun a => ?_
    rw [Validator.ofAlias_congr hnames rfl]
  · refine sameUnless_map h.interfaces (fun _ => rfl) (fun _ => rfl) (fun _ _ => rfl) fun i => ?_
    rw [Validator.ofInterface_congr hnames rfl]

/-- **Editing one declaration changes its own schema only.**  Between registries with the same names, declarations of
the same content, spans aside, have the same validator, and so has every name that stands for the same content in both.
If the registries differ in the declarations of one name only, their programs have the same names and kinds in the same
order, and the same schemas apart from the one of that name. -/
theorem assemble_edit {r r' : Registry} (h : r.SameNames r') :
    (∀ a a', Finding.bare (.typeAlias a) = Finding.bare (.typeAlias a') →
      Validator.ofAlias r a = Validator.ofAlias r' a') ∧
    (∀ e e', Finding.bare (.enum e) = Finding.bare (.enum e') → Validator.ofEnum e = Validator.ofEnum e') ∧
    (∀ i i', Finding.bare (.interface i) = Finding.bare (.interface i') →
      Validator.ofInterface r i = Validator.ofInterface r' i') ∧
    (∀ name x x', r.declared? name = some x → r'.declared? name = some x' → x.bare = x'.bare →
      ∃ v, (assemble r).validator? name = some v ∧ (assemble r').validator? name = some v) ∧
    ∀ n, r.SameApartFrom n r' →
      List.Forall₂ (Schema.SameUnless n) (assemble r).schemas (assemble r').schemas := by
  refine ⟨fun a a' => Validator.ofAlias_congr h, fun e e' => Validator.ofEnum_congr,
    fun i i' => Validator.ofInterface_congr h, fun name x x' hx hx' hbare => ?_, fun n => schemasOf_sameUnless⟩
  obtain ⟨s, hs⟩ := exists_schema? hx
  have hv := validator_schema?_congr h hbare
  rw [hs, Option.map_some] at hv
  refine ⟨s.validator, ?_, ?_⟩
  · rw [validator?, get?_assemble, hx, Option.bind_some, hs, Option.map_some]
  · rw [validator?, get?_assemble, hx', Option.bind_some, ← hv]

/-- An interface refers to an alias that shadows an enum, and extends another interface. -/
def orders (status : String) : Registry := ({} : Registry).addAll [
  .enum { name := "Status", values := ["on", "off"] },
  .typeAlias { name := "Status", type := status },
  .interface { name := "Base", bases := [], fields := [{ name := "id", type := "string" }] },
  .interface
    { name := "Order", bases := ["Base", "Status"],
      fields := [{ name := "status", type := "Status[]", optional := true, description := some "d" }] }]

theorem assemble_edit_alias :
    (orders "'a' | Order").SameNames (orders "Base") ∧
    (∃ v, (assemble (orders "'a' | Order")).validator? "Order" = some v ∧
      (assemble (orders "Base")).validator? "Order" = some v) ∧
    List.Forall₂ (Schema.SameUnless "Status") (assemble (orders "'a' | Order")).schemas
      (assemble (orders "Base")).schemas := by
  have hapart : (orders "'a' | Order").SameApartFrom "Status" (orders "Base") := by
    refine ⟨?_, ?_, ?_⟩
    · exact List.forall₂_same.2 fun i _ => ⟨rfl, fun _ => rfl⟩
    · exact .cons ⟨rfl, fun h => absurd rfl h⟩ .nil
    · exact List.forall₂_same.2 fun e _ => ⟨rfl, fun _ => rfl⟩
  have hnames := sameNames_of_sameApartFrom hapart
  obtain ⟨-, -, -, hitem, hall⟩ := assemble_edit hnames
  exact ⟨hnames, hitem "Order" _ _ (by cbv) (by cbv) rfl, hall "Status" hapart⟩

end Program

end TypeSchema
