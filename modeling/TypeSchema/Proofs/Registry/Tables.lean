import Mathlib
import TypeSchema.Proofs.Registry.Reported

/-!
# Tables as ordered maps, and their warnings

A table that is kept with an index of its names (`IndexedTable`) finds and replaces declarations by their places.  The
index and the entries stay in bijection (`Coherent.exchange`), so that it is the table without an index.

* `Table.isMapOf_insertAll`: after any additions a table lists the names in the order of their first addition, and holds
  under each name what was added last;
* `Registry.diagnostics_add_remarks`: what one finding adds to the warnings;
* `Registry.countP_repeats`, `Registry.countP_collides`: how many warnings about replaced declarations, and about names
  that stand for several kinds, there are after any findings;
* `Registry.isRegistryOf_addAll`: all of this of the registry of any findings.
-/

namespace TypeSchema

open Named (nameOf)

/-! ## Places of names -/

namespace Table

variable {α : Type} [Named α] {t : Table α} {a : α} {name : String} {place : Nat}

theorem exists_entry_of_names (h : t.names[place]? = some name) :
    ∃ a, t.entries[place]? = some a ∧ nameOf a = name := by
  rwa [names, List.getElem?_map, Option.map_eq_some_iff] at h

theorem get?_eq_none_of_not_mem (h : name ∉ t.names) : t.get? name = none := by
  refine List.find?_eq_none.2 fun a ha hn => h ?_
  rw [← beq_iff_eq.1 hn]
  exact List.mem_map_of_mem ha

/-- A table without repeated names finds a declaration at the place of its name. -/
theorem get?_of_place (hn : t.names.Nodup) (h : t.names[place]? = some name) : t.get? name = t.entries[place]? := by
  obtain ⟨a, ha, rfl⟩ := exists_entry_of_names h
  obtain ⟨hlt, hget⟩ := List.getElem?_eq_some_iff.1 ha
  rw [ha, get?, List.find?_eq_some_iff_getElem]
  refine ⟨by simp, place, hlt, hget, fun j hj => ?_⟩
  -- no name before it is the same
  have hne := List.nodup_iff_getElem?_ne_getElem?.1 hn j place hj (by simpa [names] using hlt)
  rw [h, names, List.getElem?_map, List.getElem?_eq_getElem (Nat.lt_trans hj hlt), Option.map_some] at hne
  simpa using hne

theorem get?_insert_of_ne (hne : nameOf a ≠ name) : (t.insert a).get? name = t.get? name := by
  cases hc : t.contains (nameOf a) with
  | false =>
    have hlast : ([a].find? fun b => nameOf b == name) = none := by simp [hne]
    rw [insert_of_not_contains hc, get?, List.find?_append, hlast, Option.or_none]
    rfl
  | true =>
    rw [insert_of_contains hc, get?, get?]
    dsimp only
    generalize t.entries = bs
    induction bs with
    | nil => rfl
    | cons b bs ih =>
      rw [List.map_cons, List.find?_cons, List.find?_cons, ih]
      by_cases hb : nameOf b = nameOf a
      · rw [if_pos hb, hb, beq_false_of_ne hne]
      · rw [if_neg hb]

end Table

/-! ## Tables with an index -/

/-- A table that is kept with the places of its names. -/
structure IndexedTable (α : Type) where
  entries : List α := []
  index : Std.HashMap String Nat := {}

namespace IndexedTable

variable {α : Type} [Named α] {t : IndexedTable α} {a : α} {name : String} {place : Nat}

/-- The table without its index. -/
def table (t : IndexedTable α) : Table α := ⟨t.entries⟩

/-- The declaration at the place of a name. -/
def get? (t : IndexedTable α) (name : String) : Option α := t.index[name]?.bind fun place => t.entries[place]?

/-- Whether a name has a place. -/
def contains (t : IndexedTable α) (name : String) : Bool := t.index.contains name

/-- Puts `a` at the place of its name, or at a new place behind all others, and gives back the declaration that it
replaces. -/
def exchange (t : IndexedTable α) (a : α) : Option α × IndexedTable α :=
  match t.index[nameOf a]? with
  | some place => (t.entries[place]?, { t with entries := t.entries.set place a })
  | none => (none, ⟨t.entries ++ [a], t.index.insert (nameOf a) t.entries.length⟩)

/-- The table after these additions. -/
def ofList (added : List α) : IndexedTable α := added.foldl (fun t a => (t.exchange a).2) {}

theorem ofList_append (added : List α) (a : α) : ofList (added ++ [a]) = ((ofList added).exchange a).2 := by
  rw [ofList, List.foldl_append]
  rfl

/-- The index and the entries are in bijection: a name has the one place at which it stands. -/
def Coherent (t : IndexedTable α) : Prop :=
  ∀ (name : String) (place : Nat), t.index[name]? = some place ↔ t.table.names[place]? = some name

theorem coherent_empty : ({} : IndexedTable α).Coherent := by
  intro name place
  simp [table, Table.names]

theorem Coherent.nodup_names (h : t.Coherent) : t.table.names.Nodup := by
  rw [List.nodup_iff_getElem?_ne_getElem?]
  intro i j hij hj he
  have hplace := (h _ j).2 (List.getElem?_eq_getElem hj)
  rw [List.getElem?_eq_getElem hj] at he
  rw [(h _ i).2 he, Option.some.injEq] at hplace
  exact Nat.ne_of_lt hij hplace

theorem Coherent.index_eq_none_iff (h : t.Coherent) : t.index[name]? = none ↔ name ∉ t.table.names := by
  rw [Option.eq_none_iff_forall_ne_some, List.mem_iff_getElem?, not_exists]
  exact forall_congr' fun place => not_congr (h name place)

theorem Coherent.contains_eq (h : t.Coherent) (name : String) : t.contains name = t.table.contains name := by
  rw [Bool.eq_iff_iff, contains, Std.HashMap.contains_eq_isSome_getElem?, Option.isSome_iff_exists, Table.contains_iff,
    List.mem_iff_getElem?]
  exact exists_congr (h name)

/-- Looking a name up by its place finds what the table without an index finds. -/
theorem Coherent.get?_eq (h : t.Coherent) (name : String) : t.get? name = t.table.get? name := by
  rw [get?]
  cases hp : t.index[name]? with
  | none => rw [Table.get?_eq_none_of_not_mem (h.index_eq_none_iff.1 hp), Option.bind_none]
  | some place =>
    rw [Table.get?_of_place h.nodup_names ((h name place).1 hp), Option.bind_some]
    rfl

/-- Replacing the declaration at the place of a name replaces the declaration of that name. -/
theorem Coherent.table_set (h : t.Coherent) (hp : t.index[nameOf a]? = some place) :
    (⟨t.entries.set place a⟩ : Table α) = t.table.insert a := by
  have hname := (h _ _).1 hp
  have hc : t.table.contains (nameOf a) = true := Table.contains_iff.2 (List.mem_of_getElem? hname)
  rw [Table.insert_of_contains hc, Table.mk.injEq]
  refine List.ext_getElem? fun i => ?_
  rw [List.getElem?_set, List.getElem?_map]
  split
  · rename_i hi
    subst hi
    obtain ⟨b, hb, hba⟩ := Table.exists_entry_of_names hname
    have hlt : place < t.entries.length := (List.getElem?_eq_some_iff.1 hb).1
    rw [hb, if_pos hlt, Option.map_some, if_pos hba]
  · rename_i hi
    cases hb : t.table.entries[i]? with
    | none => exact hb
    | some b =>
      -- another place has another name
      have hne : nameOf b ≠ nameOf a := by
        intro hba
        have hi' : t.table.names[i]? = some (nameOf a) := by rw [Table.names, List.getElem?_map, hb, ← hba]; rfl
        rw [(h _ i).2 hi', Option.some.injEq] at hp
        exact hi hp.symm
      rw [Option.map_some, if_neg hne]
      exact hb

/-- **Adding a declaration by its place** is adding it by its name, and gives back what stood under that name. -/
theorem Coherent.exchange_eq (h : t.Coherent) (a : α) :
    (t.exchange a).1 = t.table.get? (nameOf a) ∧ (t.exchange a).2.table = t.table.insert a := by
  rw [exchange]
  cases hp : t.index[nameOf a]? with
  | none =>
    have hnot := h.index_eq_none_iff.1 hp
    have hc : t.table.contains (nameOf a) = false := Bool.eq_false_iff.2 fun hc => hnot (Table.contains_iff.1 hc)
    exact ⟨(Table.get?_eq_none_of_not_mem hnot).symm, (Table.insert_of_not_contains hc).symm⟩
  | some place => exact ⟨(Table.get?_of_place h.nodup_names ((h _ place).1 hp)).symm, h.table_set hp⟩

/-- **The bijection stays** when a declaration is added. -/
theorem Coherent.exchange (h : t.Coherent) (a : α) : (t.exchange a).2.Coherent := by
  intro name place
  rw [(h.exchange_eq a).2, Table.names_insert, IndexedTable.exchange]
  cases hp : t.index[nameOf a]? with
  | some slot =>
    have hc : t.table.contains (nameOf a) = true := Table.contains_iff.2 (List.mem_of_getElem? ((h _ slot).1 hp))
    rw [if_pos hc]
    exact h name place
  | none =>
    have hnot := h.index_eq_none_iff.1 hp
    rw [if_neg fun hc => hnot (Table.contains_iff.1 hc)]
    have hlength : t.table.names.length = t.entries.length := by simp [table, Table.names]
    dsimp only
    rw [Std.HashMap.getElem?_insert, List.getElem?_append, hlength, List.getElem?_singleton]
    by_cases hname : nameOf a = name
    · subst hname
      rw [beq_self_eq_true, if_pos rfl, Option.some.injEq]
      by_cases hlt : place < t.entries.length
      · have hother : t.table.names[place]? ≠ some (nameOf a) := fun hm => hnot (List.mem_of_getElem? hm)
        simp only [if_pos hlt, hother, iff_false]
        omega
      · simp only [if_neg hlt, ite_eq_left_iff, reduceCtorEq, imp_false, not_not]
        omega
    · rw [beq_false_of_ne hname, if_neg Bool.false_ne_true, h name place]
      by_cases hlt : place < t.entries.length
      · rw [if_pos hlt]
      · have hnone : t.table.names[place]? = none := List.getElem?_eq_none (by omega)
        simp [if_neg hlt, hnone, hname]

/-- A table that is built with an index is the one that is built without. -/
theorem coherent_ofList (added : List α) :
    (ofList added).Coherent ∧ (ofList added).table = ({} : Table α).insertAll added := by
  induction added using List.reverseRecOn with
  | nil => exact ⟨coherent_empty, rfl⟩
  | append_singleton added a ih =>
    obtain ⟨hcoherent, htable⟩ := ih
    rw [ofList_append, Table.insertAll_append, ← htable]
    exact ⟨hcoherent.exchange a, (hcoherent.exchange_eq a).2⟩

end IndexedTable

/-! ## Tables as ordered maps -/

theorem eraseDups_concat (names : List String) (name : String) :
    (names ++ [name]).eraseDups = if name ∈ names then names.eraseDups else names.eraseDups ++ [name] := by
  rw [List.eraseDups_append, List.removeAll]
  by_cases h : name ∈ names
  · simp [h]
  · simp [h, List.eraseDups_cons]

theorem length_eraseDups_le (names : List String) : names.eraseDups.length ≤ names.length := by
  induction names using List.reverseRecOn with
  | nil => exact Nat.le_refl _
  | append_singleton names name ih =>
    rw [eraseDups_concat, List.length_append]
    split
    · exact Nat.le_add_right_of_le ih
    · rw [List.length_append]
      exact Nat.add_le_add_right ih _

namespace Table

variable {α : Type} [Named α]

/-- The last of these declarations with a name. -/
def lastNamed? (name : String) (added : List α) : Option α := added.reverse.find? fun a => nameOf a == name

/-- The table is the ordered map of these additions, and is what becomes of a table with an index. -/
structure IsMapOf (t : Table α) (added : List α) : Prop where
  names : t.names = (added.map nameOf).eraseDups
  get? : ∀ name, t.get? name = lastNamed? name added
  entry : ∀ (name : String) (place : Nat), t.names[place]? = some name → t.entries[place]? = lastNamed? name added
  contains : ∀ name, t.contains name = true ↔ name ∈ added.map nameOf
  exchange : ∀ a, (t.exchange a).1 = lastNamed? (nameOf a) added
  coherent : (IndexedTable.ofList added).Coherent
  table : (IndexedTable.ofList added).table = t
  get?_index : ∀ name, (IndexedTable.ofList added).get? name = lastNamed? name added
  contains_index : ∀ name, (IndexedTable.ofList added).contains name = true ↔ name ∈ added.map nameOf
  exchange_index : ∀ a, ((IndexedTable.ofList added).exchange a).1 = lastNamed? (nameOf a) added

theorem names_insertAll (added : List α) : (({} : Table α).insertAll added).names = (added.map nameOf).eraseDups := by
  induction added using List.reverseRecOn with
  | nil => rfl
  | append_singleton added a ih =>
    have hmem : (({} : Table α).insertAll added).contains (nameOf a) = true ↔ nameOf a ∈ added.map nameOf := by
      rw [contains_iff, ih, List.mem_eraseDups]
    rw [insertAll_append, List.map_append, List.map_cons, List.map_nil, eraseDups_concat, ← ih]
    exact (names_insert _ a).trans (if_congr hmem rfl rfl)

theorem get?_insertAll (added : List α) (name : String) :
    (({} : Table α).insertAll added).get? name = lastNamed? name added := by
  induction added using List.reverseRecOn with
  | nil => rfl
  | append_singleton added a ih =>
    rw [insertAll_append, lastNamed?, List.reverse_append, List.reverse_singleton, List.singleton_append,
      List.find?_cons]
    show ((({} : Table α).insertAll added).insert a).get? name = _
    by_cases hname : nameOf a = name
    · subst hname
      rw [get?_insert, beq_self_eq_true]
    · rw [get?_insert_of_ne hname, beq_false_of_ne hname, ih, lastNamed?]

/-- **A table is the ordered map of what was added to it.** -/
theorem isMapOf_insertAll (added : List α) : (({} : Table α).insertAll added).IsMapOf added := by
  obtain ⟨hcoherent, htable⟩ := IndexedTable.coherent_ofList added
  have hnames := names_insertAll added
  have hget := get?_insertAll added
  have hcontains (name : String) :
      (({} : Table α).insertAll added).contains name = true ↔ name ∈ added.map nameOf := by
    rw [contains_iff, hnames, List.mem_eraseDups]
  have hnodup := hcoherent.nodup_names
  rw [htable] at hnodup
  refine ⟨hnames, hget, fun name place hp => ?_, hcontains, fun a => hget _, hcoherent, htable, fun name => ?_,
    fun name => ?_, fun a => ?_⟩
  · rw [← get?_of_place hnodup hp, hget]
  · rw [hcoherent.get?_eq, htable, hget]
  · rw [hcoherent.contains_eq, htable, hcontains]
  · rw [(hcoherent.exchange_eq a).1, htable, hget]

end Table

/-! ## What a finding adds to the warnings -/

namespace Finding

/-- The warning that was found. -/
def warning? : Finding → Option Diagnostic
  | warning d => some d
  | _ => none

/-- The name that is declared as a kind. -/
def nameAs? (kind : DeclarationKind) (x : Finding) : Option String :=
  x.heading?.bind fun (k, name, _) => if k = kind then some name else none

theorem exists_heading?_of_nameAs? {kind : DeclarationKind} {x : Finding} {name : String}
    (h : x.nameAs? kind = some name) : ∃ span, x.heading? = some (kind, name, span) := by
  rw [nameAs?, Option.bind_eq_some_iff] at h
  obtain ⟨⟨k, n, span⟩, hx, hk⟩ := h
  dsimp only at hk
  obtain ⟨rfl, hn⟩ := Option.ite_none_right_eq_some.1 hk
  exact ⟨span, by rw [hx, Option.some.inj hn]⟩

/-- What is found is a warning or a declaration with its kind, name and place. -/
theorem eq_warning_or_heading? (x : Finding) :
    (∃ d, x = .warning d) ∨ ∃ kind name span, x.heading? = some (kind, name, span) := by
  cases x with
  | warning d => exact .inl ⟨d, rfl⟩
  | interface i => exact .inr ⟨_, _, _, rfl⟩
  | typeAlias a => exact .inr ⟨_, _, _, rfl⟩
  | enum e => exact .inr ⟨_, _, _, rfl⟩

section

variable {x : Finding} {kind : DeclarationKind} {name : String} {span : Span} (h : x.heading? = some (kind, name, span))

include h

theorem nameAs?_of_heading? (k : DeclarationKind) : x.nameAs? k = if kind = k then some name else none := by
  rw [nameAs?, h, Option.bind_some]

theorem warning?_of_heading? : x.warning? = none := by
  cases x <;> cases h <;> rfl

end

end Finding

/-- The warning says that a declaration of this kind has been replaced. -/
def Diagnostic.repeats (kind : DeclarationKind) (d : Diagnostic) : Bool :=
  match d.warning with
  | .duplicate k _ => k == kind
  | _ => false

/-- The warning says that this name stands for another kind, too. -/
def Diagnostic.collides (name : String) (d : Diagnostic) : Bool :=
  match d.warning with
  | .collision n _ _ => n == name
  | _ => false

namespace Registry

/-- The kinds that a name is declared as, with the one it stands for in front. -/
def kindsOf (r : Registry) (name : String) : List DeclarationKind :=
  [.interface, .typeAlias, .enum].filter fun kind => (r.namesOf kind).contains name

/-- The warnings about a declaration that is added: its name stands for another kind, and it replaces another one. -/
def remarksOn (r : Registry) (kind : DeclarationKind) (name : String) (span : Span) : List Diagnostic :=
  (((r.kindOf? name).filter (· ≠ kind)).toList.map fun existing => ⟨span, .collision name existing kind⟩) ++
    if (r.namesOf kind).contains name then [⟨span, .duplicate kind name⟩] else []

/-- The warnings that come with a finding. -/
def remarks (r : Registry) : Finding → List Diagnostic
  | .interface i => r.remarksOn .interface i.name i.span
  | .typeAlias a => r.remarksOn .typeAlias a.name a.span
  | .enum e => r.remarksOn .enum e.name e.span
  | .warning d => [d]

variable {r : Registry} {x : Finding} {kind : DeclarationKind} {name : String} {span : Span}

theorem remarks_of_heading? (h : x.heading? = some (kind, name, span)) : r.remarks x = r.remarksOn kind name span := by
  cases x <;> cases h <;> rfl

theorem diagnostics_checkCollision_eq (r : Registry) (name : String) (kind : DeclarationKind) (span : Span) :
    (r.checkCollision name kind span).diagnostics = r.diagnostics ++
      ((r.kindOf? name).filter (· ≠ kind)).toList.map fun existing => ⟨span, .collision name existing kind⟩ := by
  unfold checkCollision
  cases r.kindOf? name with
  | none => simp
  | some existing =>
    by_cases h : existing = kind
    · simp [h]
    · simp [h, warn, Option.filter]

theorem diagnostics_warnIf_eq (r : Registry) (replaced : Bool) (span : Span) (w : Warning) :
    (r.warnIf replaced span w).diagnostics = r.diagnostics ++ if replaced then [⟨span, w⟩] else [] := by
  cases replaced <;> simp [warnIf, warn]

/-- **A finding adds its remarks** behind the warnings that are there. -/
theorem diagnostics_add_remarks (r : Registry) (x : Finding) :
    (r.add x).diagnostics = r.diagnostics ++ r.remarks x := by
  cases x with
  | interface i =>
    rw [add, addInterface, diagnostics_warnIf_eq, interfaces_checkCollision, diagnostics_checkCollision_eq,
      List.append_assoc]
    rfl
  | typeAlias a =>
    rw [add, addAlias, diagnostics_warnIf_eq, aliases_checkCollision, diagnostics_checkCollision_eq, List.append_assoc]
    rfl
  | enum e =>
    rw [add, addEnum, diagnostics_warnIf_eq, enums_checkCollision, diagnostics_checkCollision_eq, List.append_assoc]
    rfl
  | warning d => rfl

/-- A warning that is found is one of the remarks. -/
theorem countP_warning?_le_remarks (r : Registry) (x : Finding) (p : Diagnostic → Bool) :
    x.warning?.toList.countP p ≤ (r.remarks x).countP p := by
  rcases x.eq_warning_or_heading? with ⟨d, rfl⟩ | ⟨_, _, _, hx⟩
  · exact Nat.le_refl _
  · rw [Finding.warning?_of_heading? hx]
    exact Nat.zero_le _

/-! ## How many warnings there are -/

theorem kindOf?_eq_head? (r : Registry) (name : String) : r.kindOf? name = (r.kindsOf name).head? := by
  have hi : (r.namesOf .interface).contains name = r.interfaces.contains name := rfl
  have ha : (r.namesOf .typeAlias).contains name = r.aliases.contains name := rfl
  have he : (r.namesOf .enum).contains name = r.enums.contains name := rfl
  simp only [kindOf?, kindsOf, List.filter_cons, List.filter_nil, hi, ha, he]
  cases r.interfaces.contains name <;> cases r.aliases.contains name <;> cases r.enums.contains name <;> rfl

theorem mem_kindsOf : kind ∈ r.kindsOf name ↔ name ∈ r.namesOf kind := by
  rw [kindsOf, List.mem_filter, List.contains_iff_mem, and_iff_right]
  cases kind <;> simp

theorem nodup_kindsOf (r : Registry) (name : String) : (r.kindsOf name).Nodup := List.Nodup.filter _ (by decide)

/-- A declaration is warned about as one that replaces another if there is one of its name and kind. -/
theorem countP_repeats_remarksOn (r : Registry) (kind : DeclarationKind) (name : String) (span : Span)
    (k : DeclarationKind) : (r.remarksOn kind name span).countP (Diagnostic.repeats k) =
      if kind = k ∧ name ∈ r.namesOf kind then 1 else 0 := by
  have hcollisions : ((((r.kindOf? name).filter (· ≠ kind)).toList.map fun existing =>
      (⟨span, .collision name existing kind⟩ : Diagnostic)).countP (Diagnostic.repeats k)) = 0 := by
    rw [List.countP_eq_zero]
    intro d hd
    obtain ⟨existing, -, rfl⟩ := List.mem_map.1 hd
    exact Bool.false_ne_true
  rw [remarksOn, List.countP_append, hcollisions, Nat.zero_add]
  by_cases h : name ∈ r.namesOf kind
  · simp [h, Diagnostic.repeats, List.countP_cons]
  · simp [h]

/-- A declaration of a new kind is warned about if its name stands for another one. -/
theorem one_le_countP_collides_remarksOn (hkind : kind ∉ r.kindsOf name) (h : r.kindsOf name ≠ []) (span : Span) :
    1 ≤ (r.remarksOn kind name span).countP (Diagnostic.collides name) := by
  obtain ⟨existing, rest, hkinds⟩ := List.exists_cons_of_ne_nil h
  have hne : existing ≠ kind := by
    rintro rfl
    exact hkind (hkinds ▸ List.mem_cons_self)
  rw [Nat.one_le_iff_ne_zero, Ne, List.countP_eq_zero]
  intro hnone
  refine hnone ⟨span, .collision name existing kind⟩ ?_ (by simp [Diagnostic.collides])
  rw [remarksOn, kindOf?_eq_head?, hkinds]
  simp [Option.filter, hne]

/-- The names that are declared as a kind, in order. -/
def declaredAs (kind : DeclarationKind) (found : List Finding) : List String := found.filterMap (Finding.nameAs? kind)

theorem namesOf_addAll (found : List Finding) (kind : DeclarationKind) :
    (({} : Registry).addAll found).namesOf kind = (declaredAs kind found).eraseDups := by
  have hpicked {α : Type} [Named α] {pick : Finding → Option α}
      (hpick : ∀ x, (pick x).map nameOf = x.nameAs? kind) :
      (({} : Table α).insertAll (found.filterMap pick)).names = (declaredAs kind found).eraseDups := by
    rw [Table.names_insertAll, List.map_filterMap, declaredAs]
    exact congrArg List.eraseDups (List.filterMap_congr fun x _ => hpick x)
  cases kind with
  | interface =>
    rw [namesOf, interfaces_addAll]
    exact hpicked fun x => by cases x <;> rfl
  | typeAlias =>
    rw [namesOf, aliases_addAll]
    exact hpicked fun x => by cases x <;> rfl
  | enum =>
    rw [namesOf, enums_addAll]
    exact hpicked fun x => by cases x <;> rfl

theorem mem_namesOf_addAll_iff (found : List Finding) :
    name ∈ (({} : Registry).addAll found).namesOf kind ↔ name ∈ declaredAs kind found := by
  rw [namesOf_addAll, List.mem_eraseDups]

theorem addAll_concat (r : Registry) (found : List Finding) (x : Finding) :
    r.addAll (found ++ [x]) = (r.addAll found).add x := addAll_append r found [x]

theorem filterMap_concat {β : Type} (pick : Finding → Option β) (found : List Finding) (x : Finding) :
    (found ++ [x]).filterMap pick = found.filterMap pick ++ (pick x).toList := by
  rw [List.filterMap_append]
  cases hx : pick x <;> simp [hx]

/-- **Every replaced declaration has its warning**: besides the warnings that are found as such, there are as many as
additions of names that were there. -/
theorem countP_repeats (found : List Finding) (kind : DeclarationKind) :
    (({} : Registry).addAll found).diagnostics.countP (Diagnostic.repeats kind) +
        (declaredAs kind found).eraseDups.length =
      (found.filterMap Finding.warning?).countP (Diagnostic.repeats kind) + (declaredAs kind found).length := by
  induction found using List.reverseRecOn with
  | nil => rfl
  | append_singleton found x ih =>
    have hmem (name : String) : name ∈ (({} : Registry).addAll found).namesOf kind ↔ name ∈ declaredAs kind found :=
      mem_namesOf_addAll_iff found
    rw [addAll_concat, diagnostics_add_remarks, List.countP_append, filterMap_concat, List.countP_append]
    rw [declaredAs] at ih hmem ⊢
    rw [filterMap_concat]
    rcases x.eq_warning_or_heading? with ⟨d, rfl⟩ | ⟨k, name, span, hx⟩
    · have hname : (Finding.warning d).nameAs? kind = none := rfl
      have hremarks (r : Registry) : r.remarks (.warning d) = (Finding.warning d).warning?.toList := rfl
      rw [hname, hremarks, Option.toList_none, List.append_nil]
      omega
    · rw [remarks_of_heading? hx, countP_repeats_remarksOn, Finding.warning?_of_heading? hx,
        Finding.nameAs?_of_heading? hx]
      by_cases hk : k = kind
      · subst hk
        rw [if_pos rfl, Option.toList_some, eraseDups_concat, List.length_append]
        by_cases hn : name ∈ found.filterMap (Finding.nameAs? k)
        · simp only [hmem, hn, and_self, if_true, Option.toList_none, List.countP_nil, List.length_singleton]
          omega
        · simp only [hmem, hn, and_false, if_false, Option.toList_none, List.countP_nil, List.length_singleton,
            List.length_append]
          omega
      · simp only [hk, false_and, if_false, Option.toList_none, List.countP_nil, List.append_nil]
        omega

theorem mem_kindsOf_addAll_concat (found : List Finding) (x : Finding) :
    kind ∈ (({} : Registry).addAll (found ++ [x])).kindsOf name ↔
      kind ∈ (({} : Registry).addAll found).kindsOf name ∨ x.nameAs? kind = some name := by
  rw [mem_kindsOf, mem_kindsOf, mem_namesOf_addAll_iff, mem_namesOf_addAll_iff, declaredAs, declaredAs,
    filterMap_concat, List.mem_append, Option.mem_toList]

/-- A finding gives a name at most one more kind. -/
theorem length_kindsOf_concat_le_succ (found : List Finding) (x : Finding) (name : String) :
    ((({} : Registry).addAll (found ++ [x])).kindsOf name).length ≤
      ((({} : Registry).addAll found).kindsOf name).length + 1 := by
  have hsub (added : DeclarationKind) (hadded : ∀ kind, x.nameAs? kind = some name → kind = added) :
      (({} : Registry).addAll (found ++ [x])).kindsOf name ⊆ added :: (({} : Registry).addAll found).kindsOf name := by
    intro kind hkind
    rcases (mem_kindsOf_addAll_concat found x).1 hkind with h | h
    · exact List.mem_cons_of_mem _ h
    · exact hadded kind h ▸ List.mem_cons_self
  have hlength (added : DeclarationKind) (hadded : ∀ kind, x.nameAs? kind = some name → kind = added) :=
    ((nodup_kindsOf _ name).subperm (hsub added hadded)).length_le
  rcases x.eq_warning_or_heading? with ⟨d, rfl⟩ | ⟨added, n, span, hx⟩
  · exact hlength .enum fun kind h => by cases h
  · refine hlength added fun kind h => ?_
    rw [Finding.nameAs?_of_heading? hx] at h
    exact (Option.ite_none_right_eq_some.1 h).1.symm

/-- A name that is declared as a kind again gets no further kind. -/
theorem length_kindsOf_concat_le {found : List Finding} {x : Finding} {name : String}
    (hold : ∀ kind, x.nameAs? kind = some name → kind ∈ (({} : Registry).addAll found).kindsOf name) :
    ((({} : Registry).addAll (found ++ [x])).kindsOf name).length ≤
      ((({} : Registry).addAll found).kindsOf name).length := by
  refine ((nodup_kindsOf _ name).subperm fun kind hkind => ?_).length_le
  rcases (mem_kindsOf_addAll_concat found x).1 hkind with h | h
  · exact h
  · exact hold kind h

/-- **Every further kind of a name has its warning**, besides the warnings that are found as such. -/
theorem countP_collides (found : List Finding) (name : String) :
    (found.filterMap Finding.warning?).countP (Diagnostic.collides name) +
        (((({} : Registry).addAll found).kindsOf name).length - 1) ≤
      (({} : Registry).addAll found).diagnostics.countP (Diagnostic.collides name) := by
  induction found using List.reverseRecOn with
  | nil => exact Nat.zero_le _
  | append_singleton found x ih =>
    rw [addAll_concat, diagnostics_add_remarks, ← addAll_concat, List.countP_append, filterMap_concat,
      List.countP_append]
    by_cases hold : ∀ kind, x.nameAs? kind = some name → kind ∈ (({} : Registry).addAll found).kindsOf name
    · have hlength := length_kindsOf_concat_le hold
      have hremarks := countP_warning?_le_remarks (({} : Registry).addAll found) x (Diagnostic.collides name)
      omega
    · -- a further kind: the name is new, or it stands for another one already
      push Not at hold
      obtain ⟨kind, hname, hkind⟩ := hold
      obtain ⟨span, hx⟩ := Finding.exists_heading?_of_nameAs? hname
      have hlength := length_kindsOf_concat_le_succ found x name
      rw [remarks_of_heading? hx, Finding.warning?_of_heading? hx, Option.toList_none, List.countP_nil]
      by_cases hnil : (({} : Registry).addAll found).kindsOf name = []
      · rw [hnil, List.length_nil] at hlength
        omega
      · have hremark := one_le_countP_collides_remarksOn hkind hnil span
        omega

/-- The registry is what these findings make of an empty one. -/
structure IsRegistryOf (r : Registry) (found : List Finding) : Prop where
  interfaces : r.interfaces.IsMapOf (found.filterMap Finding.interface?)
  aliases : r.aliases.IsMapOf (found.filterMap Finding.typeAlias?)
  enums : r.enums.IsMapOf (found.filterMap Finding.enum?)
  /-- Besides the warnings that are found, there is one for every addition of a name that is not its first. -/
  repeats : ∀ kind, r.diagnostics.countP (Diagnostic.repeats kind) =
    (found.filterMap Finding.warning?).countP (Diagnostic.repeats kind) +
      ((declaredAs kind found).length - (declaredAs kind found).eraseDups.length)
  /-- Besides the warnings that are found, there is one for every further kind of a name. -/
  collides : ∀ name, (found.filterMap Finding.warning?).countP (Diagnostic.collides name) +
    ((r.kindsOf name).length - 1) ≤ r.diagnostics.countP (Diagnostic.collides name)

/-- **The registry of any findings**: its tables are ordered maps, its warnings are complete, and later findings only
add warnings behind those that are there. -/
theorem isRegistryOf_addAll (found : List Finding) :
    (({} : Registry).addAll found).IsRegistryOf found ∧
      ∀ more, (({} : Registry).addAll found).diagnostics <+: (({} : Registry).addAll (found ++ more)).diagnostics := by
  refine ⟨⟨?_, ?_, ?_, fun kind => ?_, countP_collides found⟩, fun more => ?_⟩
  · rw [interfaces_addAll]
    exact Table.isMapOf_insertAll _
  · rw [aliases_addAll]
    exact Table.isMapOf_insertAll _
  · rw [enums_addAll]
    exact Table.isMapOf_insertAll _
  · have hcount := countP_repeats found kind
    have hle := length_eraseDups_le (declaredAs kind found)
    omega
  · rw [addAll_append]
    exact diagnostics_prefix_addAll _ more

end Registry

end TypeSchema
