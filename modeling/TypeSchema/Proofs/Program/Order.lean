import TypeSchema.Program.Order

/-!
# Orders of schemas: what the two orders promise

* `sequence_perm`, `sequence_deps`: taking the first ready place again and again takes every place once, and a place
  only behind those it depends on;
* `topologicalOrder_perm`, `topologicalOrder_definesBeforeUse`: the same of schemas;
* `selfReference_mem`, `forwardReference_mem`: in a list of schemas with distinct names, every reference to a schema
  that does not come earlier has its warning.
-/

namespace TypeSchema

namespace Order

/-- Every name that a schema refers to is the name of a schema before it. -/
def DefinesBeforeUse (schemas : List Schema) : Prop :=
  ∀ before s after, schemas = before ++ s :: after →
    ∀ name ∈ s.validator.references, name ∈ before.map Schema.name

/-! ## The place of a name -/

theorem lastIndex?_eq_none {name : String} : ∀ {names : List String}, name ∉ names → lastIndex? name names = none
  | [], _ => rfl
  | n :: ns, h => by
    rw [List.mem_cons, not_or] at h
    simp [lastIndex?, lastIndex?_eq_none h.2, Ne.symm h.1]

theorem getElem?_of_lastIndex? {name : String} : ∀ {names : List String} {j : Nat},
    lastIndex? name names = some j → names[j]? = some name
  | [], _, h => by cases h
  | n :: ns, j, h => by
    unfold lastIndex? at h
    split at h
    · rename_i i hi
      cases h
      rw [List.getElem?_cons_succ]
      exact getElem?_of_lastIndex? hi
    · split at h
      · rename_i hn
        cases h
        rw [hn]
        rfl
      · cases h

/-- The last place of a name that does not come again. -/
theorem lastIndex?_append {name : String} {after : List String} (h : name ∉ after) : ∀ before : List String,
    lastIndex? name (before ++ name :: after) = some before.length
  | [] => by simp [lastIndex?, lastIndex?_eq_none h]
  | n :: before => by simp [lastIndex?, lastIndex?_append h before]

theorem exists_lastIndex? {name : String} : ∀ {names : List String}, name ∈ names → ∃ j, lastIndex? name names = some j
  | n :: ns, h => by
    cases hj : lastIndex? name ns with
    | some j => exact ⟨j + 1, by simp [lastIndex?, hj]⟩
    | none =>
      have hn : n = name := by
        rcases List.mem_cons.1 h with h | h
        · exact h.symm
        · obtain ⟨j, hj'⟩ := exists_lastIndex? h
          rw [hj] at hj'
          cases hj'
      exact ⟨0, by simp [lastIndex?, hj, hn]⟩

/-! ## Taking the first ready place again and again -/

section Sequence

variable {deps : Nat → List Nat} {pending places : List Nat}

theorem sequence_perm (h : sequence deps pending = .ok places) : places.Perm pending := by
  fun_induction sequence deps pending generalizing places with
  | case1 pending hp =>
    cases h
    rw [List.isEmpty_iff.1 hp]
  | case2 pending hp hr => cases h
  | case3 pending hp i hr ih =>
    cases hs : sequence deps (pending.erase i) with
    | error c => rw [hs] at h; cases h
    | ok rest =>
      rw [hs] at h
      cases h
      have hi : i ∈ pending := List.mem_of_find?_eq_some hr
      exact ((ih hs).cons i).trans (List.perm_cons_erase hi).symm

/-- A place is only taken behind the pending places it depends on. -/
theorem sequence_deps (h : sequence deps pending = .ok places) {before after : List Nat} {i d : Nat}
    (he : places = before ++ i :: after) (hd : d ∈ deps i) (hp : d ∈ pending) : d ∈ before := by
  fun_induction sequence deps pending generalizing places before with
  | case1 pending _ =>
    cases h
    simp at he
  | case2 pending _ hr => cases h
  | case3 pending _ j hr ih =>
    cases hs : sequence deps (pending.erase j) with
    | error c => rw [hs] at h; cases h
    | ok rest =>
      rw [hs] at h
      cases h
      cases before with
      | nil =>
        -- the place just taken was ready, so it depends on nothing that is pending
        simp only [List.nil_append, List.cons.injEq] at he
        obtain ⟨rfl, -⟩ := he
        have hready := List.find?_some hr
        simp only [List.all_eq_true, Bool.not_eq_true', List.contains_eq_mem, decide_eq_false_iff_not] at hready
        exact absurd hp (hready d hd)
      | cons k before =>
        simp only [List.cons_append, List.cons.injEq] at he
        obtain ⟨rfl, he⟩ := he
        by_cases hdj : d = j
        · exact hdj ▸ List.mem_cons_self
        · exact List.mem_cons_of_mem _ (ih hs he ((List.mem_erase_of_ne hdj).2 hp))

end Sequence

/-! ## The order by dependency -/

section Topological

variable {schemas out : List Schema}

/-- An order by dependency reads the schemas off at a sequence of all places. -/
theorem exists_places (h : topologicalOrder schemas = .ok out) :
    ∃ places, sequence (fun i => (dependencies schemas).getD i []) (List.range schemas.length) = .ok places ∧
      out = places.filterMap fun i => schemas[i]? := by
  unfold topologicalOrder at h
  dsimp only at h
  split at h
  · rename_i places hs
    cases h
    exact ⟨places, hs, rfl⟩
  · cases h

theorem range_filterMap_getElem? : ∀ schemas : List Schema,
    ((List.range schemas.length).filterMap fun i => schemas[i]?) = schemas
  | [] => rfl
  | s :: schemas => by
    rw [List.length_cons, List.range_succ_eq_map, List.filterMap_cons_some List.getElem?_cons_zero, List.filterMap_map]
    congr 1
    exact range_filterMap_getElem? schemas

/-- The order by dependency only rearranges. -/
theorem topologicalOrder_perm (h : topologicalOrder schemas = .ok out) : out.Perm schemas := by
  obtain ⟨places, hs, rfl⟩ := exists_places h
  have hp := (sequence_perm hs).filterMap fun i => schemas[i]?
  rwa [range_filterMap_getElem?] at hp

/-- The places that a schema depends on. -/
theorem mem_dependencies {i j : Nat} {s : Schema} {name : String} (hs : schemas[i]? = some s)
    (hn : name ∈ s.validator.references) (hj : lastIndex? name (schemas.map Schema.name) = some j) :
    j ∈ (dependencies schemas).getD i [] := by
  simp only [dependencies, List.getD_eq_getElem?_getD, List.getElem?_map, hs, Option.map_some, Option.getD_some,
    List.mem_filterMap]
  exact ⟨name, hn, hj⟩

/-- In the order by dependency every schema comes behind those it refers to, if all of these are there. -/
theorem topologicalOrder_definesBeforeUse (h : topologicalOrder schemas = .ok out)
    (hc : ∀ s ∈ schemas, ∀ name ∈ s.validator.references, name ∈ schemas.map Schema.name) :
    DefinesBeforeUse out := by
  obtain ⟨places, hseq, rfl⟩ := exists_places h
  intro before s after hout name hn
  obtain ⟨front, rest, hplaces, hfront, hrest⟩ := List.filterMap_eq_append_iff.1 hout
  obtain ⟨gap, i, back, hgap, hnone, hs, -⟩ := List.filterMap_eq_cons_iff.1 hrest
  obtain ⟨j, hj⟩ := exists_lastIndex? (hc s (List.mem_of_getElem? hs) name hn)
  have hname := getElem?_of_lastIndex? hj
  rw [List.getElem?_map, Option.map_eq_some_iff] at hname
  obtain ⟨t, ht, rfl⟩ := hname
  have hlt : j < schemas.length := by
    obtain ⟨hlt, -⟩ := List.getElem?_eq_some_iff.1 ht
    exact hlt
  have hmem : j ∈ front ++ gap :=
    sequence_deps hseq (by rw [hplaces, hgap, List.append_assoc]) (mem_dependencies hs hn hj) (List.mem_range.2 hlt)
  rcases List.mem_append.1 hmem with hm | hm
  · refine List.mem_map_of_mem ?_
    rw [← hfront]
    exact List.mem_filterMap.2 ⟨j, hm, ht⟩
  · rw [hnone j hm] at ht
    cases ht

end Topological

/-! ## Warnings in the fixed order -/

section Forward

variable {schemas before after : List Schema} {s : Schema} {name : String}

/-- The warning about one reference is among all warnings. -/
theorem mem_forwardReferences {d : Diagnostic} (he : schemas = before ++ s :: after)
    (hn : name ∈ s.validator.references)
    (hd : forwardReference? (schemas.map Schema.name) before.length s name = some d) :
    d ∈ forwardReferences schemas := by
  have hz : (s, before.length) ∈ schemas.zipIdx := by
    rw [List.mem_zipIdx_iff_getElem?, he]
    simp
  exact List.mem_flatMap.2 ⟨(s, before.length), hz, List.mem_filterMap.2 ⟨name, hn, hd⟩⟩

/-- A reference of a schema to itself has its warning. -/
theorem selfReference_mem (hd : (schemas.map Schema.name).Nodup) (he : schemas = before ++ s :: after)
    (hn : s.name ∈ s.validator.references) : ⟨s.span, .selfReference s.name⟩ ∈ forwardReferences schemas := by
  apply mem_forwardReferences he hn
  subst he
  rw [List.map_append, List.map_cons] at hd ⊢
  have hnot : s.name ∉ after.map Schema.name := (List.nodup_cons.1 (List.nodup_append.1 hd).2.1).1
  have hj := lastIndex?_append hnot (before.map Schema.name)
  rw [List.length_map] at hj
  simp [forwardReference?, hj]

/-- A reference to a later schema has its warning. -/
theorem forwardReference_mem (hd : (schemas.map Schema.name).Nodup) (he : schemas = before ++ s :: after)
    (hn : name ∈ s.validator.references) (ha : name ∈ after.map Schema.name) :
    ⟨s.span, .forwardReference s.name name⟩ ∈ forwardReferences schemas := by
  apply mem_forwardReferences he hn
  subst he
  obtain ⟨t, ht, rfl⟩ := List.mem_map.1 ha
  obtain ⟨gap, back, rfl⟩ := List.append_of_mem ht
  have hsplit : (before ++ s :: (gap ++ t :: back)).map Schema.name =
      (before ++ s :: gap).map Schema.name ++ t.name :: back.map Schema.name := by simp
  rw [hsplit] at hd ⊢
  have hnot : t.name ∉ back.map Schema.name := (List.nodup_cons.1 (List.nodup_append.1 hd).2.1).1
  have hj := lastIndex?_append hnot ((before ++ s :: gap).map Schema.name)
  have hlt : before.length < ((before ++ s :: gap).map Schema.name).length := by simp
  unfold forwardReference?
  rw [hj]
  dsimp only
  rw [if_neg (Nat.ne_of_gt hlt), if_pos hlt]

end Forward

end Order

end TypeSchema
