import Mathlib.Data.List.Forall2
import Mathlib.Data.List.Nodup
import Mathlib.Data.List.Sigma
import TypeSchema.Proofs.Program.Arrangement

/-!
# References to the same or a later schema

The warnings of the fixed order and the order by dependency agree on what is in order already: there is no warning
exactly if ordering by dependency leaves the schemas as they are.

* `forwardReference?_eq_some_iff`, `forall₂_aheadPairs`: the warnings are those about the references that look ahead,
  one for each;
* `sequence_range'`: without such references the places are taken as they stand;
* `eq_range'_of_sequence`: equal schemas are ready together and the earlier is taken first, so only the order as it
  stands gives the same list of schemas;
* `forwardReferences_iff`: both together.
-/

namespace TypeSchema

theorem nodup_eraseDups : ∀ names : List String, names.eraseDups.Nodup
  | [] => by simp
  | name :: names => by
    rw [List.eraseDups_cons, List.nodup_cons]
    exact ⟨by simp, nodup_eraseDups _⟩
termination_by names => names.length
decreasing_by exact Nat.lt_succ_of_le (List.length_filter_le _ _)

/-- A schema names each of those that it refers to once. -/
theorem Validator.nodup_references (v : Validator) : v.references.Nodup := nodup_eraseDups _

namespace Order

variable {schemas : List Schema}

/-! ## One warning for each reference that looks ahead -/

section Warnings

variable {i : Nat} {s : Schema} {name : String} {d : Diagnostic}

/-- The schema at place `i` refers to a name that stands for the same or a later place. -/
def LooksAhead (schemas : List Schema) (i : Nat) (name : String) : Prop :=
  ∃ s j, schemas[i]? = some s ∧ name ∈ s.validator.references ∧ IsPlaceOf schemas name j ∧ i ≤ j

/-- The warning about a reference from a place to a name. -/
def IsWarningAbout (schemas : List Schema) (p : Nat × String) (d : Diagnostic) : Prop :=
  ∃ s j, schemas[p.1]? = some s ∧ IsPlaceOf schemas p.2 j ∧
    d = ⟨s.span, if j = p.1 then .selfReference p.2 else .forwardReference s.name p.2⟩

theorem forwardReference?_eq_some_iff : forwardReference? (schemas.map Schema.name) i s name = some d ↔
    ∃ j, IsPlaceOf schemas name j ∧ i ≤ j ∧
      d = ⟨s.span, if j = i then .selfReference name else .forwardReference s.name name⟩ := by
  unfold forwardReference?
  constructor
  · intro h
    split at h
    · rename_i j hj
      refine ⟨j, lastIndex?_names_iff.1 hj, ?_⟩
      split at h
      · rename_i hji
        cases h
        exact ⟨Nat.le_of_eq hji.symm, by rw [if_pos hji]⟩
      · rename_i hji
        split at h
        · rename_i hlt
          cases h
          exact ⟨Nat.le_of_lt hlt, by rw [if_neg hji]⟩
        · cases h
    · cases h
  · rintro ⟨j, hj, hle, rfl⟩
    rw [lastIndex?_names_iff.2 hj]
    dsimp only
    by_cases hji : j = i
    · rw [if_pos hji, if_pos hji]
    · rw [if_neg hji, if_pos (by omega), if_neg hji]

/-- The references that look ahead, in the order of their warnings. -/
def aheadPairs (schemas : List Schema) : List (Nat × String) :=
  schemas.zipIdx.flatMap fun (s, i) =>
    (s.validator.references.filter fun name => (forwardReference? (schemas.map Schema.name) i s name).isSome).map (i, ·)

theorem mem_aheadPairs_iff : (i, name) ∈ aheadPairs schemas ↔ LooksAhead schemas i name := by
  simp only [aheadPairs, List.mem_flatMap, List.mem_map, List.mem_filter, Prod.exists, List.mem_zipIdx_iff_getElem?,
    Option.isSome_iff_exists, forwardReference?_eq_some_iff]
  constructor
  · rintro ⟨s, k, hs, n, ⟨hn, d, j, hj, hle, -⟩, heq⟩
    cases heq
    exact ⟨s, j, hs, hn, hj, hle⟩
  · rintro ⟨s, j, hs, hn, hj, hle⟩
    exact ⟨s, i, hs, name, ⟨hn, _, j, hj, hle, rfl⟩, rfl⟩

theorem nodup_aheadPairs (schemas : List Schema) : (aheadPairs schemas).Nodup := by
  refine List.nodup_flatMap.2 ⟨fun p _ => ?_, ?_⟩
  · exact (p.1.validator.nodup_references.filter _).map fun a b h => (Prod.mk.inj h).2
  · -- the pairs of different schemas have different places
    have hplaces := List.nodup_zipIdx_map_snd schemas
    rw [List.Nodup, List.pairwise_map] at hplaces
    refine hplaces.imp fun {p q} hpq => ?_
    intro pair hp hq
    obtain ⟨m, -, rfl⟩ := List.mem_map.1 hp
    obtain ⟨n, -, heq⟩ := List.mem_map.1 hq
    exact hpq (Prod.mk.inj heq).1.symm

theorem forall₂_filterMap {α β : Type} (f : α → Option β) (l : List α) :
    List.Forall₂ (fun a b => f a = some b) (l.filter fun a => (f a).isSome) (l.filterMap f) := by
  induction l with
  | nil => exact .nil
  | cons a l ih =>
    cases h : f a with
    | none => simpa [h] using ih
    | some b => simpa [h] using ih

/-- The warnings are those about the references that look ahead. -/
theorem forall₂_aheadPairs (schemas : List Schema) :
    List.Forall₂ (IsWarningAbout schemas) (aheadPairs schemas) (forwardReferences schemas) := by
  have hself : List.Forall₂ (fun p q => p = q ∧ p ∈ schemas.zipIdx) schemas.zipIdx schemas.zipIdx :=
    List.forall₂_same.2 fun p hp => ⟨rfl, hp⟩
  refine List.rel_flatMap hself ?_
  rintro ⟨s, i⟩ - ⟨rfl, hp⟩
  have hs : schemas[i]? = some s := List.mem_zipIdx_iff_getElem?.1 hp
  rw [List.forall₂_map_left_iff]
  refine (forall₂_filterMap _ s.validator.references).imp fun name d hd => ?_
  obtain ⟨j, hj, -, hd⟩ := forwardReference?_eq_some_iff.1 hd
  exact ⟨s, j, hs, hj, hd⟩

/-- There is no warning exactly if all references go to earlier places. -/
theorem forwardReferences_eq_nil_iff :
    forwardReferences schemas = [] ↔ ∀ i j, RefersTo schemas i j → j < i := by
  have hpairs : forwardReferences schemas = [] ↔ aheadPairs schemas = [] := by
    rw [← List.length_eq_zero_iff, ← (forall₂_aheadPairs schemas).length_eq, List.length_eq_zero_iff]
  rw [hpairs, List.eq_nil_iff_forall_not_mem]
  constructor
  · intro h i j hij
    obtain ⟨s, name, hs, hn, hj⟩ := refersTo_iff.1 hij
    by_contra hle
    exact h (i, name) (mem_aheadPairs_iff.2 ⟨s, j, hs, hn, hj, Nat.le_of_not_lt hle⟩)
  · rintro h ⟨i, name⟩ hmem
    obtain ⟨s, j, hs, hn, hj, hle⟩ := mem_aheadPairs_iff.1 hmem
    exact Nat.not_lt_of_le hle (h i j (refersTo_iff.2 ⟨s, name, hs, hn, hj⟩))

end Warnings

/-! ## Taking the places as they stand -/

section Sequence

variable {deps : Nat → List Nat}

/-- The first of the pending places is taken if it is ready. -/
theorem sequence_cons {i : Nat} {pending : List Nat} (h : IsReady deps (i :: pending) i) :
    sequence deps (i :: pending) = (sequence deps pending).map (i :: ·) := by
  have hready : ready? deps (i :: pending) = some i := List.find?_cons_of_pos (all_not_pending_iff.2 h.2)
  rw [sequence]
  simp only [List.isEmpty_cons, Bool.false_eq_true, if_false]
  split
  · rename_i hnone
    rw [hready] at hnone
    cases hnone
  · rename_i j hj
    rw [hready] at hj
    cases hj
    rw [List.erase_cons_head]

theorem sequence_range' (h : ∀ i, ∀ d ∈ deps i, d < i) (m k : Nat) :
    sequence deps (List.range' k m) = .ok (List.range' k m) := by
  induction m generalizing k with
  | zero => rw [sequence]; rfl
  | succ m ih =>
    rw [List.range'_succ, sequence_cons, ih]
    · rfl
    · refine ⟨List.mem_cons_self, fun d hd hp => ?_⟩
      have hlt := h k d hd
      simp only [List.mem_cons, List.mem_range'_1] at hp
      omega

/-- If the places taken give the schemas as they stand, they are the places as they stand.  The place taken first has
the same schema as the first pending one, which is then ready itself. -/
theorem eq_range'_of_sequence (hdeps : ∀ i j, schemas[i]? = schemas[j]? → deps i = deps j) {m k : Nat}
    {places : List Nat} (hm : k + m = schemas.length) (h : sequence deps (List.range' k m) = .ok places)
    (hout : (places.filterMap fun i => schemas[i]?) = schemas.drop k) : places = List.range' k m := by
  induction m generalizing k places with
  | zero => exact (sequence_perm h).eq_nil
  | succ m ih =>
    have harranged := arranged_sequence h
    obtain ⟨i, rest, rfl⟩ := harranged.exists_cons (by simp)
    have hready := harranged.isReady
    have hk : k < schemas.length := by omega
    have hi : i < schemas.length := by
      have := List.mem_range'_1.1 hready.1
      omega
    rw [List.filterMap_cons_some (List.getElem?_eq_getElem hi), List.drop_eq_getElem_cons hk] at hout
    obtain ⟨hsame, hrest⟩ := List.cons.inj hout
    have hsame : deps i = deps k := by
      apply hdeps
      rw [List.getElem?_eq_getElem hi, List.getElem?_eq_getElem hk, hsame]
    rw [List.range'_succ] at h hready ⊢
    rw [sequence_cons ⟨List.mem_cons_self, hsame ▸ hready.2⟩] at h
    obtain ⟨rest', hs, heq⟩ := exists_of_sequence_cons h
    obtain ⟨rfl, rfl⟩ := List.cons.inj heq
    rw [ih (by omega) hs hrest]

end Sequence

/-- Schemas are in order already exactly if all references go to earlier places. -/
theorem topologicalOrder_eq_self_iff :
    topologicalOrder schemas = .ok schemas ↔ ∀ i j, RefersTo schemas i j → j < i := by
  constructor
  · intro h i j hij
    obtain ⟨places, hseq, hout⟩ := exists_places h
    have hdeps (i j : Nat) (hij : schemas[i]? = schemas[j]?) :
        (dependencies schemas).getD i [] = (dependencies schemas).getD j [] := by
      simp only [dependencies, List.getD_eq_getElem?_getD, List.getElem?_map, hij]
    rw [List.range_eq_range'] at hseq
    obtain rfl := eq_range'_of_sequence hdeps (Nat.zero_add _) hseq hout.symm
    have hi := List.mem_range.1 hij.left_mem_range
    obtain ⟨m, hm⟩ : ∃ m, schemas.length = i + (m + 1) := ⟨schemas.length - i - 1, by omega⟩
    have hsplit : List.range' 0 schemas.length = List.range' 0 i ++ i :: List.range' (i + 1) m := by
      rw [hm, ← List.range'_append_1, Nat.zero_add, List.range'_succ]
    have hmem := sequence_deps hseq hsplit (mem_dependencies_iff.2 hij) (List.range_eq_range' ▸ hij.mem_range)
    simpa using (List.mem_range'_1.1 hmem).2
  · intro h
    have hseq := sequence_range' (fun i d hd => h i d (mem_dependencies_iff.1 hd)) schemas.length 0
    unfold topologicalOrder
    dsimp only
    rw [List.range_eq_range', hseq]
    dsimp only
    rw [← List.range_eq_range', range_filterMap_getElem?]

/-- **The two orders agree on what is in order already.**  There is no warning exactly if ordering by dependency leaves
the schemas as they are.  In general there is one warning, at the span of the schema, for each place and each name that
its schema refers to and that stands for the same or a later place, and no other. -/
theorem forwardReferences_iff (schemas : List Schema) :
    (forwardReferences schemas = [] ↔ topologicalOrder schemas = .ok schemas) ∧
    ∃ pairs : List (Nat × String), pairs.Nodup ∧ (∀ i name, (i, name) ∈ pairs ↔ LooksAhead schemas i name) ∧
      List.Forall₂ (IsWarningAbout schemas) pairs (forwardReferences schemas) := by
  refine ⟨?_, aheadPairs schemas, nodup_aheadPairs schemas, fun i name => mem_aheadPairs_iff, ?_⟩
  · rw [forwardReferences_eq_nil_iff, topologicalOrder_eq_self_iff]
  · exact forall₂_aheadPairs schemas

end Order

end TypeSchema
