import TypeSchema.Proofs.Program.Order

/-!
# The order by dependency is the least arrangement

A list of schemas is arranged by a list of its places.  In an `Arrangement` every place comes once, and behind all those
that its schema refers to; `RefersTo` says which these are, without looking names up.

* `Arranged.erase`: a ready place may be taken first;
* `exists_sequence`: the first ready place can be taken again and again as long as there is an arrangement at all;
* `sequence_earliest`, `sequence_least`: every place taken is the earliest that could come next, so no arrangement comes
  before this one lexicographically;
* `refersTo_iff`: a schema refers to the places that the names in it stand for;
* `topologicalOrder_eq_ok_iff`: the order by dependency exists exactly if there is an arrangement, and is the least one.
-/

namespace TypeSchema

namespace Order

/-! ## Arrangements of pending places -/

/-- The pending places in an order in which each comes behind the pending ones that it depends on. -/
structure Arranged (deps : Nat → List Nat) (pending places : List Nat) : Prop where
  perm : places.Perm pending
  behind : ∀ before i after, places = before ++ i :: after → ∀ d ∈ deps i, d ∈ pending → d ∈ before

section Sequence

variable {deps : Nat → List Nat} {pending places other : List Nat} {i j : Nat}

theorem arranged_sequence (h : sequence deps pending = .ok places) : Arranged deps pending places where
  perm := sequence_perm h
  behind _ _ _ he _ hd hp := sequence_deps h he hd hp

/-- A place can be taken next if it depends on no pending one. -/
def IsReady (deps : Nat → List Nat) (pending : List Nat) (i : Nat) : Prop :=
  i ∈ pending ∧ ∀ d ∈ deps i, d ∉ pending

theorem all_not_pending_iff : ((deps i).all fun d => !pending.contains d) = true ↔ ∀ d ∈ deps i, d ∉ pending := by
  simp [List.all_eq_true]

theorem isReady_of_ready? (h : ready? deps pending = some i) : IsReady deps pending i := by
  have hall := List.find?_some h
  exact ⟨List.mem_of_find?_eq_some h, all_not_pending_iff.1 hall⟩

theorem not_isReady_of_ready? (h : ready? deps pending = none) (j : Nat) : ¬IsReady deps pending j := by
  rintro ⟨hj, hdeps⟩
  exact List.find?_eq_none.1 h j hj (all_not_pending_iff.2 hdeps)

/-- Of pending places in increasing order the earliest ready one is found. -/
theorem ready?_le (hs : pending.Pairwise (· < ·)) (h : ready? deps pending = some i) (hj : IsReady deps pending j) :
    i ≤ j := by
  obtain ⟨-, front, back, rfl, hfront⟩ := List.find?_eq_some_iff_append.1 h
  rcases List.mem_append.1 hj.1 with hm | hm
  · -- a place in front of the one found is not ready
    have hnot := hfront j hm
    rw [all_not_pending_iff.2 hj.2] at hnot
    cases hnot
  · rcases List.mem_cons.1 hm with rfl | hm
    · exact Nat.le_refl _
    · have hback := (List.pairwise_append.1 hs).2.1
      exact Nat.le_of_lt (List.rel_of_pairwise_cons hback hm)

/-- The first place of an arrangement is ready. -/
theorem Arranged.isReady (h : Arranged deps pending (i :: places)) : IsReady deps pending i := by
  refine ⟨h.perm.subset List.mem_cons_self, fun d hd hp => ?_⟩
  have hnil := h.behind [] i places rfl d hd hp
  cases hnil

theorem Arranged.exists_cons (h : Arranged deps pending places) (hp : pending ≠ []) :
    ∃ i rest, places = i :: rest := by
  refine List.exists_cons_of_ne_nil fun hnil => hp ?_
  have hperm := h.perm
  rw [hnil] at hperm
  exact hperm.symm.eq_nil

/-- **A ready place may be taken first**: what is left of an arrangement still is one. -/
theorem Arranged.erase (h : Arranged deps pending places) (hn : pending.Nodup) (hi : i ∈ pending) :
    Arranged deps (pending.erase i) (places.erase i) := by
  refine ⟨h.perm.erase i, fun before j after he d hd hp => ?_⟩
  obtain ⟨hne, hp⟩ := (List.Nodup.mem_erase_iff hn).1 hp
  have hmem : i ∈ places := h.perm.symm.subset hi
  obtain ⟨front, back, hnot, hplaces, herase⟩ := List.exists_erase_eq hmem
  rw [herase] at he
  -- the place that is left out stands behind `j` or in front of it
  rcases List.append_eq_append_iff.1 he with ⟨gap, hb, hback⟩ | ⟨gap, hf, hgap⟩
  · have hsplit : places = (front ++ i :: gap) ++ j :: after := by simp [hplaces, hback]
    have hd' := h.behind _ j after hsplit d hd hp
    subst hb
    simpa [hne] using hd'
  · cases gap with
    | nil =>
      rw [List.append_nil] at hf
      rw [List.nil_append] at hgap
      have hsplit : places = (before ++ [i]) ++ j :: after := by simp [hplaces, hf, hgap]
      have hd' := h.behind _ j after hsplit d hd hp
      simpa [hne] using hd'
    | cons k gap =>
      obtain ⟨rfl, rfl⟩ := List.cons.inj hgap
      have hsplit : places = before ++ j :: (gap ++ i :: back) := by simp [hplaces, hf]
      exact h.behind before j _ hsplit d hd hp

theorem Arranged.tail (h : Arranged deps pending (i :: places)) (hn : pending.Nodup) :
    Arranged deps (pending.erase i) places := by
  have htail := h.erase hn h.isReady.1
  rwa [List.erase_cons_head] at htail

/-- If there is an arrangement, taking the first ready place again and again comes to an end. -/
theorem exists_sequence (h : Arranged deps pending other) (hn : pending.Nodup) :
    ∃ places, sequence deps pending = .ok places := by
  fun_induction sequence deps pending generalizing other with
  | case1 => exact ⟨[], rfl⟩
  | case2 pending hp hr =>
    obtain ⟨i, rest, rfl⟩ := h.exists_cons (by simpa using hp)
    exact absurd h.isReady (not_isReady_of_ready? hr i)
  | case3 pending hp i hr ih =>
    have hi := isReady_of_ready? hr
    obtain ⟨places, hs⟩ := ih (h.erase hn hi.1) (hn.erase i)
    exact ⟨i :: places, by rw [hs]; rfl⟩

theorem exists_of_sequence_cons (h : (sequence deps pending).map (i :: ·) = .ok places) :
    ∃ rest, sequence deps pending = .ok rest ∧ places = i :: rest := by
  cases hs : sequence deps pending with
  | error cycle =>
    rw [hs] at h
    cases h
  | ok rest =>
    rw [hs] at h
    cases h
    exact ⟨rest, rfl, rfl⟩

/-- Every place is the earliest of those that could come next. -/
theorem sequence_earliest (h : sequence deps pending = .ok places) (hs : pending.Pairwise (· < ·))
    {before after : List Nat} (he : places = before ++ i :: after) (hj : j ∈ pending) (hb : j ∉ before)
    (hdeps : ∀ d ∈ deps j, d ∈ pending → d ∈ before) : i ≤ j := by
  fun_induction sequence deps pending generalizing places before with
  | case1 pending _ =>
    cases h
    simp at he
  | case2 pending _ hr => cases h
  | case3 pending _ k hr ih =>
    obtain ⟨rest, hrest, rfl⟩ := exists_of_sequence_cons h
    cases before with
    | nil =>
      obtain ⟨rfl, -⟩ := List.cons.inj he
      exact ready?_le hs hr ⟨hj, fun d hd hp => List.not_mem_nil (hdeps d hd hp)⟩
    | cons k' before =>
      obtain ⟨rfl, htail⟩ := List.cons.inj he
      rw [List.mem_cons, not_or] at hb
      have hn : pending.Nodup := hs.imp Nat.ne_of_lt
      refine ih hrest (hs.erase k) htail ((List.mem_erase_of_ne hb.1).2 hj) hb.2 fun d hd hp => ?_
      obtain ⟨hne, hp⟩ := (List.Nodup.mem_erase_iff hn).1 hp
      exact List.mem_of_ne_of_mem hne (hdeps d hd hp)

/-- **No arrangement comes before the one that is found**, lexicographically. -/
theorem sequence_least (h : sequence deps pending = .ok places) (hs : pending.Pairwise (· < ·))
    (ho : Arranged deps pending other) : places = other ∨ List.Lex (· < ·) places other := by
  fun_induction sequence deps pending generalizing places other with
  | case1 pending hp =>
    cases h
    have hnil := ho.perm
    rw [List.isEmpty_iff.1 hp] at hnil
    exact .inl hnil.eq_nil.symm
  | case2 pending _ hr => cases h
  | case3 pending hp i hr ih =>
    obtain ⟨rest, hrest, rfl⟩ := exists_of_sequence_cons h
    obtain ⟨j, rest', rfl⟩ := ho.exists_cons (by simpa using hp)
    have hn : pending.Nodup := hs.imp Nat.ne_of_lt
    rcases Nat.lt_or_eq_of_le (ready?_le hs hr ho.isReady) with hlt | rfl
    · exact .inr (.rel hlt)
    · rcases ih hrest (hs.erase i) (ho.tail hn) with heq | hlex
      · exact .inl (congrArg (i :: ·) heq)
      · exact .inr (.cons hlex)

end Sequence

/-! ## Arrangements of schemas -/

/-- The schema at place `i` refers to the name of the schema at place `j`, which is the last of that name. -/
def RefersTo (schemas : List Schema) (i j : Nat) : Prop :=
  ∃ s t, schemas[i]? = some s ∧ schemas[j]? = some t ∧ t.name ∈ s.validator.references ∧
    ∀ k u, schemas[k]? = some u → u.name = t.name → k ≤ j

/-- An arrangement of schemas by their places: each comes once, and behind all those it refers to. -/
structure Arrangement (schemas : List Schema) (places : List Nat) : Prop where
  perm : places.Perm (List.range schemas.length)
  behind : ∀ before i after, places = before ++ i :: after → ∀ j, RefersTo schemas i j → j ∈ before

/-- The lexicographically first arrangement. -/
structure LeastArrangement (schemas : List Schema) (places : List Nat) : Prop extends Arrangement schemas places where
  least : ∀ other, Arrangement schemas other → places = other ∨ List.Lex (· < ·) places other

/-- Every place is the earliest of those that have not come yet and of whose references all have. -/
def TakesEarliest (schemas : List Schema) (places : List Nat) : Prop :=
  ∀ before i after, places = before ++ i :: after → ∀ j < schemas.length, j ∉ before →
    (∀ d, RefersTo schemas j d → d ∈ before) → i ≤ j

section Schemas

variable {schemas out : List Schema} {places : List Nat} {i j : Nat}

theorem le_of_lastIndex? {name : String} : ∀ {names : List String} {j k : Nat},
    lastIndex? name names = some j → names[k]? = some name → k ≤ j
  | [], _, _, h, _ => by cases h
  | n :: ns, j, k, h, hk => by
    unfold lastIndex? at h
    cases k with
    | zero => exact Nat.zero_le j
    | succ k =>
      rw [List.getElem?_cons_succ] at hk
      obtain ⟨i, hi⟩ := exists_lastIndex? (List.mem_of_getElem? hk)
      rw [hi] at h
      cases h
      exact Nat.succ_le_succ (le_of_lastIndex? hi hk)

/-- The place that a name stands for is its last one. -/
theorem lastIndex?_eq_some_iff {name : String} {names : List String} :
    lastIndex? name names = some j ↔ names[j]? = some name ∧ ∀ k, names[k]? = some name → k ≤ j := by
  constructor
  · intro h
    exact ⟨getElem?_of_lastIndex? h, fun k hk => le_of_lastIndex? h hk⟩
  · rintro ⟨hj, hlast⟩
    obtain ⟨l, hl⟩ := exists_lastIndex? (List.mem_of_getElem? hj)
    have hle := hlast l (getElem?_of_lastIndex? hl)
    rw [hl, Nat.le_antisymm hle (le_of_lastIndex? hl hj)]

/-- Place `j` is the one that a name stands for: the last whose schema has this name. -/
def IsPlaceOf (schemas : List Schema) (name : String) (j : Nat) : Prop :=
  ∃ t, schemas[j]? = some t ∧ t.name = name ∧ ∀ k u, schemas[k]? = some u → u.name = name → k ≤ j

theorem lastIndex?_names_iff {name : String} :
    lastIndex? name (schemas.map Schema.name) = some j ↔ IsPlaceOf schemas name j := by
  simp only [lastIndex?_eq_some_iff, List.getElem?_map, Option.map_eq_some_iff]
  constructor
  · rintro ⟨⟨t, ht, hn⟩, hlast⟩
    exact ⟨t, ht, hn, fun k u hu hn => hlast k ⟨u, hu, hn⟩⟩
  · rintro ⟨t, ht, hn, hlast⟩
    exact ⟨⟨t, ht, hn⟩, fun k ⟨u, hu, hn⟩ => hlast k u hu hn⟩

/-- A name stands for one place. -/
theorem IsPlaceOf.unique {name : String} (hi : IsPlaceOf schemas name i) (hj : IsPlaceOf schemas name j) : i = j := by
  obtain ⟨s, hs, hsn, hi⟩ := hi
  obtain ⟨t, ht, htn, hj⟩ := hj
  exact Nat.le_antisymm (hj i s hs hsn) (hi j t ht htn)

/-- References go to the places that names stand for. -/
theorem refersTo_iff : RefersTo schemas i j ↔
    ∃ s name, schemas[i]? = some s ∧ name ∈ s.validator.references ∧ IsPlaceOf schemas name j := by
  constructor
  · rintro ⟨s, t, hs, ht, href, hlast⟩
    exact ⟨s, t.name, hs, href, t, ht, rfl, hlast⟩
  · rintro ⟨s, name, hs, href, t, ht, rfl, hlast⟩
    exact ⟨s, t, hs, ht, href, hlast⟩

/-- A schema depends on those that it refers to. -/
theorem mem_dependencies_iff : j ∈ (dependencies schemas).getD i [] ↔ RefersTo schemas i j := by
  rw [refersTo_iff]
  constructor
  · intro h
    simp only [dependencies, List.getD_eq_getElem?_getD, List.getElem?_map] at h
    cases hs : schemas[i]? with
    | none =>
      rw [hs] at h
      cases h
    | some s =>
      rw [hs, Option.map_some, Option.getD_some, List.mem_filterMap] at h
      obtain ⟨name, href, hlast⟩ := h
      exact ⟨s, name, rfl, href, lastIndex?_names_iff.1 hlast⟩
  · rintro ⟨s, name, hs, href, hj⟩
    exact mem_dependencies hs href (lastIndex?_names_iff.2 hj)

theorem RefersTo.mem_range (h : RefersTo schemas i j) : j ∈ List.range schemas.length := by
  obtain ⟨-, t, -, ht, -, -⟩ := h
  obtain ⟨hlt, -⟩ := List.getElem?_eq_some_iff.1 ht
  exact List.mem_range.2 hlt

theorem RefersTo.left_mem_range (h : RefersTo schemas i j) : i ∈ List.range schemas.length := by
  obtain ⟨s, -, hs, -⟩ := h
  obtain ⟨hlt, -⟩ := List.getElem?_eq_some_iff.1 hs
  exact List.mem_range.2 hlt

/-- Arrangements of schemas are arrangements of all places along their dependencies. -/
theorem arrangement_iff : Arrangement schemas places ↔
    Arranged (fun i => (dependencies schemas).getD i []) (List.range schemas.length) places := by
  constructor
  · intro h
    exact ⟨h.perm, fun before i after he d hd _ => h.behind before i after he d (mem_dependencies_iff.1 hd)⟩
  · intro h
    refine ⟨h.perm, fun before i after he j hj => ?_⟩
    exact h.behind before i after he j (mem_dependencies_iff.2 hj) hj.mem_range

/-- The sequence of all places is the least arrangement. -/
theorem leastArrangement_of_sequence
    (h : sequence (fun i => (dependencies schemas).getD i []) (List.range schemas.length) = .ok places) :
    LeastArrangement schemas places where
  toArrangement := arrangement_iff.2 (arranged_sequence h)
  least _ ho := sequence_least h List.pairwise_lt_range (arrangement_iff.1 ho)

theorem takesEarliest_of_sequence
    (h : sequence (fun i => (dependencies schemas).getD i []) (List.range schemas.length) = .ok places) :
    TakesEarliest schemas places := by
  intro before i after he j hj hb hdeps
  refine sequence_earliest h List.pairwise_lt_range he (List.mem_range.2 hj) hb fun d hd _ => ?_
  exact hdeps d (mem_dependencies_iff.1 hd)

/-- There is only one least arrangement. -/
theorem LeastArrangement.unique {other : List Nat} (h : LeastArrangement schemas places)
    (h' : LeastArrangement schemas other) : places = other := by
  rcases h.least other h'.toArrangement with heq | hlt
  · exact heq
  · rcases h'.least places h.toArrangement with heq | hgt
    · exact heq.symm
    · exact absurd hgt (List.lt_asymm hlt)

/-- Schemas are read off at places that are all there. -/
theorem map_some_filterMap (h : places.Perm (List.range schemas.length)) :
    ((places.filterMap fun i => schemas[i]?).map some) = places.map fun i => schemas[i]? := by
  have hlt : ∀ i ∈ places, i < schemas.length := fun i hi => List.mem_range.1 (h.subset hi)
  clear h
  induction places with
  | nil => rfl
  | cons i places ih =>
    obtain ⟨hi, hrest⟩ := List.forall_mem_cons.1 hlt
    rw [List.filterMap_cons_some (List.getElem?_eq_getElem hi), List.map_cons, List.map_cons, ih hrest,
      List.getElem?_eq_getElem hi]

/-- **The order by dependency** exists exactly if the schemas can be arranged at all.  It rearranges them, takes at each
step the earliest schema all of whose references have come, and is the lexicographically first arrangement. -/
theorem topologicalOrder_eq_ok_iff : topologicalOrder schemas = .ok out ↔
    out.Perm schemas ∧ ∃ places, LeastArrangement schemas places ∧ TakesEarliest schemas places ∧
      out.map some = places.map fun i => schemas[i]? := by
  constructor
  · intro h
    obtain ⟨places, hseq, rfl⟩ := exists_places h
    have hleast := leastArrangement_of_sequence hseq
    exact ⟨topologicalOrder_perm h, places, hleast, takesEarliest_of_sequence hseq, map_some_filterMap hleast.perm⟩
  · rintro ⟨-, places, hleast, -, hout⟩
    obtain ⟨found, hseq⟩ := exists_sequence (arrangement_iff.1 hleast.toArrangement) List.nodup_range
    obtain rfl := hleast.unique (leastArrangement_of_sequence hseq)
    have heq : (places.filterMap fun i => schemas[i]?) = out := by
      apply (List.map_inj_right fun _ _ => Option.some.inj).1
      rw [map_some_filterMap hleast.perm, hout]
    unfold topologicalOrder
    dsimp only
    rw [hseq, ← heq]

end Schemas

end Order

end TypeSchema
