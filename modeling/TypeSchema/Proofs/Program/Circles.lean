import Mathlib.Data.List.Chain
import Mathlib.Data.List.Nodup
import Mathlib.Data.List.Perm.Subperm
import Mathlib.Logic.Relation
import TypeSchema.Proofs.Program.Arrangement

/-!
# Circles of references

The order by dependency fails exactly if the schemas refer to each other in a circle, and then names one.

* `IsCircle`: a list with the same element at both ends, distinct elements otherwise, and each related to the next;
* `OnTrail.step`, `OnTrail.closes`: following pending dependencies keeps a path without repetition, and a place that
  comes again closes a circle;
* `follow_of_blocked`: among places none of which is ready this never comes to a dead end;
* `exists_blocked`: taking ready places fails at such places only;
* `topologicalOrder_error`: the order by dependency fails exactly on a circle, and reports one by its names.
-/

namespace TypeSchema

/-! ## Circles of a relation -/

/-- A list that goes round in a circle: the first element comes last again, the others are distinct, and each is
related to the next. -/
structure IsCircle {α : Type} (R : α → α → Prop) (l : List α) : Prop where
  two_le : 2 ≤ l.length
  closed : l.head? = l.getLast?
  distinct : l.dropLast.Nodup
  linked : l.IsChain R

namespace IsCircle

variable {α β : Type} {R : α → α → Prop} {l : List α} {a b : α}

theorem of_concat (hd : (a :: l).Nodup) (hl : (a :: l ++ [a]).IsChain R) : IsCircle R (a :: l ++ [a]) where
  two_le := by simp
  closed := by rw [List.getLast?_concat, List.cons_append, List.head?_cons]
  distinct := by rwa [List.dropLast_concat]
  linked := hl

theorem imp {S : α → α → Prop} (h : IsCircle R l) (hRS : ∀ a b, R a b → S a b) : IsCircle S l where
  two_le := h.two_le
  closed := h.closed
  distinct := h.distinct
  linked := h.linked.imp hRS

theorem exists_concat (h : IsCircle R l) : ∃ a inner, l = a :: (inner ++ [a]) := by
  match l, h.two_le, h.closed with
  | a :: b :: t, _, hclosed =>
    obtain ⟨inner, c, hc⟩ : ∃ inner c, b :: t = inner ++ [c] :=
      ⟨_, _, (List.dropLast_concat_getLast (List.cons_ne_nil b t)).symm⟩
    rw [hc, List.head?_cons, ← List.cons_append, List.getLast?_concat] at hclosed
    cases hclosed
    exact ⟨a, inner, by rw [hc]⟩

/-- A circle leads from an element back to it. -/
theorem transGen (h : IsCircle R l) : ∃ a, Relation.TransGen R a a := by
  obtain ⟨a, inner, rfl⟩ := h.exists_concat
  obtain ⟨b, t, hbt⟩ := List.exists_cons_of_ne_nil (List.concat_ne_nil a inner)
  have hlinked := h.linked
  rw [hbt, List.isChain_cons_cons] at hlinked
  have hlast : (b :: t).getLast (List.cons_ne_nil b t) = a := by simp [← hbt]
  exact ⟨a, .head' hlinked.1 (List.relationReflTransGen_of_exists_isChain_cons t hlinked.2 hlast)⟩

/-- Every element of a circle comes behind another one. -/
theorem exists_rel (h : IsCircle R l) (hb : b ∈ l) : ∃ a ∈ l, R a b := by
  obtain ⟨a, inner, rfl⟩ := h.exists_concat
  have hmem : b ∈ inner ++ [a] := by
    rcases List.mem_cons.1 hb with rfl | hb
    · exact List.mem_concat_self
    · exact hb
  obtain ⟨front, back, hsplit⟩ := List.append_of_mem hmem
  have hlinked : ((a :: front) ++ (b :: back)).IsChain R := by
    rw [List.cons_append, ← hsplit]
    exact h.linked
  refine ⟨(a :: front).getLast (List.cons_ne_nil a front), ?_, ?_⟩
  · rw [hsplit, ← List.cons_append]
    exact List.mem_append_left (b :: back) (List.getLast_mem _)
  · exact hlinked.rel_getLast_head_of_append _ (List.cons_ne_nil b back)

/-- A circle under a function that keeps the relation and no two of its elements together. -/
theorem map {S : β → β → Prop} {f : α → β} (h : IsCircle R l) (hf : ∀ a ∈ l, ∀ b ∈ l, R a b → S (f a) (f b))
    (hinj : ∀ a ∈ l, ∀ b ∈ l, f a = f b → a = b) : IsCircle S (l.map f) where
  two_le := by simpa using h.two_le
  closed := by rw [List.head?_map, List.getLast?_map, h.closed]
  distinct := by
    rw [← List.map_dropLast]
    refine List.Nodup.map_on (fun a ha b hb => ?_) h.distinct
    exact hinj a (List.dropLast_subset l ha) b (List.dropLast_subset l hb)
  linked := by
    rw [List.isChain_map]
    exact h.linked.imp_of_mem_imp fun a b ha hb => hf a ha b hb

end IsCircle

namespace Order

/-! ## Following pending dependencies -/

section Trail

variable {deps : Nat → List Nat} {pending path : List Nat} {current next : Nat}

/-- A path of distinct pending places that leads along dependencies to the current place. -/
structure OnTrail (deps : Nat → List Nat) (pending path : List Nat) (current : Nat) : Prop where
  last : path.getLast? = some current
  nodup : path.Nodup
  subset : path ⊆ pending
  linked : path.IsChain fun i j => j ∈ deps i

theorem OnTrail.start (h : current ∈ pending) : OnTrail deps pending [current] current where
  last := rfl
  nodup := List.nodup_singleton current
  subset := by simpa using h
  linked := .singleton current

theorem OnTrail.linked_concat (h : OnTrail deps pending path current) (hd : next ∈ deps current) :
    (path ++ [next]).IsChain fun i j => j ∈ deps i := by
  refine h.linked.append (.singleton next) fun i hi j hj => ?_
  rw [h.last] at hi
  cases hi
  cases hj
  exact hd

/-- A pending dependency that is not on the path lengthens it. -/
theorem OnTrail.step (h : OnTrail deps pending path current) (hd : next ∈ deps current) (hp : next ∈ pending)
    (hnew : next ∉ path) : OnTrail deps pending (path ++ [next]) next where
  last := List.getLast?_concat
  nodup := List.nodup_append.2 ⟨h.nodup, List.nodup_singleton next, by rintro i hi j hj rfl; simp_all⟩
  subset := List.append_subset.2 ⟨h.subset, by simpa using hp⟩
  linked := h.linked_concat hd

/-- A dependency that is on the path closes a circle. -/
theorem OnTrail.closes (h : OnTrail deps pending path current) (hd : next ∈ deps current) (hold : next ∈ path) :
    IsCircle (fun i j => j ∈ deps i) (path.dropWhile (· ≠ next) ++ [next]) ∧
      path.dropWhile (· ≠ next) ++ [next] ⊆ pending := by
  obtain ⟨front, back, rfl, hfront⟩ := List.eq_append_cons_of_mem hold
  have hdrop : (front ++ next :: back).dropWhile (· ≠ next) = next :: back := by
    rw [List.dropWhile_append_of_pos fun i hi => by simpa using ne_of_mem_of_not_mem hi hfront]
    simp
  have hlinked := h.linked_concat hd
  rw [List.append_assoc] at hlinked
  rw [hdrop]
  refine ⟨.of_concat (List.nodup_append.1 h.nodup).2.1 hlinked.right_of_append, ?_⟩
  have hback : next :: back ⊆ pending := fun i hi => h.subset (List.mem_append_right front hi)
  exact List.append_subset.2 ⟨hback, by simpa using h.subset hold⟩

/-- Every pending place depends on a pending one. -/
def Blocked (deps : Nat → List Nat) (pending : List Nat) : Prop := ∀ i ∈ pending, ∃ d ∈ deps i, d ∈ pending

theorem blocked_of_ready? (h : ready? deps pending = none) : Blocked deps pending := by
  intro i hi
  by_contra hnone
  exact not_isReady_of_ready? h i ⟨hi, fun d hd hp => hnone ⟨d, hd, hp⟩⟩

/-- **Among blocked places a path ends in a circle**: the current place always has a pending dependency, and every round
uses one up. -/
theorem follow_of_blocked (hb : Blocked deps pending) (h : OnTrail deps pending path current) :
    ∃ circle, follow deps pending path current = .circle circle ∧ IsCircle (fun i j => j ∈ deps i) circle ∧
      circle ⊆ pending := by
  fun_induction follow deps pending path current with
  | case1 path current hnone =>
    obtain ⟨d, hd, hp⟩ := hb current (h.subset (List.mem_of_getLast? h.last))
    simpa [hp] using List.find?_eq_none.1 hnone d hd
  | case2 path current next hnext hold =>
    exact ⟨_, rfl, h.closes (List.mem_of_find?_eq_some hnext) (by simpa using hold)⟩
  | case3 path current next hnext hnew ih =>
    have hp : next ∈ pending := by simpa using List.find?_some hnext
    exact ih (h.step (List.mem_of_find?_eq_some hnext) hp (by simpa using hnew))

theorem follow_of_ready? {start : Nat} {rest : List Nat} (h : ready? deps (start :: rest) = none) :
    ∃ circle, follow deps (start :: rest) [start] start = .circle circle ∧ IsCircle (fun i j => j ∈ deps i) circle ∧
      circle ⊆ start :: rest :=
  follow_of_blocked (blocked_of_ready? h) (.start List.mem_cons_self)

/-- A circle of pending places has at most one place more than are pending. -/
theorem length_circle_le {circle : List Nat} (h : IsCircle (fun i j => j ∈ deps i) circle) (hp : circle ⊆ pending) :
    circle.length ≤ pending.length + 1 := by
  have hle : circle.dropLast.length ≤ pending.length :=
    (List.subperm_of_subset h.distinct fun i hi => hp (List.dropLast_subset circle hi)).length_le
  rw [List.length_dropLast] at hle
  omega

/-- Taking ready places only fails when those that are left are blocked. -/
theorem exists_blocked {places : List Nat} (h : sequence deps pending = .error places) :
    ∃ start rest, start :: rest ⊆ pending ∧ ready? deps (start :: rest) = none ∧
      places = (follow deps (start :: rest) [start] start).places := by
  fun_induction sequence deps pending with
  | case1 => cases h
  | case2 pending hp hr =>
    cases h
    obtain ⟨start, rest, rfl⟩ := List.exists_cons_of_ne_nil (by simpa using hp : pending ≠ [])
    exact ⟨start, rest, List.Subset.refl _, hr, rfl⟩
  | case3 pending hp i hr ih =>
    cases hs : sequence deps (pending.erase i) with
    | ok taken => rw [hs] at h; cases h
    | error left =>
      rw [hs] at h
      cases h
      obtain ⟨start, rest, hsub, hready, hplaces⟩ := ih hs
      exact ⟨start, rest, List.Subset.trans hsub List.erase_subset, hready, hplaces⟩

/-- In an arrangement every place comes behind those it depends on. -/
theorem Arranged.idxOf_lt {places : List Nat} {i d : Nat} (h : Arranged deps pending places) (hi : i ∈ pending)
    (hd : d ∈ deps i) (hp : d ∈ pending) : places.idxOf d < places.idxOf i := by
  obtain ⟨before, after, rfl, hnot⟩ := List.eq_append_cons_of_mem (h.perm.symm.subset hi)
  have hbefore := h.behind before i after rfl d hd hp
  rw [List.idxOf_append_of_mem hbefore, List.idxOf_append_of_notMem hnot, List.idxOf_cons_self, Nat.add_zero]
  exact List.idxOf_lt_length_of_mem hbefore

end Trail

/-! ## Circles of schemas -/

section Schemas

variable {schemas : List Schema}

/-- The schema that a name stands for refers to the next name. -/
def NameRefersTo (schemas : List Schema) (name next : String) : Prop :=
  ∃ i s, IsPlaceOf schemas name i ∧ schemas[i]? = some s ∧ next ∈ s.validator.references

/-- A circle of places is a circle of names.  References go to places that names stand for, so on a circle different
places have different names. -/
theorem isCircle_names {circle : List Nat} (h : IsCircle (RefersTo schemas) circle) :
    IsCircle (NameRefersTo schemas) (circle.filterMap fun i => schemas[i]?.map Schema.name) := by
  have hplace : ∀ i ∈ circle, ∃ t, schemas[i]? = some t ∧ IsPlaceOf schemas t.name i := by
    intro i hi
    obtain ⟨k, -, s, t, -, ht, -, hlast⟩ := h.exists_rel hi
    exact ⟨t, ht, t, ht, rfl, hlast⟩
  let nameAt (i : Nat) : String := (schemas[i]?.map Schema.name).getD ""
  have hname {i : Nat} {t : Schema} (ht : schemas[i]? = some t) : nameAt i = t.name := by simp [nameAt, ht]
  have hnames : (circle.filterMap fun i => schemas[i]?.map Schema.name) = circle.map nameAt := by
    rw [← List.filterMap_eq_map]
    refine List.filterMap_congr fun i hi => ?_
    obtain ⟨t, ht, -⟩ := hplace i hi
    rw [ht, Function.comp_apply, hname ht, Option.map_some]
  rw [hnames]
  refine h.map (fun i hi j hj hij => ?_) fun i hi j hj hij => ?_
  · obtain ⟨s, t, hs, ht, href, -⟩ := hij
    obtain ⟨s', hs', hplace'⟩ := hplace i hi
    obtain rfl : s = s' := Option.some.inj (hs.symm.trans hs')
    rw [hname hs, hname ht]
    exact ⟨i, s, hplace', hs, href⟩
  · obtain ⟨s, hs, hplace₁⟩ := hplace i hi
    obtain ⟨t, ht, hplace₂⟩ := hplace j hj
    rw [hname hs, hname ht] at hij
    exact hplace₁.unique (hij ▸ hplace₂)

/-- Schemas in an order by dependency do not refer to each other in a circle. -/
theorem not_transGen_of_ok {out : List Schema} (h : topologicalOrder schemas = .ok out) (i : Nat) :
    ¬Relation.TransGen (RefersTo schemas) i i := by
  obtain ⟨places, hseq, -⟩ := exists_places h
  have hstep (i j : Nat) (hij : RefersTo schemas i j) : places.idxOf j < places.idxOf i :=
    (arranged_sequence hseq).idxOf_lt hij.left_mem_range (mem_dependencies_iff.2 hij) hij.mem_range
  have hrun (i j : Nat) (hij : Relation.TransGen (RefersTo schemas) i j) : places.idxOf j < places.idxOf i := by
    induction hij with
    | single hij => exact hstep _ _ hij
    | tail _ hjk ih => exact (hstep _ _ hjk).trans ih
  exact fun hi => Nat.lt_irrefl _ (hrun i i hi)

/-- An error of the order by dependency stands for a circle that was found among blocked places. -/
theorem exists_circle_of_error {e : Error} (h : topologicalOrder schemas = .error e) :
    ∃ start rest circle, start :: rest ⊆ List.range schemas.length ∧
      ready? ((dependencies schemas).getD · []) (start :: rest) = none ∧
      follow ((dependencies schemas).getD · []) (start :: rest) [start] start = .circle circle ∧
      IsCircle (RefersTo schemas) circle ∧
      e = { cause := .cyclic (circle.filterMap fun i => schemas[i]?.map Schema.name) } := by
  unfold topologicalOrder at h
  dsimp only at h
  split at h
  · cases h
  · rename_i places hseq
    cases h
    obtain ⟨start, rest, hsub, hready, rfl⟩ := exists_blocked hseq
    obtain ⟨circle, hfollow, hcircle, -⟩ := follow_of_ready? hready
    refine ⟨start, rest, circle, hsub, hready, hfollow, ?_, by rw [hfollow]; rfl⟩
    exact hcircle.imp fun i j => mem_dependencies_iff.1

/-- **Circles are reported exactly.**  The order by dependency fails if and only if the schemas refer to each other in a
circle.  The error then names one: at least two names, the first and the last of which are the same and the others
distinct, and each name's schema refers to the next name.  These are the names of a circle that following dependencies
among the places left over runs into: whenever none of the places is ready, this ends in a circle, of at most one place
more than are left, and never at a dead end. -/
theorem topologicalOrder_error (schemas : List Schema) :
    ((∃ e, topologicalOrder schemas = .error e) ↔ ∃ i, Relation.TransGen (RefersTo schemas) i i) ∧
    (∀ e, topologicalOrder schemas = .error e → ∃ names, e = { cause := .cyclic names } ∧
      IsCircle (NameRefersTo schemas) names ∧
      ∃ start rest circle, start :: rest ⊆ List.range schemas.length ∧
        ready? ((dependencies schemas).getD · []) (start :: rest) = none ∧
        follow ((dependencies schemas).getD · []) (start :: rest) [start] start = .circle circle ∧
        names = circle.filterMap fun i => schemas[i]?.map Schema.name) ∧
    ∀ deps start rest, ready? deps (start :: rest) = none → ∃ circle,
      follow deps (start :: rest) [start] start = .circle circle ∧ circle.length ≤ (start :: rest).length + 1 := by
  refine ⟨⟨?_, ?_⟩, ?_, ?_⟩
  · rintro ⟨e, he⟩
    obtain ⟨-, -, circle, -, -, -, hcircle, -⟩ := exists_circle_of_error he
    exact hcircle.transGen
  · rintro ⟨i, hi⟩
    cases ho : topologicalOrder schemas with
    | ok out => exact absurd hi (not_transGen_of_ok ho i)
    | error e => exact ⟨e, rfl⟩
  · intro e he
    obtain ⟨start, rest, circle, hsub, hready, hfollow, hcircle, rfl⟩ := exists_circle_of_error he
    exact ⟨_, rfl, isCircle_names hcircle, start, rest, circle, hsub, hready, hfollow, rfl⟩
  · intro deps start rest hready
    obtain ⟨circle, hfollow, hcircle, hsub⟩ := follow_of_ready? hready
    exact ⟨circle, hfollow, length_circle_le hcircle hsub⟩

/-- A schema leads into a circle of two others, and shares its name with one of these. -/
def circular : List Schema := [
  { name := "A", kind := .typeAlias, validator := .reference "B" },
  { name := "C", kind := .typeAlias, validator := .primitive .string },
  { name := "A", kind := .interface, validator := .object ["B"] [("x", .reference "C")] },
  { name := "B", kind := .interface, validator := .array (.reference "A") }]

theorem topologicalOrder_error_circular :
    topologicalOrder circular = .error { cause := .cyclic ["B", "A", "B"] } ∧
      IsCircle (NameRefersTo circular) ["B", "A", "B"] := by
  have herror : topologicalOrder circular = .error { cause := .cyclic ["B", "A", "B"] } := by cbv
  obtain ⟨names, he, hcircle, -⟩ := (topologicalOrder_error circular).2.1 _ herror
  cases he
  exact ⟨herror, hcircle⟩

end Schemas

end Order

end TypeSchema
