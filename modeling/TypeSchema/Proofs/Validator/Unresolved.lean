import TypeSchema.Proofs.Validator.References

/-!
# Expressions without a validator

`Within w v` says that `w` stands in `v` at any depth, and `FirstUnresolved e v` that `e` is the first expression
without a validator in `v`, from the outside in and from left to right.  The walk over a validator comes upon all that
stands in it (`mem_walk_iff`), so it finds nothing in resolved validators only (`unresolvedExpressions_eq_nil_iff`), and
the first thing it finds is the first there is (`firstUnresolved_of_head?`).
-/

namespace TypeSchema

namespace Validator

/-- `w` stands in a validator: it is the validator itself, or it stands in a part of it. -/
inductive Within (w : Validator) : Validator → Prop
  | self : Within w w
  | array {v : Validator} : Within w v → Within w (.array v)
  | record {v : Validator} : Within w v → Within w (.record v)
  | branch {vs : List Validator} {v : Validator} : v ∈ vs → Within w v → Within w (.union vs)
  | field {bases : List String} {fields : List (String × Validator)} {name : String} {v : Validator} :
      (name, v) ∈ fields → Within w v → Within w (.object bases fields)
  | optional {v : Validator} : Within w v → Within w (.optional v)
  | described {v : Validator} {text : String} : Within w v → Within w (.described v text)

/-- No expression in the validator lacks one. -/
def Resolved (v : Validator) : Prop := ∀ e, ¬ Within (.unresolved e) v

/-- `e` is the first expression without a validator: all that comes before it is resolved. -/
inductive FirstUnresolved (e : String) : Validator → Prop
  | self : FirstUnresolved e (.unresolved e)
  | array {v : Validator} : FirstUnresolved e v → FirstUnresolved e (.array v)
  | record {v : Validator} : FirstUnresolved e v → FirstUnresolved e (.record v)
  | branch {before after : List Validator} {v : Validator} : (∀ u ∈ before, u.Resolved) → FirstUnresolved e v →
      FirstUnresolved e (.union (before ++ v :: after))
  | field {bases : List String} {before after : List (String × Validator)} {name : String} {v : Validator} :
      (∀ f ∈ before, f.2.Resolved) → FirstUnresolved e v →
      FirstUnresolved e (.object bases (before ++ (name, v) :: after))
  | optional {v : Validator} : FirstUnresolved e v → FirstUnresolved e (.optional v)
  | described {v : Validator} {text : String} : FirstUnresolved e v → FirstUnresolved e (.described v text)

/-! ## Parts -/

/-- The validators that a validator is made of, from left to right. -/
def parts : Validator → List Validator
  | array v | record v | optional v | described v _ => [v]
  | union vs => vs
  | object _ fields => fields.map Prod.snd
  | primitive _ | literal _ | enum _ | reference _ | unresolved _ => []

section Parts

variable {u v w : Validator}

theorem sizeOf_lt_of_mem_parts (h : u ∈ v.parts) : sizeOf u < sizeOf v := by
  cases v with
  | array v | record v | optional v | described v text =>
    rw [List.mem_singleton.1 h]
    simp only [array.sizeOf_spec, record.sizeOf_spec, optional.sizeOf_spec, described.sizeOf_spec]
    omega
  | union vs =>
    have hlt := List.sizeOf_lt_of_mem (show u ∈ vs from h)
    simp only [union.sizeOf_spec]
    omega
  | object bases fields =>
    obtain ⟨⟨name, u⟩, hf, rfl⟩ := List.mem_map.1 h
    have hlt := List.sizeOf_lt_of_mem hf
    simp only [Prod.mk.sizeOf_spec] at hlt
    simp only [object.sizeOf_spec]
    omega
  | _ => cases h

theorem within_of_mem_parts (h : u ∈ v.parts) (hw : Within w u) : Within w v := by
  cases v with
  | array v => exact .array (List.mem_singleton.1 h ▸ hw)
  | record v => exact .record (List.mem_singleton.1 h ▸ hw)
  | optional v => exact .optional (List.mem_singleton.1 h ▸ hw)
  | described v text => exact .described (List.mem_singleton.1 h ▸ hw)
  | union vs => exact .branch h hw
  | object bases fields =>
    obtain ⟨f, hf, rfl⟩ := List.mem_map.1 h
    exact .field hf hw
  | _ => cases h

theorem firstUnresolved_of_parts {e : String} {before after : List Validator} (h : v.parts = before ++ u :: after)
    (hbefore : ∀ t ∈ before, t.Resolved) (hu : FirstUnresolved e u) : FirstUnresolved e v := by
  have hsole {x : Validator} (hx : [x] = before ++ u :: after) : FirstUnresolved e x := by
    cases before with
    | nil => exact (List.cons.inj hx).1 ▸ hu
    | cons t before => simp at hx
  cases v with
  | array v => exact .array (hsole h)
  | record v => exact .record (hsole h)
  | optional v => exact .optional (hsole h)
  | described v text => exact .described (hsole h)
  | union vs =>
    obtain rfl : vs = before ++ u :: after := h
    exact .branch hbefore hu
  | object bases fields =>
    obtain ⟨front, back, rfl, hfront, hback⟩ := List.map_eq_append_iff.1 h
    obtain ⟨⟨name, u⟩, back, rfl, rfl, -⟩ := List.map_eq_cons_iff.1 hback
    exact .field (fun f hf => hbefore _ (hfront ▸ List.mem_map_of_mem hf)) hu
  | _ => cases before <;> cases h

/-- A walk starts with the validator itself and goes on with its parts. -/
theorem walk_eq (v : Validator) : v.walk = v :: v.parts.flatMap walk := by
  cases v <;> simp [walk, parts, walkAll_eq_flatMap, walkFields_eq_flatMap, List.flatMap_map]

end Parts

/-! ## What the walk finds -/

theorem within_of_mem_walk {w v : Validator} (h : w ∈ v.walk) : Within w v := by
  rw [walk_eq] at h
  rcases List.mem_cons.1 h with rfl | h
  · exact .self
  · obtain ⟨u, hu, hw⟩ := List.mem_flatMap.1 h
    exact within_of_mem_parts hu (within_of_mem_walk hw)
termination_by sizeOf v
decreasing_by exact sizeOf_lt_of_mem_parts hu

theorem mem_walk_of_within {w v : Validator} (h : Within w v) : w ∈ v.walk := by
  induction h with
  | self => rw [walk_eq]; exact List.mem_cons_self
  | array _ ih | record _ ih | optional _ ih | described _ ih => exact List.mem_cons_of_mem _ ih
  | branch hv _ ih =>
    rw [walk_eq]
    exact List.mem_cons_of_mem _ (List.mem_flatMap.2 ⟨_, hv, ih⟩)
  | field hf _ ih =>
    rw [walk_eq]
    exact List.mem_cons_of_mem _ (List.mem_flatMap.2 ⟨_, List.mem_map_of_mem hf, ih⟩)

/-- **The walk over a validator comes upon exactly what stands in it.** -/
theorem mem_walk_iff {w v : Validator} : w ∈ v.walk ↔ Within w v := ⟨within_of_mem_walk, mem_walk_of_within⟩

theorem ownUnresolved?_eq_some_iff {v : Validator} {e : String} : v.ownUnresolved? = some e ↔ v = .unresolved e := by
  cases v <;> simp [ownUnresolved?]

/-- The walk finds nothing in resolved validators, and in no others. -/
theorem unresolvedExpressions_eq_nil_iff {v : Validator} : v.unresolvedExpressions = [] ↔ v.Resolved := by
  rw [unresolvedExpressions, List.filterMap_eq_nil_iff]
  constructor
  · intro h e he
    cases h _ (mem_walk_of_within he)
  · intro h w hw
    rw [Option.eq_none_iff_forall_ne_some]
    intro e he
    rw [ownUnresolved?_eq_some_iff] at he
    exact h e (he ▸ within_of_mem_walk hw)

theorem unresolvedExpressions_eq (v : Validator) :
    v.unresolvedExpressions = v.ownUnresolved?.toList ++ v.parts.flatMap unresolvedExpressions := by
  rw [unresolvedExpressions, walk_eq, List.filterMap_cons, List.filterMap_flatMap]
  cases v.ownUnresolved? <;> rfl

/-- **The first expression that the walk finds is the first there is.** -/
theorem firstUnresolved_of_head? {v : Validator} {e : String} (h : v.unresolvedExpressions.head? = some e) :
    FirstUnresolved e v := by
  rw [unresolvedExpressions_eq] at h
  cases ho : v.ownUnresolved? with
  | some e' =>
    rw [ho] at h
    cases h
    rw [ownUnresolved?_eq_some_iff.1 ho]
    exact .self
  | none =>
    rw [ho, Option.toList_none, List.nil_append, List.head?_flatMap] at h
    obtain ⟨before, u, after, hparts, hu, hbefore⟩ := List.findSome?_eq_some_iff.1 h
    have hmem : u ∈ v.parts := by simp [hparts]
    refine firstUnresolved_of_parts hparts (fun t ht => ?_) (firstUnresolved_of_head? hu)
    exact unresolvedExpressions_eq_nil_iff.1 (List.head?_eq_none_iff.1 (hbefore t ht))
termination_by sizeOf v
decreasing_by exact sizeOf_lt_of_mem_parts hmem

end Validator

end TypeSchema
