import TypeSchema.Validator.Accept

/-!
# What passes without a limit of depth

`Rule schemas P v x` says what the outermost level of the validator `v` asks of `x`, where `P` says what passes below.

* `acceptsWithin_succ_iff`: with one more validator to follow, what passes is what the rule asks of what passes now;
* `acceptsWithin_mono`: a larger budget lets no less pass;
* `passes_iff`: what passes within some budget is closed under the rule, in both directions.
-/

namespace TypeSchema

namespace Validator

/-! ## One level -/

/-- What the outermost level of a validator asks of a value or of absence, if `P` says what passes below. -/
def Rule (schemas : Schemas) (P : Validator → Option Json → Prop) : Validator → Option Json → Prop
  | primitive p, x => acceptsPrimitive p x = true
  | literal l, x => x = some (.string (Text.unescape l.value))
  | enum values, x => ∃ value ∈ values, x = some (.string (Text.unescape value))
  | array v, x => ∃ items, x = some (.array items) ∧ ∀ item ∈ items, P v (some item)
  | record v, x => ∃ members, x = some (.object members) ∧ ∀ m ∈ Json.settle members, P v (some m.2)
  | union vs, x => ∃ v ∈ vs, P v x
  | object bases fields, x => ∃ members, x = some (.object members) ∧
      (∀ base ∈ bases, ∃ v, schemas base = some v ∧ P v x) ∧
      ∀ f ∈ fields, P f.2 (Json.member? members (Text.unescape f.1))
  | reference name, x => ∃ v, schemas name = some v ∧ P v x
  | unresolved _, _ => True
  | optional v, x => x = none ∨ P v x
  | described v _, x => P v x

section Rule

variable {schemas : Schemas} {v : Validator} {x : Option Json}

/-- The rule asks no more if more passes below. -/
theorem Rule.mono {P Q : Validator → Option Json → Prop} (hPQ : ∀ v x, P v x → Q v x) (h : Rule schemas P v x) :
    Rule schemas Q v x := by
  cases v with
  | primitive | literal | enum | unresolved => exact h
  | array v =>
    obtain ⟨items, rfl, hitems⟩ := h
    exact ⟨items, rfl, fun item hm => hPQ _ _ (hitems item hm)⟩
  | record v =>
    obtain ⟨members, rfl, hmembers⟩ := h
    exact ⟨members, rfl, fun m hm => hPQ _ _ (hmembers m hm)⟩
  | union vs =>
    obtain ⟨v, hv, hx⟩ := h
    exact ⟨v, hv, hPQ _ _ hx⟩
  | object bases fields =>
    obtain ⟨members, rfl, hbases, hfields⟩ := h
    refine ⟨members, rfl, fun base hb => ?_, fun f hf => hPQ _ _ (hfields f hf)⟩
    obtain ⟨v, hv, hx⟩ := hbases base hb
    exact ⟨v, hv, hPQ _ _ hx⟩
  | reference name =>
    obtain ⟨v, hv, hx⟩ := h
    exact ⟨v, hv, hPQ _ _ hx⟩
  | optional v => exact h.imp_right (hPQ _ _)
  | described v text => exact hPQ _ _ h

/-- **One more validator may be followed**: what passes is what the rule asks of what passed before. -/
theorem acceptsWithin_succ_iff {n : Nat} :
    acceptsWithin schemas (n + 1) v x = true ↔ Rule schemas (acceptsWithin schemas n · · = true) v x := by
  cases v with
  | primitive | unresolved | described | union | optional => simp [acceptsWithin, Rule]
  | literal l => rcases x with _ | _ | _ | _ | s | _ | _ <;> simp [acceptsWithin, Rule]
  | enum values =>
    rcases x with _ | _ | _ | _ | s | _ | _
    case some.string => simp [acceptsWithin, Rule, @eq_comm String s]
    all_goals simp [acceptsWithin, Rule]
  | array v | record v => rcases x with _ | _ | _ | _ | _ | _ | _ <;> simp [acceptsWithin, Rule]
  | reference name => cases h : schemas name <;> simp [acceptsWithin, Rule, h]
  | object bases fields =>
    rcases x with _ | _ | _ | _ | _ | _ | members
    case some.object =>
      simp only [acceptsWithin, Rule, Bool.and_eq_true, List.all_eq_true, Option.some.injEq, Json.object.injEq,
        exists_eq_left']
      refine and_congr_left' (forall₂_congr fun base _ => ?_)
      cases h : schemas base <;> simp
    all_goals simp [acceptsWithin, Rule]

/-- **A larger budget lets no less pass.** -/
theorem acceptsWithin_mono {m n : Nat} (hmn : m ≤ n) (h : acceptsWithin schemas m v x = true) :
    acceptsWithin schemas n v x = true := by
  induction m generalizing n v x with
  | zero => cases h
  | succ m ih =>
    obtain ⟨n, rfl⟩ : ∃ k, n = k + 1 := ⟨n - 1, by omega⟩
    rw [acceptsWithin_succ_iff] at h ⊢
    exact h.mono fun v x => ih (by omega)

end Rule

/-! ## Any number of levels -/

/-- The value, or absence, passes when sufficiently many validators may be followed one into another. -/
def Passes (schemas : Schemas) (v : Validator) (x : Option Json) : Prop :=
  ∃ budget, acceptsWithin schemas budget v x = true

/-- A single budget does for all elements of a list. -/
theorem exists_budget {α : Type} {p : Nat → α → Prop} (hmono : ∀ m n a, m ≤ n → p m a → p n a) {as : List α}
    (h : ∀ a ∈ as, ∃ n, p n a) : ∃ n, ∀ a ∈ as, p n a := by
  induction as with
  | nil => exact ⟨0, by simp⟩
  | cons a as ih =>
    obtain ⟨m, hm⟩ := h a List.mem_cons_self
    obtain ⟨n, hn⟩ := ih fun b hb => h b (List.mem_cons_of_mem _ hb)
    refine ⟨max m n, fun b hb => ?_⟩
    rcases List.mem_cons.1 hb with rfl | hb
    · exact hmono m _ _ (Nat.le_max_left m n) hm
    · exact hmono n _ _ (Nat.le_max_right m n) (hn b hb)

section Passes

variable {schemas : Schemas} {v : Validator} {x : Option Json}

theorem exists_budget_passes {α : Type} {as : List α} {v : α → Validator} {x : α → Option Json}
    (h : ∀ a ∈ as, Passes schemas (v a) (x a)) :
    ∃ n, ∀ a ∈ as, acceptsWithin schemas n (v a) (x a) = true :=
  exists_budget (p := fun n a => acceptsWithin schemas n (v a) (x a) = true) (fun _ _ _ hmn => acceptsWithin_mono hmn) h

/-- The rule looks at finitely many values below, so a single budget does for them. -/
theorem exists_budget_rule (h : Rule schemas (Passes schemas) v x) :
    ∃ n, Rule schemas (acceptsWithin schemas n · · = true) v x := by
  cases v with
  | primitive | literal | enum | unresolved => exact ⟨0, h⟩
  | array v =>
    obtain ⟨items, rfl, hitems⟩ := h
    obtain ⟨n, hn⟩ := exists_budget_passes hitems
    exact ⟨n, items, rfl, hn⟩
  | record v =>
    obtain ⟨members, rfl, hmembers⟩ := h
    obtain ⟨n, hn⟩ := exists_budget_passes hmembers
    exact ⟨n, members, rfl, hn⟩
  | union vs =>
    obtain ⟨v, hv, n, hn⟩ := h
    exact ⟨n, v, hv, hn⟩
  | object bases fields =>
    obtain ⟨members, rfl, hbases, hfields⟩ := h
    have hmono (m n : Nat) (base : String) (hmn : m ≤ n)
        (hm : ∃ v, schemas base = some v ∧ acceptsWithin schemas m v (some (.object members)) = true) :
        ∃ v, schemas base = some v ∧ acceptsWithin schemas n v (some (.object members)) = true := by
      obtain ⟨v, hv, hm⟩ := hm
      exact ⟨v, hv, acceptsWithin_mono hmn hm⟩
    have hbases' : ∀ base ∈ bases, ∃ n v, schemas base = some v ∧
        acceptsWithin schemas n v (some (.object members)) = true := by
      intro base hb
      obtain ⟨v, hv, n, hn⟩ := hbases base hb
      exact ⟨n, v, hv, hn⟩
    obtain ⟨m, hm⟩ := exists_budget hmono hbases'
    obtain ⟨n, hn⟩ := exists_budget_passes hfields
    refine ⟨max m n, members, rfl, fun base hb => ?_, fun f hf => ?_⟩
    · exact hmono m _ base (Nat.le_max_left m n) (hm base hb)
    · exact acceptsWithin_mono (Nat.le_max_right m n) (hn f hf)
  | reference name =>
    obtain ⟨v, hv, n, hn⟩ := h
    exact ⟨n, v, hv, hn⟩
  | optional v =>
    rcases h with h | ⟨n, hn⟩
    · exact ⟨0, .inl h⟩
    · exact ⟨n, .inr hn⟩
  | described v text => exact h

/-- **What passes is what the rule asks of what passes.** -/
theorem passes_iff : Passes schemas v x ↔ Rule schemas (Passes schemas) v x := by
  constructor
  · rintro ⟨n, hn⟩
    cases n with
    | zero => cases hn
    | succ n => exact (acceptsWithin_succ_iff.1 hn).mono fun v x h => ⟨n, h⟩
  · intro h
    obtain ⟨n, hn⟩ := exists_budget_rule h
    exact ⟨n + 1, acceptsWithin_succ_iff.2 hn⟩

/-! ## Absence -/

theorem passes_none_of_isOptional (h : v.isOptional = true) : Passes schemas v none := by
  fun_induction isOptional v with
  | case1 v => exact passes_iff.2 (.inl rfl)
  | case2 v text ih => exact passes_iff.2 (ih h)
  | case3 => cases h

theorem passes_orAbsent : Passes schemas v.orAbsent x ↔ x = none ∨ Passes schemas v x := by
  unfold orAbsent
  split
  · rename_i hv
    constructor
    · exact .inr
    · rintro (rfl | h)
      · exact passes_none_of_isOptional hv
      · exact h
  · exact passes_iff

theorem passes_orAbsentIf {absent : Bool} :
    Passes schemas (v.orAbsentIf absent) x ↔ (x = none ∧ absent = true) ∨ Passes schemas v x := by
  unfold orAbsentIf
  split
  · rename_i h
    simp [passes_orAbsent, h]
  · rename_i h
    simp [h]

end Passes

end Validator

end TypeSchema
