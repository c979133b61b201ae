import Mathlib.Tactic.Choose
import TypeSchema.Proofs.Validator.Passing

/-!
# Derivations of bounded height

Which values pass is said by rules, one for each sort of validator, and two for optional ones.  A `Derivation` is a tree
of such rules; its `height` counts the rules on its longest branch, the one at the root included.

* `derivableWithin_succ_iff`: one more level of derivations is one more use of the rule of acceptance;
* `acceptsWithin_iff_derivable`: a value passes within a budget exactly if there is a derivation that is no higher;
* `passes_iff_nonempty`: it passes within some budget exactly if there is a derivation at all;
* `accepts_iff_height`: the limit of depth bounds the height of derivations, and does nothing else.
-/

namespace TypeSchema

namespace Validator

/-! ## Derivations and their heights -/

/-- Derivations that a value, or absence, passes. -/
inductive Derivation (schemas : Schemas) : Validator → Option Json → Type
  | primitive {p : Primitive} {x : Option Json} : acceptsPrimitive p x = true → Derivation schemas (.primitive p) x
  | literal (l : StringLiteral) : Derivation schemas (.literal l) (some (.string (Text.unescape l.value)))
  | enum {values : List String} {value : String} : value ∈ values →
      Derivation schemas (.enum values) (some (.string (Text.unescape value)))
  | array {v : Validator} {items : List Json} : (∀ item ∈ items, Derivation schemas v (some item)) →
      Derivation schemas (.array v) (some (.array items))
  | record {v : Validator} {members : List (String × Json)} :
      (∀ m ∈ Json.settle members, Derivation schemas v (some m.2)) →
      Derivation schemas (.record v) (some (.object members))
  | union {vs : List Validator} {v : Validator} {x : Option Json} : v ∈ vs → Derivation schemas v x →
      Derivation schemas (.union vs) x
  /-- An object passes in the schemas of all bases, which `schema` gives, and its members pass in the fields. -/
  | object {bases : List String} {fields : List (String × Validator)} {members : List (String × Json)}
      (schema : String → Validator) : (∀ base ∈ bases, schemas base = some (schema base)) →
      (∀ base ∈ bases, Derivation schemas (schema base) (some (.object members))) →
      (∀ f ∈ fields, Derivation schemas f.2 (Json.member? members (Text.unescape f.1))) →
      Derivation schemas (.object bases fields) (some (.object members))
  | reference {name : String} {v : Validator} {x : Option Json} : schemas name = some v → Derivation schemas v x →
      Derivation schemas (.reference name) x
  | unresolved (e : String) (x : Option Json) : Derivation schemas (.unresolved e) x
  | absent (v : Validator) : Derivation schemas (.optional v) none
  | present {v : Validator} {x : Option Json} : Derivation schemas v x → Derivation schemas (.optional v) x
  | described {v : Validator} {x : Option Json} (text : String) : Derivation schemas v x →
      Derivation schemas (.described v text) x

/-- The greatest number that the elements of a list have, or zero. -/
def greatest {α : Type} (as : List α) (f : ∀ a ∈ as, Nat) : Nat := (as.attach.map fun a => f a.1 a.2).foldr max 0

theorem greatest_le_iff {α : Type} {as : List α} {f : ∀ a ∈ as, Nat} {n : Nat} :
    greatest as f ≤ n ↔ ∀ a h, f a h ≤ n := by
  have hfold (ms : List Nat) : ms.foldr max 0 ≤ n ↔ ∀ m ∈ ms, m ≤ n := by
    induction ms with
    | nil => simp
    | cons m ms ih => rw [List.foldr_cons, Nat.max_le, ih, List.forall_mem_cons]
  rw [greatest, hfold]
  constructor
  · intro h a ha
    exact h _ (List.mem_map.2 ⟨⟨a, ha⟩, List.mem_attach _ _, rfl⟩)
  · intro h m hm
    obtain ⟨⟨a, ha⟩, -, rfl⟩ := List.mem_map.1 hm
    exact h a ha

/-- The number of rules on the longest branch. -/
def Derivation.height {schemas : Schemas} {v : Validator} {x : Option Json} : Derivation schemas v x → Nat
  | primitive _ | literal _ | enum _ | unresolved _ _ | absent _ => 1
  | @array _ _ items d => greatest items (fun item h => (d item h).height) + 1
  | @record _ _ members d => greatest (Json.settle members) (fun m h => (d m h).height) + 1
  | union _ d | reference _ d | present d | described _ d => d.height + 1
  | @object _ bases fields _ _ _ d e =>
    max (greatest bases fun base h => (d base h).height) (greatest fields fun f h => (e f h).height) + 1

section Height

variable {schemas : Schemas} {v : Validator} {x : Option Json} {n : Nat}

theorem Derivation.height_pos (d : Derivation schemas v x) : 0 < d.height := by cases d <;> simp [height]

/-- There is a derivation of at most this height. -/
def DerivableWithin (schemas : Schemas) (n : Nat) (v : Validator) (x : Option Json) : Prop :=
  ∃ d : Derivation schemas v x, d.height ≤ n

/-! ## One level of a derivation -/

/-- What is below the root of a derivation is lower. -/
theorem Derivation.rule (d : Derivation schemas v x) (h : d.height ≤ n + 1) :
    Rule schemas (DerivableWithin schemas n) v x := by
  cases d with
  | primitive hp => exact hp
  | literal l => rfl
  | enum hvalue => exact ⟨_, hvalue, rfl⟩
  | array d =>
    have hd := greatest_le_iff.1 (Nat.le_of_succ_le_succ h)
    exact ⟨_, rfl, fun item hm => ⟨d item hm, hd item hm⟩⟩
  | record d =>
    have hd := greatest_le_iff.1 (Nat.le_of_succ_le_succ h)
    exact ⟨_, rfl, fun m hm => ⟨d m hm, hd m hm⟩⟩
  | union hv d => exact ⟨_, hv, d, Nat.le_of_succ_le_succ h⟩
  | object schema hbases d e =>
    obtain ⟨hd, he⟩ := Nat.max_le.1 (Nat.le_of_succ_le_succ h)
    refine ⟨_, rfl, fun base hb => ⟨schema base, hbases base hb, d base hb, ?_⟩, fun f hf => ⟨e f hf, ?_⟩⟩
    · exact greatest_le_iff.1 hd base hb
    · exact greatest_le_iff.1 he f hf
  | reference hname d => exact ⟨_, hname, d, Nat.le_of_succ_le_succ h⟩
  | unresolved => trivial
  | absent => exact .inl rfl
  | present d => exact .inr ⟨d, Nat.le_of_succ_le_succ h⟩
  | described text d => exact ⟨d, Nat.le_of_succ_le_succ h⟩

/-- What the rule asks for is put together to a derivation that is one higher. -/
theorem derivableWithin_of_rule (h : Rule schemas (DerivableWithin schemas n) v x) :
    DerivableWithin schemas (n + 1) v x := by
  cases v with
  | primitive p => exact ⟨.primitive h, Nat.le_add_left 1 n⟩
  | literal l =>
    cases h
    exact ⟨.literal l, Nat.le_add_left 1 n⟩
  | enum values =>
    obtain ⟨value, hvalue, rfl⟩ := h
    exact ⟨.enum hvalue, Nat.le_add_left 1 n⟩
  | array v =>
    obtain ⟨items, rfl, hitems⟩ := h
    choose d hd using hitems
    exact ⟨.array d, Nat.succ_le_succ (greatest_le_iff.2 hd)⟩
  | record v =>
    obtain ⟨members, rfl, hmembers⟩ := h
    choose d hd using hmembers
    exact ⟨.record d, Nat.succ_le_succ (greatest_le_iff.2 hd)⟩
  | union vs =>
    obtain ⟨v, hv, d, hd⟩ := h
    exact ⟨.union hv d, Nat.succ_le_succ hd⟩
  | object bases fields =>
    obtain ⟨members, rfl, hbases, hfields⟩ := h
    have hschema : ∀ base ∈ bases, ∃ d : Derivation schemas ((schemas base).getD default) (some (.object members)),
        schemas base = some ((schemas base).getD default) ∧ d.height ≤ n := by
      intro base hb
      obtain ⟨v, hv, d, hd⟩ := hbases base hb
      rw [hv]
      exact ⟨d, rfl, hd⟩
    choose d hschema hd using hschema
    choose e he using hfields
    refine ⟨.object (fun base => (schemas base).getD default) hschema d e, Nat.succ_le_succ ?_⟩
    exact Nat.max_le.2 ⟨greatest_le_iff.2 hd, greatest_le_iff.2 he⟩
  | reference name =>
    obtain ⟨v, hv, d, hd⟩ := h
    exact ⟨.reference hv d, Nat.succ_le_succ hd⟩
  | unresolved e => exact ⟨.unresolved e x, Nat.le_add_left 1 n⟩
  | optional v =>
    rcases h with rfl | ⟨d, hd⟩
    · exact ⟨.absent v, Nat.le_add_left 1 n⟩
    · exact ⟨.present d, Nat.succ_le_succ hd⟩
  | described v text =>
    obtain ⟨d, hd⟩ := h
    exact ⟨.described text d, Nat.succ_le_succ hd⟩

theorem derivableWithin_succ_iff :
    DerivableWithin schemas (n + 1) v x ↔ Rule schemas (DerivableWithin schemas n) v x :=
  ⟨fun ⟨d, hd⟩ => d.rule hd, derivableWithin_of_rule⟩

/-! ## Whole derivations -/

/-- **The budget bounds the height of derivations.** -/
theorem acceptsWithin_iff_derivable : acceptsWithin schemas n v x = true ↔ DerivableWithin schemas n v x := by
  induction n generalizing v x with
  | zero =>
    constructor
    · intro h
      cases h
    · rintro ⟨d, hd⟩
      exact absurd d.height_pos (Nat.not_lt_of_le hd)
  | succ n ih =>
    rw [acceptsWithin_succ_iff, derivableWithin_succ_iff]
    exact ⟨Rule.mono fun v x => ih.1, Rule.mono fun v x => ih.2⟩

/-- What passes within some budget is what has a derivation. -/
theorem passes_iff_nonempty : Passes schemas v x ↔ Nonempty (Derivation schemas v x) := by
  constructor
  · rintro ⟨n, hn⟩
    obtain ⟨d, -⟩ := acceptsWithin_iff_derivable.1 hn
    exact ⟨d⟩
  · rintro ⟨d⟩
    exact ⟨d.height, acceptsWithin_iff_derivable.2 ⟨d, Nat.le_refl _⟩⟩

end Height

/-! ## The limit of depth -/

/-- Whether a value, or absence, passes below `depth` validators that have been followed already. -/
def acceptsAt (schemas : Schemas) (depth : Nat) (v : Validator) (x : Option Json) : Bool :=
  acceptsWithin schemas (maxDepth - depth) v x

/-- **A value passes exactly if a derivation of limited height says so.**  The rules below a given depth have what is left
of the limit.  So what passes at some depth passes at every smaller one, and the limit only takes away from what passes
without it. -/
theorem accepts_iff_height (schemas : Schemas) (v : Validator) (x : Option Json) :
    (v.accepts schemas x = true ↔ ∃ d : Derivation schemas v x, d.height ≤ 512) ∧
    (∀ depth, acceptsAt schemas depth v x = true ↔ ∃ d : Derivation schemas v x, depth + d.height ≤ 512) ∧
    (∀ depth smaller, smaller ≤ depth → acceptsAt schemas depth v x = true → acceptsAt schemas smaller v x = true) ∧
    (v.accepts schemas x = true → Nonempty (Derivation schemas v x)) ∧
    (Nonempty (Derivation schemas v x) ↔ ∃ limit, acceptsWithin schemas limit v x = true) := by
  have hdepth (depth : Nat) :
      acceptsAt schemas depth v x = true ↔ ∃ d : Derivation schemas v x, depth + d.height ≤ 512 := by
    rw [acceptsAt, acceptsWithin_iff_derivable]
    refine exists_congr fun d => ?_
    have hpos := d.height_pos
    rw [maxDepth]
    omega
  refine ⟨acceptsWithin_iff_derivable, hdepth, fun depth smaller hle h => ?_, fun h => ?_, passes_iff_nonempty.symm⟩
  · exact acceptsWithin_mono (Nat.sub_le_sub_left hle maxDepth) h
  · exact passes_iff_nonempty.1 ⟨maxDepth, h⟩

end Validator

end TypeSchema
