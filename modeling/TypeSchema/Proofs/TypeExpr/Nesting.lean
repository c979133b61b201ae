import Mathlib
import TypeSchema.Proofs.TypeExpr.Printing

/-!
# How deep trees are nested

The parser counts levels: an argument list or a group is one level deeper than what is around it, and the `n`th suffix
of a part is `n` levels deeper than the part.  But the levels of the suffixes are free again for what stands inside of
the part, so the tree is nested deeper than there are levels.

* `nesting_of_derives`: with `n` levels left, no tree is nested deeper than `triangle n`;
* `nesting_tower`: and some tree is nested so deep;
* `nesting_of_unsuffixed`: where no bracket has a suffix, the nesting is within the levels.
-/

namespace TypeSchema

namespace TypeExpr

mutual

/-- The largest number of arrays, records and generics on a way from the root of the tree to a leaf. -/
def nesting : TypeExpr → Nat
  | primitive _ | literal _ | reference _ => 0
  | anyRecord => 1
  | array e | record _ e => e.nesting + 1
  | generic _ es => nestingAll es + 1
  | union es => nestingAll es
  | optional e => e.nesting

/-- The largest of several trees. -/
def nestingAll : List TypeExpr → Nat
  | [] => 0
  | e :: es => max e.nesting (nestingAll es)

end

theorem nestingAll_le_iff {es : List TypeExpr} {n : Nat} : nestingAll es ≤ n ↔ ∀ e ∈ es, e.nesting ≤ n := by
  induction es with
  | nil => simp [nestingAll]
  | cons e es ih => rw [nestingAll, Nat.max_le, ih, List.forall_mem_cons]

theorem nesting_joined (es : List TypeExpr) : (Parser.joined es).nesting = nestingAll es := by
  unfold Parser.joined
  split
  · simp [nestingAll]
  · rw [nesting]

theorem nesting_applied (name : String) (es : List TypeExpr) :
    (Parser.applied name es).nesting = nestingAll es + 1 := by
  unfold Parser.applied
  split
  · split
    · simp [nesting, nestingAll]
    · rw [nesting]
  · rw [nesting]

theorem nesting_arrayed (n : Nat) (e : TypeExpr) : (Parser.arrayed n e).nesting = e.nesting + n := by
  induction n generalizing e with
  | zero => rfl
  | succ n ih =>
    rw [Parser.arrayed, ih, nesting]
    omega

theorem nesting_plain (name : String) : (Parser.plain name).nesting = 0 := by
  unfold Parser.plain
  split
  · rw [nesting]
  · rw [nesting]

end TypeExpr

/-! ## The bound -/

/-- The sum of the numbers up to `n`. -/
def triangle : Nat → Nat
  | 0 => 0
  | n + 1 => triangle n + (n + 1)

theorem triangle_eq (n : Nat) : triangle n = n * (n + 1) / 2 := by
  have h : 2 * triangle n = n * (n + 1) := by
    induction n with
    | zero => rfl
    | succ n ih =>
      rw [triangle, Nat.mul_add, ih, ← Nat.add_mul, Nat.mul_comm]
  omega

namespace Parser

open TypeExpr (nestingAll nestingAll_le_iff nesting_joined nesting_applied nesting_arrayed nesting_plain)

/-- How deep a part is nested at most if `room` levels are left, its own included. -/
def Category.deepest (room : Nat) : Category → Nat
  | primary => triangle (room - 1) + 1
  | several c => c.deepest room
  | _ => triangle room

/-- **With `room` levels left no tree is nested deeper than `triangle room`.** -/
theorem nesting_of_derives {source : String} {widens : List Token → Prop} {c : Category} {level top : Nat}
    {ts : List Token} {es : List TypeExpr} (h : Derives source widens c level ts es top) {limit : Nat}
    (hlimit : top ≤ limit) : ∀ e ∈ es, e.nesting ≤ c.deepest (limit + 1 - level) := by
  induction h with
  | union _ ih | barred _ _ ih =>
    intro e he
    rw [List.mem_singleton.1 he, nesting_joined, nestingAll_le_iff]
    exact ih hlimit
  | @suffixed level top n ts us e h _ ih =>
    intro f hf
    have he : e.nesting ≤ triangle (limit + 1 - level - 1) + 1 := ih (by omega) e (by simp)
    -- the suffixes take the levels that are left, and the part has all of them again
    obtain ⟨room, hroom⟩ : ∃ room, limit + 1 - level = room + 1 := ⟨limit - level, by omega⟩
    rw [List.mem_singleton.1 hf, nesting_arrayed]
    show e.nesting + n ≤ triangle (limit + 1 - level)
    rw [hroom, Nat.add_sub_cancel] at he
    rw [hroom, triangle]
    omega
  | @group level top opening closing ts e _ h _ ih =>
    intro f hf
    have hf : f.nesting ≤ triangle (limit + 1 - (level + 1)) := ih hlimit f hf
    show f.nesting ≤ triangle (limit + 1 - level - 1) + 1
    rw [Nat.sub_sub]
    omega
  | literal =>
    intro e he
    rw [List.mem_singleton.1 he]
    exact Nat.zero_le _
  | plain =>
    intro e he
    rw [List.mem_singleton.1 he, nesting_plain]
    exact Nat.zero_le _
  | @applied level top ts us name opening closing es _ _ _ h _ ih =>
    intro e he
    have hes : nestingAll es ≤ triangle (limit + 1 - (level + 1)) := nestingAll_le_iff.2 (ih hlimit)
    rw [List.mem_singleton.1 he, nesting_applied]
    show nestingAll es + 1 ≤ triangle (limit + 1 - level - 1) + 1
    rw [Nat.sub_sub]
    omega
  | @record level top ts us key text opening comma closing e _ _ _ _ _ h _ ih =>
    intro f hf
    have he : e.nesting ≤ triangle (limit + 1 - (level + 1)) := ih hlimit e (by simp)
    rw [List.mem_singleton.1 hf, TypeExpr.nesting]
    show e.nesting + 1 ≤ triangle (limit + 1 - level - 1) + 1
    rw [Nat.sub_sub]
    omega
  | anyRecord =>
    intro e he
    rw [List.mem_singleton.1 he]
    exact Nat.le_add_left _ _
  | one _ ih => exact ih hlimit
  | more _ _ _ ih ih' =>
    intro f hf
    rcases List.mem_cons.1 hf with rfl | hf
    · exact ih (by omega) f (by simp)
    · exact ih' (by omega) f hf

end Parser

/-! ## A tree that is nested so deep -/

namespace TypeExpr

/-- Generics in one another, each with as many suffixes as there are levels below it. -/
def tower : Nat → TypeExpr
  | 0 => .anyRecord
  | n + 1 => Parser.arrayed (n + 1) (.generic "G" [tower n])

theorem nesting_tower (n : Nat) : (tower n).nesting = triangle (n + 1) := by
  induction n with
  | zero => rfl
  | succ n ih =>
    rw [tower, nesting_arrayed, nesting, nestingAll, nestingAll, ih]
    show max (triangle (n + 1)) 0 + 1 + (n + 1) = triangle (n + 1) + (n + 1 + 1)
    omega

theorem levels_arrayed (tight : Bool) (level suffixes n : Nat) (e : TypeExpr) :
    (Parser.arrayed (n + 1) e).levels tight level suffixes = e.levels true level (suffixes + n + 1) := by
  induction n generalizing e with
  | zero => rw [Parser.arrayed, Parser.arrayed, levels]
  | succ n ih => rw [Parser.arrayed, ih, levels, Nat.add_assoc suffixes]

theorem levels_tower (n : Nat) (tight : Bool) (level suffixes : Nat) :
    (tower n).levels tight level suffixes = level + suffixes + n := by
  induction n generalizing tight level suffixes with
  | zero => rw [tower, levels, Nat.add_zero]
  | succ n ih =>
    rw [tower, levels_arrayed, levels, levelsAll, levelsAll, ih]
    omega

theorem inner_tower {p : String → Prop} (n : Nat) : Inner p (tower n) := by
  induction n with
  | zero => exact .anyRecord
  | succ n ih =>
    refine Parser.inner_arrayed (.generic ?_ (by decide) (by simp) (by simp) ?_) (n + 1)
    · exact Parser.isDotted_of_isIdentifier (by decide)
    · intro e he
      rw [List.mem_singleton.1 he]
      exact ih

theorem render_arrayed {e : TypeExpr} (h : e.isLoose = false) (n : Nat) :
    (Parser.arrayed n e).render = e.render ++ String.join (List.replicate n "[]") := by
  induction n generalizing e with
  | zero => simp [Parser.arrayed]
  | succ n ih =>
    rw [Parser.arrayed, ih rfl, Parser.render_array, Parser.renderTight_eq_render h, List.replicate_succ,
      String.join_cons, String.append_assoc]

/-- A tree without keys is read back from its text if its levels are within the limit. -/
theorem parse_render_of_inner {e : TypeExpr} (h : Inner Parser.IsCanonicalKey e) (hl : e.printedLevels ≤ maxNesting) :
    parse e.render = .ok e := (parse_eq_ok_iff_of_derives (Parser.derivesType_render (.bare h))).2 hl

end TypeExpr

/-! ## Brackets without suffixes -/

namespace Parser

open TypeExpr (nestingAll nestingAll_le_iff nesting_joined nesting_applied nesting_arrayed nesting_plain)

/-- Whether the token ends an argument list or a group. -/
def endsPart (t : Token) : Bool := t.isPunct .closeAngle || t.isPunct .closeParen

/-- No argument list and no group has a suffix. -/
def Unsuffixed (ts : List Token) : Prop := ts.IsChain fun t u => endsPart t = true → u.isPunct .openBracket = false

instance (ts : List Token) : Decidable (Unsuffixed ts) := inferInstanceAs (Decidable (List.IsChain ..))

theorem afterAngles?_ends {depth : Nat} {ts : List Token} (h : afterAngles? depth ts = some []) :
    ∃ t, ts.getLast? = some t ∧ endsPart t = true := by
  fun_induction afterAngles? depth ts with
  | case1 => cases h
  | case2 depth t ts ho ih =>
    obtain ⟨u, hu, he⟩ := ih h
    exact ⟨u, by simp [List.getLast?_cons, hu], he⟩
  | case3 depth t ts ho hc hd =>
    obtain rfl := Option.some.inj h
    exact ⟨t, rfl, by simp [endsPart, hc]⟩
  | case4 depth t ts ho hc hd ih | case5 depth t ts ho hc ih =>
    obtain ⟨u, hu, he⟩ := ih h
    exact ⟨u, by simp [List.getLast?_cons, hu], he⟩

/-- A primary is a leaf or ends with a bracket. -/
theorem Derives.leaf_or_ends {source : String} {widens : List Token → Prop} {level top : Nat} {ts : List Token}
    {e : TypeExpr} (h : Derives source widens .primary level ts [e] top) :
    e.nesting = 0 ∨ ∃ t, ts.getLast? = some t ∧ endsPart t = true := by
  cases h with
  | literal => exact .inl (by rw [TypeExpr.nesting])
  | plain => exact .inl (nesting_plain _)
  | @group _ _ opening closing us _ _ _ hc =>
    exact .inr ⟨closing, by simp [List.getLast?_cons], by simp [endsPart, Token.isPunct, hc]⟩
  | @applied _ _ names us _ opening closing _ _ _ _ _ hc =>
    exact .inr ⟨closing, by simp [List.getLast?_cons], by simp [endsPart, Token.isPunct, hc]⟩
  | @record _ _ names us key _ opening comma closing _ _ _ _ _ _ _ hc =>
    exact .inr ⟨closing, by simp [List.getLast?_cons], by simp [endsPart, Token.isPunct, hc]⟩
  | anyRecord _ _ hu _ =>
    obtain ⟨t, ht, he⟩ := afterAngles?_ends hu
    exact .inr ⟨t, by simp [List.getLast?_cons, ht], he⟩

/-- **Where no bracket has a suffix, the nesting is within the levels.** -/
theorem nesting_of_unsuffixed {source : String} {widens : List Token → Prop} {c : Category} {level top : Nat}
    {ts : List Token} {es : List TypeExpr} (h : Derives source widens c level ts es top) (hu : Unsuffixed ts) :
    ∀ e ∈ es, e.nesting ≤ top + 1 - level := by
  have hlevel := h.level_le
  induction h with
  | union _ ih =>
    intro e he
    rw [List.mem_singleton.1 he, nesting_joined, nestingAll_le_iff]
    exact ih hu hlevel
  | barred _ _ ih =>
    intro e he
    rw [List.mem_singleton.1 he, nesting_joined, nestingAll_le_iff]
    exact ih hu.tail hlevel
  | @suffixed level top n ts us e h hb ih =>
    intro f hf
    have he := ih hu.left_of_append h.level_le e (by simp)
    rw [List.mem_singleton.1 hf, nesting_arrayed]
    cases hb with
    | none => omega
    | @pair n opening closing us ho hc hb =>
      -- a suffix stands behind a leaf only
      have hleaf : e.nesting = 0 := by
        rcases h.leaf_or_ends with hleaf | ⟨t, ht, hends⟩
        · exact hleaf
        · have hfree := (List.isChain_append.1 hu).2.2 t ht opening rfl hends
          simp [Token.isPunct, ho] at hfree
      omega
  | @group level top opening closing ts e _ h _ ih =>
    intro f hf
    have hf := ih hu.tail.left_of_append h.level_le f hf
    omega
  | literal =>
    intro e he
    rw [List.mem_singleton.1 he]
    exact Nat.zero_le _
  | plain =>
    intro e he
    rw [List.mem_singleton.1 he, nesting_plain]
    exact Nat.zero_le _
  | @applied level top ts us name opening closing es _ _ _ h _ ih =>
    intro e he
    have hes := nestingAll_le_iff.2 (ih hu.right_of_append.tail.left_of_append h.level_le)
    have := h.level_le
    rw [List.mem_singleton.1 he, nesting_applied]
    omega
  | @record level top ts us key text opening comma closing e _ _ _ _ _ h _ ih =>
    intro f hf
    have he := ih hu.right_of_append.tail.right_of_append.tail.left_of_append h.level_le e (by simp)
    have := h.level_le
    rw [List.mem_singleton.1 hf, TypeExpr.nesting]
    omega
  | anyRecord =>
    intro e he
    rw [List.mem_singleton.1 he, TypeExpr.nesting]
    omega
  | one _ ih => exact ih hu hlevel
  | @more c level top top' ts us sep e es h _ h' ih ih' =>
    intro f hf
    rcases List.mem_cons.1 hf with rfl | hf
    · have he := ih hu.left_of_append h.level_le f (by simp)
      omega
    · have hes := ih' hu.right_of_append.tail h'.level_le f hf
      omega

end Parser

/-! ## Accepted texts -/

namespace TypeExpr

/-- An accepted tree is derived, its question mark apart. -/
theorem exists_derives_of_parse {source : String} {e : TypeExpr} (h : parse source = .ok e) :
    ∃ ts f top, Parser.Derives source Parser.anyWidens .union 1 ts [f] top ∧ top ≤ maxNesting ∧
      ts <+: (Parser.ofText source).rest ∧ e.nesting = f.nesting := by
  obtain ⟨top, hder, htop⟩ := derives_of_parse h
  generalize (Parser.ofText source).rest = rest at hder
  cases hder with
  | bare hder => exact ⟨_, _, top, hder, htop, List.prefix_refl _, rfl⟩
  | @optional ts question f _ hder => exact ⟨ts, f, top, hder, htop, List.prefix_append .., by rw [nesting]⟩

theorem nesting_le_triangle {source : String} {e : TypeExpr} (h : parse source = .ok e) :
    e.nesting ≤ triangle maxNesting := by
  obtain ⟨ts, f, top, hder, htop, -, hnesting⟩ := exists_derives_of_parse h
  rw [hnesting]
  exact Parser.nesting_of_derives hder htop f (by simp)

theorem nesting_le_maxNesting {source : String} {e : TypeExpr} (h : parse source = .ok e)
    (hu : Parser.Unsuffixed (Parser.ofText source).rest) : e.nesting ≤ maxNesting := by
  obtain ⟨ts, f, top, hder, htop, hts, hnesting⟩ := exists_derives_of_parse h
  obtain ⟨us, hus⟩ := hts
  rw [← hus] at hu
  have hf := Parser.nesting_of_unsuffixed hder hu.left_of_append f (by simp)
  omega

/-- **How deep accepted trees are nested.**  The least bound is not the number of levels but the sum of the numbers up
to it; where no bracket of the text has a suffix, it is the number of levels. -/
theorem nesting_le_iff (limit : Nat) :
    ((∀ source e, parse source = .ok e → e.nesting ≤ limit) ↔ maxNesting * (maxNesting + 1) / 2 ≤ limit) ∧
      ∀ source e, parse source = .ok e → Parser.Unsuffixed (Parser.ofText source).rest → e.nesting ≤ maxNesting := by
  refine ⟨⟨fun h => ?_, fun h source e he => ?_⟩, fun source e he hu => nesting_le_maxNesting he hu⟩
  · have htower := parse_render_of_inner (inner_tower 127) (by rw [printedLevels, levels_tower]; decide)
    rw [← triangle_eq]
    calc triangle maxNesting = (tower 127).nesting := (nesting_tower 127).symm
      _ ≤ limit := h _ _ htower
  · rw [← triangle_eq] at h
    exact Nat.le_trans (nesting_le_triangle he) h

/-- Two arguments without suffixes. -/
theorem nesting_le_iff_arguments :
    parse "G<G<A>>" = .ok (.generic "G" [.generic "G" [.reference "A"]]) ∧
      (TypeExpr.generic "G" [.generic "G" [.reference "A"]]).nesting ≤ maxNesting := by
  have h : parse "G<G<A>>" = .ok (.generic "G" [.generic "G" [.reference "A"]]) := by cbv
  refine ⟨h, (nesting_le_iff 0).2 _ _ h ?_⟩
  cbv
  decide

/-- The suffixes of the generic take the levels that the suffixes of its argument have had. -/
theorem maxNesting_lt_nesting_suffixes :
    parse ("G<T" ++ String.join (List.replicate 126 "[]") ++ ">[][]") =
        .ok (Parser.arrayed 2 (.generic "G" [Parser.arrayed 126 (.reference "T")])) ∧
      maxNesting < (Parser.arrayed 2 (.generic "G" [Parser.arrayed 126 (.reference "T")])).nesting := by
  have hT : Inner Parser.IsCanonicalKey (.reference "T") :=
    .reference (Parser.isDotted_of_isIdentifier (by decide)) (by decide)
  have hG : Inner Parser.IsCanonicalKey (.generic "G" [Parser.arrayed 126 (.reference "T")]) := by
    refine .generic (Parser.isDotted_of_isIdentifier (by decide)) (by decide) (by simp) (by simp) fun e he => ?_
    rw [List.mem_singleton.1 he]
    exact Parser.inner_arrayed hT 126
  constructor
  · have hlevels :
        (Parser.arrayed 2 (.generic "G" [Parser.arrayed 126 (.reference "T")])).printedLevels ≤ maxNesting := by
      rw [printedLevels, levels_arrayed, levels, levelsAll, levelsAll, levels_arrayed, levels]
      decide
    have hback := parse_render_of_inner (Parser.inner_arrayed hG 2) hlevels
    rw [← hback, render_arrayed rfl, render, renderAll, renderAll, render_arrayed rfl, render]
    simp
  · rw [nesting_arrayed, nesting, nestingAll, nestingAll, nesting_arrayed, nesting]
    decide

end TypeExpr

end TypeSchema
