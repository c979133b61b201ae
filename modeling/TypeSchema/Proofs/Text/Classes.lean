import TypeSchema.Identifier
import TypeSchema.Text.Blank

/-!
# Classes of characters that exclude each other

* `CharClass.contains_eq_false_of_apart`: classes whose ranges lie apart have no character in common;
* `isBlank_eq_false_of_isPart`: no character of an identifier is blank.
-/

namespace TypeSchema

namespace Text

namespace CharClass

/-- Whether no range of `s` meets a range of `t`. -/
def isApart (s t : CharClass) : Bool :=
  s.ranges.all fun r => t.ranges.all fun q => decide (r.2 < q.1) || decide (q.2 < r.1)

theorem contains_eq_false_of_apart {s t : CharClass} (h : s.isApart t = true) {c : Char} (hc : s.contains c = true) :
    t.contains c = false := by
  rw [Bool.eq_false_iff]
  intro ht
  obtain ⟨r, hr, h₁, h₂⟩ := contains_iff.1 hc
  obtain ⟨q, hq, h₃, h₄⟩ := contains_iff.1 ht
  have hrq := List.all_eq_true.1 (List.all_eq_true.1 h r hr) q hq
  simp only [Bool.or_eq_true, decide_eq_true_eq] at hrq
  omega

end CharClass

theorem blanks_isApart_letters : blanks.isApart foreignLetters = true := by decide +kernel

theorem blanks_isApart_numerals : blanks.isApart foreignNumerals = true := by decide +kernel

/-- The blank characters of ASCII. -/
theorem toNat_of_isBlank {c : Char} (h : isBlank c = true) (ha : c.toNat < 128) :
    9 ≤ c.toNat ∧ c.toNat ≤ 13 ∨ c.toNat = 32 := by
  obtain ⟨r, hr, h₁, h₂⟩ := CharClass.contains_iff.1 h
  simp only [blanks, List.mem_cons, List.not_mem_nil, or_false] at hr
  rcases hr with rfl | rfl | rfl | rfl | rfl | rfl | rfl | rfl | rfl | rfl <;> dsimp only at h₁ h₂ <;> omega

theorem toNat_of_isAlpha {c : Char} (h : c.isAlpha = true) :
    65 ≤ c.toNat ∧ c.toNat ≤ 90 ∨ 97 ≤ c.toNat ∧ c.toNat ≤ 122 := by
  change (decide (c.val ≥ 65 ∧ c.val ≤ 90) || decide (c.val ≥ 97) && decide (c.val ≤ 122)) = true at h
  simp only [Bool.or_eq_true, Bool.and_eq_true, decide_eq_true_eq, ge_iff_le, UInt32.le_iff_toNat_le] at h
  exact h

theorem toNat_of_isDigit {c : Char} (h : c.isDigit = true) : 48 ≤ c.toNat ∧ c.toNat ≤ 57 := by
  simp only [Char.isDigit, Bool.and_eq_true, decide_eq_true_eq, ge_iff_le, UInt32.le_iff_toNat_le] at h
  exact h

theorem isLetter_eq_false_of_isBlank {c : Char} (h : isBlank c = true) : isLetter c = false := by
  unfold isLetter
  split
  · rename_i ha
    have hn := toNat_of_isBlank h ha
    rw [Bool.eq_false_iff]
    intro hl
    have hn' := toNat_of_isAlpha hl
    omega
  · exact CharClass.contains_eq_false_of_apart blanks_isApart_letters h

theorem isNumeral_eq_false_of_isBlank {c : Char} (h : isBlank c = true) : isNumeral c = false := by
  unfold isNumeral
  split
  · rename_i ha
    have hn := toNat_of_isBlank h ha
    rw [Bool.eq_false_iff]
    intro hl
    have hn' := toNat_of_isDigit hl
    omega
  · exact CharClass.contains_eq_false_of_apart blanks_isApart_numerals h

theorem isBlank_eq_false_of_isAlphanum {c : Char} (h : c.isAlphanum = true) : isBlank c = false := by
  rw [Bool.eq_false_iff]
  intro hb
  have hn : 48 ≤ c.toNat ∧ c.toNat ≤ 122 := by
    rcases Bool.or_eq_true_iff.1 h with ha | hd
    · have hc := toNat_of_isAlpha ha
      omega
    · have hc := toNat_of_isDigit hd
      omega
  have hn' := toNat_of_isBlank hb (by omega)
  omega

theorem isBlank_eq_false_of_isDigit {c : Char} (h : c.isDigit = true) : isBlank c = false :=
  isBlank_eq_false_of_isAlphanum (by simp [Char.isAlphanum, h])

end Text

namespace Identifier

/-- No character of an identifier is blank. -/
theorem isBlank_eq_false_of_isPart {c : Char} (h : isPart c = true) : Text.isBlank c = false := by
  rw [Bool.eq_false_iff]
  intro hb
  simp only [isPart, Bool.or_eq_true, Text.isLetter_eq_false_of_isBlank hb, Text.isNumeral_eq_false_of_isBlank hb,
    Bool.false_eq_true, false_or, beq_iff_eq] at h
  rcases h with rfl | rfl
  · exact absurd hb (by decide)
  · exact absurd hb (by decide)

theorem isBlank_eq_false_of_isStart {c : Char} (h : isStart c = true) : Text.isBlank c = false :=
  isBlank_eq_false_of_isPart (isPart_of_isStart h)

theorem newline_not_mem_of_isIdentifier {cs : List Char} (h : isIdentifier cs = true) : '\n' ∉ cs := by
  intro hm
  have hpart : isPart '\n' = true := by
    cases cs with
    | nil => cases hm
    | cons c cs =>
      rw [isIdentifier, Bool.and_eq_true, List.all_eq_true] at h
      rcases List.mem_cons.1 hm with rfl | hm
      · exact isPart_of_isStart h.1
      · exact h.2 _ hm
  have hblank := isBlank_eq_false_of_isPart hpart
  revert hblank
  decide

end Identifier

end TypeSchema
