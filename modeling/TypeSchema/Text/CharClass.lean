/-!
# Classes of characters

A class is a list of ranges of code points, both ends included.
-/

namespace TypeSchema.Text

/-- A set of characters, written as ranges of code points. -/
structure CharClass where
  ranges : List (Nat × Nat)

namespace CharClass

/-- Whether some range of the class holds the code point of `c`. -/
def contains (s : CharClass) (c : Char) : Bool :=
  s.ranges.any fun r => r.1 ≤ c.toNat && c.toNat ≤ r.2

theorem contains_iff {s : CharClass} {c : Char} :
    s.contains c = true ↔ ∃ r ∈ s.ranges, r.1 ≤ c.toNat ∧ c.toNat ≤ r.2 := by
  simp [contains]

end CharClass

end TypeSchema.Text
