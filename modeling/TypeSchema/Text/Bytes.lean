/-!
# Cutting a text at byte offsets

Offsets count the bytes of the UTF-8 form.  A cut that would fall inside a character, or behind the
end of the text, is refused.
-/

namespace TypeSchema.Text

/-- The number of bytes of a text in UTF-8. -/
def byteLength : List Char → Nat
  | [] => 0
  | c :: cs => c.utf8Size + byteLength cs

@[simp] theorem byteLength_nil : byteLength [] = 0 := rfl

@[simp] theorem byteLength_cons (c : Char) (cs : List Char) :
    byteLength (c :: cs) = c.utf8Size + byteLength cs := rfl

@[simp] theorem byteLength_append (cs ds : List Char) :
    byteLength (cs ++ ds) = byteLength cs + byteLength ds := by
  induction cs with
  | nil => simp
  | cons c cs ih => simp [ih, Nat.add_assoc]

/-- Splits a text after its first `n` bytes. -/
def splitBytes? : Nat → List Char → Option (List Char × List Char)
  | 0, cs => some ([], cs)
  | _ + 1, [] => none
  | n + 1, c :: cs =>
    if c.utf8Size ≤ n + 1 then
      (splitBytes? (n + 1 - c.utf8Size) cs).map fun (before, after) => (c :: before, after)
    else none
termination_by structural _ cs => cs

/-- The characters between the byte offsets `start` and `stop`. -/
def slice? (start stop : Nat) (cs : List Char) : Option (List Char) := do
  if stop < start then none
  else
    let (_, after) ← splitBytes? start cs
    let (inside, _) ← splitBytes? (stop - start) after
    return inside

end TypeSchema.Text
