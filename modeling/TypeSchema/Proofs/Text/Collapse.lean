import TypeSchema.Text.Blank

/-!
# Collapsed texts

* `collapse_collapse`: collapsing twice is collapsing once;
* `startsWord_collapseChars`, `endsWord_collapseChars`: a collapsed text has no blanks at its ends;
* `squeeze`: every run of blanks made one space, wherever it stands.  Between words it is the same as collapsing
  (`collapseChars_eq_squeeze`), and it works piece by piece (`squeeze_append`).
-/

namespace TypeSchema.Text

/-- Whether a text ends with a character that is not blank. -/
def endsWord (cs : List Char) : Bool := cs.getLast?.any fun c => !isBlank c

theorem startsWord_append {cs : List Char} (h : startsWord cs = true) (ds : List Char) :
    startsWord (cs ++ ds) = true := by
  cases cs with
  | nil => cases h
  | cons c cs => exact h

theorem endsWord_append {ds : List Char} (h : endsWord ds = true) (cs : List Char) : endsWord (cs ++ ds) = true := by
  rw [endsWord, List.getLast?_append]
  cases hd : ds.getLast? with
  | none => rw [endsWord, hd] at h; cases h
  | some d => rwa [endsWord, hd] at h

theorem endsWord_cons_cons {c d : Char} {cs : List Char} : endsWord (c :: d :: cs) = endsWord (d :: cs) := by
  simp [endsWord]

/-- There are no blanks before a text that starts with a word. -/
theorem eq_nil_of_startsWord {b cs : List Char} (h : startsWord (b ++ cs) = true) (hb : b.all isBlank = true) :
    b = [] := by
  cases b with
  | nil => rfl
  | cons c b =>
    simp only [List.all_cons, Bool.and_eq_true] at hb
    simp [startsWord, hb.1] at h

/-- There are no blanks behind a text that ends with a word. -/
theorem eq_nil_of_endsWord {b cs : List Char} (h : endsWord (cs ++ b) = true) (hb : b.all isBlank = true) :
    b = [] := by
  cases hl : b.getLast? with
  | none => exact List.getLast?_eq_none_iff.1 hl
  | some c =>
    have hc := List.all_eq_true.1 hb c (List.mem_of_getLast? hl)
    simp [endsWord, List.getLast?_append, hl, hc] at h

/-! ## Words -/

/-- The text is a word: it has characters, and none is blank. -/
def isWord (w : List Char) : Bool := !w.isEmpty && w.all fun c => !isBlank c

theorem isWord_cons {c : Char} {w : List Char} :
    isWord (c :: w) = true ↔ isBlank c = false ∧ ∀ d ∈ w, isBlank d = false := by
  simp [isWord]

theorem isWord_of_mem_words {cs w : List Char} (h : w ∈ words cs) : isWord w = true := by
  fun_induction words cs generalizing w with
  | case1 => cases h
  | case2 c cs hc ih => exact ih h
  | case3 c cs hc hs hw ih =>
    obtain rfl := List.mem_singleton.1 h
    exact isWord_cons.2 ⟨by simpa using hc, by simp⟩
  | case4 c cs hc hs v vs hw ih =>
    rw [hw] at ih
    rcases List.mem_cons.1 h with rfl | h
    · have hv := ih List.mem_cons_self
      cases v with
      | nil => cases hv
      | cons d ds =>
        rw [isWord_cons] at hv ⊢
        refine ⟨by simpa using hc, fun x hx => ?_⟩
        rcases List.mem_cons.1 hx with rfl | hx
        · exact hv.1
        · exact hv.2 x hx
    · exact ih (List.mem_cons_of_mem _ h)
  | case5 c cs hc hs ih =>
    rcases List.mem_cons.1 h with rfl | h
    · exact isWord_cons.2 ⟨by simpa using hc, by simp⟩
    · exact ih h

theorem words_of_isWord {w : List Char} (h : isWord w = true) : words w = [w] := by
  induction w with
  | nil => cases h
  | cons c w ih =>
    rw [isWord_cons] at h
    cases w with
    | nil => simp [words, h.1, startsWord]
    | cons d ds =>
      have hd := h.2 d List.mem_cons_self
      have hrest := ih (isWord_cons.2 ⟨hd, fun x hx => h.2 x (List.mem_cons_of_mem _ hx)⟩)
      rw [words, h.1, hrest]
      simp [startsWord, hd]

theorem words_space (cs : List Char) : words (' ' :: cs) = words cs := by
  have h : isBlank ' ' = true := by decide
  rw [words, if_pos h]

theorem words_append_space {w : List Char} (h : isWord w = true) (cs : List Char) :
    words (w ++ ' ' :: cs) = w :: words cs := by
  induction w with
  | nil => cases h
  | cons c w ih =>
    rw [isWord_cons] at h
    cases w with
    | nil =>
      have hs : startsWord (' ' :: cs) = false := by
        have h : isBlank ' ' = true := by decide
        simp [startsWord, h]
      rw [List.singleton_append, words, h.1, if_neg (by simp), hs, if_neg (by simp), words_space]
    | cons d ds =>
      have hd := h.2 d List.mem_cons_self
      have hrest := ih (isWord_cons.2 ⟨hd, fun x hx => h.2 x (List.mem_cons_of_mem _ hx)⟩)
      rw [List.cons_append, words, h.1, hrest]
      simp [startsWord, hd]

theorem words_intercalate {ws : List (List Char)} (h : ∀ w ∈ ws, isWord w = true) :
    words ([' '].intercalate ws) = ws := by
  induction ws with
  | nil => rfl
  | cons w ws ih =>
    have hw := h w List.mem_cons_self
    have hws := ih fun v hv => h v (List.mem_cons_of_mem _ hv)
    cases ws with
    | nil => rw [List.intercalate_singleton, words_of_isWord hw]
    | cons v vs =>
      rw [List.intercalate_cons_cons, List.append_assoc, List.singleton_append, words_append_space hw, hws]

theorem collapseChars_collapseChars (cs : List Char) : collapseChars (collapseChars cs) = collapseChars cs := by
  have h : words (collapseChars cs) = words cs := words_intercalate fun w => isWord_of_mem_words
  rw [collapseChars, h, collapseChars]

/-- **Collapsing twice is collapsing once.** -/
theorem collapse_collapse (text : String) : collapse (collapse text) = collapse text := by
  simp only [collapse, String.toList_ofList, collapseChars_collapseChars]

/-! ## Characters of a collapsed text -/

theorem mem_collapseChars {cs : List Char} {c : Char} (h : c ∈ collapseChars cs) : isBlank c = false ∨ c = ' ' := by
  have hw : ∀ w ∈ words cs, isWord w = true := fun w => isWord_of_mem_words
  rw [collapseChars] at h
  generalize words cs = ws at h hw
  induction ws with
  | nil => cases h
  | cons w ws ih =>
    have hword : c ∈ w → isBlank c = false := by
      intro hc
      have h := hw w List.mem_cons_self
      simp only [isWord, Bool.and_eq_true, List.all_eq_true, Bool.not_eq_true'] at h
      exact h.2 c hc
    cases ws with
    | nil =>
      rw [List.intercalate_singleton] at h
      exact .inl (hword h)
    | cons v vs =>
      rw [List.intercalate_cons_cons, List.mem_append, List.mem_append, List.mem_singleton] at h
      rcases h with (h | h) | h
      · exact .inl (hword h)
      · exact .inr h
      · exact ih h fun u hu => hw u (List.mem_cons_of_mem _ hu)

theorem newline_not_mem_collapseChars (cs : List Char) : '\n' ∉ collapseChars cs := by
  intro h
  rcases mem_collapseChars h with h | h
  · exact absurd h (by decide)
  · exact absurd h (by decide)

theorem startsWord_of_isWord {w : List Char} (h : isWord w = true) : startsWord w = true := by
  cases w with
  | nil => cases h
  | cons c w => simp [startsWord, (isWord_cons.1 h).1]

theorem endsWord_of_isWord {w : List Char} (h : isWord w = true) : endsWord w = true := by
  simp only [isWord, Bool.and_eq_true, List.all_eq_true, Bool.not_eq_true'] at h
  cases hl : w.getLast? with
  | none =>
    rw [List.getLast?_eq_none_iff] at hl
    rw [hl] at h
    cases h.1
  | some c => simp [endsWord, hl, h.2 c (List.mem_of_getLast? hl)]

theorem startsWord_collapseChars {cs : List Char} (h : collapseChars cs ≠ []) :
    startsWord (collapseChars cs) = true := by
  have hw : ∀ w ∈ words cs, isWord w = true := fun w => isWord_of_mem_words
  rw [collapseChars] at h ⊢
  cases hws : words cs with
  | nil => rw [hws] at h; exact absurd rfl h
  | cons w ws =>
    rw [hws] at hw
    have hfirst := startsWord_of_isWord (hw w List.mem_cons_self)
    cases ws with
    | nil => rwa [List.intercalate_singleton]
    | cons v vs =>
      rw [List.intercalate_cons_cons, List.append_assoc]
      exact startsWord_append hfirst _

theorem endsWord_collapseChars {cs : List Char} (h : collapseChars cs ≠ []) :
    endsWord (collapseChars cs) = true := by
  have hw : ∀ w ∈ words cs, isWord w = true := fun w => isWord_of_mem_words
  rw [collapseChars] at h ⊢
  generalize words cs = ws at h hw
  induction ws with
  | nil => exact absurd rfl h
  | cons w ws ih =>
    cases ws with
    | nil =>
      rw [List.intercalate_singleton]
      exact endsWord_of_isWord (hw w List.mem_cons_self)
    | cons v vs =>
      rw [List.intercalate_cons_cons]
      refine endsWord_append (ih ?_ fun u hu => hw u (List.mem_cons_of_mem _ hu)) _
      have hv := startsWord_of_isWord (hw v (by simp))
      cases vs with
      | nil =>
        rw [List.intercalate_singleton]
        rintro rfl
        cases hv
      | cons u us =>
        rw [List.intercalate_cons_cons]
        simp

theorem eq_nil_of_collapsed {b cs b' : List Char} (h : collapseChars (b ++ cs ++ b') = b ++ cs ++ b')
    (hne : b ++ cs ++ b' ≠ []) (hb : b.all isBlank = true) (hb' : b'.all isBlank = true) : b = [] ∧ b' = [] := by
  have hstart := startsWord_collapseChars (h ▸ hne)
  have hend := endsWord_collapseChars (h ▸ hne)
  rw [h, List.append_assoc] at hstart
  rw [h] at hend
  exact ⟨eq_nil_of_startsWord hstart hb, eq_nil_of_endsWord hend hb'⟩

/-! ## Squeezed texts -/

/-- The text with every run of blanks made one space. -/
def squeeze : List Char → List Char
  | [] => []
  | c :: cs =>
    if isBlank c then if cs.head?.any isBlank then squeeze cs else ' ' :: squeeze cs
    else c :: squeeze cs

theorem squeeze_cons {c : Char} (h : isBlank c = false) (cs : List Char) : squeeze (c :: cs) = c :: squeeze cs := by
  rw [squeeze, if_neg (by simp [h])]

/-- The first character stays, or is made a space. -/
theorem head?_squeeze (cs : List Char) :
    (squeeze cs).head? = cs.head?.map fun c => if isBlank c then ' ' else c := by
  fun_induction squeeze cs with
  | case1 => rfl
  | case2 c cs hc hs ih =>
    cases cs with
    | nil => cases hs
    | cons d ds =>
      simp only [List.head?_cons, Option.any_some] at hs
      simp [ih, hc, hs]
  | case3 c cs hc hs ih => simp [hc]
  | case4 c cs hc ih => simp [hc]

theorem squeeze_of_isWord {w : List Char} (h : isWord w = true) : squeeze w = w := by
  simp only [isWord, Bool.and_eq_true, List.all_eq_true, Bool.not_eq_true'] at h
  have hw := h.2
  clear h
  induction w with
  | nil => rfl
  | cons c w ih => rw [squeeze_cons (hw c List.mem_cons_self), ih fun d hd => hw d (List.mem_cons_of_mem _ hd)]

/-- Squeezing works piece by piece, where not both pieces have blanks at the seam. -/
theorem squeeze_append {cs ds : List Char} (h : endsWord cs = true ∨ startsWord ds = true) :
    squeeze (cs ++ ds) = squeeze cs ++ squeeze ds := by
  induction cs with
  | nil => rfl
  | cons c cs ih =>
    cases cs with
    | nil =>
      cases hc : isBlank c with
      | false =>
        rw [List.singleton_append, squeeze_cons hc, squeeze_cons hc]
        rfl
      | true =>
        have hd : ds.head?.any isBlank = false := by
          cases ds with
          | nil => rfl
          | cons d ds => simpa [endsWord, startsWord, hc] using h
        simp [squeeze, hc, hd]
    | cons d es =>
      rw [endsWord_cons_cons] at h
      have hrest := ih h
      cases hc : isBlank c with
      | false => rw [List.cons_append, squeeze_cons hc, squeeze_cons hc, hrest, List.cons_append]
      | true =>
        rw [List.cons_append, squeeze, squeeze.eq_2 c (d :: es), hrest, if_pos hc, if_pos hc]
        cases hd : isBlank d with
        | true => simp [hd]
        | false => simp [hd]

theorem squeeze_blank {c : Char} (h : isBlank c = true) (cs : List Char) :
    squeeze (c :: cs) = ' ' :: squeeze (cs.dropWhile isBlank) := by
  induction cs generalizing c with
  | nil => simp [squeeze, h]
  | cons d ds ih =>
    rw [squeeze, if_pos h]
    cases hd : isBlank d with
    | true =>
      rw [if_pos (by simp [hd]), ih hd, List.dropWhile_cons_of_pos hd]
    | false =>
      rw [if_neg (by simp [hd]), List.dropWhile_cons_of_neg (by simp [hd])]

/-- What holds of a squeezed text and does not need a space in front holds without the blanks in front. -/
theorem squeeze_dropWhile {p : List Char → Prop} (hspace : ∀ cs, p (' ' :: cs) → p cs) {cs : List Char}
    (h : p (squeeze cs)) : p (squeeze (cs.dropWhile isBlank)) := by
  cases cs with
  | nil => exact h
  | cons c cs =>
    cases hc : isBlank c with
    | true =>
      rw [squeeze_blank hc] at h
      rw [List.dropWhile_cons_of_pos hc]
      exact hspace _ h
    | false => rwa [List.dropWhile_cons_of_neg (by simp [hc])]

theorem words_ne_nil {cs : List Char} (h : endsWord cs = true) : words cs ≠ [] := by
  induction cs with
  | nil => cases h
  | cons c cs ih =>
    rw [words]
    split
    · rename_i hc
      cases cs with
      | nil => simp [endsWord, hc] at h
      | cons d ds => exact ih (by rwa [endsWord_cons_cons] at h)
    · split
      · split
        · simp
        · simp
      · simp

/-- Between words, squeezing is collapsing. -/
theorem collapseChars_eq_squeeze {cs : List Char} (h : endsWord cs = true) :
    collapseChars cs = squeeze (cs.dropWhile isBlank) := by
  unfold collapseChars
  induction cs with
  | nil => rfl
  | cons c cs ih =>
    cases hc : isBlank c with
    | true =>
      rw [words, if_pos hc, List.dropWhile_cons_of_pos hc]
      cases cs with
      | nil => rfl
      | cons d ds => exact ih (by rwa [endsWord_cons_cons] at h)
    | false =>
      rw [words, if_neg (by simp [hc]), List.dropWhile_cons_of_neg (by simp [hc]), squeeze_cons hc]
      cases cs with
      | nil => rfl
      | cons d ds =>
        rw [endsWord_cons_cons] at h
        have hrest := ih h
        cases hd : isBlank d with
        | false =>
          rw [List.dropWhile_cons_of_neg (by simp [hd])] at hrest
          rw [if_pos (by simp [startsWord, hd]), ← hrest]
          cases hw : words (d :: ds) with
          | nil => exact absurd hw (words_ne_nil h)
          | cons w ws => rw [List.intercalate_cons_cons_left]
        | true =>
          rw [if_neg (by simp [startsWord, hd]), List.intercalate_cons_of_ne_nil (words_ne_nil h), hrest,
            List.dropWhile_cons_of_pos hd, squeeze_blank hd]
          rfl

/-- A text without blanks at its ends is collapsed by squeezing it. -/
theorem collapseChars_of_startsWord {cs : List Char} (hs : startsWord cs = true) (he : endsWord cs = true) :
    collapseChars cs = squeeze cs := by
  rw [collapseChars_eq_squeeze he]
  cases cs with
  | nil => rfl
  | cons c cs =>
    rw [List.dropWhile_cons_of_neg]
    simpa [startsWord] using hs

end TypeSchema.Text
