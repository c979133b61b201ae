import Mathlib
import TypeSchema.Proofs.Lexing.Run

/-!
# Pieces of a text

`Yields P w kinds` says that the text `w`, wherever it stands before a text of `P`, is read as tokens of these kinds.
Texts that are read so can be put together (`Yields.append`, `Yields.apart`), side by side or with commas between them
(`yields_join`, `yields_intercalate`).  A fixed text is checked by reading it once (`yields_of_isPiece`).
-/

namespace TypeSchema

namespace Lexer

open Lexeme (Spells Stops)

/-- Before a text of `P`, the text `w` is read as tokens of these kinds. -/
def Yields (P : List Char → Prop) (w : String) (kinds : List TokenKind) : Prop :=
  ∀ rest p, P rest → ∃ ts, Reads rest p w.toList ts ∧ ts.map Token.kind = kinds

/-- Any text. -/
def Anywhere (_ : List Char) : Prop := True

/-- A text into which no identifier goes on. -/
def Apart (w : String) : Prop := ∃ c cs, w.toList = c :: cs ∧ Identifier.isPart c = false

theorem Apart.follow {w : String} (h : Apart w) (rest : List Char) : Follow (w.toList ++ rest) := by
  obtain ⟨c, cs, hc, hpart⟩ := h
  rw [hc]
  exact follow_cons hpart _

theorem Apart.append {w : String} (h : Apart w) (w' : String) : Apart (w ++ w') := by
  obtain ⟨c, cs, hc, hpart⟩ := h
  exact ⟨c, cs ++ w'.toList, by rw [String.toList_append, hc, List.cons_append], hpart⟩

/-! ## Putting pieces together -/

section Combine

variable {P Q : List Char → Prop} {w w' : String} {kinds kinds' : List TokenKind}

theorem Yields.before (h : Yields P w kinds) (h' : Yields Q w' kinds') (hP : ∀ rest, Q rest → P (w'.toList ++ rest)) :
    Yields Q (w ++ w') (kinds ++ kinds') := by
  intro rest p hrest
  obtain ⟨ts, hts, hk⟩ := h (w'.toList ++ rest) p (hP rest hrest)
  obtain ⟨us, hus, hk'⟩ := h' rest (p.advance w.toList) hrest
  refine ⟨ts ++ us, ?_, by rw [List.map_append, hk, hk']⟩
  rw [String.toList_append]
  exact hts.trans hus

theorem Yields.append (h : Yields Anywhere w kinds) (h' : Yields Q w' kinds') : Yields Q (w ++ w') (kinds ++ kinds') :=
  h.before h' fun _ _ => trivial

theorem Yields.apart (h : Yields Follow w kinds) (h' : Yields Q w' kinds') (hw : Apart w') :
    Yields Q (w ++ w') (kinds ++ kinds') := h.before h' fun rest _ => hw.follow rest

/-- A text between brackets. -/
theorem Yields.between {opening closing : String} {os cs : List TokenKind} (ho : Yields Anywhere opening os)
    (h : Yields Follow w kinds) (hc : Yields Anywhere closing cs) (ha : Apart closing) :
    Yields Anywhere (opening ++ w ++ closing) (os ++ kinds ++ cs) := (ho.append h).apart hc ha

theorem Yields.mono (h : Yields P w kinds) (hP : ∀ rest, Q rest → P rest) : Yields Q w kinds :=
  fun rest p hrest => h rest p (hP rest hrest)

theorem Yields.follow (h : Yields Anywhere w kinds) : Yields Follow w kinds := h.mono fun _ _ => trivial

/-- The tokens of a text that is a piece by itself. -/
theorem Yields.tokenize (h : Yields P w kinds) (hP : P []) : (tokenize w).body.map Token.kind = kinds := by
  obtain ⟨ts, hts, hk⟩ := h [] .origin hP
  have htokens := tokenize_of_reads hts
  rw [String.ofList_toList] at htokens
  rw [htokens, hk]

end Combine

/-! ## Lexemes and fixed texts -/

/-- One lexeme. -/
theorem yields_of_spells {P : List Char → Prop} {kind : TokenKind} {w : String} (h : Spells kind w.toList)
    (hs : ∀ rest, P rest → Stops kind rest) : Yields P w [kind] :=
  fun rest p hrest => ⟨_, reads_spelled h (hs rest hrest) p, rfl⟩

theorem yields_ident {word : String} (h : Identifier.isIdentifier word.toList = true) :
    Yields Follow word [.ident word] := by
  have hident := Spells.ident h
  rw [String.ofList_toList] at hident
  exact yields_of_spells hident fun _ hrest => hrest

/-- Whether no lexeme of this kind reaches into what follows. -/
def endsText : TokenKind → Bool
  | .punct x => x != .equals
  | _ => false

theorem stops_of_endsText {kind : TokenKind} (h : endsText kind = true) (rest : List Char) : Stops kind rest := by
  cases kind with
  | punct x =>
    cases x with
    | equals => cases h
    | _ => trivial
  | _ => cases h

/-- Whether a text is read the same way wherever it stands, as tokens of these kinds. -/
def isPiece (w : String) (kinds : List TokenKind) : Bool :=
  (tokenize w).body.map Token.kind == kinds && kinds.all (fun kind => !kind.isError) && kinds.getLast?.all endsText

theorem yields_of_isPiece {w : String} {kinds : List TokenKind} (h : isPiece w kinds = true) :
    Yields Anywhere w kinds := by
  simp only [isPiece, Bool.and_eq_true, beq_iff_eq, List.all_eq_true, Bool.not_eq_true', Option.all_eq_true] at h
  obtain ⟨⟨rfl, hclosed⟩, hlast⟩ := h
  intro rest p _
  refine (reads_tokenize w).replace (fun t ht => hclosed _ (List.mem_map_of_mem ht)) (fun t ht => ?_) p
  refine stops_of_endsText (hlast _ ?_) rest
  rw [List.getLast?_map, Option.mem_def.1 ht]
  rfl

theorem yields_empty : Yields Anywhere "" [] := fun _ p _ => ⟨[], .done p, rfl⟩

/-! ## Lists of pieces -/

section Lists

variable {α : Type} {xs : List α} {text : α → String} {kinds : α → List TokenKind}

theorem yields_join (h : ∀ x ∈ xs, Yields Anywhere (text x) (kinds x)) :
    Yields Anywhere (String.join (xs.map text)) (xs.flatMap kinds) := by
  induction xs with
  | nil => exact yields_empty
  | cons x xs ih =>
    rw [List.map_cons, String.join_cons, List.flatMap_cons]
    exact (h x List.mem_cons_self).append (ih fun y hy => h y (List.mem_cons_of_mem x hy))

theorem yields_intercalate (h : ∀ x ∈ xs, Yields Follow (text x) (kinds x)) :
    Yields Follow (", ".intercalate (xs.map text)) ([TokenKind.punct .comma].intercalate (xs.map kinds)) := by
  have hcomma : Yields Anywhere ", " [.punct .comma] := yields_of_isPiece (by cbv)
  induction xs with
  | nil => exact yields_empty.follow
  | cons x xs ih =>
    have hx := h x List.mem_cons_self
    have hxs := ih fun y hy => h y (List.mem_cons_of_mem x hy)
    cases xs with
    | nil =>
      rw [List.map_singleton, List.map_singleton, String.intercalate_singleton, List.intercalate_singleton]
      exact hx
    | cons y xs =>
      rw [List.map_cons, List.map_cons, List.map_cons, List.map_cons, String.intercalate_cons_cons,
        List.intercalate_cons_cons]
      exact (hx.apart hcomma ⟨',', _, rfl, by decide⟩).append hxs

end Lists

end Lexer

end TypeSchema
