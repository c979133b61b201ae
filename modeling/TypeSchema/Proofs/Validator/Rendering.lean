import Mathlib
import TypeSchema.Proofs.Registry.Scanning
import TypeSchema.Proofs.Validator.Code

/-!
# The code of a validator holds no declaration

`Codes P w found` says that the text `w`, wherever it stands before a text of `P`, is read as tokens over which a walk
finds the aliases `found`.  Such texts can be put together (`Codes.append`).  The code of a spelled validator is such a
text with nothing to find (`codes_renderAt`): in its tokens no key or builder is taken for a keyword.
-/

namespace TypeSchema

namespace Extract

open Lexer (Reads Follow Anywhere Apart)

/-! ## Pieces of code -/

/-- Before a text of `P`, the text `w` is read as tokens over which a walk finds these aliases. -/
def Codes (P : List Char → Prop) (w : String) (found : List (String × String)) : Prop :=
  ∀ rest p, P rest → ∃ ts, Reads rest p w.toList ts ∧ Finds (ts.filter fun t => !t.kind.isTrivia) found

section Combine

variable {P Q : List Char → Prop} {w w' : String} {found found' : List (String × String)}

theorem Codes.before (h : Codes P w found) (h' : Codes Q w' found') (hP : ∀ rest, Q rest → P (w'.toList ++ rest)) :
    Codes Q (w ++ w') (found ++ found') := by
  intro rest p hrest
  obtain ⟨ts, hts, hf⟩ := h (w'.toList ++ rest) p (hP rest hrest)
  obtain ⟨us, hus, hf'⟩ := h' rest (p.advance w.toList) hrest
  refine ⟨ts ++ us, ?_, ?_⟩
  · rw [String.toList_append]
    exact hts.trans hus
  · rw [List.filter_append]
    exact hf.append hf'

theorem Codes.append (h : Codes Anywhere w found) (h' : Codes Q w' found') : Codes Q (w ++ w') (found ++ found') :=
  h.before h' fun _ _ => trivial

theorem Codes.apart (h : Codes Follow w found) (h' : Codes Q w' found') (hw : Apart w') :
    Codes Q (w ++ w') (found ++ found') := h.before h' fun rest _ => hw.follow rest

theorem Codes.mono (h : Codes P w found) (hP : ∀ rest, Q rest → P rest) : Codes Q w found :=
  fun rest p hrest => h rest p (hP rest hrest)

theorem Codes.follow (h : Codes Anywhere w found) : Codes Follow w found := h.mono fun _ _ => trivial

end Combine

/-! ## Pieces without declarations -/

/-- The kinds without plain comments. -/
def significant (kinds : List TokenKind) : List TokenKind := kinds.filter fun kind => !kind.isTrivia

theorem significant_append (ks ls : List TokenKind) : significant (ks ++ ls) = significant ks ++ significant ls :=
  List.filter_append ..

/-- What is read as tokens that are passed over. -/
theorem codes_of_yields {P : List Char → Prop} {w : String} {kinds : List TokenKind} (h : Lexer.Yields P w kinds)
    (hk : passes false (significant kinds) = true) : Codes P w [] := by
  intro rest p hrest
  obtain ⟨ts, hts, rfl⟩ := h rest p hrest
  refine ⟨ts, hts, finds_of_passes ?_⟩
  rw [significant, List.filter_map] at hk
  exact hk

/-- Whether a text is read the same way wherever it stands, and holds no declaration. -/
def isCode (w : String) : Bool :=
  let ts := (tokenize w).body
  ts.all (fun t => !t.kind.isError) && ts.getLast?.all (fun t => Lexer.endsText t.kind) &&
    passes false ((ts.map Token.kind).filter fun kind => !kind.isTrivia)

theorem codes_of_isCode {w : String} (h : isCode w = true) : Codes Anywhere w [] := by
  rw [isCode, Bool.and_eq_true, Bool.and_eq_true] at h
  obtain ⟨⟨hclosed, hlast⟩, hpasses⟩ := h
  have hpiece : Lexer.isPiece w ((tokenize w).body.map Token.kind) = true := by
    rw [Lexer.isPiece, List.all_map, List.getLast?_map, Option.all_map, beq_self_eq_true, Bool.true_and,
      Bool.and_eq_true]
    exact ⟨hclosed, hlast⟩
  exact codes_of_yields (Lexer.yields_of_isPiece hpiece) hpasses

/-- One lexeme that starts no declaration. -/
theorem codes_of_spells {P : List Char → Prop} {kind : TokenKind} {w : String} (h : Lexeme.Spells kind w.toList)
    (hs : ∀ rest, P rest → Lexeme.Stops kind rest) (hk : passes false (significant [kind]) = true) : Codes P w [] :=
  codes_of_yields (Lexer.yields_of_spells h hs) hk

/-! ## Lists of pieces -/

theorem codes_empty : Codes Anywhere "" [] := codes_of_isCode (by cbv)

theorem codes_joinAll {α : Type} {xs : List α} {text : α → String} {found : α → List (String × String)}
    (h : ∀ x ∈ xs, Codes Anywhere (text x) (found x)) :
    Codes Anywhere (String.join (xs.map text)) (xs.flatMap found) := by
  induction xs with
  | nil => exact codes_empty
  | cons x xs ih =>
    rw [List.map_cons, String.join_cons, List.flatMap_cons]
    exact (h x List.mem_cons_self).append (ih fun y hy => h y (List.mem_cons_of_mem x hy))

/-! ## Names -/

theorem codes_ident {word : String} (h : Identifier.isIdentifier word.toList = true)
    (hk : startsDeclaration (.ident word) = false) : Codes Follow word [] := by
  refine codes_of_yields (Lexer.yields_ident h) ?_
  simp [significant, passes, TokenKind.isTrivia, hk]

/-- The name of a schema is no keyword: it ends otherwise. -/
theorem startsDeclaration_schemaName (name : String) : startsDeclaration (.ident (schemaName name)) = false := by
  have hne {word : String} (hw : word.toList.getLast? ≠ some 'a') : schemaName name ≠ word := by
    rintro rfl
    rw [schemaName, String.toList_append] at hw
    simp at hw
  have h₁ : schemaName name ≠ "interface" := hne (by decide)
  have h₂ : schemaName name ≠ "type" := hne (by decide)
  have h₃ : schemaName name ≠ "enum" := hne (by decide)
  simp [startsDeclaration, h₁, h₂, h₃]

theorem codes_schemaName {name : String} (h : Identifier.isIdentifier name.toList = true) :
    Codes Follow (schemaName name) [] :=
  codes_ident (isIdentifier_schemaName h) (startsDeclaration_schemaName name)

/-! ## Tokens that are passed over -/

theorem passes_append {afterDot : Bool} {ks ls : List TokenKind} (h : passes afterDot ks = true)
    (h' : passes false ls = true) : passes afterDot (ks ++ ls) = true := by
  induction ks generalizing afterDot with
  | nil =>
    cases afterDot with
    | false => exact h'
    | true => cases h
  | cons kind ks ih =>
    rw [passes, Bool.and_eq_true] at h
    rw [List.cons_append, passes, Bool.and_eq_true]
    refine ⟨?_, ih h.2⟩
    cases ks with
    | nil =>
      have hkind : (afterDot || !startsDeclaration kind) = true := by simpa using h.1
      rw [Bool.or_eq_true]
      exact .inl hkind
    | cons => exact h.1

end Extract

/-! ## Validators -/

namespace Validator

open Extract
open Lexer (Follow)

/-- Keys stand before a colon and builders behind a dot, and no schema has the name of a keyword. -/
theorem composes_passes : Composes fun ks _ _ => passes false (significant ks) = true where
  nil := rfl
  append h h' := by
    rw [significant_append]
    exact passes_append h h'
  group {x y ks _ _} hxy h := by
    have hx : passes false (significant [.punct x]) = true := by cases x <;> cases hxy <;> rfl
    have hy : passes false (significant [.punct y]) = true := by cases x <;> cases hxy <;> rfl
    have hall := passes_append hx (passes_append h hy)
    rw [← significant_append, ← significant_append] at hall
    exact hall
  builder := by decide
  member name := by simp [significant, passes, TokenKind.isTrivia, startsDeclaration]
  schema name := by simp [significant, passes, TokenKind.isTrivia, startsDeclaration_schemaName]
  key name := by
    unfold Text.keyKind
    split <;> simp [significant, passes, TokenKind.isTrivia, startsDeclaration]
  comma := by decide
  text _ _ := rfl
  fallback _ := rfl

/-- **The code of a spelled validator holds no declaration.** -/
theorem codes_renderAt {v : Validator} (h : v.IsSpelled) (indent : Nat) : Codes Follow (v.renderAt indent) [] :=
  codes_of_yields (yields_renderAt h indent) (composes_passes.codeKinds v)

end Validator

end TypeSchema
