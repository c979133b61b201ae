import TypeSchema.Proofs.Lexing.Run

/-!
# Brackets

Brackets of the four sorts are properly nested if each is closed by its own counterpart, innermost first (`isNested`).
Tokens are balanced if they are so nested and none of them is open (`BalancedKinds`): tokens that are no brackets are
balanced, and balanced tokens stay so side by side and between brackets.
-/

namespace TypeSchema

/-! ## Nested brackets -/

/-- The bracket that closes what this one opens. -/
def Punct.closing? : Punct → Option Punct
  | openBrace => some closeBrace
  | openParen => some closeParen
  | openBracket => some closeBracket
  | openAngle => some closeAngle
  | _ => none

/-- The brackets that are to be closed behind a token, innermost first, for those before it; nothing if it closes
another one. -/
def TokenKind.brackets (kind : TokenKind) (stack : List Punct) : Option (List Punct) :=
  match kind with
  | punct x =>
    match x.closing?, x.isClose, stack with
    | some y, _, _ => some (y :: stack)
    | none, true, y :: stack => if x = y then some stack else none
    | none, true, [] => none
    | none, false, _ => some stack
  | _ => some stack

/-- Whether tokens of these kinds are properly nested, with a stack of brackets to be closed. -/
def isNested (stack : List Punct) : List TokenKind → Bool
  | [] => stack.isEmpty
  | kind :: kinds =>
    match kind.brackets stack with
    | some stack => isNested stack kinds
    | none => false

theorem exists_of_isNested_cons {stack : List Punct} {kind : TokenKind} {kinds : List TokenKind}
    (h : isNested stack (kind :: kinds) = true) :
    ∃ stack', kind.brackets stack = some stack' ∧ isNested stack' kinds = true := by
  rw [isNested] at h
  split at h
  · rename_i stack' hb
    exact ⟨stack', hb, h⟩
  · cases h

/-- What a token does to the brackets: it opens a group, closes the innermost one, or neither. -/
theorem brackets_cases {kind : TokenKind} {stack stack' : List Punct} (h : kind.brackets stack = some stack') :
    (∃ x y, kind = .punct x ∧ x.closing? = some y ∧ stack' = y :: stack) ∨
      (∃ y, kind = .punct y ∧ y.isClose = true ∧ stack = y :: stack') ∨
      kind.isOpen = false ∧ kind.isClose = false ∧ stack' = stack := by
  cases kind with
  | punct x =>
    unfold TokenKind.brackets at h
    dsimp only at h
    split at h
    · rename_i y hy
      cases h
      exact .inl ⟨x, y, rfl, hy, rfl⟩
    · rename_i y stack hx hc
      split at h
      · rename_i hxy
        cases h
        subst hxy
        exact .inr (.inl ⟨x, rfl, hc, rfl⟩)
      · cases h
    · cases h
    · rename_i hx hc
      cases h
      refine .inr (.inr ⟨?_, hc, rfl⟩)
      cases x <;> first | rfl | cases hx
  | _ =>
    cases h
    exact .inr (.inr ⟨rfl, rfl, rfl⟩)

/-- A closing bracket closes the innermost group. -/
theorem eq_cons_of_brackets_close {y : Punct} {stack stack' : List Punct} (hy : y.isClose = true)
    (h : (TokenKind.punct y).brackets stack = some stack') : stack = y :: stack' := by
  obtain ⟨x, z, hx, hxz, -⟩ | ⟨z, hz, -, rfl⟩ | ⟨-, hfalse, -⟩ := brackets_cases h
  · cases hx
    have hnone : y.closing? = none := by cases y <;> first | rfl | cases hy
    cases hnone.symm.trans hxz
  · cases hz
    rfl
  · cases hfalse.symm.trans hy

theorem brackets_open {x y : Punct} (h : x.closing? = some y) (stack : List Punct) :
    (TokenKind.punct x).brackets stack = some (y :: stack) := by
  simp only [TokenKind.brackets, h]

theorem Punct.isClose_of_closing? {x y : Punct} (h : x.closing? = some y) :
    y.closing? = none ∧ y.isClose = true ∧ x.isOpen = true := by
  cases x <;> cases h <;> exact ⟨rfl, rfl, rfl⟩

theorem Punct.closing?_openBrace : openBrace.closing? = some closeBrace := rfl

theorem Punct.closing?_openAngle : openAngle.closing? = some closeAngle := rfl

theorem Punct.closing?_inj {x x' y : Punct} (h : x.closing? = some y) (h' : x'.closing? = some y) : x = x' := by
  cases x <;> cases h <;> cases x' <;> first | rfl | cases h'

theorem brackets_close {x : Punct} (h : x.isClose = true) (stack : List Punct) :
    (TokenKind.punct x).brackets (x :: stack) = some stack := by
  cases x <;> first | rfl | cases h

theorem brackets_other {kind : TokenKind} (ho : kind.isOpen = false) (hc : kind.isClose = false) (stack : List Punct) :
    kind.brackets stack = some stack := by
  cases kind with
  | punct x =>
    have hx : x.closing? = none := by cases x <;> first | rfl | cases ho
    have hx' : x.isClose = false := hc
    simp only [TokenKind.brackets, hx, hx']
  | _ => rfl

theorem brackets_append {kind : TokenKind} {stack stack' : List Punct} (h : kind.brackets stack = some stack')
    (base : List Punct) : kind.brackets (stack ++ base) = some (stack' ++ base) := by
  obtain ⟨x, y, rfl, hxy, rfl⟩ | ⟨y, rfl, hy, rfl⟩ | ⟨ho, hc, rfl⟩ := brackets_cases h
  · exact brackets_open hxy _
  · exact brackets_close hy _
  · exact brackets_other ho hc _

theorem isNested_append {stack : List Punct} {kinds : List TokenKind} (h : isNested stack kinds = true)
    (base : List Punct) (kinds' : List TokenKind) :
    isNested (stack ++ base) (kinds ++ kinds') = isNested base kinds' := by
  induction kinds generalizing stack with
  | nil =>
    rw [isNested, List.isEmpty_iff] at h
    rw [h]
    rfl
  | cons kind kinds ih =>
    obtain ⟨stack', hb, hn⟩ := exists_of_isNested_cons h
    rw [List.cons_append, isNested, brackets_append hb]
    exact ih hn

/-! ## Balanced tokens -/

/-- Whether the token is closed and no bracket. -/
def TokenKind.isPlain (kind : TokenKind) : Bool := !kind.isError && !kind.isOpen && !kind.isClose

/-- Tokens of these kinds are closed, and their brackets are properly nested. -/
structure BalancedKinds (kinds : List TokenKind) : Prop where
  closed : ∀ kind ∈ kinds, kind.isError = false
  nested : isNested [] kinds = true

namespace BalancedKinds

variable {ks ls : List TokenKind}

theorem nil : BalancedKinds [] := ⟨by simp, rfl⟩

theorem append (h : BalancedKinds ks) (h' : BalancedKinds ls) : BalancedKinds (ks ++ ls) := by
  refine ⟨fun kind hk => ?_, (isNested_append h.nested [] ls).trans h'.nested⟩
  rcases List.mem_append.1 hk with hk | hk
  · exact h.closed kind hk
  · exact h'.closed kind hk

theorem cons {kind : TokenKind} (hk : kind.isPlain = true) (h : BalancedKinds ks) : BalancedKinds (kind :: ks) := by
  rw [TokenKind.isPlain, Bool.and_eq_true, Bool.and_eq_true, Bool.not_eq_true', Bool.not_eq_true',
    Bool.not_eq_true'] at hk
  obtain ⟨⟨he, ho⟩, hc⟩ := hk
  constructor
  · intro k hk
    rcases List.mem_cons.1 hk with rfl | hk
    · exact he
    · exact h.closed k hk
  · rw [isNested, brackets_other ho hc]
    exact h.nested

theorem group {x y : Punct} (hxy : x.closing? = some y) (h : BalancedKinds ks) :
    BalancedKinds (.punct x :: (ks ++ [.punct y])) := by
  constructor
  · intro kind hk
    rw [List.mem_cons, List.mem_append, List.mem_singleton] at hk
    rcases hk with rfl | hk | rfl
    · rfl
    · exact h.closed kind hk
    · rfl
  · rw [isNested, brackets_open hxy]
    refine (isNested_append h.nested [y] _).trans ?_
    rw [isNested, brackets_close (Punct.isClose_of_closing? hxy).2.1]
    rfl

end BalancedKinds

end TypeSchema
