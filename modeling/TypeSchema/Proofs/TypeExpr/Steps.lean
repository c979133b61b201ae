import TypeSchema.TypeExpr.Parser

/-!
# Steps of the parser

What a step does is said twice: from its result to what it has read (`eat_eq_ok`, `expect_eq_ok`), and from what comes
next to its result (`eat_head`, `expect_head`).  `bind_eq_ok` takes a successful sequence of steps apart.
-/

namespace TypeSchema

namespace Parser

variable {α β : Type}

/-! ## Sequences -/

theorem bind_eq_ok {x : Step α} {f : α → Step β} {p q : Parser} {b : β} (h : (x >>= f) p = .ok b q) :
    ∃ a r, x p = .ok a r ∧ f a r = .ok b q := by
  change EStateM.bind x f p = .ok b q at h
  unfold EStateM.bind at h
  split at h
  · rename_i a r hx
    exact ⟨a, r, hx, h⟩
  · cases h

theorem bind_of_ok {x : Step α} {p r : Parser} {a : α} (h : x p = .ok a r) (f : α → Step β) :
    (x >>= f) p = f a r := by
  change EStateM.bind x f p = f a r
  unfold EStateM.bind
  rw [h]

theorem bind_of_error {x : Step α} {p r : Parser} {e : ParseFailure} (h : x p = .error e r) (f : α → Step β) :
    (x >>= f) p = .error e r := by
  change EStateM.bind x f p = .error e r
  unfold EStateM.bind
  rw [h]

theorem pure_eq_ok {a b : α} {p q : Parser} (h : (pure a : Step α) p = .ok b q) : a = b ∧ p = q := by
  cases h
  exact ⟨rfl, rfl⟩

/-! ## Single tokens -/

theorem current_of_rest {p : Parser} {t : Token} {rest : List Token} (h : p.rest = t :: rest) : p.current = t := by
  simp [current, h]

/-- The end of input is no token of a text, so anything else stands in the text. -/
theorem rest_of_current {p : Parser} {kind : TokenKind} (h : p.current.kind = kind) (he : kind ≠ .eof) :
    ∃ t rest, p.rest = t :: rest ∧ t.kind = kind := by
  cases hr : p.rest with
  | nil =>
    rw [current, hr] at h
    exact absurd h.symm he
  | cons t rest => exact ⟨t, rest, rfl, by rwa [current_of_rest hr] at h⟩

theorem peek_eq_ok {p q : Parser} {kind : TokenKind} (h : peek p = .ok kind q) : p.current.kind = kind ∧ p = q := by
  cases h
  exact ⟨rfl, rfl⟩

theorem remaining_eq_ok {p q : Parser} {n : Nat} (h : remaining p = .ok n q) : p.rest.length = n ∧ p = q := by
  cases h
  exact ⟨rfl, rfl⟩

theorem advance_head {p : Parser} {t : Token} {rest : List Token} (h : p.rest = t :: rest) :
    advance p = .ok () { p with rest } := by
  rw [advance, h]
  rfl

theorem eat_head {x : Punct} {p : Parser} {t : Token} {rest : List Token} (h : p.rest = t :: rest)
    (ht : t.kind = .punct x) : eat x p = .ok true { p with rest } := by
  have hk : peek p = .ok (.punct x) p := by rw [peek, current_of_rest h, ht]
  rw [eat, bind_of_ok hk, if_pos rfl, bind_of_ok (advance_head h)]
  rfl

theorem eat_other {x : Punct} {p : Parser} (h : p.current.kind ≠ .punct x) : eat x p = .ok false p := by
  have hk : peek p = .ok p.current.kind p := rfl
  rw [eat, bind_of_ok hk, if_neg h]
  rfl

theorem eat_eq_ok {x : Punct} {p q : Parser} {b : Bool} (h : eat x p = .ok b q) :
    (b = true ∧ ∃ t rest, p.rest = t :: rest ∧ t.kind = .punct x ∧ q = { p with rest }) ∨ (b = false ∧ q = p) := by
  by_cases hc : p.current.kind = .punct x
  · obtain ⟨t, rest, hr, ht⟩ := rest_of_current hc (by simp)
    rw [eat_head hr ht] at h
    cases h
    exact .inl ⟨rfl, t, rest, hr, ht, rfl⟩
  · rw [eat_other hc] at h
    cases h
    exact .inr ⟨rfl, rfl⟩

theorem expect_head {x : Punct} {p : Parser} {t : Token} {rest : List Token} (h : p.rest = t :: rest)
    (ht : t.kind = .punct x) : expect x p = .ok () { p with rest } := by
  rw [expect, bind_of_ok (eat_head h ht)]
  rfl

theorem expect_other {x : Punct} {p : Parser} (h : p.current.kind ≠ .punct x) :
    expect x p = fail (.expected x p.current.kind) p := by
  rw [expect, bind_of_ok (eat_other h)]
  rfl

theorem expect_eq_ok {x : Punct} {p q : Parser} {u : Unit} (h : expect x p = .ok u q) :
    ∃ t rest, p.rest = t :: rest ∧ t.kind = .punct x ∧ q = { p with rest } := by
  obtain ⟨b, r, hb, hr⟩ := bind_eq_ok h
  rcases eat_eq_ok hb with ⟨rfl, t, rest, hp, ht, rfl⟩ | ⟨rfl, rfl⟩
  · obtain ⟨-, rfl⟩ := pure_eq_ok hr
    exact ⟨t, rest, hp, ht, rfl⟩
  · cases hr

/-! ## Loops -/

theorem more_other {separator : Punct} {item : Step α} {p : Parser} (h : p.current.kind ≠ .punct separator) (n : Nat) :
    more separator item n p = .ok [] p := by
  cases n with
  | zero => rfl
  | succ n =>
    rw [more, bind_of_ok (eat_other h)]
    rfl

theorem suffixes_other {e : TypeExpr} {p : Parser} (h : p.current.kind ≠ .punct .openBracket) (n : Nat) :
    suffixes e n p = .ok e p := by
  cases n with
  | zero => rfl
  | succ n =>
    rw [suffixes, bind_of_ok (eat_other h)]
    rfl

theorem dotted_other {name : String} {p : Parser} (h : p.current.kind ≠ .punct .dot) (n : Nat) :
    dotted name n p = .ok name p := by
  cases n with
  | zero => rfl
  | succ n =>
    rw [dotted, bind_of_ok (eat_other h)]
    rfl

section Dots

variable {name : String} {n : Nat} {p : Parser} {dot : Token}

theorem dotted_part {t : Token} {part : String} {rest : List Token} (hr : p.rest = dot :: t :: rest)
    (hdot : dot.kind = .punct .dot) (ht : t.kind = .ident part) :
    dotted name (n + 1) p = dotted (name ++ "." ++ part) n { p with rest } := by
  have hk : peek { p with rest := t :: rest } = .ok (.ident part) { p with rest := t :: rest } := by
    rw [peek, current_of_rest rfl, ht]
  rw [dotted, bind_of_ok (eat_head hr hdot), if_pos rfl, bind_of_ok hk]
  dsimp only
  rw [bind_of_ok (advance_head rfl)]

theorem dotted_fail {rest : List Token} (hr : p.rest = dot :: rest) (hdot : dot.kind = .punct .dot)
    (h : ∀ part, (current { p with rest }).kind ≠ .ident part) :
    dotted name (n + 1) p = fail .nameAfterDot { p with rest } := by
  obtain ⟨kind, hkind⟩ : ∃ kind, (current { p with rest }).kind = kind := ⟨_, rfl⟩
  have hk : peek { p with rest } = .ok kind { p with rest } := by rw [peek, hkind]
  rw [dotted, bind_of_ok (eat_head hr hdot), if_pos rfl, bind_of_ok hk]
  split
  · exact absurd hkind (h _)
  · rfl

end Dots

/-! ## Levels -/

theorem enter_eq_ok {p q : Parser} {u : Unit} (h : enter p = .ok u q) :
    p.depth + 1 ≤ maxNesting ∧ q = { p with depth := p.depth + 1 } := by
  unfold enter at h
  split at h
  · cases h
  · cases h
    exact ⟨by omega, rfl⟩

theorem onLevel_eq_ok {step : Step α} {p q : Parser} {a : α} (h : onLevel step p = .ok a q) :
    ∃ r, step p = .ok a r ∧ q = { r with depth := p.depth } := by
  unfold onLevel at h
  split at h
  · rename_i r hr
    cases h
    exact ⟨r, hr, rfl⟩
  · cases h

/-! ## Arguments of records -/

section Records

variable {inner : Step TypeExpr} {p : Parser}

theorem recordArguments_none (h : splitKey? 0 p.rest = none) : recordArguments inner p = .ok none p := by
  have hget : (get : Step Parser) p = .ok p p := rfl
  rw [recordArguments, bind_of_ok hget, h]
  rfl

/-- With a key, the arguments are the key, the comma, the value and the closing angle. -/
theorem recordArguments_some {key rest : List Token} {text : String} (h : splitKey? 0 p.rest = some (key, rest))
    (hk : keyText? p.source key = some text) :
    recordArguments inner p =
      (do expect .comma; let value ← inner; expect .closeAngle; return some (text, value) : Step _)
        { p with rest } := by
  have hget : (get : Step Parser) p = .ok p p := rfl
  have hset : (set { p with rest } : Step PUnit) p = .ok ⟨⟩ { p with rest } := rfl
  rw [recordArguments, bind_of_ok hget, h]
  dsimp only
  rw [hk]
  dsimp only
  rw [bind_of_ok hset]

/-- A key without a text is none. -/
theorem recordArguments_textless {key rest : List Token} (h : splitKey? 0 p.rest = some (key, rest))
    (hk : keyText? p.source key = none) : recordArguments inner p = .ok none p := by
  have hget : (get : Step Parser) p = .ok p p := rfl
  rw [recordArguments, bind_of_ok hget, h]
  dsimp only
  rw [hk]
  rfl

theorem recordArguments_cases (inner : Step TypeExpr) (p : Parser) :
    recordArguments inner p = .ok none p ∨
      ∃ key rest text, splitKey? 0 p.rest = some (key, rest) ∧ keyText? p.source key = some text := by
  cases h : splitKey? 0 p.rest with
  | none => exact .inl (recordArguments_none h)
  | some split =>
    obtain ⟨key, rest⟩ := split
    cases hk : keyText? p.source key with
    | none => exact .inl (recordArguments_textless h hk)
    | some text => exact .inr ⟨key, rest, text, rfl, hk⟩

end Records

end Parser

end TypeSchema
