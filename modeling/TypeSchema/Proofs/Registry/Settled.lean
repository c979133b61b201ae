import TypeSchema.Proofs.Lexing.Brackets
import TypeSchema.Registry.Extract

/-!
# Statements that are settled

Tokens are settled if their brackets are properly nested, apart from some that close groups which were opened earlier,
and if a semicolon comes last.  In settled tokens every bracket is closed and every expression ends, so that no reader
of declarations reaches beyond them (`declaration_append`).  There is one exception: behind the parameters of a generic
interface a brace is looked for as far as the source goes (`bodiless`).
-/

namespace TypeSchema

namespace Extract

/-! ## Settled tokens -/

/-- The tokens are properly nested, apart from groups that were opened before them, and end with a semicolon. -/
structure Settled (ts : List Token) : Prop where
  nested : ∃ stack, isNested stack (ts.map Token.kind) = true
  last : ∃ t, ts.getLast? = some t ∧ t.kind = .punct .semicolon

theorem Settled.ne_nil {ts : List Token} (h : Settled ts) : ts ≠ [] := by
  rintro rfl
  obtain ⟨t, ht, -⟩ := h.last
  cases ht

theorem Settled.tail {t : Token} {ts : List Token} (h : Settled (t :: ts)) (hts : ts ≠ []) : Settled ts := by
  obtain ⟨stack, hn⟩ := h.nested
  obtain ⟨stack', -, hn'⟩ := exists_of_isNested_cons hn
  refine ⟨⟨stack', hn'⟩, ?_⟩
  obtain ⟨u, hu, hk⟩ := h.last
  obtain ⟨v, vs, rfl⟩ := List.exists_cons_of_ne_nil hts
  exact ⟨u, by rwa [List.getLast?_cons_cons] at hu, hk⟩

/-- A token other than a semicolon is not the last one. -/
theorem Settled.tail_of_ne {t : Token} {ts : List Token} (h : Settled (t :: ts)) (ht : t.kind ≠ .punct .semicolon) :
    Settled ts := by
  refine h.tail ?_
  rintro rfl
  obtain ⟨u, hu, hk⟩ := h.last
  obtain rfl := Option.some.inj hu
  exact ht hk

theorem Settled.suffix {ts us : List Token} (h : Settled ts) (hs : us <:+ ts) (hne : us ≠ []) : Settled us := by
  obtain ⟨before, rfl⟩ := hs
  induction before with
  | nil => exact h
  | cons t before ih => exact ih (h.tail (by simp [hne]))

/-! ## Brackets are closed -/

section

variable {opening close : Punct}

theorem splitClosed?_cons (depth : Nat) (t : Token) (ts : List Token) :
    splitClosed? opening close depth (t :: ts) =
      if t.isPunct opening then
        (splitClosed? opening close (depth + 1) ts).map fun (inside, after) => (t :: inside, after)
      else if t.isPunct close then
        match depth with
        | 0 => some ([], ts)
        | depth + 1 => (splitClosed? opening close depth ts).map fun (inside, after) => (t :: inside, after)
      else (splitClosed? opening close depth ts).map fun (inside, after) => (t :: inside, after) := rfl

theorem splitClosed?_append {depth : Nat} {ts inside after : List Token}
    (h : splitClosed? opening close depth ts = some (inside, after)) (us : List Token) :
    splitClosed? opening close depth (ts ++ us) = some (inside, after ++ us) := by
  fun_induction splitClosed? opening close depth ts generalizing inside after with
  | case1 => cases h
  | case2 depth t ts ho ih =>
    obtain ⟨⟨inside', after'⟩, hs, he⟩ := Option.map_eq_some_iff.1 h
    obtain ⟨rfl, rfl⟩ := Prod.mk.inj he
    rw [List.cons_append, splitClosed?_cons, if_pos ho, ih hs]
    rfl
  | case3 t ts ho hc =>
    obtain ⟨rfl, rfl⟩ := Prod.mk.inj (Option.some.inj h)
    rw [List.cons_append, splitClosed?_cons, if_neg ho, if_pos hc]
  | case4 t ts ho hc depth ih =>
    obtain ⟨⟨inside', after'⟩, hs, he⟩ := Option.map_eq_some_iff.1 h
    obtain ⟨rfl, rfl⟩ := Prod.mk.inj he
    rw [List.cons_append, splitClosed?_cons, if_neg ho, if_pos hc]
    dsimp only
    rw [ih hs]
    rfl
  | case5 depth t ts ho hc ih =>
    obtain ⟨⟨inside', after'⟩, hs, he⟩ := Option.map_eq_some_iff.1 h
    obtain ⟨rfl, rfl⟩ := Prod.mk.inj he
    rw [List.cons_append, splitClosed?_cons, if_neg ho, if_neg hc, ih hs]
    rfl

theorem exists_close_of_splitClosed? {depth : Nat} {ts inside after : List Token}
    (h : splitClosed? opening close depth ts = some (inside, after)) :
    ∃ t, t.isPunct close = true ∧ ts = inside ++ t :: after := by
  fun_induction splitClosed? opening close depth ts generalizing inside after with
  | case1 => cases h
  | case2 depth t ts _ ih | case4 t ts _ _ depth ih | case5 depth t ts _ _ ih =>
    obtain ⟨⟨inside', after'⟩, hs, he⟩ := Option.map_eq_some_iff.1 h
    obtain ⟨rfl, rfl⟩ := Prod.mk.inj he
    obtain ⟨u, hu, rfl⟩ := ih hs
    exact ⟨u, hu, rfl⟩
  | case3 t ts _ hc =>
    obtain ⟨rfl, rfl⟩ := Prod.mk.inj (Option.some.inj h)
    exact ⟨t, hc, rfl⟩

theorem count_brackets (hoc : opening.closing? = some close) {kind : TokenKind} {stack stack' : List Punct}
    (h : kind.brackets stack = some stack') (ho : kind ≠ .punct opening) (hc : kind ≠ .punct close) :
    stack'.count close = stack.count close := by
  obtain ⟨x, y, rfl, hxy, rfl⟩ | ⟨y, rfl, -, rfl⟩ | ⟨-, -, rfl⟩ := brackets_cases h
  · refine List.count_cons_of_ne ?_
    rintro rfl
    exact ho (by rw [Punct.closing?_inj hxy hoc])
  · refine (List.count_cons_of_ne ?_).symm
    rintro rfl
    exact hc rfl
  · rfl

/-- In nested tokens a group is closed that is still to be closed. -/
theorem exists_splitClosed? (hoc : opening.closing? = some close) {stack : List Punct} {depth : Nat} {ts : List Token}
    (h : isNested stack (ts.map Token.kind) = true) (hd : depth < stack.count close) :
    ∃ inside after, splitClosed? opening close depth ts = some (inside, after) := by
  have hclose := (Punct.isClose_of_closing? hoc).2.1
  induction ts generalizing stack depth with
  | nil =>
    rw [List.map_nil, isNested, List.isEmpty_iff] at h
    rw [h] at hd
    cases hd
  | cons t ts ih =>
    obtain ⟨stack', hb, hn⟩ := exists_of_isNested_cons h
    rw [splitClosed?_cons]
    by_cases ho : t.kind = .punct opening
    · rw [if_pos (by rw [Token.isPunct, ho, beq_self_eq_true])]
      rw [ho, brackets_open hoc] at hb
      cases hb
      have hcount : depth + 1 < (close :: stack).count close := by
        rw [List.count_cons_self]
        omega
      obtain ⟨inside, after, hs⟩ := ih hn hcount
      exact ⟨t :: inside, after, by rw [hs]; rfl⟩
    · rw [if_neg (by rwa [Token.isPunct, beq_iff_eq])]
      by_cases hc : t.kind = .punct close
      · rw [if_pos (by rw [Token.isPunct, hc, beq_self_eq_true])]
        cases depth with
        | zero => exact ⟨[], ts, rfl⟩
        | succ depth =>
          rw [hc] at hb
          rw [eq_cons_of_brackets_close hclose hb, List.count_cons_self, Nat.add_lt_add_iff_right] at hd
          obtain ⟨inside, after, hs⟩ := ih hn hd
          exact ⟨t :: inside, after, by dsimp only; rw [hs]; rfl⟩
      · rw [if_neg (by rwa [Token.isPunct, beq_iff_eq])]
        obtain ⟨inside, after, hs⟩ := ih hn (by rwa [count_brackets hoc hb ho hc])
        exact ⟨t :: inside, after, by rw [hs]; rfl⟩

/-- **In settled tokens every group is closed**, and something follows it. -/
theorem Settled.exists_split {t : Token} {ts : List Token} (h : Settled (t :: ts)) (hoc : opening.closing? = some close)
    (ht : t.isPunct opening = true) :
    ∃ inside after, splitClosed? opening close 0 ts = some (inside, after) ∧ Settled after := by
  rw [Token.isPunct, beq_iff_eq] at ht
  obtain ⟨hnone, hclose, hopen⟩ := Punct.isClose_of_closing? hoc
  have hts : Settled ts := by
    refine h.tail_of_ne ?_
    rw [ht]
    rintro ⟨⟩
    cases hoc
  obtain ⟨stack, hn⟩ := h.nested
  obtain ⟨stack', hb, hn'⟩ := exists_of_isNested_cons hn
  rw [ht, brackets_open hoc] at hb
  cases hb
  have hcount : 0 < (close :: stack).count close := by
    rw [List.count_cons_self]
    omega
  obtain ⟨inside, after, hs⟩ := exists_splitClosed? hoc hn' hcount
  refine ⟨inside, after, hs, hts.suffix (after_splitClosed? hs) ?_⟩
  -- the last token is the semicolon, not the closing bracket
  rintro rfl
  obtain ⟨u, hu, rfl⟩ := exists_close_of_splitClosed? hs
  obtain ⟨v, hv, hk⟩ := hts.last
  rw [List.getLast?_concat] at hv
  obtain rfl := Option.some.inj hv
  rw [Token.isPunct, beq_iff_eq, hk] at hu
  cases hu
  cases hclose

end

/-! ## Expressions end -/

theorem endsExpression_of_isClose {t : Token} (h : t.kind.isClose = true) (previous : Token) :
    endsExpression previous t = true := by
  unfold endsExpression
  split
  · rfl
  · rfl
  · rfl
  · rename_i hk
    rw [hk] at h
    cases h
  · rename_i hk
    rw [hk] at h
    cases h
  · rename_i hk
    rw [hk] at h
    cases h
  · rename_i hk
    rw [hk] at h
    cases h
  · rw [h, Bool.true_or]

theorem endsExpression_of_semicolon {t : Token} (h : t.kind = .punct .semicolon) (previous : Token) :
    endsExpression previous t = true := by
  rw [endsExpression, h]

/-- The depth that an expression counts stays within the brackets to be closed, until a bracket closes that was opened
before the expression. -/
theorem nesting_le {kind : TokenKind} {stack stack' : List Punct} {depth : Nat} (h : kind.brackets stack = some stack')
    (hd : depth ≤ stack.length) (hc : kind.isClose = true → depth ≠ 0) : kind.nesting depth ≤ stack'.length := by
  obtain ⟨x, y, rfl, hxy, rfl⟩ | ⟨y, rfl, hy, rfl⟩ | ⟨h₁, h₂, rfl⟩ := brackets_cases h
  · have hopen : (TokenKind.punct x).isOpen = true := (Punct.isClose_of_closing? hxy).2.2
    rw [TokenKind.nesting, if_pos hopen, List.length_cons]
    omega
  · have hopen : (TokenKind.punct y).isOpen = false := by cases y <;> first | rfl | cases hy
    have hne := hc hy
    rw [TokenKind.nesting, if_neg (by simp [hopen]), if_pos (show (TokenKind.punct y).isClose = true from hy)]
    rw [List.length_cons] at hd
    omega
  · rw [TokenKind.nesting, if_neg (by simp [h₁]), if_neg (by simp [h₂])]
    exact hd

theorem splitExpression_settled {stack : List Punct} {previous : Token} {depth : Nat} {ts : List Token}
    (hn : isNested stack (ts.map Token.kind) = true) (hlast : ∃ t, ts.getLast? = some t ∧ t.kind = .punct .semicolon)
    (hd : depth ≤ stack.length) :
    (splitExpression previous depth ts).2 ≠ [] ∧ ∀ us, splitExpression previous depth (ts ++ us) =
      ((splitExpression previous depth ts).1, (splitExpression previous depth ts).2 ++ us) := by
  induction ts generalizing stack previous depth with
  | nil =>
    obtain ⟨t, ht, -⟩ := hlast
    cases ht
  | cons t ts ih =>
    simp only [List.cons_append, splitExpression]
    by_cases hend : (decide (depth = 0) && endsExpression previous t) = true
    · rw [if_pos hend]
      refine ⟨List.cons_ne_nil _ _, fun us => ?_⟩
      rw [if_pos hend]
      rfl
    · rw [if_neg hend]
      obtain ⟨stack', hb, hn'⟩ := exists_of_isNested_cons hn
      simp only [Bool.and_eq_true, decide_eq_true_eq, not_and, Bool.not_eq_true] at hend
      have hclose : t.kind.isClose = true → depth ≠ 0 := by
        intro hc h0
        have := hend h0
        rw [endsExpression_of_isClose hc] at this
        cases this
      have hne : ts ≠ [] := by
        rintro rfl
        obtain ⟨u, hu, hk⟩ := hlast
        obtain rfl : t = u := Option.some.inj hu
        -- at the end no bracket is to be closed, and the semicolon ends the expression
        obtain rfl : stack' = stack := by
          rw [hk] at hb
          exact (Option.some.inj hb).symm
        rw [List.map_nil, isNested, List.isEmpty_iff] at hn'
        rw [hn', List.length_nil] at hd
        have := hend (by omega)
        rw [endsExpression_of_semicolon hk] at this
        cases this
      have hlast' : ∃ u, ts.getLast? = some u ∧ u.kind = .punct .semicolon := by
        obtain ⟨u, hu, hk⟩ := hlast
        obtain ⟨v, vs, rfl⟩ := List.exists_cons_of_ne_nil hne
        exact ⟨u, by rwa [List.getLast?_cons_cons] at hu, hk⟩
      obtain ⟨hrest, happ⟩ := @ih stack' t _ hn' hlast' (nesting_le hb hd hclose)
      refine ⟨hrest, fun us => ?_⟩
      rw [if_neg (by simpa using hend), happ]

/-- **In settled tokens every expression ends.** -/
theorem Settled.expression {t : Token} {ts : List Token} (h : Settled (t :: ts)) (hts : ts ≠ []) :
    (expression t ts).2 ≠ [] ∧ ∀ us, expression t (ts ++ us) = ((expression t ts).1, (expression t ts).2 ++ us) := by
  obtain ⟨stack, hn⟩ := h.nested
  obtain ⟨stack', hb, hn'⟩ := exists_of_isNested_cons hn
  refine splitExpression_settled hn' (h.tail hts).last ?_
  by_cases hc : t.kind.isClose = true
  · have hopen : t.kind.isOpen = false := by
      cases hk : t.kind with
      | punct x =>
        rw [hk] at hc
        cases x <;> first | rfl | cases hc
      | _ => rfl
    rw [TokenKind.nesting, if_neg (by simp [hopen]), if_pos hc]
    omega
  · exact nesting_le hb (Nat.zero_le _) fun h => absurd h hc

/-! ## Readers stay inside -/

/-- The reading with more tokens behind it. -/
def Reading.before (r : Reading) (us : List Token) : Reading := { r with rest := r.rest ++ us }

theorem afterBlock_append {t : Token} {ts : List Token} (h : Settled (t :: ts)) (ht : t.isPunct .openBrace = true) :
    Settled (afterBlock ts) ∧ ∀ us, afterBlock (ts ++ us) = afterBlock ts ++ us := by
  obtain ⟨inside, after, hs, hafter⟩ := h.exists_split Punct.closing?_openBrace ht
  simp only [afterBlock, hs]
  refine ⟨hafter, fun us => ?_⟩
  rw [splitClosed?_append hs]

section

variable {kind : DeclarationKind} {keyword : Token} {name : String} {ts : List Token}

theorem unnamedBlock_append (h : Settled ts) :
    (unnamedBlock kind keyword ts).rest ≠ [] ∧
      ∀ us, unnamedBlock kind keyword (ts ++ us) = (unnamedBlock kind keyword ts).before us := by
  obtain ⟨t, ts, rfl⟩ := List.exists_cons_of_ne_nil h.ne_nil
  simp only [unnamedBlock, List.cons_append]
  by_cases ht : t.isPunct .openBrace = true
  · obtain ⟨hafter, happ⟩ := afterBlock_append h ht
    rw [if_pos ht]
    refine ⟨hafter.ne_nil, fun us => ?_⟩
    rw [if_pos ht, happ]
    rfl
  · rw [if_neg ht]
    refine ⟨List.cons_ne_nil _ _, fun us => ?_⟩
    rw [if_neg ht]
    rfl

/-- A body is read, or missed, without looking at what follows. -/
theorem body_append (kind : DeclarationKind) (h : Settled ts) :
    (∃ inside after, Settled after ∧ body kind keyword name ts = .ok (inside, after) ∧
      ∀ us, body kind keyword name (ts ++ us) = .ok (inside, after ++ us)) ∨
    ∃ reading : Reading, reading.rest ≠ [] ∧ body kind keyword name ts = .error reading ∧
      ∀ us, body kind keyword name (ts ++ us) = .error (reading.before us) := by
  obtain ⟨t, ts, rfl⟩ := List.exists_cons_of_ne_nil h.ne_nil
  simp only [body, List.cons_append]
  by_cases ht : t.isPunct .openBrace = true
  · obtain ⟨inside, after, hs, hafter⟩ := h.exists_split Punct.closing?_openBrace ht
    refine .inl ⟨inside, after, hafter, by rw [if_pos ht, hs], fun us => ?_⟩
    rw [if_pos ht, splitClosed?_append hs]
  · refine .inr ⟨{ found := [warn keyword.span (.noBody kind name)], rest := t :: ts }, List.cons_ne_nil _ _,
      if_neg ht, fun us => ?_⟩
    rw [if_neg ht]
    rfl

theorem enumNamed_append (h : Settled ts) :
    (enumNamed keyword name ts).rest ≠ [] ∧
      ∀ us, enumNamed keyword name (ts ++ us) = (enumNamed keyword name ts).before us := by
  unfold enumNamed
  obtain ⟨inside, after, hafter, hb, happ⟩ | ⟨reading, hrest, hb, happ⟩ := body_append .enum h
  · rw [hb]
    refine ⟨hafter.ne_nil, fun us => ?_⟩
    rw [happ]
    rfl
  · rw [hb]
    refine ⟨hrest, fun us => ?_⟩
    rw [happ]

theorem interfaceBody_append (keyword : Token) (name : String) (bases : List String) (h : Settled ts) :
    (interfaceBody keyword name bases ts).rest ≠ [] ∧
      ∀ us, interfaceBody keyword name bases (ts ++ us) = (interfaceBody keyword name bases ts).before us := by
  unfold interfaceBody
  obtain ⟨inside, after, hafter, hb, happ⟩ | ⟨reading, hrest, hb, happ⟩ := body_append .interface h
  · rw [hb]
    refine ⟨hafter.ne_nil, fun us => ?_⟩
    rw [happ]
    rfl
  · rw [hb]
    refine ⟨hrest, fun us => ?_⟩
    rw [happ]

theorem aliasNamed_append (h : Settled ts) :
    (aliasNamed keyword name ts).rest ≠ [] ∧
      ∀ us, aliasNamed keyword name (ts ++ us) = (aliasNamed keyword name ts).before us := by
  obtain ⟨t, ts, rfl⟩ := List.exists_cons_of_ne_nil h.ne_nil
  simp only [aliasNamed, List.cons_append]
  by_cases hk : t.kind = .punct .semicolon
  · have he : t.isPunct .equals = false := by rw [Token.isPunct, hk]; rfl
    have ha : t.isPunct .openAngle = false := by rw [Token.isPunct, hk]; rfl
    simp only [he, ha, Bool.false_eq_true, if_false]
    exact ⟨List.cons_ne_nil _ _, fun _ => rfl⟩
  · obtain ⟨hrest, happ⟩ := h.expression (h.tail_of_ne hk).ne_nil
    simp only [happ]
    by_cases he : t.isPunct .equals = true
    · simp only [he, if_true]
      cases typeText? (expression t ts).1 with
      | some type => exact ⟨hrest, fun _ => rfl⟩
      | none => exact ⟨hrest, fun _ => rfl⟩
    · by_cases ha : t.isPunct .openAngle = true
      · simp only [he, ha, if_true, Bool.false_eq_true, if_false]
        exact ⟨hrest, fun _ => rfl⟩
      · simp only [he, ha, Bool.false_eq_true, if_false]
        exact ⟨List.cons_ne_nil _ _, fun _ => rfl⟩

end

/-! ## Clauses -/

theorem dottedTail_append {ts : List Token} (name : String) (h : Settled ts) :
    (∃ full rest, Settled rest ∧ dottedTail name ts = .ok (full, rest) ∧
      ∀ us, dottedTail name (ts ++ us) = .ok (full, rest ++ us)) ∨
    ∃ rest, rest ≠ [] ∧ dottedTail name ts = .error rest ∧ ∀ us, dottedTail name (ts ++ us) = .error (rest ++ us) := by
  fun_induction dottedTail name ts with
  | case1 => exact absurd rfl h.ne_nil
  | case2 name t ht =>
    obtain ⟨u, hu, hk⟩ := h.last
    obtain rfl : t = u := Option.some.inj hu
    rw [Token.isPunct, hk] at ht
    cases ht
  | case3 name t ht =>
    refine .inl ⟨name, [t], h, rfl, fun us => ?_⟩
    cases us with
    | nil => simp [dottedTail, ht]
    | cons u us => simp [dottedTail, ht]
  | case4 name t u us ht part hu ih =>
    have hus : Settled us := by
      refine (h.tail (List.cons_ne_nil _ _)).tail_of_ne ?_
      rw [hu]
      exact fun h => by cases h
    have hturn (vs : List Token) :
        dottedTail name (t :: u :: us ++ vs) = dottedTail (name ++ "." ++ part) (us ++ vs) := by
      rw [List.cons_append, List.cons_append, dottedTail, if_pos ht, hu]
    rcases ih hus with ⟨full, rest, hrest, hread, happ⟩ | ⟨rest, hrest, hread, happ⟩
    · exact .inl ⟨full, rest, hrest, hread, fun vs => by rw [hturn, happ]⟩
    · exact .inr ⟨rest, hrest, hread, fun vs => by rw [hturn, happ]⟩
  | case5 name t u us ht hu =>
    refine .inr ⟨_, List.cons_ne_nil _ _, rfl, fun vs => ?_⟩
    rw [List.cons_append, List.cons_append, dottedTail, if_pos ht]
    split
    · rename_i part hk
      exact absurd hk (hu part)
    · rfl
  | case6 name t u us ht =>
    refine .inl ⟨name, _, h, rfl, fun vs => ?_⟩
    rw [List.cons_append, List.cons_append, dottedTail, if_neg ht]

theorem dottedName_append {ts : List Token} (h : Settled ts) :
    (∃ full rest, Settled rest ∧ dottedName ts = .ok (full, rest) ∧
      ∀ us, dottedName (ts ++ us) = .ok (full, rest ++ us)) ∨
    ∃ rest, rest ≠ [] ∧ dottedName ts = .error rest ∧ ∀ us, dottedName (ts ++ us) = .error (rest ++ us) := by
  obtain ⟨t, ts, rfl⟩ := List.exists_cons_of_ne_nil h.ne_nil
  simp only [List.cons_append, dottedName]
  cases hk : t.kind with
  | ident name => exact dottedTail_append name (h.tail_of_ne (by rw [hk]; exact fun h => by cases h))
  | _ => exact .inr ⟨_, List.cons_ne_nil _ _, rfl, fun _ => rfl⟩

/-- A name that is read in settled tokens is read in the same way before other tokens. -/
theorem Settled.dottedName {ts rest : List Token} {base : String} (h : Settled ts)
    (hd : dottedName ts = .ok (base, rest)) :
    Settled rest ∧ ∀ us, Extract.dottedName (ts ++ us) = .ok (base, rest ++ us) := by
  rcases dottedName_append h with ⟨full, rest', hrest, hd', happ⟩ | ⟨rest', -, hd', -⟩
  · rw [hd] at hd'
    cases hd'
    exact ⟨hrest, happ⟩
  · rw [hd] at hd'
    cases hd'

theorem Settled.after_angles {t : Token} {rest inside after : List Token} (h : Settled (t :: rest))
    (ht : t.isPunct .openAngle = true) (hs : splitClosed? .openAngle .closeAngle 0 rest = some (inside, after)) :
    Settled after := by
  obtain ⟨inside', after', hs', hafter⟩ := h.exists_split Punct.closing?_openAngle ht
  rw [hs] at hs'
  cases hs'
  exact hafter

theorem Settled.tail_of_comma {t : Token} {rest : List Token} (h : Settled (t :: rest))
    (ht : t.isPunct .comma = true) : Settled rest := by
  refine h.tail_of_ne fun hk => ?_
  rw [Token.isPunct, hk] at ht
  cases ht

/-- The end of the clause with more tokens behind it. -/
def ClauseEnd.before (us : List Token) : ClauseEnd → ClauseEnd
  | read rest => .read (rest ++ us)
  | malformed rest => .malformed (rest ++ us)
  | openArguments => .openArguments

/-- Tokens are left behind the clause, settled ones if it is read. -/
def ClauseEnd.Leaves : ClauseEnd → Prop
  | read rest => Settled rest
  | malformed rest => rest ≠ []
  | openArguments => False

theorem extendsClause_append {ts : List Token} (h : Settled ts) (stop stop' : Span) (owner : String) :
    (extendsClause stop owner ts).finish.Leaves ∧ ∀ us, extendsClause stop' owner (ts ++ us) =
      { extendsClause stop owner ts with finish := (extendsClause stop owner ts).finish.before us } := by
  fun_induction extendsClause stop owner ts with
  | case1 ts rest hd =>
    rcases dottedName_append h with ⟨full, rest', -, hd', -⟩ | ⟨rest', hrest, hd', happ⟩
    · rw [hd] at hd'
      cases hd'
    · rw [hd] at hd'
      cases hd'
      refine ⟨hrest, fun us => ?_⟩
      obtain ⟨t, rest, rfl⟩ := List.exists_cons_of_ne_nil hrest
      rw [extendsClause_eq, happ]
      rfl
  | case2 ts base hd => exact absurd rfl (h.dottedName hd).1.ne_nil
  | case3 ts base t rest hd ht _ hs =>
    obtain ⟨inside, after, hs', -⟩ := (h.dottedName hd).1.exists_split Punct.closing?_openAngle ht
    rw [hs] at hs'
    cases hs'
  | case4 ts base t rest hd ht _ inside hs => exact absurd rfl ((h.dottedName hd).1.after_angles ht hs).ne_nil
  | case5 ts base t rest hd ht _ inside u after hs hu others ih =>
    obtain ⟨hrest, happ⟩ := h.dottedName hd
    obtain ⟨hfinish, hothers⟩ := ih ((hrest.after_angles ht hs).tail_of_comma hu)
    refine ⟨hfinish, fun us => ?_⟩
    rw [extendsClause_eq, happ]
    dsimp only [List.cons_append]
    rw [if_pos ht, splitClosed?_append hs]
    dsimp only [List.cons_append]
    rw [if_pos hu, hothers]
  | case6 ts base t rest hd ht _ inside u after hs hu =>
    obtain ⟨hrest, happ⟩ := h.dottedName hd
    refine ⟨hrest.after_angles ht hs, fun us => ?_⟩
    rw [extendsClause_eq, happ]
    dsimp only [List.cons_append]
    rw [if_pos ht, splitClosed?_append hs]
    dsimp only [List.cons_append]
    rw [if_neg hu]
    rfl
  | case7 ts base t rest hd ht hu others ih =>
    obtain ⟨hrest, happ⟩ := h.dottedName hd
    obtain ⟨hfinish, hothers⟩ := ih (hrest.tail_of_comma hu)
    refine ⟨hfinish, fun us => ?_⟩
    rw [extendsClause_eq, happ]
    dsimp only [List.cons_append]
    rw [if_neg ht, if_pos hu, hothers]
  | case8 ts base t rest hd ht hu =>
    obtain ⟨hrest, happ⟩ := h.dottedName hd
    refine ⟨hrest, fun us => ?_⟩
    rw [extendsClause_eq, happ]
    dsimp only [List.cons_append]
    rw [if_neg ht, if_neg hu]
    rfl

/-! ## Declarations -/

/-- Whether a generic interface starts here behind whose parameters there is no brace. -/
def bodiless : List Token → Bool
  | nameToken :: angle :: behind =>
    nameToken.kind.ident?.isSome && angle.isPunct .openAngle &&
      match splitClosed? .openAngle .closeAngle 0 behind with
      | some (_, after) => !after.any fun t => t.isPunct .openBrace
      | none => false
  | _ => false

theorem exists_dropWhile {p : Token → Bool} {ts : List Token} (h : (ts.any fun t => !p t) = true) :
    ∃ t body, p t = false ∧ t :: body <:+ ts ∧ ∀ us, (ts ++ us).dropWhile p = t :: (body ++ us) := by
  induction ts with
  | nil => cases h
  | cons t ts ih =>
    cases ht : p t with
    | true =>
      rw [List.any_cons, ht, Bool.not_true, Bool.false_or] at h
      obtain ⟨u, body, hu, hsuffix, hdrop⟩ := ih h
      refine ⟨u, body, hu, hsuffix.trans (List.suffix_cons t ts), fun us => ?_⟩
      rw [List.cons_append, List.dropWhile_cons, if_pos ht, hdrop]
    | false =>
      refine ⟨t, ts, ht, List.suffix_refl _, fun us => ?_⟩
      rw [List.cons_append, List.dropWhile_cons, if_neg (by simp [ht])]

theorem afterGeneric_append {nameToken angle : Token} {ts : List Token} (h : Settled (angle :: ts))
    (hn : nameToken.kind.ident?.isSome = true) (ha : angle.isPunct .openAngle = true)
    (hb : bodiless (nameToken :: angle :: ts) = false) :
    afterGeneric ts ≠ [] ∧ ∀ us, afterGeneric (ts ++ us) = afterGeneric ts ++ us := by
  obtain ⟨inside, after, hs, hafter⟩ := h.exists_split Punct.closing?_openAngle ha
  simp only [bodiless, hn, ha, hs, Bool.and_self, Bool.true_and, Bool.not_eq_false'] at hb
  have hany : (after.any fun t => !!t.isPunct .openBrace) = true := by simpa using hb
  obtain ⟨t, body, ht, hsuffix, hdrop⟩ := exists_dropWhile hany
  obtain ⟨hblock, happ⟩ := afterBlock_append (hafter.suffix hsuffix (List.cons_ne_nil _ _)) (by simpa using ht)
  have hread : afterGeneric ts = afterBlock body := by
    have hbare := hdrop []
    rw [List.append_nil, List.append_nil] at hbare
    simp only [afterGeneric, hs, hbare]
  rw [hread]
  refine ⟨hblock.ne_nil, fun us => ?_⟩
  simp only [afterGeneric, splitClosed?_append hs, hdrop, happ]

theorem interfaceNamed_append {keyword nameToken : Token} {name : String} {ts : List Token} (h : Settled ts)
    (hn : nameToken.kind.ident?.isSome = true) (hb : bodiless (nameToken :: ts) = false) (stop stop' : Span) :
    (interfaceNamed stop keyword nameToken name ts).rest ≠ [] ∧
      ∀ us, interfaceNamed stop' keyword nameToken name (ts ++ us) =
        (interfaceNamed stop keyword nameToken name ts).before us := by
  obtain ⟨t, behind, rfl⟩ := List.exists_cons_of_ne_nil h.ne_nil
  simp only [interfaceNamed, List.cons_append]
  by_cases ha : t.isPunct .openAngle = true
  · obtain ⟨hrest, happ⟩ := afterGeneric_append h hn ha hb
    simp only [ha, if_true]
    exact ⟨hrest, fun us => by rw [happ]; rfl⟩
  · by_cases he : t.isIdent "extends" = true
    · simp only [ha, he, if_true, Bool.false_eq_true, if_false]
      have hbehind : Settled behind := by
        refine h.tail_of_ne fun hk => ?_
        rw [Token.isIdent, hk] at he
        cases he
      obtain ⟨hleaves, happ⟩ := extendsClause_append hbehind stop stop' name
      simp only [happ]
      cases hf : (extendsClause stop name behind).finish with
      | read rest =>
        rw [hf] at hleaves
        obtain ⟨hrest, hread⟩ := interfaceBody_append keyword name (extendsClause stop name behind).bases hleaves
        exact ⟨hrest, fun us => by simp only [ClauseEnd.before, hread]; rfl⟩
      | malformed rest =>
        rw [hf] at hleaves
        exact ⟨hleaves, fun us => rfl⟩
      | openArguments =>
        rw [hf] at hleaves
        exact hleaves.elim
    · simp only [ha, he, Bool.false_eq_true, if_false]
      exact interfaceBody_append keyword name [] h

/-- **A declaration in settled tokens is read without looking at what follows them**, unless it is a generic interface
without a brace. -/
theorem declaration_append {kind : DeclarationKind} (keyword : Token) {ts : List Token} (h : Settled ts)
    (hb : kind = .interface → bodiless ts = false) (stop stop' : Span) :
    (declaration stop kind keyword ts).rest ≠ [] ∧
      ∀ us, declaration stop' kind keyword (ts ++ us) = (declaration stop kind keyword ts).before us := by
  obtain ⟨t, behind, rfl⟩ := List.exists_cons_of_ne_nil h.ne_nil
  simp only [declaration, List.cons_append]
  cases hn : t.kind.ident? with
  | none =>
    cases kind with
    | typeAlias => exact ⟨List.cons_ne_nil _ _, fun _ => rfl⟩
    | interface => exact unnamedBlock_append h
    | enum => exact unnamedBlock_append h
  | some name =>
    have hbehind : Settled behind := by
      refine h.tail_of_ne fun hk => ?_
      rw [hk] at hn
      cases hn
    cases kind with
    | typeAlias => exact aliasNamed_append hbehind
    | interface => exact interfaceNamed_append hbehind (by rw [hn]; rfl) (hb rfl) stop stop'
    | enum => exact enumNamed_append hbehind

end Extract

end TypeSchema
