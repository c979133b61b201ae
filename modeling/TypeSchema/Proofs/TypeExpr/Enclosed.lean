import TypeSchema.Proofs.TypeExpr.Widening

/-!
# Reading inside of more text

The same tokens are read by two parsers: by one to which nothing else is left, and by one that stands `k` levels deeper
and has closing tokens `F` behind them (`Ahead`).  The second run does what the first one does (`Follows`), with two
exceptions: it may fail for depth, if `k` is not zero, and it may go on into `F` where the first one fails at the end of
its text.  Here are the steps, the loops (`follows_more`, `follows_dotted`, `follows_suffixes`) and the records of
anything (`follows_widen`).
-/

namespace TypeSchema

namespace Parser

variable {α β : Type}

/-! ## The same tokens in two texts -/

/-- The tokens `us` of `s'` are of the same kinds as the tokens `ts` of `s`, and have the same texts for keys. -/
structure Mirrors (s : String) (ts : List Token) (s' : String) (us : List Token) : Prop where
  kinds : ts.map Token.kind = us.map Token.kind
  texts (i n : Nat) : keyText? s ((ts.drop i).take n) = keyText? s' ((us.drop i).take n)

section Mirrors

variable {s s' : String} {ts us : List Token}

theorem Mirrors.nil (s s' : String) : Mirrors s [] s' [] := ⟨rfl, by simp [keyText?]⟩

theorem Mirrors.refl (s : String) (ts : List Token) : Mirrors s ts s ts := ⟨rfl, fun _ _ => rfl⟩

theorem Mirrors.drop (h : Mirrors s ts s' us) (m : Nat) : Mirrors s (ts.drop m) s' (us.drop m) := by
  refine ⟨by rw [List.map_drop, h.kinds, List.map_drop], fun i n => ?_⟩
  rw [List.drop_drop, List.drop_drop]
  exact h.texts (m + i) n

/-- Tokens that are split are split in the mirror, too. -/
theorem Mirrors.split {key rest : List Token} (h : Mirrors s (key ++ rest) s' us) :
    ∃ key' rest', us = key' ++ rest' ∧ key.map Token.kind = key'.map Token.kind ∧
      keyText? s key = keyText? s' key' ∧ Mirrors s rest s' rest' := by
  refine ⟨us.take key.length, us.drop key.length, (List.take_append_drop _ _).symm, ?_, ?_, ?_⟩
  · rw [List.map_take, ← h.kinds, ← List.map_take, List.take_left]
  · simpa using h.texts 0 key.length
  · simpa using h.drop key.length

theorem Mirrors.cons {t : Token} (h : Mirrors s (t :: ts) s' us) :
    ∃ u us', us = u :: us' ∧ u.kind = t.kind ∧ Mirrors s ts s' us' := by
  cases us with
  | nil => cases h.kinds
  | cons u us => exact ⟨u, us, rfl, (List.cons.inj h.kinds).1.symm, h.drop 1⟩

theorem Mirrors.eq_nil (h : Mirrors s [] s' us) : us = [] := List.map_eq_nil_iff.1 h.kinds.symm

end Mirrors

/-- What may stand behind an expression that is enclosed in another one. -/
structure Closing (F : List Token) : Prop where
  head : ∀ t ∈ F.head?, t.kind = .punct .closeAngle ∨ t.kind = .punct .closeParen
  noComma : ∀ t ∈ F, t.kind ≠ .punct .comma

theorem Closing.current {F : List Token} (h : Closing F) {q : Parser} (hq : q.rest = F) :
    q.current.kind = .eof ∨ q.current.kind = .punct .closeAngle ∨ q.current.kind = .punct .closeParen := by
  cases hF : F with
  | nil => exact .inl (by rw [Parser.current, hq, hF]; rfl)
  | cons t rest =>
    rw [hF] at hq h
    rw [current_of_rest hq]
    exact .inr (h.head t rfl)

theorem Closing.notNext {F : List Token} (h : Closing F) {x : Punct} (h₁ : x ≠ .closeAngle) (h₂ : x ≠ .closeParen) :
    NotNext x F := by
  intro t ht he
  rcases h.head t ht with hk | hk
  · rw [hk] at he
    exact h₁ (TokenKind.punct.inj he).symm
  · rw [hk] at he
    exact h₂ (TokenKind.punct.inj he).symm

/-! ## Two parsers, one ahead of the other -/

section Simulation

variable (s : String) (k : Nat) (F : List Token)

/-- The second parser has the tokens of the first one before it, and `F` behind them, and stands `k` levels deeper. -/
structure Ahead (p q : Parser) : Prop where
  left : p = { ofText s with rest := p.rest, depth := p.depth }
  suffix : p.rest <:+ (ofText s).rest
  tokens : ∃ us, q.rest = us ++ F ∧ Mirrors s p.rest q.source us
  depth : q.depth = p.depth + k
  right : q.tooDeep = false

/-- How a step of the second parser may end, for how that of the first one ends. -/
inductive Follows : EStateM.Result ParseFailure Parser α → EStateM.Result ParseFailure Parser α → Prop
  | same {a : α} {p q : Parser} : Ahead s k F p q → Follows (.ok a p) (.ok a q)
  | fail {e f : ParseFailure} {p q : Parser} : e.fault ≠ .tooDeep → f.fault ≠ .tooDeep → Ahead s k F p q →
      Follows (.error e p) (.error f q)
  | deep {e f : ParseFailure} {p q : Parser} : e.fault = .tooDeep → f.fault = .tooDeep →
      Follows (.error e p) (.error f q)
  | deeper {r : EStateM.Result ParseFailure Parser α} {f : ParseFailure} {q : Parser} : 0 < k → f.fault = .tooDeep →
      Follows r (.error f q)
  | ended {e : ParseFailure} {p : Parser} {r : EStateM.Result ParseFailure Parser α} : F ≠ [] → e.fault ≠ .tooDeep →
      p.rest = [] → (∀ a q, r = .ok a q → q.rest <:+ F.tail) → Follows (.error e p) r

/-- From parsers of which the first stands on level `d`, the second step does what the first one does. -/
def Simulates (d : Nat) (x y : Step α) : Prop :=
  ∀ p q, p.depth = d → Ahead s k F p q → Follows s k F (x p) (y q)

variable {s k F}

section Ahead

variable {p q : Parser}

theorem Ahead.unmarked (h : Ahead s k F p q) : p.tooDeep = false := by
  rw [h.left]
  rfl

theorem Ahead.source (h : Ahead s k F p q) : p.source = s := by
  rw [h.left]
  rfl

/-- Both parsers go on to tokens that mirror each other. -/
theorem Ahead.goOn (h : Ahead s k F p q) {ts us : List Token} (hts : ts <:+ p.rest)
    (hmirror : Mirrors s ts q.source us) : Ahead s k F { p with rest := ts } { q with rest := us ++ F } := by
  refine ⟨?_, hts.trans h.suffix, ⟨us, rfl, hmirror⟩, h.depth, h.right⟩
  rw [h.left]

/-- The first tokens are of the same kind, or the second parser stands before `F`. -/
theorem Ahead.head (h : Ahead s k F p q) : (p.rest = [] ∧ q.rest = F) ∨
    ∃ t ts u us, p.rest = t :: ts ∧ q.rest = u :: us ∧ u.kind = t.kind ∧
      Ahead s k F { p with rest := ts } { q with rest := us } := by
  obtain ⟨us, hq, hmirror⟩ := h.tokens
  cases hp : p.rest with
  | nil =>
    rw [hp] at hmirror
    exact .inl ⟨rfl, by rw [hq, hmirror.eq_nil, List.nil_append]⟩
  | cons t ts =>
    rw [hp] at hmirror
    obtain ⟨u, us, rfl, hk, hmirror⟩ := hmirror.cons
    exact .inr ⟨t, ts, u, us ++ F, rfl, hq, hk, h.goOn (hp ▸ List.suffix_cons t ts) hmirror⟩

/-- Both parsers come back to levels that are `k` apart. -/
theorem Ahead.atDepth (h : Ahead s k F p q) (d : Nat) :
    Ahead s k F { p with depth := d } { q with depth := d + k } := by
  refine ⟨?_, h.suffix, h.tokens, rfl, h.right⟩
  rw [h.left]

end Ahead

/-! ## Sequences -/

section Steps

variable {p q : Parser} {x y : Step α}

theorem Follows.bind {f g : α → Step β} (h : Follows s k F (x p) (y q)) (hg : ∀ a, Tidy (g a))
    (hf : ∀ a p' q', x p = .ok a p' → y q = .ok a q' → Ahead s k F p' q' → Follows s k F (f a p') (g a q')) :
    Follows s k F ((x >>= f) p) ((y >>= g) q) := by
  generalize hx : x p = r at h
  generalize hy : y q = r' at h
  cases h with
  | same hpq =>
    rw [bind_of_ok hx, bind_of_ok hy]
    exact hf _ _ _ hx hy hpq
  | fail he hf hpq =>
    rw [bind_of_error hx, bind_of_error hy]
    exact .fail he hf hpq
  | deep he hf =>
    rw [bind_of_error hx, bind_of_error hy]
    exact .deep he hf
  | deeper hk hf =>
    rw [bind_of_error hy]
    exact .deeper hk hf
  | ended hF he hp hr =>
    rw [bind_of_error hx]
    refine .ended hF he hp fun b q' hb => ?_
    obtain ⟨a, q₁, ha, hb⟩ := bind_eq_ok hb
    exact ((hg a).of_ok hb).1.trans (hr a q₁ (hy ▸ ha))

theorem Follows.onLevel (hpq : Ahead s k F p q) (h : Follows s k F (x p) (y q)) :
    Follows s k F (onLevel x p) (onLevel y q) := by
  unfold Parser.onLevel
  rw [hpq.depth]
  generalize x p = r at h
  generalize y q = r' at h
  cases h with
  | same h => exact .same (h.atDepth p.depth)
  | fail he hf h => exact .fail he hf (h.atDepth p.depth)
  | deep he hf => exact .deep he hf
  | deeper hk hf => exact .deeper hk hf
  | ended hF he hp hr =>
    refine .ended hF he hp fun a q' ha => ?_
    split at ha
    · rename_i q₁
      cases ha
      exact hr a q₁ rfl
    · cases ha

/-! ## Single tokens -/

theorem follows_fail (hpq : Ahead s k F p q) {e f : ParseFault} (he : e ≠ .tooDeep) (hf : f ≠ .tooDeep) :
    Follows s k F (fail e p : EStateM.Result ParseFailure Parser α) (fail f q) := .fail he hf hpq

theorem follows_eat (hpq : Ahead s k F p q) {x : Punct} (hx : NotNext x F) :
    Follows s k F (eat x p) (eat x q) := by
  rcases hpq.head with ⟨hp, hq⟩ | ⟨t, ts, u, us, hp, hq, hk, hrest⟩
  · have hp' : NotNext x p.rest := by simp [hp, NotNext]
    rw [← hq] at hx
    rw [eat_other hp'.current_ne, eat_other hx.current_ne]
    exact .same hpq
  · by_cases ht : t.kind = .punct x
    · rw [eat_head hp ht, eat_head hq (hk.trans ht)]
      exact .same hrest
    · rw [eat_other (by rwa [current_of_rest hp]), eat_other (by rwa [current_of_rest hq, hk])]
      exact .same hpq

theorem follows_expect (hpq : Ahead s k F p q) (x : Punct) : Follows s k F (expect x p) (expect x q) := by
  rcases hpq.head with ⟨hp, hq⟩ | ⟨t, ts, u, us, hp, hq, hk, hrest⟩
  · have hp' : NotNext x p.rest := by simp [hp, NotNext]
    rw [expect_other hp'.current_ne]
    by_cases hx : q.current.kind = .punct x
    · -- the second parser goes on into what follows
      obtain ⟨t, rest, hr, ht⟩ := rest_of_current hx (by simp)
      rw [expect_head hr ht]
      rw [hq] at hr
      refine .ended (by rw [hr]; exact List.cons_ne_nil t rest) (by simp) hp fun a q' ha => ?_
      cases ha
      rw [hr]
      exact List.suffix_refl rest
    · rw [expect_other hx]
      exact follows_fail hpq (by simp) (by simp)
  · by_cases ht : t.kind = .punct x
    · rw [expect_head hp ht, expect_head hq (hk.trans ht)]
      exact .same hrest
    · rw [expect_other (by rwa [current_of_rest hp]), expect_other (by rwa [current_of_rest hq, hk])]
      exact follows_fail hpq (by simp) (by simp)

theorem follows_enter (hpq : Ahead s k F p q) : Follows s k F (enter p) (enter q) := by
  unfold enter
  rw [hpq.depth]
  split
  · rw [if_pos (by omega)]
    exact .deep rfl rfl
  · split
    · exact .deeper (by omega) rfl
    · have h := hpq.atDepth (p.depth + 1)
      rw [show p.depth + 1 + k = p.depth + k + 1 by omega] at h
      exact .same h

end Steps

/-! ## Loops -/

section Loops

variable (hF : Closing F)

include hF

/-- At the end of the first text neither parser finds `x`. -/
theorem Closing.ne_of_nil {p q : Parser} (hp : p.rest = []) (hq : q.rest = F) {x : Punct} (h₁ : x ≠ .closeAngle)
    (h₂ : x ≠ .closeParen) : p.current.kind ≠ .punct x ∧ q.current.kind ≠ .punct x := by
  have hp' : NotNext x p.rest := by simp [hp, NotNext]
  have hq' : NotNext x q.rest := hq ▸ hF.notNext h₁ h₂
  exact ⟨hp'.current_ne, hq'.current_ne⟩

/-- The bounds of the two loops need not be the same, if both are enough. -/
theorem follows_more {separator : Punct} (h₁ : separator ≠ .closeAngle) (h₂ : separator ≠ .closeParen) {d : Nat}
    {x y : Step α} (hsteady : Steady x) (hx : Tidy x) (hy : Tidy y) (hxy : Simulates s k F d x y) {n m : Nat}
    {p q : Parser} (hp : p.depth = d) (hpq : Ahead s k F p q) (hn : p.rest.length ≤ n) (hm : q.rest.length ≤ m) :
    Follows s k F (more separator x n p) (more separator y m q) := by
  induction n generalizing m p q with
  | zero =>
    rcases hpq.head with ⟨hp', hq⟩ | ⟨t, ts, u, us, hp', -⟩
    · obtain ⟨hleft, hright⟩ := hF.ne_of_nil hp' hq h₁ h₂
      rw [more_other hleft, more_other hright]
      exact .same hpq
    · rw [hp', List.length_cons] at hn
      omega
  | succ n ih =>
    rcases hpq.head with ⟨hp', hq⟩ | ⟨t, ts, u, us, hp', hq, hk, hrest⟩
    · obtain ⟨hleft, hright⟩ := hF.ne_of_nil hp' hq h₁ h₂
      rw [more_other hleft, more_other hright]
      exact .same hpq
    · by_cases ht : t.kind = .punct separator
      · rw [hp', List.length_cons] at hn
        rw [hq, List.length_cons] at hm
        obtain ⟨m, rfl⟩ := Nat.exists_eq_succ_of_ne_zero (by omega : m ≠ 0)
        rw [more, more, bind_of_ok (eat_head hp' ht), bind_of_ok (eat_head hq (hk.trans ht)), if_pos rfl, if_pos rfl]
        refine (hxy { p with rest := ts } { q with rest := us } hp hrest).bind
          (fun a => (tidy_more separator hy m).bind fun as => tidy_pure _) fun a p' q' ha ha' hpq' => ?_
        have hlen := (hx.of_ok ha).1.length_le
        have hlen' := (hy.of_ok ha').1.length_le
        dsimp only at hlen hlen'
        exact (ih ((hsteady.of_ok ha).depth.trans hp) hpq' (by omega) (by omega)).bind (fun as => tidy_pure _)
          fun as p'' q'' _ _ hpq'' => .same hpq''
      · rw [more_other (by rwa [current_of_rest hp']), more_other (by rwa [current_of_rest hq, hk])]
        exact .same hpq

theorem follows_dotted (name : String) {n m : Nat} {p q : Parser} (hpq : Ahead s k F p q) (hn : p.rest.length ≤ n)
    (hm : q.rest.length ≤ m) : Follows s k F (dotted name n p) (dotted name m q) := by
  induction n generalizing name m p q with
  | zero =>
    rcases hpq.head with ⟨hp', hq⟩ | ⟨t, ts, u, us, hp', -⟩
    · obtain ⟨hleft, hright⟩ := hF.ne_of_nil hp' hq (x := .dot) (by simp) (by simp)
      rw [dotted_other hleft, dotted_other hright]
      exact .same hpq
    · rw [hp', List.length_cons] at hn
      omega
  | succ n ih =>
    rcases hpq.head with ⟨hp', hq⟩ | ⟨t, ts, u, us, hp', hq, hk, hrest⟩
    · obtain ⟨hleft, hright⟩ := hF.ne_of_nil hp' hq (x := .dot) (by simp) (by simp)
      rw [dotted_other hleft, dotted_other hright]
      exact .same hpq
    · by_cases ht : t.kind = .punct .dot
      · rw [hp', List.length_cons] at hn
        rw [hq, List.length_cons] at hm
        obtain ⟨m, rfl⟩ := Nat.exists_eq_succ_of_ne_zero (by omega : m ≠ 0)
        by_cases hident : ∃ part, (current { p with rest := ts }).kind = .ident part
        · obtain ⟨part, hpeek⟩ := hident
          obtain ⟨t', ts', hts, ht'⟩ := rest_of_current hpeek (by simp)
          obtain rfl : ts = t' :: ts' := hts
          rcases hrest.head with ⟨hnil, -⟩ | ⟨_, _, u', us', hts, hus, hk', hrest'⟩
          · cases hnil
          · obtain ⟨rfl, rfl⟩ := List.cons.inj hts
            obtain rfl : us = u' :: us' := hus
            rw [dotted_part hp' ht ht', dotted_part hq (hk.trans ht) (hk'.trans ht')]
            rw [List.length_cons] at hn hm
            exact ih _ hrest' (by dsimp only; omega) (by dsimp only; omega)
        · have hleft (part : String) : (current { p with rest := ts }).kind ≠ .ident part := fun h => hident ⟨part, h⟩
          have hright (part : String) : (current { q with rest := us }).kind ≠ .ident part := by
            rcases hrest.head with ⟨-, hus⟩ | ⟨t', ts', u', us', hts, hus, hk', -⟩
            · rcases hF.current hus with h | h | h <;> simp [h]
            · rw [current_of_rest hus, hk', ← current_of_rest hts]
              exact hleft part
          rw [dotted_fail hp' ht hleft, dotted_fail hq (hk.trans ht) hright]
          exact follows_fail hrest (by simp) (by simp)
      · rw [dotted_other (by rwa [current_of_rest hp']), dotted_other (by rwa [current_of_rest hq, hk])]
        exact .same hpq

theorem follows_suffixes (e : TypeExpr) {n m : Nat} {p q : Parser} (hpq : Ahead s k F p q) (hn : p.rest.length ≤ n)
    (hm : q.rest.length ≤ m) : Follows s k F (suffixes e n p) (suffixes e m q) := by
  induction n generalizing e m p q with
  | zero =>
    rcases hpq.head with ⟨hp', hq⟩ | ⟨t, ts, u, us, hp', -⟩
    · obtain ⟨hleft, hright⟩ := hF.ne_of_nil hp' hq (x := .openBracket) (by simp) (by simp)
      rw [suffixes_other hleft, suffixes_other hright]
      exact .same hpq
    · rw [hp', List.length_cons] at hn
      omega
  | succ n ih =>
    rcases hpq.head with ⟨hp', hq⟩ | ⟨t, ts, u, us, hp', hq, hk, hrest⟩
    · obtain ⟨hleft, hright⟩ := hF.ne_of_nil hp' hq (x := .openBracket) (by simp) (by simp)
      rw [suffixes_other hleft, suffixes_other hright]
      exact .same hpq
    · by_cases ht : t.kind = .punct .openBracket
      · rw [hp', List.length_cons] at hn
        rw [hq, List.length_cons] at hm
        obtain ⟨m, rfl⟩ := Nat.exists_eq_succ_of_ne_zero (by omega : m ≠ 0)
        rw [suffixes, suffixes, bind_of_ok (eat_head hp' ht), bind_of_ok (eat_head hq (hk.trans ht)), if_pos rfl,
          if_pos rfl]
        refine (follows_expect hrest .closeBracket).bind (fun _ => tidy_enter.bind fun _ => tidy_suffixes _ m)
          fun _ p' q' ha ha' hpq' => ?_
        have hlen := ((tidy_expect _).of_ok ha).1.length_le
        have hlen' := ((tidy_expect _).of_ok ha').1.length_le
        dsimp only at hlen hlen'
        refine (follows_enter hpq').bind (fun _ => tidy_suffixes _ m) fun _ p'' q'' hb hb' hpq'' => ?_
        have hlen₂ := (tidy_enter.of_ok hb).1.length_le
        have hlen₂' := (tidy_enter.of_ok hb').1.length_le
        exact ih _ hpq'' (by omega) (by omega)
      · rw [suffixes_other (by rwa [current_of_rest hp']), suffixes_other (by rwa [current_of_rest hq, hk])]
        exact .same hpq

end Loops

/-! ## Arguments of records -/

/-- Angles that do not end in a part of the tokens end behind the first token that follows. -/
theorem suffix_of_afterAngles? {depth : Nat} {ts rest : List Token} (h : afterAngles? depth ts = none)
    (h' : afterAngles? depth (ts ++ F) = some rest) : F ≠ [] ∧ rest <:+ F.tail := by
  obtain ⟨us, hus, hends⟩ := exists_of_afterAngles? h'
  rcases List.append_eq_append_iff.1 hus with ⟨vs, rfl, rfl⟩ | ⟨vs, rfl, rfl⟩
  · cases vs with
    | nil =>
      rw [List.append_nil, h] at hends
      cases hends
    | cons v vs => exact ⟨by simp, ⟨vs, rfl⟩⟩
  · rw [afterAngles?_append hends] at h
    cases h

/-- Where no comma follows, no key is found that was not found before. -/
theorem splitKey?_append_eq_none {depth : Nat} {ts : List Token} (h : splitKey? depth ts = none)
    (hF : ∀ t ∈ F, t.kind ≠ .punct .comma) : splitKey? depth (ts ++ F) = none := by
  refine Option.eq_none_iff_forall_ne_some.2 fun ⟨key, rest⟩ hsome => ?_
  obtain ⟨hts, hkey, comma, us, rfl, hcomma⟩ := key_of_splitKey? hsome
  rcases List.append_eq_append_iff.1 hts with ⟨vs, -, rfl⟩ | ⟨vs, rfl, hvs⟩
  · exact hF comma (by simp) hcomma
  · cases vs with
    | nil => exact hF comma (by rw [← List.nil_append F, ← hvs]; simp) hcomma
    | cons v vs =>
      obtain ⟨rfl, -⟩ := List.cons.inj hvs
      rw [splitKey?_key hkey hcomma] at h
      cases h

section Records

variable {p q : Parser}

theorem follows_skipAngles (hpq : Ahead s k F p q) : Follows s k F (skipAngles p) (skipAngles q) := by
  obtain ⟨us, hq, hmirror⟩ := hpq.tokens
  cases hp : afterAngles? 0 p.rest with
  | some rest =>
    obtain ⟨ts, hts, hends⟩ := exists_of_afterAngles? hp
    rw [hts] at hmirror
    obtain ⟨ts', rest', rfl, hkinds, -, hmirror'⟩ := hmirror.split
    have hends' : afterAngles? 0 ts' = some [] := by
      have hcongr := afterAngles?_congr hkinds 0
      rw [hends] at hcongr
      obtain ⟨vs, hvs, hnil⟩ := Option.map_eq_some_iff.1 hcongr.symm
      rw [hvs, List.map_eq_nil_iff.1 hnil]
    have hq' : afterAngles? 0 q.rest = some (rest' ++ F) := by
      rw [hq, List.append_assoc, afterAngles?_append hends', List.nil_append]
    rw [skipAngles, skipAngles, hp, hq']
    exact .same (hpq.goOn ⟨ts, hts.symm⟩ hmirror')
  | none =>
    have hnone : afterAngles? 0 us = none := by
      have hcongr := afterAngles?_congr hmirror.kinds 0
      rwa [hp, eq_comm, Option.map_none, Option.map_eq_none_iff] at hcongr
    rw [skipAngles, skipAngles, hp]
    cases hq' : afterAngles? 0 q.rest with
    | some rest =>
      rw [hq] at hq'
      obtain ⟨hne, hsuffix⟩ := suffix_of_afterAngles? hnone hq'
      refine .ended hne (by simp) rfl fun _ q' ha => ?_
      cases ha
      exact hsuffix
    | none =>
      by_cases hF : F = []
      · subst hF
        exact follows_fail (hpq.goOn List.nil_suffix (.nil s q.source)) (by simp) (by simp)
      · exact .ended hF (by simp) rfl fun _ q' ha => by cases ha

/-- Both records of anything go on behind the same angle. -/
theorem follows_widen (hpq : Ahead s k F p q) :
    Follows s k F ((do skipAngles; return .anyRecord : Step TypeExpr) p)
      ((do skipAngles; return .anyRecord : Step TypeExpr) q) :=
  (follows_skipAngles hpq).bind (fun _ => tidy_pure _) fun _ _ _ _ _ hpq' => .same hpq'

end Records

end Simulation

end Parser

end TypeSchema
