import TypeSchema.Proofs.TypeExpr.Grammar
import TypeSchema.Proofs.TypeExpr.Steps

/-!
# What is derived, the parser reads

`Takes c step depth source ts a top` says that on the tokens `ts` of a part of sort `c` the step gives `a` and stops
behind them, if the deepest level `top` is within the nesting limit; otherwise it fails for depth.  Nothing may follow
that the part could go on with (`Free`).  Each rule of the grammar carries this from its parts to the whole, and
`takes_of_derives` collects the rules.
-/

namespace TypeSchema

namespace Parser

variable {α β : Type}

/-! ## Results within the nesting limit -/

/-- A part that reaches the level `top` is read if the level is within the limit, and fails for depth otherwise. -/
def Ends (top : Nat) (r : EStateM.Result ParseFailure Parser α) (a : α) (q : Parser) : Prop :=
  if top ≤ maxNesting then r = .ok a q else ∃ e q', r = .error e q' ∧ e.fault = .tooDeep ∧ q'.tooDeep = true

theorem ends_ok (a : α) (q : Parser) : Ends 0 (.ok a q) a q := rfl

theorem Ends.eq_ok {top : Nat} {r : EStateM.Result ParseFailure Parser α} {a : α} {q : Parser} (h : Ends top r a q)
    (ht : top ≤ maxNesting) : r = .ok a q := by
  rwa [Ends, if_pos ht] at h

theorem Ends.exists_error {top : Nat} {r : EStateM.Result ParseFailure Parser α} {a : α} {q : Parser}
    (h : Ends top r a q) (ht : maxNesting < top) :
    ∃ e q', r = .error e q' ∧ e.fault = .tooDeep ∧ q'.tooDeep = true := by
  rwa [Ends, if_neg (by omega)] at h

/-- The deepest level of a sequence is the deepest one of its two steps. -/
theorem Ends.bind {top top' : Nat} {x : Step α} {f : α → Step β} {p q r : Parser} {a : α} {b : β}
    (hx : Ends top (x p) a q) (hf : Ends top' (f a q) b r) : Ends (max top top') ((x >>= f) p) b r := by
  by_cases h : top ≤ maxNesting
  · rw [bind_of_ok (hx.eq_ok h)]
    by_cases h' : top' ≤ maxNesting
    · rw [Ends, if_pos (by omega)]
      exact hf.eq_ok h'
    · rw [Ends, if_neg (by omega)]
      exact hf.exists_error (by omega)
  · obtain ⟨e, q', he, hfault, hdeep⟩ := hx.exists_error (by omega)
    rw [bind_of_error he, Ends, if_neg (by omega)]
    exact ⟨e, q', rfl, hfault, hdeep⟩

/-- A last step that cannot fail does not change the deepest level. -/
theorem Ends.then {top : Nat} {x : Step α} {f : α → Step β} {p q r : Parser} {a : α} {b : β}
    (hx : Ends top (x p) a q) (hf : f a q = .ok b r) : Ends top ((x >>= f) p) b r := by
  have hlast : Ends 0 (f a q) b r := by
    rw [hf]
    exact ends_ok b r
  have h := hx.bind hlast
  rwa [Nat.max_zero] at h

theorem ends_onLevel {top : Nat} {step : Step α} {p q : Parser} {a : α} (h : Ends top (step p) a q) :
    Ends top (onLevel step p) a { q with depth := p.depth } := by
  by_cases ht : top ≤ maxNesting
  · rw [Ends, if_pos ht, onLevel, h.eq_ok ht]
  · obtain ⟨e, q', he, hfault, hdeep⟩ := h.exists_error (by omega)
    rw [Ends, if_neg ht, onLevel, he]
    exact ⟨e, _, rfl, hfault, hdeep⟩

/-! ## Parts and what follows them -/

/-- The first of these tokens is not the punctuation `x`. -/
def NotNext (x : Punct) (rest : List Token) : Prop := ∀ t ∈ rest.head?, t.kind ≠ .punct x

theorem NotNext.current_ne {x : Punct} {p : Parser} (h : NotNext x p.rest) : p.current.kind ≠ .punct x := by
  cases hr : p.rest with
  | nil =>
    rw [current, hr]
    intro he
    cases he
  | cons t rest =>
    rw [current_of_rest hr]
    exact h t (by simp [hr])

theorem notNext_cons {x : Punct} {t : Token} (h : t.kind ≠ .punct x) (rest : List Token) : NotNext x (t :: rest) := by
  intro u hu
  obtain rfl := Option.some.inj hu
  exact h

namespace Category

/-- The punctuation with which a part of this sort could go on. -/
def reaches : Category → List Punct
  | primary => [.dot, .openAngle]
  | suffixed => [.dot, .openAngle, .openBracket]
  | union => [.dot, .openAngle, .openBracket, .pipe]
  | several c => c.separator :: c.reaches

/-- A part of this sort does not go on into these tokens. -/
def Free (c : Category) (rest : List Token) : Prop := ∀ x ∈ c.reaches, NotNext x rest

end Category

theorem Category.Free.mono {c d : Category} {rest : List Token} (h : c.Free rest) (hs : d.reaches ⊆ c.reaches) :
    d.Free rest := fun x hx => h x (hs hx)

/-- A token of another kind may follow. -/
theorem free_cons {c : Category} {t : Token} (h : ∀ x ∈ c.reaches, t.kind ≠ .punct x) (rest : List Token) :
    c.Free (t :: rest) := fun x hx => notNext_cons (h x hx) rest

/-- On these tokens of a part of sort `c` the step gives `a` and stops behind them, unless the part is too deep. -/
def Takes (c : Category) (step : Step α) (depth : Nat) (source : String) (ts : List Token) (a : α) (top : Nat) :
    Prop :=
  ∀ (p : Parser) (rest : List Token), p.source = source → p.depth = depth → p.rest = ts ++ rest → c.Free rest →
    Ends top (step p) a { p with rest }

section Rules

variable {depth top : Nat} {source : String}

/-! ## Lists of parts -/

/-- Behind a part, the step `item` reads these further parts. -/
def TakesMore (c : Category) (item : Step TypeExpr) (depth : Nat) (source : String) (ts : List Token)
    (es : List TypeExpr) (top : Nat) : Prop :=
  (∀ t ∈ ts.head?, t.kind = .punct c.separator) ∧
    ∀ n, ts.length ≤ n → Takes (.several c) (more c.separator item n) depth source ts es top

/-- The step `item` reads a first part, and then further ones. -/
def TakesAll (c : Category) (item : Step TypeExpr) (depth : Nat) (source : String) (ts : List Token)
    (es : List TypeExpr) (top : Nat) : Prop :=
  ∃ ts₁ ts₂ e es' top₁ top₂, ts = ts₁ ++ ts₂ ∧ es = e :: es' ∧ top = max top₁ top₂ ∧
    Takes c item depth source ts₁ e top₁ ∧ TakesMore c item depth source ts₂ es' top₂

variable {c : Category} {item : Step TypeExpr}

theorem takesMore_nil (c : Category) (item : Step TypeExpr) (depth : Nat) (source : String) :
    TakesMore c item depth source [] [] 0 := by
  refine ⟨by simp, ?_⟩
  rintro (_ | n) - p rest - - hr hfree
  · obtain rfl : p.rest = rest := hr
    exact ends_ok _ _
  · obtain rfl : p.rest = rest := hr
    have heat := eat_other (hfree _ List.mem_cons_self).current_ne
    rw [more, bind_of_ok heat]
    exact ends_ok _ _

theorem free_of_takesMore {ts rest : List Token} {es : List TypeExpr} (hc : c.separator ∉ c.reaches)
    (h : TakesMore c item depth source ts es top) (hfree : (Category.several c).Free rest) : c.Free (ts ++ rest) := by
  cases ts with
  | nil => exact hfree.mono (List.subset_cons_self _ _)
  | cons t us =>
    refine free_cons (fun x hx he => hc ?_) _
    rw [h.1 t rfl] at he
    cases he
    exact hx

theorem takesMore_cons {ts us : List Token} {sep : Token} {e : TypeExpr} {es : List TypeExpr} {top' : Nat}
    (hc : c.separator ∉ c.reaches) (hsep : sep.kind = .punct c.separator) (he : Takes c item depth source ts e top)
    (hes : TakesMore c item depth source us es top') :
    TakesMore c item depth source (sep :: (ts ++ us)) (e :: es) (max top top') := by
  refine ⟨by simp [hsep], ?_⟩
  rintro (_ | n) hn p rest hs hd hr hfree
  · cases hn
  · have hr' : p.rest = sep :: (ts ++ (us ++ rest)) := by simp [hr]
    rw [more, bind_of_ok (eat_head hr' hsep), if_pos rfl]
    have hfirst := free_of_takesMore hc hes hfree
    refine (he { p with rest := ts ++ (us ++ rest) } _ hs hd rfl hfirst).bind ?_
    have hlen : us.length ≤ n := by simp at hn; omega
    exact (hes.2 n hlen { p with rest := us ++ rest } rest hs hd rfl hfree).then rfl

theorem takesAll_one {ts : List Token} {e : TypeExpr} (h : Takes c item depth source ts e top) :
    TakesAll c item depth source ts [e] top :=
  ⟨ts, [], e, [], top, 0, by simp, rfl, by simp, h, takesMore_nil _ _ _ _⟩

theorem takesAll_more {ts us : List Token} {sep : Token} {e : TypeExpr} {es : List TypeExpr} {top' : Nat}
    (hc : c.separator ∉ c.reaches) (h : Takes c item depth source ts e top) (hsep : sep.kind = .punct c.separator)
    (hes : TakesAll c item depth source us es top') :
    TakesAll c item depth source (ts ++ sep :: us) (e :: es) (max top top') := by
  obtain ⟨us₁, us₂, e', es', top₁, top₂, rfl, rfl, rfl, he', hmore⟩ := hes
  exact ⟨ts, _, e, _, top, _, rfl, rfl, rfl, h, takesMore_cons hc hsep he' hmore⟩

/-! ## Names -/

theorem dotted_of_nameTail {name full : String} {ts : List Token} (h : NameTail name ts full) {n : Nat}
    (hn : ts.length ≤ n) {p : Parser} {rest : List Token} (hr : p.rest = ts ++ rest)
    (hdot : NotNext .dot rest) : dotted name n p = .ok full { p with rest } := by
  induction h generalizing n p with
  | done name =>
    obtain rfl : p.rest = rest := hr
    cases n with
    | zero => rfl
    | succ n =>
      rw [dotted, bind_of_ok (eat_other hdot.current_ne)]
      rfl
  | @part name part full dot t ts hdot' ht _ ih =>
    cases n with
    | zero => cases hn
    | succ n =>
      have hk : peek { p with rest := t :: (ts ++ rest) } = .ok (.ident part) { p with rest := t :: (ts ++ rest) } := by
        rw [peek, current_of_rest rfl, ht]
      rw [dotted, bind_of_ok (eat_head hr hdot'), if_pos rfl]
      change (peek >>= _) { p with rest := t :: (ts ++ rest) } = _
      rw [bind_of_ok hk]
      change (advance >>= _) { p with rest := t :: (ts ++ rest) } = _
      rw [bind_of_ok (advance_head rfl)]
      simp only [List.length_cons] at hn
      exact ih (by omega) rfl

/-- Behind a name, an angle decides whether it has arguments. -/
theorem primary_of_names {inner : Step TypeExpr} {ts rest : List Token} {name : String} (h : Names ts name)
    {p : Parser} (hr : p.rest = ts ++ rest) (hdot : NotNext .dot rest) :
    primary inner p =
      (do if (← peek) = .punct .openAngle then
            if name = "Record" then record inner else return applied name (← arguments inner)
          else return plain name : Step TypeExpr) { p with rest } := by
  obtain ⟨t, us, first, rfl, ht, htail⟩ := h
  have hk : peek p = .ok (.ident first) p := by rw [peek, current_of_rest hr, ht]
  have hn : remaining { p with rest := us ++ rest } = .ok (us ++ rest).length { p with rest := us ++ rest } := rfl
  rw [primary, bind_of_ok hk]
  change (advance >>= _) p = _
  rw [bind_of_ok (advance_head hr), named]
  change (remaining >>= _) { p with rest := us ++ rest } = _
  rw [bind_of_ok hn, bind_of_ok (dotted_of_nameTail htail (by simp) rfl hdot)]

/-! ## Primaries -/

variable {inner : Step TypeExpr}

theorem takes_plain (hd : depth ≤ maxNesting) {ts : List Token} {name : String} (h : Names ts name) :
    Takes .primary (primary inner) depth source ts (plain name) depth := by
  intro p rest _ _ hr hfree
  have hopen : NotNext .openAngle rest := hfree _ (by decide)
  have hk : peek { p with rest } = .ok { p with rest }.current.kind { p with rest } := rfl
  rw [primary_of_names h hr (hfree _ (by decide)), bind_of_ok hk, if_neg hopen.current_ne, Ends, if_pos hd]
  rfl

theorem takes_literal (hd : depth ≤ maxNesting) {t : Token} {value : String} {quote : Char}
    (h : t.kind = .str value quote) :
    Takes .primary (primary inner) depth source [t] (.literal ⟨value, quote⟩) depth := by
  intro p rest _ _ hr _
  have hk : peek p = .ok (.str value quote) p := by rw [peek, current_of_rest hr, h]
  rw [primary, bind_of_ok hk, Ends, if_pos hd]
  change (advance >>= _) p = _
  rw [bind_of_ok (advance_head hr)]
  rfl

theorem takes_group {ts : List Token} {opening closing : Token} {e : TypeExpr} (ho : opening.kind = .punct .openParen)
    (h : Takes .union inner depth source ts e top) (hc : closing.kind = .punct .closeParen) :
    Takes .primary (primary inner) depth source (opening :: (ts ++ [closing])) e top := by
  intro p rest hs hd hr _
  have hr' : p.rest = opening :: (ts ++ closing :: rest) := by simp [hr]
  have hk : peek p = .ok (.punct .openParen) p := by rw [peek, current_of_rest hr', ho]
  rw [primary, bind_of_ok hk]
  change Ends top ((advance >>= _) p) _ _
  rw [bind_of_ok (advance_head hr')]
  have hfree : Category.union.Free (closing :: rest) := free_cons (by simp [Category.reaches, hc]) rest
  refine (h { p with rest := ts ++ closing :: rest } _ hs hd rfl hfree).then ?_
  rw [bind_of_ok (expect_head rfl hc)]
  rfl

theorem ends_arguments {us rest : List Token} {es : List TypeExpr} {opening closing : Token}
    (hes : TakesAll .union inner depth source us es top) (hc : closing.kind = .punct .closeAngle) {p : Parser}
    (hs : p.source = source) (hd : p.depth = depth) (hr : p.rest = opening :: (us ++ closing :: rest)) :
    Ends top (arguments inner p) es { p with rest } := by
  obtain ⟨us₁, us₂, e, es', top₁, top₂, rfl, rfl, rfl, he, hmore⟩ := hes
  have hfree : (Category.several .union).Free (closing :: rest) :=
    free_cons (by simp [Category.reaches, Category.separator, hc]) rest
  have hr' : p.rest = opening :: (us₁ ++ (us₂ ++ closing :: rest)) := by simp [hr]
  rw [arguments, bind_of_ok (advance_head hr')]
  refine (he { p with rest := us₁ ++ (us₂ ++ closing :: rest) } _ hs hd rfl
    (free_of_takesMore (by decide) hmore hfree)).bind ?_
  have hn : remaining { p with rest := us₂ ++ closing :: rest } =
    .ok (us₂ ++ closing :: rest).length { p with rest := us₂ ++ closing :: rest } := rfl
  rw [bind_of_ok hn]
  refine (hmore.2 _ (by simp) { p with rest := us₂ ++ closing :: rest } _ hs hd rfl hfree).then ?_
  rw [bind_of_ok (expect_head rfl hc)]
  rfl

theorem takes_applied {ts us : List Token} {name : String} {es : List TypeExpr} {opening closing : Token}
    (h : Names ts name) (hn : name ≠ "Record") (ho : opening.kind = .punct .openAngle)
    (hes : TakesAll .union inner depth source us es top) (hc : closing.kind = .punct .closeAngle) :
    Takes .primary (primary inner) depth source (ts ++ opening :: (us ++ [closing])) (applied name es) top := by
  intro p rest hs hd hr _
  have hr' : p.rest = ts ++ opening :: (us ++ closing :: rest) := by simp [hr]
  have hk : peek { p with rest := opening :: (us ++ closing :: rest) } =
      .ok (.punct .openAngle) { p with rest := opening :: (us ++ closing :: rest) } := by
    rw [peek, current_of_rest rfl, ho]
  rw [primary_of_names h hr' (notNext_cons (by simp [ho]) _), bind_of_ok hk, if_pos rfl, if_neg hn]
  exact (ends_arguments hes hc (p := { p with rest := opening :: (us ++ closing :: rest) }) hs hd rfl).then rfl

/-- A record that starts with its name and angle is read by `record`. -/
theorem primary_of_record {ts us : List Token} {opening : Token} (h : Names ts "Record")
    (ho : opening.kind = .punct .openAngle) {p : Parser} (hr : p.rest = ts ++ opening :: us) :
    primary inner p = record inner { p with rest := opening :: us } := by
  have hk : peek { p with rest := opening :: us } = .ok (.punct .openAngle) { p with rest := opening :: us } := by
    rw [peek, current_of_rest rfl, ho]
  rw [primary_of_names h hr (notNext_cons (by simp [ho]) _), bind_of_ok hk, if_pos rfl, if_pos rfl]

theorem takes_record {ts us key : List Token} {text : String} {e : TypeExpr} {opening comma closing : Token}
    (h : Names ts "Record") (ho : opening.kind = .punct .openAngle) (hkey : isKey 0 key = true)
    (ht : keyText? source key = some text) (hcomma : comma.kind = .punct .comma)
    (he : Takes .union inner depth source us e top) (hc : closing.kind = .punct .closeAngle) :
    Takes .primary (primary inner) depth source (ts ++ opening :: (key ++ comma :: (us ++ [closing])))
      (.record text e) top := by
  intro p rest hs hd hr _
  subst hs
  have hr' : p.rest = ts ++ opening :: (key ++ comma :: (us ++ closing :: rest)) := by simp [hr]
  have hfree : Category.union.Free (closing :: rest) := free_cons (by simp [Category.reaches, hc]) rest
  -- the arguments alone
  have hargs : Ends top ((do advance; recordArguments inner : Step (Option (String × TypeExpr)))
      { p with rest := opening :: (key ++ comma :: (us ++ closing :: rest)) }) (some (text, e)) { p with rest } := by
    have hsplit := splitKey?_key hkey hcomma (us ++ closing :: rest)
    have hsome := @recordArguments_some inner { p with rest := key ++ comma :: (us ++ closing :: rest) } _ _ _ hsplit ht
    rw [bind_of_ok (advance_head rfl), hsome, bind_of_ok (expect_head rfl hcomma)]
    refine (he { p with rest := us ++ closing :: rest } _ rfl hd rfl hfree).then ?_
    rw [bind_of_ok (expect_head rfl hc)]
    rfl
  rw [primary_of_record h ho hr', record]
  by_cases htop : top ≤ maxNesting
  · rw [hargs.eq_ok htop, Ends, if_pos htop]
  · obtain ⟨err, q, herr, hfault, hdeep⟩ := hargs.exists_error (by omega)
    rw [herr, Ends, if_neg htop]
    dsimp only
    rw [if_pos hdeep]
    exact ⟨err, q, rfl, hfault, hdeep⟩

/-- Without a key, whatever follows, a record is one of anything. -/
def NoKey (us : List Token) : Prop := ∀ rest, splitKey? 0 (us ++ rest) = none

theorem takes_anyRecord (hd : depth ≤ maxNesting) {ts us : List Token} {opening : Token} (h : Names ts "Record")
    (ho : opening.kind = .punct .openAngle) (hu : afterAngles? 1 us = some []) (hn : NoKey us) :
    Takes .primary (primary inner) depth source (ts ++ opening :: us) .anyRecord depth := by
  intro p rest _ _ hr _
  have hr' : p.rest = ts ++ opening :: (us ++ rest) := by simp [hr]
  have hargs : (do advance; recordArguments inner : Step (Option (String × TypeExpr)))
      { p with rest := opening :: (us ++ rest) } = .ok none { p with rest := us ++ rest } := by
    rw [bind_of_ok (advance_head rfl)]
    exact recordArguments_none (p := { p with rest := us ++ rest }) (hn rest)
  have hskip : skipAngles { p with rest := opening :: (us ++ rest) } = .ok () { p with rest } := by
    have hafter : afterAngles? 0 (opening :: (us ++ rest)) = some rest := by
      rw [afterAngles?, if_pos (by simp [Token.isPunct, ho])]
      exact afterAngles?_append hu rest
    rw [skipAngles, hafter]
  rw [primary_of_record h ho hr', record, hargs, Ends, if_pos hd]
  dsimp only
  rw [bind_of_ok hskip]
  rfl

/-! ## Suffixes, branches and unions -/

theorem ends_suffixes {n m : Nat} {us rest : List Token} (h : Brackets n us) {e : TypeExpr} {p : Parser}
    (hd : p.depth ≤ maxNesting) (hm : us.length ≤ m) (hr : p.rest = us ++ rest) (hopen : NotNext .openBracket rest) :
    Ends (p.depth + n) (suffixes e m p) (arrayed n e) { p with rest, depth := p.depth + n } := by
  induction h generalizing m e p with
  | none =>
    obtain rfl : p.rest = rest := hr
    rw [Ends, Nat.add_zero, if_pos hd]
    cases m with
    | zero => rfl
    | succ m =>
      rw [suffixes, bind_of_ok (eat_other hopen.current_ne)]
      rfl
  | @pair n opening closing ts ho hc _ ih =>
    cases m with
    | zero => cases hm
    | succ m =>
      rw [suffixes, bind_of_ok (eat_head hr ho), if_pos rfl]
      change Ends _ ((expect .closeBracket >>= _) { p with rest := closing :: (ts ++ rest) }) _ _
      rw [bind_of_ok (expect_head rfl hc)]
      by_cases hlt : p.depth + 1 ≤ maxNesting
      · have henter : enter { p with rest := ts ++ rest } =
            .ok () { p with rest := ts ++ rest, depth := p.depth + 1 } := by
          rw [enter, if_neg (by dsimp only; omega)]
        rw [bind_of_ok henter]
        simp only [List.length_cons] at hm
        have htail := ih (m := m) (e := .array e) (p := { p with rest := ts ++ rest, depth := p.depth + 1 }) hlt
          (by omega) rfl
        rw [show p.depth + (n + 1) = p.depth + 1 + n by omega]
        exact htail
      · have henter : enter { p with rest := ts ++ rest } = failTooDeep { p with rest := ts ++ rest } := by
          rw [enter, if_pos (by dsimp only; omega)]
        rw [bind_of_error henter, Ends, if_neg (by omega)]
        exact ⟨_, _, rfl, rfl, rfl⟩

theorem takes_suffixed (hd : depth ≤ maxNesting) {n : Nat} {ts us : List Token} {e : TypeExpr}
    (h : Takes .primary (primary inner) depth source ts e top) (hb : Brackets n us) :
    Takes .suffixed (suffixed inner) depth source (ts ++ us) (arrayed n e) (max top (depth + n)) := by
  intro p rest hs hp hr hfree
  subst hp
  have hprimary : Category.primary.Free (us ++ rest) := by
    cases hb with
    | none => exact hfree.mono (by simp [Category.reaches])
    | pair ho _ _ => exact free_cons (by simp [Category.reaches, ho]) _
  refine (h p (us ++ rest) hs rfl (by rw [hr, List.append_assoc]) hprimary).bind ?_
  have hn : remaining { p with rest := us ++ rest } = .ok (us ++ rest).length { p with rest := us ++ rest } := rfl
  have hopen : NotNext .openBracket rest := hfree _ (by decide)
  have hsuffixes := ends_suffixes (e := e) hb (p := { p with rest := us ++ rest }) hd
    (m := (us ++ rest).length) (by simp) rfl hopen
  have hstep : Ends (p.depth + n) ((do suffixes e (← remaining) : Step TypeExpr) { p with rest := us ++ rest })
      (arrayed n e) { p with rest, depth := p.depth + n } := by
    rw [bind_of_ok hn]
    exact hsuffixes
  exact ends_onLevel hstep

theorem ends_branches {ts rest : List Token} {es : List TypeExpr}
    (hes : TakesAll .suffixed (suffixed inner) depth source ts es top) {p : Parser} (hs : p.source = source)
    (hd : p.depth = depth) (hfree : Category.union.Free rest)
    (hr : (p.rest = ts ++ rest ∧ NotNext .pipe p.rest) ∨
      ∃ bar, bar.kind = .punct .pipe ∧ p.rest = bar :: (ts ++ rest)) :
    Ends top (branches inner p) (joined es) { p with rest } := by
  obtain ⟨ts₁, ts₂, e, es', top₁, top₂, rfl, rfl, rfl, he, hmore⟩ := hes
  have heat : ∃ b, eat .pipe p = .ok b { p with rest := ts₁ ++ (ts₂ ++ rest) } := by
    rw [List.append_assoc] at hr
    rcases hr with ⟨hr, hbar⟩ | ⟨bar, hb, hr⟩
    · refine ⟨false, ?_⟩
      rw [← hr]
      exact eat_other hbar.current_ne
    · exact ⟨true, eat_head hr hb⟩
  obtain ⟨b, heat⟩ := heat
  have hfree' : (Category.several .suffixed).Free rest := hfree.mono (by decide)
  rw [branches, bind_of_ok heat]
  refine (he { p with rest := ts₁ ++ (ts₂ ++ rest) } _ hs hd rfl
    (free_of_takesMore (by decide) hmore hfree')).bind ?_
  have hn : remaining { p with rest := ts₂ ++ rest } = .ok (ts₂ ++ rest).length { p with rest := ts₂ ++ rest } := rfl
  rw [bind_of_ok hn]
  refine (hmore.2 _ (by simp) { p with rest := ts₂ ++ rest } _ hs hd rfl hfree').then ?_
  cases es' with
  | nil => rfl
  | cons f fs => rfl

end Rules

/-! ## Derivations -/

/-- The reader of a sort of parts at a depth. -/
def reader (depth : Nat) : Category → Step TypeExpr
  | .union | .several _ => union (maxNesting - depth)
  | .suffixed => suffixed (union (maxNesting - depth))
  | .primary => primary (union (maxNesting - depth))

/-- A union with a single level of readers around it. -/
theorem takes_union {depth top : Nat} {source : String} {ts : List Token} {e : TypeExpr} (hd : depth ≤ maxNesting)
    (htop : depth + 1 ≤ top)
    (h : depth + 1 ≤ maxNesting → ∀ (p : Parser) (rest : List Token), p.source = source → p.depth = depth + 1 →
      p.rest = ts ++ rest → Category.union.Free rest →
      Ends top (branches (union (maxNesting - (depth + 1))) p) e { p with rest }) :
    Takes .union (union (maxNesting - depth)) depth source ts e top := by
  intro p rest hs hp hr hfree
  by_cases hlt : depth + 1 ≤ maxNesting
  · obtain ⟨n, hn⟩ : ∃ n, maxNesting - depth = n + 1 := ⟨maxNesting - (depth + 1), by omega⟩
    have hn' : maxNesting - (depth + 1) = n := by omega
    have henter : enter p = .ok () { p with depth := depth + 1 } := by
      rw [enter, if_neg (by omega), hp]
    have hbody : Ends top ((do enter; branches (union n) : Step TypeExpr) p) e { p with rest, depth := depth + 1 } := by
      rw [bind_of_ok henter, ← hn']
      exact h hlt { p with depth := depth + 1 } rest hs rfl hr hfree
    rw [hn]
    exact ends_onLevel hbody
  · rw [show maxNesting - depth = 0 by omega, Ends, if_neg (by omega)]
    exact ⟨_, _, rfl, rfl, rfl⟩

/-- What it means for a derived part to be read. -/
def ReadAs (source : String) : Category → Nat → List Token → List TypeExpr → Nat → Prop
  | .several (.several _), _, _, _, _ => True
  | .several c, level, ts, es, top => ∀ depth, depth ≤ maxNesting → c.level depth = level →
      TakesAll c (reader depth c) depth source ts es top
  | c, level, ts, es, top => ∀ depth, depth ≤ maxNesting → c.level depth = level →
      ∃ e, es = [e] ∧ Takes c (reader depth c) depth source ts e top

/-- **What is derived is read**: by the reader of its sort, up to its end, if its deepest level is within the limit;
otherwise the reader fails for depth. -/
theorem readAs_of_derives {source : String} {c : Category} {level top : Nat} {ts : List Token} {es : List TypeExpr}
    (h : Derives source NoKey c level ts es top) : ReadAs source c level ts es top := by
  induction h with
  | @union level top ts es h ih =>
    rintro depth hd rfl
    refine ⟨_, rfl, takes_union hd h.level_le fun hlt p rest hs hp hr hfree => ?_⟩
    refine ends_branches (ih _ hlt rfl) hs hp hfree (.inl ⟨hr, ?_⟩)
    obtain ⟨t, us, rfl, ht⟩ := h.exists_head
    rw [hr, List.cons_append]
    exact notNext_cons (ht rfl) _
  | @barred level top bar ts es hbar h ih =>
    rintro depth hd rfl
    refine ⟨_, rfl, takes_union hd h.level_le fun hlt p rest hs hp hr hfree => ?_⟩
    exact ends_branches (ih _ hlt rfl) hs hp hfree (.inr ⟨bar, hbar, hr⟩)
  | suffixed h hb ih =>
    rintro depth hd rfl
    obtain ⟨e, he, htakes⟩ := ih depth hd rfl
    cases he
    exact ⟨_, rfl, takes_suffixed hd htakes hb⟩
  | group ho h hc ih =>
    rintro depth hd rfl
    obtain ⟨e, he, htakes⟩ := ih depth hd rfl
    cases he
    exact ⟨_, rfl, takes_group ho htakes hc⟩
  | literal ht =>
    rintro depth hd rfl
    exact ⟨_, rfl, takes_literal hd ht⟩
  | plain hn =>
    rintro depth hd rfl
    exact ⟨_, rfl, takes_plain hd hn⟩
  | applied hn hne ho h hc ih =>
    rintro depth hd rfl
    exact ⟨_, rfl, takes_applied hn hne ho (ih depth hd rfl) hc⟩
  | record hn ho hkey ht hcomma h hc ih =>
    rintro depth hd rfl
    obtain ⟨e, he, htakes⟩ := ih depth hd rfl
    cases he
    exact ⟨_, rfl, takes_record hn ho hkey ht hcomma htakes hc⟩
  | anyRecord hn ho hu hw =>
    rintro depth hd rfl
    exact ⟨_, rfl, takes_anyRecord hd hn ho hu hw⟩
  | @one c level top ts e h ih =>
    cases c with
    | several c => trivial
    | union | suffixed | primary =>
      intro depth hd hl
      obtain ⟨e, he, htakes⟩ := ih depth hd hl
      cases he
      exact takesAll_one htakes
  | @more c level top top' ts us sep e es h hsep h' ih ih' =>
    cases c with
    | several c => trivial
    | union | suffixed | primary =>
      intro depth hd hl
      obtain ⟨e, he, htakes⟩ := ih depth hd hl
      cases he
      exact takesAll_more (by decide) htakes hsep (ih' depth hd hl)

/-! ## Whole texts -/

theorem ends_typeExpr {source : String} {ts : List Token} {e : TypeExpr} {top : Nat}
    (h : DerivesType source NoKey ts e top) {p : Parser} (hs : p.source = source) (hd : p.depth = 0)
    (hr : p.rest = ts) : Ends top (typeExpr p) e { p with rest := [] } := by
  have htakes {ts : List Token} {e : TypeExpr} (h : Derives source NoKey .union 1 ts [e] top) :
      Takes .union (union maxNesting) 0 source ts e top := by
    obtain ⟨f, hf, htakes⟩ := readAs_of_derives h 0 (Nat.zero_le _) rfl
    cases hf
    exact htakes
  cases h with
  | bare h =>
    refine (htakes h p [] hs hd (by rw [hr, List.append_nil]) (by simp [Category.Free, NotNext])).then ?_
    have heat : eat .question { p with rest := [] } = .ok false { p with rest := [] } :=
      eat_other (by simp [current, Token.eof])
    rw [bind_of_ok heat]
    rfl
  | @optional ts question e top h hq =>
    have hfree : Category.union.Free [question] := free_cons (by simp [Category.reaches, hq]) []
    refine (htakes h p [question] hs hd hr hfree).then ?_
    rw [bind_of_ok (eat_head rfl hq)]
    rfl

end Parser

/-- **A text whose tokens are derived has the derived tree** if the deepest level is within the limit, and no tree
otherwise. -/
theorem TypeExpr.parse_eq_ok_iff_of_derives {source : String} {e : TypeExpr} {top : Nat}
    (h : Parser.DerivesType source Parser.NoKey (Parser.ofText source).rest e top) :
    TypeExpr.parse source = .ok e ↔ top ≤ maxNesting := by
  have hends := Parser.ends_typeExpr h (p := Parser.ofText source) rfl rfl rfl
  by_cases htop : top ≤ maxNesting
  · refine iff_of_true ?_ htop
    rw [TypeExpr.parse, Parser.run, hends.eq_ok htop]
  · refine iff_of_false ?_ htop
    obtain ⟨err, q, herr, -⟩ := hends.exists_error (by omega)
    rw [TypeExpr.parse, Parser.run, herr]
    intro h
    cases h

end TypeSchema
