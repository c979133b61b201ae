import TypeSchema.Proofs.Lexing.Run
import TypeSchema.Proofs.TypeExpr.Grammar
import TypeSchema.Proofs.TypeExpr.Levels

/-!
# What the parser accepts is derived

A step is `Sound` for a sort of parts if whatever it reads is derived as such a part, within the nesting limit, and if
it keeps the level it started on.  Each reader of the grammar is sound if the reader of the inner unions is, so the
reader of unions is sound by induction on the levels left (`sound_union`).  `derives_of_parse` says this of whole texts.
-/

namespace TypeSchema

namespace Parser

/-- Any arguments may be those of a record of anything. -/
abbrev anyWidens : List Token → Prop := fun _ => True

/-- The tokens between two parsers are derived as a part of sort `c`, within the nesting limit. -/
def Took (c : Category) (p q : Parser) (es : List TypeExpr) : Prop :=
  ∃ ts top, p.rest = ts ++ q.rest ∧ Derives p.source anyWidens c (c.level p.depth) ts es top ∧ top ≤ maxNesting

/-- Whatever the step reads is derived as a part of sort `c`, and the step comes back to its level. -/
structure Sound (c : Category) (step : Step TypeExpr) : Prop where
  steady : Steady step
  took {p q : Parser} {e : TypeExpr} : p.depth ≤ maxNesting → step p = .ok e q → Took c p q [e]

/-! ## Names and suffixes -/

theorem nameTail_of_dotted {name : String} {n : Nat} {p q : Parser} {full : String}
    (h : dotted name n p = .ok full q) : ∃ ts, p.rest = ts ++ q.rest ∧ NameTail name ts full := by
  induction n generalizing name p with
  | zero =>
    obtain ⟨rfl, rfl⟩ := pure_eq_ok h
    exact ⟨[], rfl, .done _⟩
  | succ n ih =>
    obtain ⟨b, r, hb, h'⟩ := bind_eq_ok h
    rcases eat_eq_ok hb with ⟨rfl, dot, rest, hr, hdot, rfl⟩ | ⟨rfl, rfl⟩
    · obtain ⟨kind, r', hk, h''⟩ := bind_eq_ok h'
      obtain ⟨hkind, rfl⟩ := peek_eq_ok hk
      split at h''
      · obtain ⟨t, rest', hr', ht⟩ := rest_of_current hkind (by simp)
        rw [bind_of_ok (advance_head hr')] at h''
        obtain ⟨ts, hts, hname⟩ := ih h''
        refine ⟨dot :: t :: ts, ?_, .part hdot ht hname⟩
        dsimp only at hr' hts
        rw [hr, hr', hts]
        rfl
      · cases h''
    · obtain ⟨rfl, rfl⟩ := pure_eq_ok h'
      exact ⟨[], rfl, .done _⟩

theorem brackets_of_suffixes {e : TypeExpr} {n : Nat} {p q : Parser} {f : TypeExpr} (hd : p.depth ≤ maxNesting)
    (h : suffixes e n p = .ok f q) :
    ∃ k us, p.rest = us ++ q.rest ∧ Brackets k us ∧ f = arrayed k e ∧ p.depth + k ≤ maxNesting := by
  induction n generalizing e p with
  | zero =>
    obtain ⟨rfl, rfl⟩ := pure_eq_ok h
    exact ⟨0, [], rfl, .none, rfl, hd⟩
  | succ n ih =>
    obtain ⟨b, r, hb, h'⟩ := bind_eq_ok h
    rcases eat_eq_ok hb with ⟨rfl, opening, rest, hr, ho, rfl⟩ | ⟨rfl, rfl⟩
    · obtain ⟨_, r, hexp, h'⟩ := bind_eq_ok h'
      obtain ⟨closing, rest', hr', hc, rfl⟩ := expect_eq_ok hexp
      obtain ⟨_, r, hent, h'⟩ := bind_eq_ok h'
      obtain ⟨hlt, rfl⟩ := enter_eq_ok hent
      obtain ⟨k, us, hus, hk, rfl, htop⟩ := ih hlt h'
      refine ⟨k + 1, opening :: closing :: us, ?_, .pair ho hc hk, rfl, ?_⟩
      · dsimp only at hr' hus
        rw [hr, hr', hus]
        rfl
      · dsimp only at htop
        omega
    · obtain ⟨rfl, rfl⟩ := pure_eq_ok h'
      exact ⟨0, [], rfl, .none, rfl, hd⟩

/-! ## Lists of parts -/

/-- A part and the further parts that are read behind it make up a list. -/
theorem took_more {c : Category} {item : Step TypeExpr} (hitem : Sound c item) {n : Nat} {p q r : Parser}
    {e : TypeExpr} {es : List TypeExpr} (hd : p.depth ≤ maxNesting) (hpq : Keeps p q) (he : Took c p q [e])
    (h : more c.separator item n q = .ok es r) : Took (.several c) p r (e :: es) := by
  induction n generalizing p q e es with
  | zero =>
    obtain ⟨rfl, rfl⟩ := pure_eq_ok h
    obtain ⟨ts, top, hts, hder, htop⟩ := he
    exact ⟨ts, top, hts, .one hder, htop⟩
  | succ n ih =>
    obtain ⟨b, q', hb, h'⟩ := bind_eq_ok h
    rcases eat_eq_ok hb with ⟨rfl, sep, rest, hr, hsep, rfl⟩ | ⟨rfl, rfl⟩
    · obtain ⟨f, s, hf, h'⟩ := bind_eq_ok h'
      obtain ⟨fs, s', hfs, h'⟩ := bind_eq_ok h'
      obtain ⟨rfl, rfl⟩ := pure_eq_ok h'
      have hq : Parser.depth { q with rest } ≤ maxNesting := by
        change q.depth ≤ maxNesting
        rwa [hpq.depth]
      obtain ⟨us, top', hus, hder', htop'⟩ := ih hq (hitem.steady.of_ok hf) (hitem.took hq hf) hfs
      obtain ⟨ts, top, hts, hder, htop⟩ := he
      refine ⟨ts ++ sep :: us, max top top', ?_, ?_, by omega⟩
      · dsimp only at hus
        rw [hts, hr, hus]
        simp
      · dsimp only [Category.level] at hder'
        rw [hpq.source, hpq.depth] at hder'
        exact .more hder hsep hder'
    · obtain ⟨rfl, rfl⟩ := pure_eq_ok h'
      obtain ⟨ts, top, hts, hder, htop⟩ := he
      exact ⟨ts, top, hts, .one hder, htop⟩

/-! ## Records -/

section Readers

variable {inner : Step TypeExpr} (hinner : Sound .union inner)

include hinner

theorem exists_of_recordArguments {p q : Parser} {text : String} {e : TypeExpr} (hd : p.depth ≤ maxNesting)
    (h : recordArguments inner p = .ok (some (text, e)) q) :
    ∃ key comma us closing top, p.rest = key ++ comma :: (us ++ closing :: q.rest) ∧ isKey 0 key = true ∧
      keyText? p.source key = some text ∧ comma.kind = .punct .comma ∧ closing.kind = .punct .closeAngle ∧
      Derives p.source anyWidens .union (p.depth + 1) us [e] top ∧ top ≤ maxNesting := by
  rcases recordArguments_cases inner p with h' | ⟨key, rest, text', hs, hk⟩
  · rw [h'] at h
    cases h
  · rw [recordArguments_some hs hk] at h
    obtain ⟨hrest, hkey, -⟩ := key_of_splitKey? hs
    obtain ⟨_, r, hcomma, h⟩ := bind_eq_ok h
    obtain ⟨comma, rest', hr, hc, rfl⟩ := expect_eq_ok hcomma
    obtain ⟨value, r, hvalue, h⟩ := bind_eq_ok h
    obtain ⟨_, r', hclose, h⟩ := bind_eq_ok h
    obtain ⟨closing, rest'', hr', hc', rfl⟩ := expect_eq_ok hclose
    obtain ⟨he, rfl⟩ := pure_eq_ok h
    obtain ⟨rfl, rfl⟩ := Prod.mk.inj (Option.some.inj he)
    obtain ⟨us, top, hus, hder, htop⟩ := hinner.took (p := { p with rest := rest' }) hd hvalue
    refine ⟨key, comma, us, closing, top, ?_, hkey, hk, hc, hc', hder, htop⟩
    dsimp only at hr hus
    rw [hrest, hr, hus, hr']

/-- What stands behind the name of a record: a key and a value, or a group of angles. -/
theorem exists_of_record {p q : Parser} {opening : Token} {rest : List Token} {e : TypeExpr}
    (hd : p.depth ≤ maxNesting) (hp : p.rest = opening :: rest) (ho : opening.kind = .punct .openAngle)
    (h : record inner p = .ok e q) {names : List Token} (hn : Names names "Record") :
    ∃ ts top, names ++ p.rest = ts ++ q.rest ∧
      Derives p.source anyWidens .primary p.depth ts [e] top ∧ top ≤ maxNesting := by
  have hwiden {r : Parser} (hr : (do skipAngles; return .anyRecord : Step TypeExpr) { r with rest := p.rest } =
      .ok e q) : ∃ ts top, names ++ p.rest = ts ++ q.rest ∧
      Derives p.source anyWidens .primary p.depth ts [e] top ∧ top ≤ maxNesting := by
    obtain ⟨_, r', hskip, hr⟩ := bind_eq_ok hr
    obtain ⟨rfl, rfl⟩ := pure_eq_ok hr
    unfold skipAngles at hskip
    split at hskip
    · rename_i after hafter
      cases hskip
      rw [hp, afterAngles?, if_pos (by simp [Token.isPunct, ho])] at hafter
      obtain ⟨us, rfl, hus⟩ := exists_of_afterAngles? hafter
      exact ⟨names ++ opening :: us, p.depth, by simp [hp], .anyRecord hn ho hus trivial, hd⟩
    · cases hskip
  unfold record at h
  dsimp only at h
  split at h
  · rename_i text value r hargs
    cases h
    rw [bind_of_ok (advance_head hp)] at hargs
    obtain ⟨key, comma, us, closing, top, hrest, hkey, hk, hc, hc', hder, htop⟩ :=
      exists_of_recordArguments (p := { p with rest }) hinner hd hargs
    refine ⟨_, top, ?_, .record hn ho hkey hk hc hder hc', htop⟩
    dsimp only at hrest
    rw [hp, hrest]
    simp
  · exact hwiden h
  · split at h
    · cases h
    · exact hwiden h

/-! ## Parts -/

theorem took_arguments {p q : Parser} {opening : Token} {rest : List Token} {es : List TypeExpr}
    (hd : p.depth ≤ maxNesting) (hp : p.rest = opening :: rest) (h : arguments inner p = .ok es q) :
    ∃ us closing top, rest = us ++ closing :: q.rest ∧ closing.kind = .punct .closeAngle ∧
      Derives p.source anyWidens (.several .union) (p.depth + 1) us es top ∧ top ≤ maxNesting := by
  rw [arguments, bind_of_ok (advance_head hp)] at h
  obtain ⟨first, r, hfirst, h⟩ := bind_eq_ok h
  obtain ⟨n, r', hn, h⟩ := bind_eq_ok h
  obtain ⟨-, rfl⟩ := remaining_eq_ok hn
  obtain ⟨others, s, hothers, h⟩ := bind_eq_ok h
  obtain ⟨_, s', hclose, h⟩ := bind_eq_ok h
  obtain ⟨closing, rest', hr, hc, rfl⟩ := expect_eq_ok hclose
  obtain ⟨rfl, rfl⟩ := pure_eq_ok h
  have hp' : Parser.depth { p with rest } ≤ maxNesting := hd
  obtain ⟨us, top, hus, hder, htop⟩ :=
    took_more hinner hp' (hinner.steady.of_ok hfirst) (hinner.took hp' hfirst) hothers
  exact ⟨us, closing, top, by rw [← hr]; exact hus, hc, hder, htop⟩

/-- What is read behind the first identifier of a name makes up a part with it. -/
theorem took_named {p q : Parser} {t : Token} {first : String} {rest : List Token} {e : TypeExpr}
    (hd : p.depth ≤ maxNesting) (hp : p.rest = t :: rest) (ht : t.kind = .ident first)
    (h : named inner first { p with rest } = .ok e q) : Took .primary p q [e] := by
  obtain ⟨n, r, hn, h⟩ := bind_eq_ok h
  obtain ⟨-, rfl⟩ := remaining_eq_ok hn
  obtain ⟨name, r, hname, h⟩ := bind_eq_ok h
  obtain ⟨ts, hts, htail⟩ := nameTail_of_dotted hname
  have hkeep : Keeps p r := (keeps_rest p rest).trans ((steady_dotted first _).of_ok hname)
  have hnames : Names (t :: ts) name := ⟨t, ts, first, rfl, ht, htail⟩
  have hrest : p.rest = t :: ts ++ r.rest := by
    dsimp only at hts
    rw [hp, hts, List.cons_append]
  have hd' : r.depth ≤ maxNesting := by rwa [hkeep.depth]
  obtain ⟨kind, r', hk, h'⟩ := bind_eq_ok h
  obtain ⟨hkind, rfl⟩ := peek_eq_ok hk
  split at h'
  · rename_i hopen
    obtain ⟨opening, rest', hr, ho⟩ := rest_of_current (hkind.trans hopen) (by simp)
    split at h'
    · rename_i hrecord
      subst hrecord
      obtain ⟨us, top, hus, hder, htop⟩ := exists_of_record hinner hd' hr ho h' hnames
      rw [hkeep.source, hkeep.depth] at hder
      exact ⟨us, top, hrest.trans hus, hder, htop⟩
    · rename_i hrecord
      obtain ⟨es, r', hargs, h'⟩ := bind_eq_ok h'
      obtain ⟨rfl, rfl⟩ := pure_eq_ok h'
      obtain ⟨us, closing, top, hus, hc, hder, htop⟩ := took_arguments hinner hd' hr hargs
      rw [hkeep.source, hkeep.depth] at hder
      refine ⟨_, top, ?_, .applied hnames hrecord ho hder hc, htop⟩
      rw [hrest, hr, hus]
      simp
  · obtain ⟨rfl, rfl⟩ := pure_eq_ok h'
    exact ⟨t :: ts, p.depth, hrest, .plain hnames, hd⟩

theorem sound_primary : Sound .primary (primary inner) := by
  refine ⟨steady_primary hinner.steady, fun {p q e} hd h => ?_⟩
  obtain ⟨kind, r, hk, h⟩ := bind_eq_ok h
  obtain ⟨hkind, rfl⟩ := peek_eq_ok hk
  split at h
  · obtain ⟨opening, rest, hr, ho⟩ := rest_of_current hkind (by simp)
    rw [bind_of_ok (advance_head hr)] at h
    obtain ⟨e', r, he, h⟩ := bind_eq_ok h
    obtain ⟨_, r', hclose, h⟩ := bind_eq_ok h
    obtain ⟨closing, rest', hr', hc, rfl⟩ := expect_eq_ok hclose
    obtain ⟨rfl, rfl⟩ := pure_eq_ok h
    obtain ⟨ts, top, hts, hder, htop⟩ := hinner.took (p := { p with rest }) hd he
    refine ⟨_, top, ?_, .group ho hder hc, htop⟩
    dsimp only at hts
    rw [hr, hts, hr']
    simp
  · obtain ⟨t, rest, hr, ht⟩ := rest_of_current hkind (by simp)
    rw [bind_of_ok (advance_head hr)] at h
    obtain ⟨rfl, rfl⟩ := pure_eq_ok h
    exact ⟨[t], p.depth, hr, .literal ht, hd⟩
  · obtain ⟨t, rest, hr, ht⟩ := rest_of_current hkind (by simp)
    rw [bind_of_ok (advance_head hr)] at h
    exact took_named hinner hd hr ht h
  · cases h
  · cases h
  · cases h

theorem sound_suffixed : Sound .suffixed (suffixed inner) := by
  have hprimary := sound_primary hinner
  refine ⟨steady_suffixed hinner.steady, fun {p q e} hd h => ?_⟩
  obtain ⟨core, r, hcore, h⟩ := bind_eq_ok h
  obtain ⟨s, hs, rfl⟩ := onLevel_eq_ok h
  obtain ⟨n, r', hn, hs⟩ := bind_eq_ok hs
  obtain ⟨-, rfl⟩ := remaining_eq_ok hn
  have hkeep := hprimary.steady.of_ok hcore
  obtain ⟨ts, top, hts, hder, htop⟩ := hprimary.took hd hcore
  obtain ⟨k, us, hus, hk, rfl, hlt⟩ := brackets_of_suffixes (by rwa [hkeep.depth]) hs
  rw [hkeep.depth] at hlt
  refine ⟨ts ++ us, _, ?_, .suffixed hder hk, ?_⟩
  · rw [hts, hus, List.append_assoc]
  · simp only [Category.level]
    omega

theorem took_branches {p q : Parser} {e : TypeExpr} (hd : p.depth ≤ maxNesting)
    (h : branches inner p = .ok e q) :
    ∃ ts top, p.rest = ts ++ q.rest ∧ Derives p.source anyWidens .union p.depth ts [e] top ∧ top ≤ maxNesting := by
  have hsuffixed := sound_suffixed hinner
  obtain ⟨b, r, hb, h⟩ := bind_eq_ok h
  obtain ⟨first, s, hfirst, h⟩ := bind_eq_ok h
  obtain ⟨n, s', hn, h⟩ := bind_eq_ok h
  obtain ⟨-, rfl⟩ := remaining_eq_ok hn
  obtain ⟨others, s', hothers, h⟩ := bind_eq_ok h
  have hjoined : joined (first :: others) = e ∧ s' = q := by
    split at h
    · exact pure_eq_ok h
    · rename_i hne
      obtain ⟨rfl, rfl⟩ := pure_eq_ok h
      refine ⟨?_, rfl⟩
      cases others with
      | nil => exact absurd rfl hne
      | cons f fs => rfl
  obtain ⟨rfl, rfl⟩ := hjoined
  have hkeep : Keeps p r := (steady_eat .pipe).of_ok hb
  have hd' : r.depth ≤ maxNesting := by rwa [hkeep.depth]
  obtain ⟨ts, top, hts, hder, htop⟩ :=
    took_more hsuffixed hd' (hsuffixed.steady.of_ok hfirst) (hsuffixed.took hd' hfirst) hothers
  rw [hkeep.source] at hder
  simp only [Category.level, hkeep.depth] at hder
  rcases eat_eq_ok hb with ⟨rfl, bar, rest, hr, hbar, rfl⟩ | ⟨rfl, rfl⟩
  · refine ⟨bar :: ts, top, ?_, .barred hbar hder, htop⟩
    dsimp only at hts
    rw [hr, hts, List.cons_append]
  · exact ⟨ts, top, hts, .union hder, htop⟩

end Readers

/-- **The reader of unions is sound**, whatever number of levels is left. -/
theorem sound_union (n : Nat) : Sound .union (union n) := by
  induction n with
  | zero => exact ⟨steady_union 0, fun _ h => by cases h⟩
  | succ n ih =>
    refine ⟨steady_union (n + 1), fun {p q e} _ h => ?_⟩
    obtain ⟨r, hr, rfl⟩ := onLevel_eq_ok h
    obtain ⟨_, r', hent, hr⟩ := bind_eq_ok hr
    obtain ⟨hlt, rfl⟩ := enter_eq_ok hent
    exact took_branches ih hlt hr

/-! ## Whole texts -/

theorem rest_eq_nil_of_eof {p : Parser} (h : p.current.kind = .eof) (hp : ∀ t ∈ p.rest, t.kind ≠ .eof) :
    p.rest = [] := by
  cases hr : p.rest with
  | nil => rfl
  | cons t rest =>
    rw [current_of_rest hr] at h
    exact absurd h (hp t (by simp [hr]))

theorem kind_ne_eof_of_mem_ofText {source : String} {t : Token} (h : t ∈ (ofText source).rest) : t.kind ≠ .eof :=
  (Lexer.reads_tokenize source).kind_ne_eof t (List.mem_filter.1 h).1

end Parser

/-- What the parser accepts is a union up to the end, its question mark apart. -/
theorem TypeExpr.exists_union_of_parse {source : String} {e : TypeExpr} (h : TypeExpr.parse source = .ok e) :
    ∃ f r, Parser.union maxNesting (Parser.ofText source) = .ok f r ∧ ((r.rest = [] ∧ e = f) ∨
      ∃ question, r.rest = [question] ∧ question.kind = .punct .question ∧ e = .optional f) := by
  unfold TypeExpr.parse Parser.run at h
  split at h
  · rename_i e' q htype
    cases h
    obtain ⟨f, r, hunion, h⟩ := Parser.bind_eq_ok htype
    obtain ⟨ts, -, hts, -, -⟩ := (Parser.sound_union maxNesting).took (Nat.zero_le _) hunion
    obtain ⟨b, r', hb, h⟩ := Parser.bind_eq_ok h
    obtain ⟨kind, r'', hk, h⟩ := Parser.bind_eq_ok h
    obtain ⟨hkind, rfl⟩ := Parser.peek_eq_ok hk
    have hsuffix : r'.rest <:+ (Parser.ofText source).rest := by
      rw [hts]
      rcases Parser.eat_eq_ok hb with ⟨-, t, rest, hr, -, rfl⟩ | ⟨-, rfl⟩
      · exact ⟨ts ++ [t], by simp [hr]⟩
      · exact List.suffix_append _ _
    split at h
    · obtain ⟨rfl, rfl⟩ := Parser.pure_eq_ok h
      have hnil := Parser.rest_eq_nil_of_eof hkind fun t ht =>
        Parser.kind_ne_eof_of_mem_ofText (hsuffix.subset ht)
      rcases Parser.eat_eq_ok hb with ⟨rfl, question, rest, hr, hq, rfl⟩ | ⟨rfl, rfl⟩
      · dsimp only at hnil
        subst hnil
        exact ⟨f, r, hunion, .inr ⟨question, hr, hq, rfl⟩⟩
      · exact ⟨f, r', hunion, .inl ⟨hnil, rfl⟩⟩
    · cases h
  · cases h

/-- **What the parser accepts is derived**, from all tokens of the text that are no comments and within the nesting
limit. -/
theorem TypeExpr.derives_of_parse {source : String} {e : TypeExpr} (h : TypeExpr.parse source = .ok e) :
    ∃ top, Parser.DerivesType source Parser.anyWidens (Parser.ofText source).rest e top ∧ top ≤ maxNesting := by
  obtain ⟨f, r, hunion, hend⟩ := exists_union_of_parse h
  obtain ⟨ts, top, hts, hder, htop⟩ := (Parser.sound_union maxNesting).took (Nat.zero_le _) hunion
  rcases hend with ⟨hnil, rfl⟩ | ⟨question, hr, hq, rfl⟩
  · exact ⟨top, by rw [hts, hnil, List.append_nil]; exact .bare hder, htop⟩
  · exact ⟨top, by rw [hts, hr]; exact .optional hder hq, htop⟩

end TypeSchema
