import TypeSchema.Proofs.TypeExpr.Enclosed
import TypeSchema.Proofs.TypeExpr.Language

/-!
# Records at the end of a text

A record whose arguments fail at the end of a text may be read after all if more text follows, and then the text is not
read as it is read on its own.  Nothing of the sort happens if no angle follows, or if no record is given up at the end
of the text (`isContained`).  With this (`Guarded`), a union inside of more text is read as on its own, or fails for
depth (`simulates_union`), by induction on the levels left.
-/

namespace TypeSchema

namespace Parser

variable {α : Type} {s : String} {k : Nat} {F : List Token}

/-! ## Records that are given up -/

/-- What stands behind `Record <`, if the tokens start so. -/
def behindRecord? : List Token → Option (List Token)
  | name :: opening :: rest =>
    if name.kind = .ident "Record" ∧ opening.kind = .punct .openAngle then some rest else none
  | _ => none

/-- What stands behind every `Record <` of these tokens. -/
def recordStarts (ts : List Token) : List (List Token) := ts.tails.filterMap behindRecord?

theorem mem_recordStarts_iff {ts rest : List Token} : rest ∈ recordStarts ts ↔ ∃ name opening,
    name :: opening :: rest <:+ ts ∧ name.kind = .ident "Record" ∧ opening.kind = .punct .openAngle := by
  rw [recordStarts, List.mem_filterMap]
  constructor
  · rintro ⟨us, hus, hrest⟩
    rw [List.mem_tails] at hus
    unfold behindRecord? at hrest
    split at hrest
    · obtain ⟨⟨hname, ho⟩, hrest⟩ := Option.ite_none_right_eq_some.1 hrest
      obtain rfl := Option.some.inj hrest
      exact ⟨_, _, hus, hname, ho⟩
    · cases hrest
  · rintro ⟨name, opening, hsuffix, hname, ho⟩
    exact ⟨_, (List.mem_tails _ _).2 hsuffix, if_pos ⟨hname, ho⟩⟩

/-- Whether what was tried failed at the end of the text, for something that is missing there. -/
def givesUpAtEnd : EStateM.Result ParseFailure Parser α → Bool
  | .ok .. => false
  | .error e q => e.fault ≠ .tooDeep && q.rest.isEmpty

/-- Whether no record of the text is given up at the end of the text. -/
def isContained (source : String) : Bool :=
  (recordStarts (ofText source).rest).all fun rest =>
    !givesUpAtEnd (recordArguments (union maxNesting) { ofText source with rest })

variable (s k F) in
/-- Why a record that the first parser gives up at the end of its text is given up by the second one, too: nothing
follows, or no angle, or there is no such record. -/
def Guarded (d : Nat) (inner : Step TypeExpr) : Prop :=
  F = [] ∨ (0 < k ∧ ∀ t ∈ F, t.kind ≠ .punct .closeAngle) ∨
    ∀ rest ∈ recordStarts (ofText s).rest,
      givesUpAtEnd (recordArguments inner { ofText s with rest, depth := d }) = false

variable (s k F) in
/-- What the readers of the two parsers need to know of the readers of the unions inside. -/
structure Paired (d : Nat) (x y : Step TypeExpr) : Prop where
  tidy : Tidy x
  tidy' : Tidy y
  steady : Steady x
  steady' : Steady y
  simulates : Simulates s k F d x y
  guarded : Guarded s k F d x

section Angles

variable {inner : Step TypeExpr} (hinner : Tidy inner) {p q : Parser} {text : String} {value : TypeExpr}

include hinner

/-- A record that is read ends with an angle. -/
theorem exists_closing_of_recordArguments (h : recordArguments inner p = .ok (some (text, value)) q) :
    ∃ closing, closing.kind = .punct .closeAngle ∧ closing :: q.rest <:+ p.rest := by
  rcases recordArguments_cases inner p with hnone | ⟨key, rest, text', hsplit, htext⟩
  · rw [hnone] at h
    cases h
  · rw [recordArguments_some hsplit htext] at h
    obtain ⟨_, q₁, hcomma, h⟩ := bind_eq_ok h
    obtain ⟨value', q₂, hvalue, h⟩ := bind_eq_ok h
    obtain ⟨_, q₃, hclosing, h⟩ := bind_eq_ok h
    obtain ⟨closing, after, hafter, hk, rfl⟩ := expect_eq_ok hclosing
    obtain ⟨-, rfl⟩ := pure_eq_ok h
    refine ⟨closing, hk, ?_⟩
    obtain ⟨hp, -⟩ := key_of_splitKey? hsplit
    have hsuffix : q₂.rest <:+ rest := (hinner.of_ok hvalue).1.trans ((tidy_expect _).of_ok hcomma).1
    rw [hafter] at hsuffix
    exact hsuffix.trans ⟨key, hp.symm⟩

/-- A record does not end in what follows its text, if there is no angle. -/
theorem recordArguments_ne_some (hp : F <:+ p.rest) (hF : F ≠ []) (hangles : ∀ t ∈ F, t.kind ≠ .punct .closeAngle)
    (hq : q.rest <:+ F.tail) : recordArguments inner p ≠ .ok (some (text, value)) q := by
  intro h
  obtain ⟨closing, hclosing, hsuffix⟩ := exists_closing_of_recordArguments hinner h
  have hlen := hq.length_le
  have hpos := List.length_pos_iff.2 hF
  rw [List.length_tail] at hlen
  have hsuffix' : closing :: q.rest <:+ F :=
    List.suffix_of_suffix_length_le hsuffix hp (by rw [List.length_cons]; omega)
  exact hangles closing (hsuffix'.subset List.mem_cons_self) hclosing

end Angles

section Readers

variable (hF : Closing F) {d : Nat} {x y : Step TypeExpr} (h : Paired s k F d x y) {p q : Parser}

include hF h

theorem follows_recordArguments (hd : p.depth = d) (hpq : Ahead s k F p q) :
    Follows s k F (recordArguments x p) (recordArguments y q) := by
  obtain ⟨us, hq, hmirror⟩ := hpq.tokens
  cases hsplit : splitKey? 0 p.rest with
  | none =>
    have hsplit' : splitKey? 0 q.rest = none := by
      rw [hq]
      refine splitKey?_append_eq_none ?_ hF.noComma
      rcases splitKey?_congr hmirror.kinds 0 with ⟨-, hnone⟩ | ⟨key, rest, -, -, hsome, -⟩
      · exact hnone
      · rw [hsplit] at hsome
        cases hsome
    rw [recordArguments_none hsplit, recordArguments_none hsplit']
    exact .same hpq
  | some split =>
    obtain ⟨key, rest⟩ := split
    obtain ⟨hrest, hkey, comma, ts, rfl, hcomma⟩ := key_of_splitKey? hsplit
    rw [hrest] at hmirror
    obtain ⟨key', rest', rfl, hkinds, htexts, hmirror'⟩ := hmirror.split
    obtain ⟨comma', ts', rfl, hk, -⟩ := hmirror'.cons
    have hkey' : isKey 0 key' = true := isKey_congr (shapes_of_kinds hkinds) 0 ▸ hkey
    have hsplit' : splitKey? 0 q.rest = some (key', comma' :: ts' ++ F) := by
      rw [hq, List.append_assoc]
      exact splitKey?_key hkey' (hk.trans hcomma) (ts' ++ F)
    cases htext : keyText? s key with
    | none =>
      rw [recordArguments_textless hsplit (hpq.source ▸ htext), recordArguments_textless hsplit' (htexts ▸ htext)]
      exact .same hpq
    | some text =>
      rw [recordArguments_some hsplit (hpq.source ▸ htext), recordArguments_some hsplit' (htexts ▸ htext)]
      have hrest' := hpq.goOn ⟨key, hrest.symm⟩ hmirror'
      refine (follows_expect hrest' .comma).bind
        (fun _ => h.tidy'.bind fun _ => (tidy_expect _).bind fun _ => tidy_pure _) fun _ p₁ q₁ hcomma _ hpq₁ => ?_
      have hd₁ : p₁.depth = d := ((steady_expect _).of_ok hcomma).depth.trans hd
      refine (h.simulates p₁ q₁ hd₁ hpq₁).bind (fun _ => (tidy_expect _).bind fun _ => tidy_pure _)
        fun value p₂ q₂ _ _ hpq₂ => ?_
      exact (follows_expect hpq₂ .closeAngle).bind (fun _ => tidy_pure _) fun _ p₃ q₃ _ _ hpq₃ => .same hpq₃

/-- The arguments of a record, from its angle on. -/
theorem follows_record {opening opening' : Token} {ts us : List Token} (hp : p.rest = opening :: ts)
    (hq : q.rest = opening' :: us) (hd : p.depth = d) (hpq : Ahead s k F p q)
    (hrest : Ahead s k F { p with rest := ts } { q with rest := us }) (hstart : ts ∈ recordStarts (ofText s).rest) :
    Follows s k F (record x p) (record y q) := by
  have hattempt : (do advance; recordArguments x : Step (Option (String × TypeExpr))) p =
      recordArguments x { p with rest := ts } := bind_of_ok (advance_head hp) _
  have hattempt' : (do advance; recordArguments y : Step (Option (String × TypeExpr))) q =
      recordArguments y { q with rest := us } := bind_of_ok (advance_head hq) _
  have hwiden {r r' : Parser} (hr : recordArguments x { p with rest := ts } = .ok none r ∨
        ∃ e, recordArguments x { p with rest := ts } = .error e r ∧ e.fault ≠ .tooDeep)
      (hr' : recordArguments y { q with rest := us } = .ok none r' ∨
        ∃ e, recordArguments y { q with rest := us } = .error e r' ∧ e.fault ≠ .tooDeep) :
      Follows s k F (record x p) (record y q) := by
    rw [record_of_attempt h.tidy h.steady hpq.unmarked (hattempt ▸ hr),
      record_of_attempt h.tidy' h.steady' hpq.right (hattempt' ▸ hr')]
    exact follows_widen hpq
  have hfollows := follows_recordArguments hF h (p := { p with rest := ts }) hd hrest
  generalize hx : recordArguments x { p with rest := ts } = r at hfollows hwiden hattempt
  generalize hy : recordArguments y { q with rest := us } = r' at hfollows hwiden hattempt'
  cases hfollows with
  | @same arguments r r' hr =>
    cases arguments with
    | none => exact hwiden (.inl rfl) (.inl rfl)
    | some argument =>
      obtain ⟨text, value⟩ := argument
      rw [record_of_some hattempt, record_of_some hattempt']
      exact .same hr
  | fail he hf hr => exact hwiden (.inr ⟨_, rfl, he⟩) (.inr ⟨_, rfl, hf⟩)
  | deep he hf =>
    rw [record_of_deep h.tidy hattempt he, record_of_deep h.tidy' hattempt' hf]
    exact .deep he hf
  | deeper hk hf =>
    rw [record_of_deep h.tidy' hattempt' hf]
    exact .deeper hk hf
  | @ended e r r' hne he hr hr' =>
    rcases h.guarded with hnil | ⟨hk, hangles⟩ | hnever
    · exact absurd hnil hne
    · -- the second parser does not find the angle behind the end of the first text
      cases r' with
      | error f r' =>
        by_cases hf : f.fault = .tooDeep
        · rw [record_of_deep h.tidy' hattempt' hf]
          exact .deeper hk hf
        · exact hwiden (.inr ⟨_, rfl, he⟩) (.inr ⟨_, rfl, hf⟩)
      | ok arguments r' =>
        cases arguments with
        | none => exact hwiden (.inr ⟨_, rfl, he⟩) (.inl rfl)
        | some argument =>
          obtain ⟨text, value⟩ := argument
          obtain ⟨vs, hvs, -⟩ := hrest.tokens
          exact absurd hy (recordArguments_ne_some h.tidy' ⟨vs, hvs.symm⟩ hne hangles (hr' _ _ rfl))
    · have hgives := hnever ts hstart
      have hleft : { p with rest := ts } = { ofText s with rest := ts, depth := d } := by
        rw [hrest.left, hd]
      rw [← hleft, hx, givesUpAtEnd, hr] at hgives
      simp [he] at hgives

/-! ## Readers -/

theorem follows_arguments {opening opening' : Token} {ts us : List Token} (hp : p.rest = opening :: ts)
    (hq : q.rest = opening' :: us) (hd : p.depth = d)
    (hrest : Ahead s k F { p with rest := ts } { q with rest := us }) :
    Follows s k F (arguments x p) (arguments y q) := by
  rw [arguments, arguments, bind_of_ok (advance_head hp), bind_of_ok (advance_head hq)]
  refine (h.simulates { p with rest := ts } { q with rest := us } hd hrest).bind
    (fun _ => tidy_remaining.bind fun n => (tidy_more .comma h.tidy' n).bind fun _ => (tidy_expect _).bind fun _ =>
      tidy_pure _) fun first p₁ q₁ hfirst _ hpq₁ => ?_
  have hn (r : Parser) : remaining r = .ok r.rest.length r := rfl
  have hd₁ : p₁.depth = d := (h.steady.of_ok hfirst).depth.trans hd
  rw [bind_of_ok (hn p₁), bind_of_ok (hn q₁)]
  refine (follows_more hF (by simp) (by simp) h.steady h.tidy h.tidy' h.simulates hd₁ hpq₁ (Nat.le_refl _)
    (Nat.le_refl _)).bind (fun _ => (tidy_expect _).bind fun _ => tidy_pure _) fun others p₂ q₂ _ _ hpq₂ => ?_
  exact (follows_expect hpq₂ .closeAngle).bind (fun _ => tidy_pure _) fun _ p₃ q₃ _ _ hpq₃ => .same hpq₃

theorem follows_named {t : Token} {ts us : List Token} {first : String} (hp : p.rest = t :: ts)
    (ht : t.kind = .ident first) (hd : p.depth = d) (hpq : Ahead s k F p q)
    (hrest : Ahead s k F { p with rest := ts } { q with rest := us }) :
    Follows s k F (named x first { p with rest := ts }) (named y first { q with rest := us }) := by
  have hn (r : Parser) : remaining r = .ok r.rest.length r := rfl
  have hk (r : Parser) : peek r = .ok r.current.kind r := rfl
  rw [named, named, bind_of_ok (hn _), bind_of_ok (hn _)]
  refine (follows_dotted hF first hrest (Nat.le_refl _) (Nat.le_refl _)).bind
    (fun name => tidy_peek.bind fun kind => tidy_ite (tidy_ite (tidy_record h.tidy')
      ((tidy_arguments h.tidy').bind fun _ => tidy_pure _)) (tidy_pure _)) fun name p₁ q₁ hname _ hpq₁ => ?_
  have hd₁ : p₁.depth = d := ((steady_dotted first _).of_ok hname).depth.trans hd
  rw [bind_of_ok (hk p₁), bind_of_ok (hk q₁)]
  rcases hpq₁.head with ⟨hp₁, hq₁⟩ | ⟨opening, ts₁, opening', us₁, hp₁, hq₁, hkind, hrest₁⟩
  · obtain ⟨hleft, hright⟩ := hF.ne_of_nil hp₁ hq₁ (x := .openAngle) (by simp) (by simp)
    rw [if_neg hleft, if_neg hright]
    exact .same hpq₁
  · rw [current_of_rest hp₁, current_of_rest hq₁, hkind]
    by_cases ho : opening.kind = .punct .openAngle
    · rw [if_pos ho, if_pos ho]
      by_cases hrecord : name = "Record"
      · rw [if_pos hrecord, if_pos hrecord]
        refine follows_record hF h hp₁ hq₁ hd₁ hpq₁ hrest₁ ?_
        -- the name is the identifier right before the angle
        obtain ⟨names, hnames, htail⟩ := nameTail_of_dotted hname
        rcases htail.eq_or_dot_mem with ⟨rfl, rfl⟩ | hdot
        · refine mem_recordStarts_iff.2 ⟨t, opening, ?_, hrecord ▸ ht, ho⟩
          have hts : ts = opening :: ts₁ := by rw [← hp₁]; exact hnames
          rw [← hts, ← hp]
          exact hpq.suffix
        · rw [hrecord] at hdot
          exact absurd hdot (by decide)
      · rw [if_neg hrecord, if_neg hrecord]
        exact (follows_arguments hF h hp₁ hq₁ hd₁ hrest₁).bind (fun _ => tidy_pure _) fun _ _ _ _ _ hpq₂ => .same hpq₂
    · rw [if_neg ho, if_neg ho]
      exact .same hpq₁

theorem follows_primary (hd : p.depth = d) (hpq : Ahead s k F p q) :
    Follows s k F (primary x p) (primary y q) := by
  have hk (r : Parser) : peek r = .ok r.current.kind r := rfl
  rw [primary, primary, bind_of_ok (hk p), bind_of_ok (hk q)]
  rcases hpq.head with ⟨hp, hq⟩ | ⟨t, ts, u, us, hp, hq, hkind, hrest⟩
  · -- the second parser stands before what closes
    have hend : p.current.kind = .eof := by rw [Parser.current, hp]; rfl
    rw [hend]
    rcases hF.current hq with hclosing | hclosing | hclosing <;> rw [hclosing]
    all_goals exact follows_fail hpq (by simp) (by simp)
  · obtain ⟨kind, ht⟩ : ∃ kind, t.kind = kind := ⟨_, rfl⟩
    rw [current_of_rest hp, current_of_rest hq, hkind, ht]
    split
    · rw [bind_of_ok (advance_head hp), bind_of_ok (advance_head hq)]
      refine (h.simulates { p with rest := ts } { q with rest := us } hd hrest).bind
        (fun _ => (tidy_expect _).bind fun _ => tidy_pure _) fun e p₁ q₁ _ _ hpq₁ => ?_
      exact (follows_expect hpq₁ .closeParen).bind (fun _ => tidy_pure _) fun _ _ _ _ _ hpq₂ => .same hpq₂
    · rw [bind_of_ok (advance_head hp), bind_of_ok (advance_head hq)]
      exact .same hrest
    · rw [bind_of_ok (advance_head hp), bind_of_ok (advance_head hq)]
      exact follows_named hF h hp ht hd hpq hrest
    · exact follows_fail hpq (by simp) (by simp)
    · exact follows_fail hpq (by simp) (by simp)
    · exact follows_fail hpq (by simp) (by simp)

theorem simulates_suffixed : Simulates s k F d (suffixed x) (suffixed y) := by
  intro p q hd hpq
  refine (follows_primary hF h hd hpq).bind
    (fun e => tidy_onLevel (tidy_remaining.bind fun n => tidy_suffixes e n)) fun e p₁ q₁ _ _ hpq₁ => ?_
  have hn (r : Parser) : remaining r = .ok r.rest.length r := rfl
  refine .onLevel hpq₁ ?_
  rw [bind_of_ok (hn p₁), bind_of_ok (hn q₁)]
  exact follows_suffixes hF e hpq₁ (Nat.le_refl _) (Nat.le_refl _)

theorem follows_branches (hd : p.depth = d) (hpq : Ahead s k F p q) :
    Follows s k F (branches x p) (branches y q) := by
  have hn (r : Parser) : remaining r = .ok r.rest.length r := rfl
  have hsteady := steady_suffixed h.steady
  have htidy := tidy_suffixed h.tidy
  have htidy' := tidy_suffixed h.tidy'
  have hmore (first : TypeExpr) : Tidy (do
      let others ← more .pipe (suffixed y) (← remaining)
      return joined (first :: others) : Step TypeExpr) :=
    tidy_remaining.bind fun n => (tidy_more .pipe htidy' n).bind fun _ => tidy_pure _
  rw [branches_eq_joined, branches_eq_joined]
  refine (follows_eat hpq (hF.notNext (by simp) (by simp))).bind (fun _ => htidy'.bind hmore)
    fun _ p₁ q₁ hbar _ hpq₁ => ?_
  have hd₁ : p₁.depth = d := ((steady_eat _).of_ok hbar).depth.trans hd
  refine (simulates_suffixed hF h p₁ q₁ hd₁ hpq₁).bind hmore fun first p₂ q₂ hfirst _ hpq₂ => ?_
  have hd₂ : p₂.depth = d := (hsteady.of_ok hfirst).depth.trans hd₁
  rw [bind_of_ok (hn p₂), bind_of_ok (hn q₂)]
  exact (follows_more hF (by simp) (by simp) hsteady htidy htidy' (simulates_suffixed hF h) hd₂ hpq₂ (Nat.le_refl _)
    (Nat.le_refl _)).bind (fun _ => tidy_pure _) fun others p₃ q₃ _ _ hpq₃ => .same hpq₃

end Readers

/-- **A union is read inside of more text as it is read on its own**, or else fails for depth, provided that what is
given up at the end of its own text is given up there, too. -/
theorem simulates_union (hF : Closing F) (hguard : ∀ n d, d + n = maxNesting → Guarded s k F d (union n)) {n d : Nat}
    (hd : d + n = maxNesting) : Simulates s k F d (union n) (union (n - k)) := by
  induction n generalizing d with
  | zero =>
    intro p q hp hpq
    rw [Nat.zero_sub]
    exact .deep rfl rfl
  | succ n ih =>
    intro p q hp hpq
    have hpaired : Paired s k F (d + 1) (union n) (union (n - k)) :=
      ⟨tidy_union n, tidy_union _, steady_union n, steady_union _, ih (by omega), hguard n (d + 1) (by omega)⟩
    by_cases hk : k ≤ n
    · rw [Nat.succ_sub hk]
      refine .onLevel hpq ?_
      refine (follows_enter hpq).bind (fun _ => tidy_branches (tidy_union _)) fun _ p₁ q₁ hp₁ _ hpq₁ => ?_
      obtain ⟨-, rfl⟩ := enter_eq_ok hp₁
      exact follows_branches hF hpaired (congrArg (· + 1) hp) hpq₁
    · -- there is no level left for the second parser
      rw [show n + 1 - k = 0 by omega]
      exact .deeper (by omega) rfl

/-! ## Records that are given up nowhere -/

theorem closing_nil : Closing [] := ⟨by simp, by simp⟩

/-- Whether a record is given up at the end of the text does not depend on the level. -/
theorem guarded_of_isContained (h : isContained s = true) (k : Nat) (F : List Token) {n d : Nat}
    (hd : d + n = maxNesting) : Guarded s k F d (union n) := by
  refine .inr (.inr fun rest hrest => ?_)
  have hfirst : givesUpAtEnd (recordArguments (union maxNesting) { ofText s with rest }) = false := by
    simpa using List.all_eq_true.1 h rest hrest
  -- the same tokens, read on the first level and on this one
  have hsimulates : Simulates s d [] 0 (union maxNesting) (union n) := by
    have hsub : maxNesting - d = n := by omega
    exact hsub ▸ simulates_union closing_nil (fun _ _ _ => .inl rfl) (by omega)
  have hpaired : Paired s d [] 0 (union maxNesting) (union n) :=
    ⟨tidy_union _, tidy_union _, steady_union _, steady_union _, hsimulates, .inl rfl⟩
  obtain ⟨name, opening, hsuffix, -⟩ := mem_recordStarts_iff.1 hrest
  have hahead : Ahead s d [] { ofText s with rest } { ofText s with rest, depth := d } :=
    ⟨rfl, .trans ⟨[name, opening], rfl⟩ hsuffix, ⟨rest, by simp, .refl s rest⟩, (Nat.zero_add d).symm, rfl⟩
  have hfollows := follows_recordArguments closing_nil hpaired rfl hahead
  cases hr : recordArguments (union n) { ofText s with rest, depth := d } with
  | ok => rfl
  | error f q =>
    rw [hr] at hfollows
    generalize recordArguments (union maxNesting) { ofText s with rest } = r at hfollows hfirst
    cases hfollows with
    | @fail e _ p _ he hf hpq =>
      obtain ⟨us, hus, hmirror⟩ := hpq.tokens
      simp only [givesUpAtEnd, he, ne_eq, not_false_eq_true, decide_true, Bool.true_and] at hfirst
      rw [List.append_nil] at hus
      have hempty := congrArg List.isEmpty hmirror.kinds
      rw [List.isEmpty_map, List.isEmpty_map] at hempty
      rw [givesUpAtEnd, hus, ← hempty, hfirst, Bool.and_false]
    | deep _ hf | deeper _ hf => simp [givesUpAtEnd, hf]
    | ended hne => exact absurd rfl hne

end Parser

end TypeSchema
