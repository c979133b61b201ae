import Mathlib
import TypeSchema.Proofs.TypeExpr.Calls

/-!
# Records of anything

Arguments of a record that are no key and value widen it to a record of anything, wherever in a text it is read
(`record_reads_or_widens`).  The key is a run of tokens in which all sorts of brackets are counted, whereas a record
that is given up ends at the angle that closes it if only angles are counted (`EndsAngles`).

* `afterAngles?_eq_some_iff`: where the parser goes on is such an end;
* `record_of_reads`, `record_of_not_reads`: the two ways in which a record is read within the nesting limit.
-/

namespace TypeSchema

namespace Parser

/-! ## Angles -/

/-- The first angle of `ts` that closes more groups than are opened before it, `depth` of them apart, stands right
before `after`. -/
def EndsAngles (depth : Nat) (ts after : List Token) : Prop :=
  ∃ inside closing, ts = inside ++ closing :: after ∧ closing.kind = .punct .closeAngle ∧
    (∀ us, us <+: inside → us.countP (·.isPunct .closeAngle) ≤ us.countP (·.isPunct .openAngle) + depth) ∧
    inside.countP (·.isPunct .closeAngle) = inside.countP (·.isPunct .openAngle) + depth

section Angles

variable {depth : Nat} {t : Token} {ts after : List Token}

theorem not_endsAngles_nil : ¬EndsAngles depth [] after := by
  rintro ⟨inside, closing, h, -⟩
  simp at h

/-- A token that is not the end only changes the number of open groups. -/
theorem endsAngles_cons {depth' : Nat}
    (h : [t].countP (·.isPunct .openAngle) + depth = [t].countP (·.isPunct .closeAngle) + depth') :
    EndsAngles depth (t :: ts) after ↔ EndsAngles depth' ts after := by
  simp only [List.countP_singleton] at h
  constructor
  · rintro ⟨inside, closing, hts, hc, hprefix, hcount⟩
    cases inside with
    | nil =>
      obtain ⟨rfl, -⟩ := List.cons.inj hts
      simp [Token.isPunct, hc] at h hcount
      omega
    | cons u inside =>
      obtain ⟨rfl, rfl⟩ := List.cons.inj hts
      rw [List.countP_cons, List.countP_cons] at hcount
      refine ⟨inside, closing, rfl, hc, fun us hus => ?_, by omega⟩
      have hle := hprefix (t :: us) (List.cons_prefix_cons.2 ⟨rfl, hus⟩)
      rw [List.countP_cons, List.countP_cons] at hle
      omega
  · rintro ⟨inside, closing, rfl, hc, hprefix, hcount⟩
    refine ⟨t :: inside, closing, rfl, hc, fun us hus => ?_, ?_⟩
    · cases us with
      | nil => exact Nat.zero_le _
      | cons u us =>
        obtain ⟨rfl, hus'⟩ := List.cons_prefix_cons.1 hus
        have hle := hprefix us hus'
        rw [List.countP_cons, List.countP_cons]
        omega
    · rw [List.countP_cons, List.countP_cons]
      omega

theorem endsAngles_zero_cons (ht : t.kind = .punct .closeAngle) : EndsAngles 0 (t :: ts) after ↔ ts = after := by
  constructor
  · rintro ⟨inside, closing, hts, -, hprefix, -⟩
    cases inside with
    | nil => exact (List.cons.inj hts).2
    | cons u inside =>
      obtain ⟨rfl, -⟩ := List.cons.inj hts
      have hle := hprefix [t] (List.cons_prefix_cons.2 ⟨rfl, List.nil_prefix⟩)
      simp [Token.isPunct, ht] at hle
  · rintro rfl
    refine ⟨[], t, rfl, ht, fun us hus => ?_, rfl⟩
    rw [List.prefix_nil.1 hus]
    exact Nat.le_refl _

/-- **The parser goes on where the angles end.** -/
theorem afterAngles?_eq_some_iff : afterAngles? (depth + 1) ts = some after ↔ EndsAngles depth ts after := by
  induction ts generalizing depth with
  | nil => simp [afterAngles?, not_endsAngles_nil]
  | cons t ts ih =>
    by_cases ho : t.isPunct .openAngle = true
    · have hc : t.isPunct .closeAngle = false := by
        rw [Token.isPunct, beq_iff_eq] at ho
        simp [Token.isPunct, ho]
      rw [afterAngles?, if_pos ho, ih]
      exact (endsAngles_cons (by simp [ho, hc]; omega)).symm
    · by_cases hc : t.isPunct .closeAngle = true
      · rw [afterAngles?, if_neg ho, if_pos hc]
        cases depth with
        | zero =>
          rw [if_pos (Nat.le_refl 1), Option.some_inj]
          exact (endsAngles_zero_cons (by simpa [Token.isPunct] using hc)).symm
        | succ depth =>
          rw [if_neg (by omega), Nat.add_sub_cancel, ih]
          exact (endsAngles_cons (by simp [ho, hc]; omega)).symm
      · rw [afterAngles?, if_neg ho, if_neg hc, ih]
        exact (endsAngles_cons (by simp [ho, hc])).symm

end Angles

/-! ## Arguments of a record -/

/-- The tokens behind the angle are a run for a key, up to the first comma outside of brackets, that comma, and `us`. -/
def SplitsKey (ts key us : List Token) : Prop :=
  key ≠ [] ∧ isKey 0 key = true ∧ ∃ comma, comma.kind = .punct .comma ∧ ts = key ++ comma :: us

/-- The tokens `ts` behind the angle at `p` are a run for a key, a comma, a union, which is what the parser reads there,
and the closing angle, which `q` is behind. -/
def ReadsArguments (n : Nat) (p : Parser) (ts : List Token) (text : String) (value : TypeExpr) (q : Parser) : Prop :=
  ∃ key us vs closing top, ∃ hkey : SplitsKey ts key us,
    text = Text.collapse (((key.head hkey.1).span.upTo (key.getLast hkey.1).span).text p.source) ∧
    us = vs ++ closing :: q.rest ∧ Derives p.source anyWidens .union (p.depth + 1) vs [value] top ∧
    closing.kind = .punct .closeAngle ∧ q = { p with rest := q.rest } ∧
    union n { p with rest := us } = .ok value { p with rest := closing :: q.rest }

/-- The nesting limit is hit by the value of the arguments `ts` behind the angle at `p`. -/
def HitsLimit (n : Nat) (p : Parser) (ts : List Token) : Prop :=
  ∃ key us, SplitsKey ts key us ∧ FailsForDepth (union n) { p with rest := us }

section Records

variable {source : String} {n : Nat} {p q : Parser} {opening : Token} {ts key us : List Token}

theorem eq_of_keeps (h : Keeps p q) (hdeep : q.tooDeep = p.tooDeep) : q = { p with rest := q.rest } := by
  obtain ⟨⟨hsource, hstop⟩, hdepth⟩ := h
  cases q
  cases p
  simp_all

/-- What a union leaves behind where it is read. -/
theorem eq_of_union {e : TypeExpr} (h : union n p = .ok e q) : q = { p with rest := q.rest } :=
  eq_of_keeps ((steady_union n).of_ok h) ((tidy_union n).of_ok h).2

theorem keyText?_of_fresh (hp : Fresh source p) (hkey : key <:+: p.rest) (hne : key ≠ []) :
    keyText? p.source key = some (Text.collapse (((key.head hne).span.upTo (key.getLast hne).span).text p.source)) := by
  obtain ⟨text, htext⟩ := hp.exists_keyText hkey hne
  have heq := @keyText?_eq p.source key _ _ (List.head?_eq_some_head hne) (List.getLast?_eq_some_getLast hne)
  rw [htext] at heq ⊢
  dsimp only at heq
  split at heq
  · cases heq
  · exact heq

/-- With a key, what is tried is the value and the closing angle. -/
theorem attempt_of_splitsKey (hp : Fresh source p) (hrest : p.rest = opening :: ts) (h : SplitsKey ts key us)
    (inner : Step TypeExpr) :
    (do advance; recordArguments inner : Step (Option (String × TypeExpr))) p =
      (do
        let value ← inner
        expect .closeAngle
        return some (Text.collapse (((key.head h.1).span.upTo (key.getLast h.1).span).text p.source), value) : Step _)
        { p with rest := us } := by
  obtain ⟨hne, hkey, comma, hcomma, rfl⟩ := h
  have htext := keyText?_of_fresh hp ⟨[opening], comma :: us, by simp [hrest]⟩ hne
  have hsome := @recordArguments_some inner { p with rest := key ++ comma :: us } _ _ _
    (splitKey?_key hkey hcomma us) htext
  rw [bind_of_ok (advance_head hrest), hsome, bind_of_ok (expect_head rfl hcomma)]

/-- Without a key nothing is tried. -/
theorem attempt_of_not_splitsKey (hrest : p.rest = opening :: ts) (h : ∀ key us, ¬SplitsKey ts key us)
    (inner : Step TypeExpr) :
    (do advance; recordArguments inner : Step (Option (String × TypeExpr))) p = .ok none { p with rest := ts } := by
  rw [bind_of_ok (advance_head hrest)]
  rcases recordArguments_cases inner { p with rest := ts } with hnone | ⟨key, rest, text, hsplit, htext⟩
  · exact hnone
  · obtain ⟨hts, hkey, comma, us, rfl, hcomma⟩ := key_of_splitKey? hsplit
    have hne : key ≠ [] := by
      rintro rfl
      cases htext
    exact absurd ⟨hne, hkey, comma, hcomma, hts⟩ (h key us)

/-- What is given up, other than for depth, is passed over from where the parser stood. -/
theorem record_of_attempt {inner : Step TypeExpr} (htidy : Tidy inner) (hsteady : Steady inner)
    (hp : p.tooDeep = false)
    (h : (do advance; recordArguments inner : Step (Option (String × TypeExpr))) p = .ok none q ∨
      ∃ e, (do advance; recordArguments inner : Step (Option (String × TypeExpr))) p = .error e q ∧
        e.fault ≠ .tooDeep) :
    record inner p = (do skipAngles; return .anyRecord : Step TypeExpr) p := by
  have htidy' : Tidy (do advance; recordArguments inner : Step (Option (String × TypeExpr))) :=
    tidy_advance.bind fun _ => tidy_recordArguments htidy
  have hsteady' : Steady (do advance; recordArguments inner : Step (Option (String × TypeExpr))) :=
    steady_advance.bind fun _ => steady_recordArguments hsteady
  have hback (hq : Keeps p q) (hdeep : q.tooDeep = p.tooDeep) : { q with rest := p.rest } = p := by
    rw [eq_of_keeps hq hdeep]
  unfold record
  rcases h with h | ⟨e, h, hfault⟩
  · rw [h]
    dsimp only
    rw [hback (hsteady'.of_ok h) (htidy'.of_ok h).2]
  · have hmark : ¬q.tooDeep = true := by
      rw [(htidy'.of_error h).2.2, hp]
      simpa using hfault
    rw [h]
    dsimp only
    rw [if_neg hmark, hback (hsteady'.of_error h) (by rw [hp, Bool.eq_false_iff.2 hmark])]

/-- Arguments that are read make up the record. -/
theorem record_of_some {inner : Step TypeExpr} {text : String} {value : TypeExpr}
    (h : (do advance; recordArguments inner : Step (Option (String × TypeExpr))) p = .ok (some (text, value)) q) :
    record inner p = .ok (.record text value) q := by
  rw [record, h]

theorem record_of_reads (hp : Fresh source p) (hrest : p.rest = opening :: ts) {text : String} {value : TypeExpr}
    (h : ReadsArguments n p ts text value q) : record (union n) p = .ok (.record text value) q := by
  obtain ⟨key, us, vs, closing, top, hkey, rfl, -, -, hclosing, hq, hunion⟩ := h
  have hattempt := attempt_of_splitsKey hp hrest hkey (union n)
  rw [bind_of_ok hunion, bind_of_ok (expect_head rfl hclosing)] at hattempt
  rw [hq]
  exact record_of_some hattempt

theorem record_of_not_reads (hp : Fresh source p) (hrest : p.rest = opening :: ts) (hlimit : ¬HitsLimit n p ts)
    (h : ∀ text value q, ¬ReadsArguments n p ts text value q) :
    record (union n) p = (do skipAngles; return .anyRecord : Step TypeExpr) p := by
  by_cases hsplit : ∃ key us, SplitsKey ts key us
  · obtain ⟨key, us, hkey⟩ := hsplit
    have hattempt := attempt_of_splitsKey hp hrest hkey (union n)
    cases hunion : union n { p with rest := us } with
    | error e q =>
      rw [bind_of_error hunion] at hattempt
      have hfault : e.fault ≠ .tooDeep := fun he => hlimit ⟨key, us, hkey, e, q, hunion, he⟩
      exact record_of_attempt (tidy_union n) (steady_union n) hp.unmarked (.inr ⟨e, hattempt, hfault⟩)
    | ok value q =>
      by_cases hclosing : q.current.kind = .punct .closeAngle
      · -- this would have been read
        obtain ⟨closing, after, hq, hclosing⟩ := rest_of_current hclosing (by simp)
        obtain ⟨vs, top, hvs, hder, -⟩ := (sound_union n).took (p := { p with rest := us }) hp.depth_le hunion
        refine absurd ⟨key, us, vs, closing, top, hkey, rfl, hq ▸ hvs, hder, hclosing, rfl, ?_⟩
          (h _ value { p with rest := after })
        rw [hunion, eq_of_union hunion, hq]
      · rw [bind_of_ok hunion, bind_of_error (expect_other hclosing)] at hattempt
        exact record_of_attempt (tidy_union n) (steady_union n) hp.unmarked (.inr ⟨_, hattempt, by simp⟩)
  · have hattempt := attempt_of_not_splitsKey hrest (fun key us hkey => hsplit ⟨key, us, hkey⟩) (union n)
    exact record_of_attempt (tidy_union n) (steady_union n) hp.unmarked (.inl hattempt)

theorem failsForDepth_of_hitsLimit (hp : Fresh source p) (hrest : p.rest = opening :: ts) (h : HitsLimit n p ts) :
    FailsForDepth (record (union n)) p := by
  obtain ⟨key, us, ⟨hne, hkey, comma, hcomma, rfl⟩, hfails⟩ := h
  exact failsForDepth_record (tidy_union n) hp hrest hne hkey hcomma hfails

/-- A record that is given up ends where its angles end. -/
theorem skipAngles_of_ends (hrest : p.rest = opening :: ts) (ho : opening.kind = .punct .openAngle)
    {after : List Token} (h : EndsAngles 0 ts after) : skipAngles p = .ok () { p with rest := after } := by
  have hafter : afterAngles? 0 p.rest = some after := by
    rw [hrest, afterAngles?, if_pos (by simp [Token.isPunct, ho])]
    exact afterAngles?_eq_some_iff.2 h
  rw [skipAngles, hafter]

theorem skipAngles_of_not_ends (hrest : p.rest = opening :: ts) (ho : opening.kind = .punct .openAngle)
    (h : ∀ after, ¬EndsAngles 0 ts after) : skipAngles p = fail .openArguments { p with rest := [] } := by
  have hafter : afterAngles? 0 p.rest = none := by
    rw [hrest, afterAngles?, if_pos (by simp [Token.isPunct, ho])]
    exact Option.eq_none_iff_forall_ne_some.2 fun after hsome => h after (afterAngles?_eq_some_iff.1 hsome)
  rw [skipAngles, hafter]

end Records

/-- **Arguments that are no key and value widen a record**, wherever in a text it is read.  Unless the nesting limit is
hit in them, the record has a key and a value iff its arguments are read as such; otherwise it is a record of anything
that ends where its angles end, and it fails only if they do not.  If the limit is hit in a record that is reached in
the text, the whole text fails for it. -/
theorem record_reads_or_widens {source : String} {n : Nat} {p : Parser} {opening : Token} {ts : List Token}
    (hp : Fresh source p) (hrest : p.rest = opening :: ts) (ho : opening.kind = .punct .openAngle) :
    (¬HitsLimit n p ts →
      (∀ text value q, record (union n) p = .ok (.record text value) q ↔ ReadsArguments n p ts text value q) ∧
      ((∀ text value q, ¬ReadsArguments n p ts text value q) →
        (∀ after, EndsAngles 0 ts after → record (union n) p = .ok .anyRecord { p with rest := after }) ∧
        ((∀ after, ¬EndsAngles 0 ts after) → ∃ e q, record (union n) p = .error e q ∧ e.fault = .openArguments))) ∧
    (HitsLimit n p ts → Reached source (.record n) p → TypeExpr.NestedTooDeeply source) := by
  refine ⟨fun hlimit => ⟨fun text value q => ⟨fun hread => ?_, ?_⟩, ?_⟩, fun hlimit h => ?_⟩
  · by_cases hsome : ∃ text value q, ReadsArguments n p ts text value q
    · obtain ⟨text', value', q', hreads⟩ := hsome
      have hread' := record_of_reads hp hrest hreads
      rw [hread] at hread'
      cases hread'
      exact hreads
    · -- a record that is given up is one of anything
      have hnone : ∀ text value q, ¬ReadsArguments n p ts text value q := fun text value q hreads =>
        hsome ⟨text, value, q, hreads⟩
      rw [record_of_not_reads hp hrest hlimit hnone] at hread
      obtain ⟨_, r, -, hpure⟩ := bind_eq_ok hread
      cases hpure
  · exact record_of_reads hp hrest
  · intro hnone
    rw [record_of_not_reads hp hrest hlimit hnone]
    refine ⟨fun after hends => ?_, fun hends => ?_⟩
    · rw [bind_of_ok (skipAngles_of_ends hrest ho hends)]
      rfl
    · exact ⟨_, _, bind_of_error (skipAngles_of_not_ends hrest ho hends) _, rfl⟩
  · exact nestedTooDeeply_of_reached h (failsForDepth_of_hitsLimit hp hrest hlimit)

/-- The record of a text that is nothing else, with brackets in its key. -/
theorem record_reads_or_widens_key :
    ∃ p q, Reached "Record<A[], number>" (.record 127) p ∧
      record (union 127) p = .ok (.record "A[]" (.primitive .number)) q ∧
      ∃ ts, ReadsArguments 127 p ts "A[]" (.primitive .number) q := by
  let p := ofText "Record<A[], number>"
  have hbar : p.current.kind ≠ .punct .pipe := by cbv; simp
  obtain ⟨t, opening, rest, hrest, ht, ho⟩ : ∃ t opening rest, p.rest = t :: opening :: rest ∧
      t.kind = .ident "Record" ∧ opening.kind = .punct .openAngle := ⟨_, _, _, by cbv, by cbv, by cbv⟩
  have hbranch : Calls (.union maxNesting) p (.suffixed 127) { p with depth := 1 } :=
    .branch (by decide) (eat_other hbar) (.first _)
  have hrecord : Calls (.primary 127) { p with depth := 1 } (.record 127)
      { p with depth := 1, rest := opening :: rest } := .record ht hrest ho
  have hreached := ((Reached.start.call hbranch).call (.operand 127 _)).call hrecord
  have hread : record (union 127) { p with depth := 1, rest := p.rest.tail } =
      .ok (.record "A[]" (.primitive .number)) { p with depth := 1, rest := [] } := by cbv
  rw [hrest, List.tail_cons] at hread
  have hreads := (@record_reads_or_widens _ 127 _ _ _ hreached.fresh rfl ho).1
  refine ⟨_, _, hreached, hread, rest, ((hreads fun hlimit => ?_).1 _ _ _).1 hread⟩
  obtain ⟨e, q, hfails, -⟩ := failsForDepth_of_hitsLimit hreached.fresh rfl hlimit
  rw [hread] at hfails
  cases hfails

end Parser

end TypeSchema
