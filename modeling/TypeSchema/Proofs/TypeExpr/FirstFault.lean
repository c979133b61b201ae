import TypeSchema.Proofs.TypeExpr.Agreement
import TypeSchema.Proofs.TypeExpr.Outcomes
import TypeSchema.Proofs.TypeExpr.Viable

/-!
# Failures stand at the first impossible token

The parser goes along with the machine that reads the language from left to right: what a step has passed over is what
the machine has read, and where the step fails, other than for depth, the machine is stuck at the same token (`Walk`).
This holds of each reader of the grammar if it holds of the reader of inner unions, as long as no record is written, so
it holds of all texts without records (`walk_typeExpr`).  Since the machine reads exactly the beginnings of sentences,
a failure is reported at the first token that cannot be there.
-/

namespace TypeSchema

namespace Parser

open Reading

variable {α β : Type}

/-! ## The parser and the machine side by side -/

/-- The kind of the first of these tokens, or the end. -/
def headKind : List Token → TokenKind
  | [] => .eof
  | t :: _ => t.kind

theorem current_kind (p : Parser) : p.current.kind = headKind p.rest := by
  cases h : p.rest with
  | nil => rw [current, h]; rfl
  | cons t rest => rw [current_of_rest h]; rfl

/-- No token of this kind can be read here, nor may the text end here if that is what comes. -/
def Reading.Stuck (r : Reading) (kind : TokenKind) : Prop := r.next kind = none ∧ (kind = .eof → r.accepts = false)

/-- The machine reads what a step has passed over of the tokens `ts`.  If the step fails, the machine is stuck, too. -/
def Walk (r : Reading) (ts : List Token) (post : Reading → TokenKind → Prop) :
    EStateM.Result ParseFailure Parser α → Prop
  | .ok _ q => ∃ us r', ts = us ++ q.rest ∧ r.reads us = some r' ∧ post r' q.current.kind
  | .error e q => e.fault = .tooDeep ∨
      ∃ us r', ts = us ++ q.rest ∧ r.reads us = some r' ∧ r'.Stuck q.current.kind

section Walks

variable {r r' : Reading} {ts : List Token} {p : Parser} {post post' : Reading → TokenKind → Prop}

theorem walk_ok {a : α} (h : post r p.current.kind) : Walk r p.rest post (.ok a p) := ⟨[], r, rfl, rfl, h⟩

theorem walk_error {e : ParseFailure} (h : r.Stuck p.current.kind) :
    Walk (α := α) r p.rest post (.error e p) := .inr ⟨[], r, rfl, rfl, h⟩

/-- Passing over a token. -/
theorem Walk.cons {t : Token} {res : EStateM.Result ParseFailure Parser α} (ht : r.next t.kind = some r')
    (h : Walk r' ts post res) : Walk r (t :: ts) post res := by
  cases res with
  | ok a q =>
    obtain ⟨us, s, rfl, hs, hpost⟩ := h
    exact ⟨t :: us, s, rfl, by rw [reads_cons ht, hs], hpost⟩
  | error e q =>
    rcases h with h | ⟨us, s, rfl, hs, hstuck⟩
    · exact .inl h
    · exact .inr ⟨t :: us, s, rfl, by rw [reads_cons ht, hs], hstuck⟩

theorem Walk.bind {x : Step α} {f : α → Step β} (hx : Walk r p.rest post (x p))
    (hf : ∀ a q s, x p = .ok a q → q.rest <:+ p.rest → post s q.current.kind → Walk s q.rest post' (f a q)) :
    Walk r p.rest post' ((x >>= f) p) := by
  cases h : x p with
  | error e q =>
    rw [bind_of_error h]
    rw [h] at hx
    exact hx
  | ok a q =>
    rw [bind_of_ok h]
    rw [h] at hx
    obtain ⟨us, s, hrest, hs, hpost⟩ := hx
    have hrun := hf a q s h ⟨us, hrest.symm⟩ hpost
    cases h' : f a q with
    | ok b q' =>
      rw [h'] at hrun
      obtain ⟨vs, s', hrest', hs', hpost'⟩ := hrun
      refine ⟨us ++ vs, s', by rw [hrest, hrest', List.append_assoc], ?_, hpost'⟩
      rw [reads_append, hs, Option.bind_some, hs']
    | error e q' =>
      rw [h'] at hrun
      rcases hrun with hdeep | ⟨vs, s', hrest', hs', hstuck⟩
      · exact .inl hdeep
      · refine .inr ⟨us ++ vs, s', by rw [hrest, hrest', List.append_assoc], ?_, hstuck⟩
        rw [reads_append, hs, Option.bind_some, hs']

/-- A reading may stand for another one that goes on in the same way here. -/
theorem Walk.congr {res : EStateM.Result ParseFailure Parser α} (hnext : r.next (headKind ts) = r'.next (headKind ts))
    (haccepts : r.accepts = r'.accepts) (hpost : post r' (headKind ts) → post r (headKind ts))
    (h : Walk r' ts post res) : Walk r ts post res := by
  have hreads {us vs : List Token} (hts : ts = us ++ vs) (hne : us ≠ []) : r.reads us = r'.reads us := by
    obtain ⟨t, us, rfl⟩ := List.exists_cons_of_ne_nil hne
    subst hts
    have hnext : r.next t.kind = r'.next t.kind := hnext
    rw [reads, reads, hnext]
  cases res with
  | ok a q =>
    obtain ⟨us, s, hts, hs, hq⟩ := h
    by_cases hne : us = []
    · subst hne
      cases hs
      rw [current_kind, ← List.nil_append q.rest, ← hts] at hq
      refine ⟨[], r, hts, rfl, ?_⟩
      rw [current_kind, ← List.nil_append q.rest, ← hts]
      exact hpost hq
    · exact ⟨us, s, hts, (hreads hts hne).trans hs, hq⟩
  | error e q =>
    rcases h with h | ⟨us, s, hts, hs, hq⟩
    · exact .inl h
    · refine .inr ?_
      by_cases hne : us = []
      · subst hne
        cases hs
        rw [current_kind, ← List.nil_append q.rest, ← hts] at hq
        refine ⟨[], r, hts, rfl, ?_⟩
        rw [current_kind, ← List.nil_append q.rest, ← hts]
        exact ⟨hnext.trans hq.1, fun he => haccepts.trans (hq.2 he)⟩
      · exact ⟨us, s, hts, (hreads hts hne).trans hs, hq⟩

theorem walk_onLevel {step : Step α} (h : Walk r ts post (step p)) : Walk r ts post (onLevel step p) := by
  unfold onLevel
  cases hs : step p with
  | ok a q =>
    rw [hs] at h
    exact h
  | error e q =>
    rw [hs] at h
    exact h

theorem walk_enter (h : post r p.current.kind) : Walk r p.rest post (enter p) := by
  unfold enter
  split
  · exact .inl rfl
  · exact ⟨[], r, rfl, rfl, h⟩

theorem walk_expect {x : Punct} (hnext : p.current.kind = .punct x → r.next (.punct x) = some r')
    (hstuck : p.current.kind ≠ .punct x → r.Stuck p.current.kind) :
    Walk r p.rest (fun s _ => s = r') (expect x p) := by
  by_cases h : p.current.kind = .punct x
  · obtain ⟨t, rest, hr, ht⟩ := rest_of_current h (by simp)
    rw [expect_head hr ht, hr]
    exact Walk.cons (by rw [ht, hnext h]) (walk_ok (p := { p with rest }) rfl)
  · rw [expect_other h]
    exact walk_error (hstuck h)

end Walks

/-! ## Ends of parts -/

/-- The machine stands behind a primary, which does not go on with a token of this kind; nor does `reach` hold it. -/
structure Past (reach : List Punct) (frames : List Frame) (r : Reading) (kind : TokenKind) : Prop where
  frames_eq : r.frames = frames
  mode : r.mode = .tail ∨ r.mode = .name ∧ kind ≠ .punct .dot ∧ kind ≠ .punct .openAngle
  free (x : Punct) : x ∈ reach → kind ≠ .punct x

section Past

variable {reach : List Punct} {frames : List Frame} {r : Reading} {kind : TokenKind}

theorem Past.next_eq (h : Past reach frames r kind) : r.next kind = goOn frames kind := by
  obtain ⟨mode, frames⟩ := r
  obtain ⟨rfl, rfl | ⟨rfl, hdot, hangle⟩, -⟩ := h
  · rfl
  · exact next_name hdot hangle

theorem Past.accepts_eq_false {frame : Frame} (h : Past reach (frame :: frames) r kind) : r.accepts = false := by
  obtain ⟨mode, frames⟩ := r
  obtain ⟨rfl, rfl | ⟨rfl, -, -⟩, -⟩ := h
  · rfl
  · rfl

/-- Behind a union in a group nothing but the closing parenthesis can be read. -/
theorem Past.stuck_group (h : Past [.openBracket, .pipe] (.group :: frames) r kind) (hk : kind ≠ .punct .closeParen) :
    r.Stuck kind := by
  have hbracket := h.free .openBracket (by simp)
  have hpipe := h.free .pipe (by simp)
  refine ⟨?_, fun _ => h.accepts_eq_false⟩
  rw [h.next_eq]
  unfold goOn
  split <;> first | rfl | simp_all

/-- Behind an argument nothing but a comma and the closing angle can be read. -/
theorem Past.stuck_arguments (h : Past [.comma, .openBracket, .pipe] (.arguments :: frames) r kind)
    (hk : kind ≠ .punct .closeAngle) : r.Stuck kind := by
  have hcomma := h.free .comma (by simp)
  have hbracket := h.free .openBracket (by simp)
  have hpipe := h.free .pipe (by simp)
  refine ⟨?_, fun _ => h.accepts_eq_false⟩
  rw [h.next_eq]
  unfold goOn
  split <;> first | rfl | simp_all

/-- Behind a whole union nothing but a question mark can be read. -/
theorem Past.stuck_type (h : Past [.openBracket, .pipe] [] r kind) (hk : kind ≠ .punct .question)
    (hend : kind ≠ .eof) : r.Stuck kind := by
  have hbracket := h.free .openBracket (by simp)
  have hpipe := h.free .pipe (by simp)
  refine ⟨?_, fun he => absurd he hend⟩
  rw [h.next_eq]
  unfold goOn
  split <;> first | rfl | simp_all

theorem Past.mono {reach' : List Punct} (h : Past reach frames r kind) (hfree : ∀ x ∈ reach', kind ≠ .punct x) :
    Past reach' frames r kind := ⟨h.frames_eq, h.mode, hfree⟩

end Past

/-- The step goes along with the machine from this mode to the end of a part. -/
def Walks (mode : Mode) (reach : List Punct) (step : Step α) : Prop :=
  ∀ (frames : List Frame) (p : Parser), RecordFree p.rest → Walk ⟨mode, frames⟩ p.rest (Past reach frames) (step p)

/-! ## Loops -/

theorem headKind_eq_eof {p : Parser} (h : p.rest.length ≤ 0) : p.current.kind = .eof := by
  rw [current_kind, List.length_eq_zero_iff.1 (Nat.le_zero.1 h)]
  rfl

/-- Separators lead back to where the parts start, and what comes after the last part is none. -/
theorem walk_more {mode : Mode} {reach : List Punct} {separator : Punct} {item : Step α} (hitem : Walks mode reach item)
    {frames : List Frame} (hsep : goOn frames (.punct separator) = some ⟨mode, frames⟩) {n : Nat} {p : Parser}
    {r : Reading} (hn : p.rest.length ≤ n) (hfree : RecordFree p.rest) (hr : Past reach frames r p.current.kind) :
    Walk r p.rest (Past (separator :: reach) frames) (more separator item n p) := by
  induction n generalizing p r with
  | zero =>
    refine walk_ok (hr.mono fun x _ => ?_)
    simp [headKind_eq_eof hn]
  | succ n ih =>
    by_cases hc : p.current.kind = .punct separator
    · obtain ⟨t, rest, hrest, ht⟩ := rest_of_current hc (by simp)
      have hnext : r.next t.kind = some ⟨mode, frames⟩ := by rw [ht, ← hsep, ← hc, hr.next_eq]
      have hlen : rest.length ≤ n := by
        rw [hrest, List.length_cons] at hn
        omega
      rw [hrest] at hfree
      have hfree' : RecordFree rest := hfree.part (List.suffix_cons t rest).isInfix
      rw [more, bind_of_ok (eat_head hrest ht), if_pos rfl, hrest]
      refine Walk.cons hnext ((hitem frames { p with rest } hfree').bind fun a q s _ hsuffix hs => ?_)
      have hqlen : q.rest.length ≤ n := hsuffix.length_le.trans hlen
      exact (ih hqlen (hfree'.part hsuffix.isInfix) hs).bind fun as q' s' _ _ hs' => walk_ok hs'
    · rw [more_other hc]
      refine walk_ok (hr.mono fun x hx => ?_)
      rcases List.mem_cons.1 hx with rfl | hx
      · exact hc
      · exact hr.free x hx

theorem stuck_part {frames : List Frame} {kind : TokenKind} (h : ∀ name, kind ≠ .ident name) :
    Stuck ⟨.part, frames⟩ kind := by
  refine ⟨?_, fun _ => rfl⟩
  simp only [next]

theorem walk_dotted {name : String} {frames : List Frame} {n : Nat} {p : Parser} (hn : p.rest.length ≤ n) :
    Walk ⟨.name, frames⟩ p.rest (fun r kind => r = ⟨.name, frames⟩ ∧ kind ≠ .punct .dot) (dotted name n p) := by
  induction n generalizing name p with
  | zero =>
    refine walk_ok ⟨rfl, ?_⟩
    simp [headKind_eq_eof hn]
  | succ n ih =>
    by_cases hc : p.current.kind = .punct .dot
    · obtain ⟨dot, rest, hrest, hdot⟩ := rest_of_current hc (by simp)
      have hpart : next ⟨.name, frames⟩ dot.kind = some ⟨.part, frames⟩ := by rw [hdot]; rfl
      by_cases hident : ∃ part, (Parser.current { p with rest }).kind = .ident part
      · obtain ⟨part, hpeek⟩ := hident
        obtain ⟨t, rest', hrest', ht⟩ := rest_of_current hpeek (by simp)
        obtain rfl : rest = t :: rest' := hrest'
        have hlen : rest'.length ≤ n := by
          rw [hrest, List.length_cons, List.length_cons] at hn
          omega
        rw [dotted_part hrest hdot ht, hrest]
        exact Walk.cons hpart (Walk.cons (by rw [ht]; rfl) (ih (p := { p with rest := rest' }) hlen))
      · have hother (part : String) : (Parser.current { p with rest }).kind ≠ .ident part := fun h => hident ⟨part, h⟩
        rw [dotted_fail hrest hdot hother, hrest]
        exact Walk.cons hpart (walk_error (p := { p with rest }) (stuck_part hother))
    · rw [dotted_other hc]
      exact walk_ok ⟨rfl, hc⟩

theorem walk_suffixes {e : TypeExpr} {frames : List Frame} {n : Nat} {p : Parser} {r : Reading}
    (hn : p.rest.length ≤ n) (hr : Past [] frames r p.current.kind) :
    Walk r p.rest (Past [.openBracket] frames) (suffixes e n p) := by
  induction n generalizing e p r with
  | zero =>
    refine walk_ok (hr.mono fun x _ => ?_)
    simp [headKind_eq_eof hn]
  | succ n ih =>
    by_cases hc : p.current.kind = .punct .openBracket
    · obtain ⟨opening, rest, hrest, ho⟩ := rest_of_current hc (by simp)
      have hlen : rest.length ≤ n := by
        rw [hrest, List.length_cons] at hn
        omega
      have hnext : r.next opening.kind = some ⟨.suffix, frames⟩ := by
        rw [ho, ← hc, hr.next_eq, hc, goOn_openBracket]
      rw [suffixes, bind_of_ok (eat_head hrest ho), if_pos rfl, hrest]
      have hclose : Walk ⟨.suffix, frames⟩ rest (fun s _ => s = ⟨.tail, frames⟩)
          (expect .closeBracket { p with rest }) :=
        walk_expect (p := { p with rest }) (fun _ => rfl) fun hne => ⟨if_neg hne, fun _ => rfl⟩
      refine Walk.cons hnext (Walk.bind (p := { p with rest }) hclose fun _ q s _ hsuffix hs => ?_)
      subst hs
      have htail : Walk (α := Unit) ⟨.tail, frames⟩ q.rest (fun s _ => s = ⟨.tail, frames⟩) (enter q) := walk_enter rfl
      refine htail.bind fun _ q' s _ hsuffix' hs => ?_
      subst hs
      exact ih ((hsuffix'.trans hsuffix).length_le.trans hlen) ⟨rfl, .inl rfl, by simp⟩
    · rw [suffixes_other hc]
      refine walk_ok (hr.mono fun x hx => ?_)
      rwa [List.mem_singleton.1 hx]

/-! ## Readers -/

section Readers

variable {inner : Step TypeExpr} (hinner : Walks .start [.openBracket, .pipe] inner)

include hinner

/-- Arguments are read from their angle on. -/
theorem walk_arguments {frames : List Frame} {p : Parser} {opening : Token} {rest : List Token}
    (hrest : p.rest = opening :: rest) (ho : opening.kind = .punct .openAngle) (hfree : RecordFree p.rest) :
    Walk ⟨.name, frames⟩ p.rest (fun r _ => r = ⟨.tail, frames⟩) (arguments inner p) := by
  have hangle : next ⟨.name, frames⟩ opening.kind = some ⟨.start, .arguments :: frames⟩ := by rw [ho]; rfl
  rw [hrest] at hfree
  have hfree' : RecordFree rest := hfree.part (List.suffix_cons opening rest).isInfix
  rw [arguments, bind_of_ok (advance_head hrest), hrest]
  refine Walk.cons hangle ((hinner _ { p with rest } hfree').bind fun first q s _ hsuffix hs => ?_)
  have hk : remaining q = .ok q.rest.length q := rfl
  rw [bind_of_ok hk]
  refine (walk_more hinner rfl (Nat.le_refl _) (hfree'.part hsuffix.isInfix) hs).bind fun others q' s' _ _ hs' => ?_
  have hclose (hk : q'.current.kind = .punct .closeAngle) : s'.next (.punct .closeAngle) = some ⟨.tail, frames⟩ := by
    rw [← hk, hs'.next_eq, hk]
    rfl
  exact (walk_expect hclose hs'.stuck_arguments).bind fun _ q'' s'' _ _ hs'' => walk_ok hs''

/-- A name that an angle follows is not that of a record, where no record is written. -/
theorem walk_named {frames : List Frame} {p : Parser} {t : Token} {first : String} {rest : List Token}
    (hrest : p.rest = t :: rest) (ht : t.kind = .ident first) (hfree : RecordFree p.rest) :
    Walk ⟨.name, frames⟩ rest (Past [] frames) (named inner first { p with rest }) := by
  have hk : remaining { p with rest } = .ok rest.length { p with rest } := rfl
  rw [named, bind_of_ok hk]
  refine (walk_dotted (p := { p with rest }) (Nat.le_refl _)).bind fun name q s hname hsuffix hs => ?_
  obtain ⟨rfl, hdot⟩ := hs
  have hk' : peek q = .ok q.current.kind q := rfl
  rw [bind_of_ok hk']
  by_cases hangle : q.current.kind = .punct .openAngle
  · obtain ⟨opening, rest', hrest', ho⟩ := rest_of_current hangle (by simp)
    obtain ⟨ts, hts, htail⟩ := nameTail_of_dotted hname
    have hsplit : p.rest = (t :: ts) ++ opening :: rest' := by
      rw [hrest, ← hrest', List.cons_append]
      exact congrArg (t :: ·) hts
    have hrecord : name ≠ "Record" :=
      ne_record_of_names ⟨t, ts, first, rfl, ht, htail⟩ ho (hsplit ▸ hfree)
    have hfree' : RecordFree q.rest := by
      rw [hrest', ← List.nil_append (opening :: rest')]
      exact hfree.part ⟨t :: ts, [], by simp [hsplit]⟩
    rw [if_pos hangle, if_neg hrecord]
    refine (walk_arguments hinner hrest' ho hfree').bind fun es q' s _ _ hs => walk_ok ?_
    subst hs
    exact ⟨rfl, .inl rfl, by simp⟩
  · rw [if_neg hangle]
    exact walk_ok ⟨rfl, .inr ⟨rfl, hdot, hangle⟩, by simp⟩

theorem walks_primary : Walks .operand [] (primary inner) := by
  intro frames p hfree
  obtain ⟨kind, hkind⟩ : ∃ kind, p.current.kind = kind := ⟨_, rfl⟩
  have hk : peek p = .ok kind p := by rw [peek, hkind]
  have hfail {fault : ParseFault} (hnext : next ⟨.operand, frames⟩ kind = none) :
      Walk (α := TypeExpr) ⟨.operand, frames⟩ p.rest (Past [] frames) (fail fault p) :=
    walk_error ⟨by rw [hkind, hnext], fun _ => rfl⟩
  rw [primary, bind_of_ok hk]
  split
  · obtain ⟨opening, rest, hrest, ho⟩ := rest_of_current hkind (by simp)
    have hopen : next ⟨.operand, frames⟩ opening.kind = some ⟨.start, .group :: frames⟩ := by rw [ho]; rfl
    rw [hrest] at hfree
    have hfree' : RecordFree rest := hfree.part (List.suffix_cons opening rest).isInfix
    rw [bind_of_ok (advance_head hrest), hrest]
    refine Walk.cons hopen ((hinner _ { p with rest } hfree').bind fun e q s _ _ hs => ?_)
    have hclose (hk : q.current.kind = .punct .closeParen) : s.next (.punct .closeParen) = some ⟨.tail, frames⟩ := by
      rw [← hk, hs.next_eq, hk]
      rfl
    refine (walk_expect hclose hs.stuck_group).bind fun _ q' s' _ _ hs' => walk_ok ?_
    subst hs'
    exact ⟨rfl, .inl rfl, by simp⟩
  · obtain ⟨t, rest, hrest, ht⟩ := rest_of_current hkind (by simp)
    rw [bind_of_ok (advance_head hrest), hrest]
    exact Walk.cons (by rw [ht]; rfl) (walk_ok (p := { p with rest }) ⟨rfl, .inl rfl, by simp⟩)
  · obtain ⟨t, rest, hrest, ht⟩ := rest_of_current hkind (by simp)
    have hwalk : Walk ⟨.name, frames⟩ rest (Past [] frames) _ := walk_named hinner hrest ht hfree
    rw [bind_of_ok (advance_head hrest), hrest]
    exact Walk.cons (by rw [ht]; rfl) hwalk
  · exact hfail rfl
  · exact hfail rfl
  · refine hfail ?_
    simp only [next, begin]

theorem walks_suffixed : Walks .operand [.openBracket] (suffixed inner) := by
  intro frames p hfree
  refine (walks_primary hinner frames p hfree).bind fun e q s _ _ hs => walk_onLevel ?_
  have hk : remaining q = .ok q.rest.length q := rfl
  rw [bind_of_ok hk]
  exact walk_suffixes (Nat.le_refl _) hs

theorem walks_branches : Walks .start [.openBracket, .pipe] (branches inner) := by
  have hlist (frames : List Frame) (p : Parser) (hfree : RecordFree p.rest) :
      Walk ⟨.operand, frames⟩ p.rest (Past [.openBracket, .pipe] frames) ((do
        let first ← suffixed inner
        let others ← more .pipe (suffixed inner) (← remaining)
        return joined (first :: others) : Step TypeExpr) p) := by
    refine (walks_suffixed hinner frames p hfree).bind fun first q s _ hsuffix hs => ?_
    have hk : remaining q = .ok q.rest.length q := rfl
    rw [bind_of_ok hk]
    refine (walk_more (walks_suffixed hinner) (goOn_pipe frames) (Nat.le_refl _) (hfree.part hsuffix.isInfix) hs).bind
      fun others q' s' _ _ hs' => walk_ok ?_
    exact hs'.mono fun x hx => hs'.free x (by simpa [or_comm] using hx)
  intro frames p hfree
  by_cases hc : p.current.kind = .punct .pipe
  · obtain ⟨bar, rest, hrest, hbar⟩ := rest_of_current hc (by simp)
    have hnext : next ⟨.start, frames⟩ bar.kind = some ⟨.operand, frames⟩ := by rw [hbar]; rfl
    rw [hrest] at hfree
    rw [branches_eq_joined, bind_of_ok (eat_head hrest hbar), hrest]
    exact Walk.cons hnext (hlist frames { p with rest } (hfree.part (List.suffix_cons bar rest).isInfix))
  · rw [branches_eq_joined, bind_of_ok (eat_other hc)]
    rw [current_kind] at hc
    refine (hlist frames p hfree).congr (next_start hc) rfl ?_
    rintro ⟨-, h | ⟨h, -⟩, -⟩
    · cases h
    · cases h

end Readers

/-- **The reader of unions goes along with the machine.** -/
theorem walks_union (n : Nat) : Walks .start [.openBracket, .pipe] (union n) := by
  induction n with
  | zero => exact fun _ _ _ => .inl rfl
  | succ n ih =>
    intro frames p hfree
    refine walk_onLevel ?_
    have henter : Walk ⟨.start, frames⟩ p.rest (fun r _ => r = ⟨.start, frames⟩) (enter p) := walk_enter rfl
    refine henter.bind fun _ q s _ hsuffix hs => ?_
    subst hs
    exact walks_branches ih frames q (hfree.part hsuffix.isInfix)

theorem Past.accepts {reach : List Punct} {r : Reading} {kind : TokenKind} (h : Past reach [] r kind) :
    r.accepts = true := by
  obtain ⟨mode, frames⟩ := r
  obtain ⟨rfl, rfl | ⟨rfl, -, -⟩, -⟩ := h
  · rfl
  · rfl

/-- **The reader of type expressions goes along with the machine**, from its start to where the text may end. -/
theorem walk_typeExpr {p : Parser} (hfree : RecordFree p.rest) :
    Walk origin p.rest (fun r _ => r.accepts = true) (typeExpr p) := by
  refine (walks_union maxNesting [] p hfree).bind fun e q s _ _ hs => ?_
  by_cases hc : q.current.kind = .punct .question
  · obtain ⟨question, rest, hrest, hq⟩ := rest_of_current hc (by simp)
    have hnext : s.next question.kind = some ⟨.ended, []⟩ := by
      rw [hq, ← hc, hs.next_eq, hc]
      rfl
    rw [bind_of_ok (eat_head hrest hq), hrest]
    refine Walk.cons hnext ?_
    obtain ⟨kind, hkind⟩ : ∃ kind, (Parser.current { q with rest }).kind = kind := ⟨_, rfl⟩
    have hk : peek { q with rest } = .ok kind { q with rest } := by rw [peek, hkind]
    rw [bind_of_ok hk]
    split
    · exact walk_ok (p := { q with rest }) rfl
    · rename_i hend
      exact walk_error (p := { q with rest }) ⟨rfl, fun he => absurd (hkind.symm.trans he) hend⟩
  · rw [bind_of_ok (eat_other hc)]
    obtain ⟨kind, hkind⟩ : ∃ kind, q.current.kind = kind := ⟨_, rfl⟩
    have hk : peek q = .ok kind q := by rw [peek, hkind]
    rw [bind_of_ok hk]
    split
    · exact walk_ok hs.accepts
    · rename_i hend
      exact walk_error (hs.stuck_type hc (by rwa [hkind]))

end Parser

/-! ## Whole texts -/

namespace TypeExpr

open TypeSchema.Parser

/-- **Failures stand at the first impossible token**: if a text in which, comments left out, no record is written fails
to be read, and not for depth, then the line and column of the error are those of a token `t`, the end of the text among
them, such that the tokens before it are the beginning of a type expression and are not one any more with `t` behind
them.  If `t` is the end, all tokens of the text are before it and they are no type expression. -/
theorem parse_error_at_first_impossible {source : String} {err : Error}
    (hfree : RecordFree (significant (tokenize source).body)) (h : parse source = .error err)
    (hdeep : err.parseMessage? ≠ some ParseFault.tooDeep.message) :
    ∃ message line before t after, err.cause = .parse message t.span.line t.span.column line ∧
      ((tokenize source).without TokenKind.isComment).toList = before ++ t :: after ∧ IsViable before ∧
      (t.kind ≠ .eof → ¬IsViable (before ++ [t])) ∧ (t.kind = .eof → after = [] ∧ ¬IsSentence before) := by
  unfold parse run at h
  split at h
  · cases h
  · rename_i failure q hread
    cases h
    have hwalk := walk_typeExpr (p := ofText source) hfree
    rw [hread] at hwalk
    rcases hwalk with hfault | ⟨before, r, hrest, hr, hstuck⟩
    · have hmessage : (errorOf (ofText source).source failure).parseMessage? = some failure.fault.message := rfl
      rw [hmessage, hfault] at hdeep
      exact absurd rfl hdeep
    obtain ⟨-, hspan, -⟩ := tidy_typeExpr.of_error hread
    have hstop : q.stop = (tokenize source).stop := (steady_typeExpr.of_error hread).stop
    have hlist : ((tokenize source).without TokenKind.isComment).toList =
        before ++ (q.rest ++ [Token.eof (tokenize source).stop]) := by
      rw [← List.append_assoc, ← hrest]
      rfl
    have hviable : IsViable before := isViable_iff_reads.2 ⟨r, hr⟩
    refine ⟨failure.fault.message, failure.span.sourceLine source, before, q.current,
      (q.rest ++ [Token.eof (tokenize source).stop]).tail, ?_, ?_, hviable, ?_, ?_⟩
    · rw [← hspan]
      rfl
    · rw [hlist]
      cases hq : q.rest with
      | nil => rw [current, hq, hstop]; rfl
      | cons t rest => rw [current_of_rest hq]; rfl
    · intro _ hlonger
      obtain ⟨r', hr'⟩ := isViable_iff_reads.1 hlonger
      rw [Reading.reads_append, hr, Option.bind_some, Reading.reads, hstuck.1] at hr'
      cases hr'
    · intro hend
      have hnil : q.rest = [] := rest_eq_nil_of_eof hend fun t ht =>
        kind_ne_eof_of_mem_ofText (hrest ▸ List.mem_append_right before ht)
      refine ⟨by rw [hnil]; rfl, fun hsentence => ?_⟩
      obtain ⟨r', hr', haccepts⟩ := isSentence_iff_reads.1 hsentence
      obtain rfl : r = r' := Option.some.inj (hr.symm.trans hr')
      rw [hstuck.2 hend] at haccepts
      cases haccepts

/-- A bar before the closing angle, where a branch has to start. -/
theorem parse_error_at_first_impossible_branch :
    ∃ err, parse "Page<User[] | >" = .error err ∧ err.parseMessage? = some "unsupported '>' in type expression" ∧
      ∃ message line before t after, err.cause = .parse message t.span.line t.span.column line ∧
        ((tokenize "Page<User[] | >").without TokenKind.isComment).toList = before ++ t :: after ∧ IsViable before ∧
        (t.kind ≠ .eof → ¬IsViable (before ++ [t])) ∧ (t.kind = .eof → after = [] ∧ ¬IsSentence before) := by
  have hparse : parse "Page<User[] | >" =
      .error { cause := .parse "unsupported '>' in type expression" 1 15 "Page<User[] | >" } := by cbv
  have hfree : RecordFree (significant (tokenize "Page<User[] | >").body) := of_decide_eq_true (by cbv)
  exact ⟨_, hparse, rfl, parse_error_at_first_impossible hfree hparse (by decide)⟩

/-- A comment between the name and the angle is left out before the text is read, so this is a record that is never
closed: the failure stands at the end, although no angle stands right behind `Record` and the tokens before the end are
not the beginning of a type expression any more. -/
theorem not_parse_error_at_first_impossible_commented :
    RecordFree (tokenize "Record/* c */<A B").body ∧
      ∃ err, parse "Record/* c */<A B" = .error err ∧ err.parseMessage? ≠ some ParseFault.tooDeep.message ∧
        ¬∃ message line before t after, err.cause = .parse message t.span.line t.span.column line ∧
          ((tokenize "Record/* c */<A B").without TokenKind.isComment).toList = before ++ t :: after ∧
          IsViable before := by
  have hfree : RecordFree (tokenize "Record/* c */<A B").body := of_decide_eq_true (by cbv)
  have hparse : parse "Record/* c */<A B" =
      .error { cause := .parse "unterminated generic argument list" 1 18 "Record/* c */<A B" } := by cbv
  -- Only the end stands in column 18, and the machine is stuck before it gets there.
  obtain ⟨tokens, htokens, hstuck⟩ : ∃ tokens,
      ((tokenize "Record/* c */<A B").without TokenKind.isComment).toList = tokens ∧
      ∀ n ≤ tokens.length, (tokens[n]?.map fun t => t.span.column) = some 18 →
        (Reading.origin.reads (tokens.take n)).isNone :=
    ⟨[⟨.ident "Record", ⟨0, 6, 1, 1⟩, "Record"⟩, ⟨.punct .openAngle, ⟨13, 14, 1, 14⟩, "<"⟩,
      ⟨.ident "A", ⟨14, 15, 1, 15⟩, "A"⟩, ⟨.ident "B", ⟨16, 17, 1, 17⟩, "B"⟩, ⟨.eof, ⟨17, 17, 1, 18⟩, ""⟩],
      by cbv, by decide⟩
  refine ⟨hfree, _, hparse, by decide, ?_⟩
  rintro ⟨message, line, before, t, after, hcause, hlist, hviable⟩
  injection hcause with _ _ hcolumn
  rw [htokens] at hlist
  subst hlist
  have hnone := hstuck before.length (by simp) (by simp [← hcolumn])
  obtain ⟨r, hr⟩ := isViable_iff_reads.1 hviable
  rw [List.take_left, hr] at hnone
  cases hnone

end TypeExpr

end TypeSchema
