import TypeSchema.Proofs.Registry.IndexedMembers
import TypeSchema.Proofs.TypeExpr.Indexed
import TypeSchema.Proofs.TypeExpr.Outcomes
import TypeSchema.Proofs.TypeExpr.Soundness

/-!
# Steps by index

`Ready source log k around d m p` says that the machine `m` stands where the parser `p` of the text stands, at index `k`
or further behind and on level `d`, that all it has done so far was within the bounds (`Machine.Kept`), and that the
calls of `log` are among it.  A step of the machine `Follows` a step of the parser if from there it gives what the
parser gives, and both stand at one place again; so it does not get stuck and comes back to its level.

Every single step and every loop that calls no reader follows its counterpart.
-/

namespace TypeSchema

namespace Parser

namespace Indexed

open Extract.Indexed (minus? Covers)

variable {α β : Type} {source : String} {log : List Call} {k d : Nat} {around : Option Nat} {m : Machine} {p : Parser}

/-! ## What is kept -/

/-- The call comes back to its level and stays within the tokens; a union or a part of one takes up at least one token,
and starts further behind than the union around it. -/
structure Call.Kept (last : Nat) (c : Call) : Prop where
  depth_eq : c.exit.depth = c.entry.depth
  entry_le : c.entry.pos ≤ last
  exit_le : c.exit.pos ≤ last
  advances : c.reader ∈ [.union, .suffixed, .primary] → c.ok = true → c.entry.pos < c.exit.pos
  starts : c.reader = .union → ∀ start, c.around = some start → start < c.entry.pos

/-- The machine has always been within the tokens and the nesting limit, and all calls have kept to their bounds. -/
structure Machine.Kept (last : Nat) (m : Machine) : Prop where
  passed : ∀ place ∈ m.passed, place.pos ≤ last ∧ place.depth ≤ maxNesting
  calls : ∀ c ∈ m.calls, c.Kept last

theorem Machine.Kept.goTo {last : Nat} (h : m.Kept last) {place : Place} (hpos : place.pos ≤ last)
    (hdepth : place.depth ≤ maxNesting) : (m.goTo place).Kept last := by
  refine ⟨fun place' hp => ?_, h.calls⟩
  rcases List.mem_cons.1 hp with rfl | hp
  · exact ⟨hpos, hdepth⟩
  · exact h.passed place' hp

/-! ## Machines and parsers -/

theorem ends_tokens (source : String) :
    Extract.Indexed.Ends (tokens source) (ofText source).stop (eofIndex source) := by
  constructor
  · exact List.drop_left
  · intro t ht
    rw [tokens, Tokens.toList, eofIndex, List.take_left] at ht
    exact kind_ne_eof_of_mem_ofText ht

/-- The machine stands where the parser stands, not before index `k`, and on level `d`. -/
structure Ready (source : String) (log : List Call) (k : Nat) (around : Option Nat) (d : Nat) (m : Machine)
    (p : Parser) : Prop where
  source_eq : p.source = source
  stop_eq : p.stop = (ofText source).stop
  covers : Covers (tokens source) (eofIndex source) m.place.pos p.rest
  le_pos : k ≤ m.place.pos
  around_eq : m.around = around
  depth_eq : p.depth = d
  place_depth : m.place.depth = d
  depth_le : d ≤ maxNesting
  tooDeep_eq : m.place.tooDeep = p.tooDeep
  noted : log.Sublist m.calls
  kept : m.Kept (eofIndex source)

namespace Ready

theorem mono (h : Ready source log k around d m p) {k' : Nat} (hk : k' ≤ k) : Ready source log k' around d m p :=
  { h with le_pos := Nat.le_trans hk h.le_pos }

/-- The place of a parser, counted back from the end of input. -/
theorem pos_eq (h : Ready source log k around d m p) : m.place.pos = eofIndex source - p.rest.length := h.covers.place

theorem pos_le (h : Ready source log k around d m p) : m.place.pos ≤ eofIndex source := by
  have hplace := h.pos_eq
  omega

/-- Turns that are enough for all tokens are enough for those that are left. -/
theorem length_lt (h : Ready source log k around d m p) {turns : Nat} (hturns : eofIndex source < turns) :
    p.rest.length < turns := by
  have hstops := h.covers.stops
  omega

theorem kind_ne_eof (h : Ready source log k around d m p) : ∀ t ∈ p.rest, t.kind ≠ .eof :=
  (ends_tokens source).kind_ne_of_mem h.covers (Nat.le_refl _)

end Ready

/-! ## Sequences -/

/-- What a step of a parser gives. -/
def given : EStateM.Result ParseFailure Parser α → Except ParseFailure α
  | .ok a _ => .ok a
  | .error e _ => .error e

/-- The machine gives what the parser gives, and stands where it then stands. -/
def Arrives (source : String) (log : List Call) (k : Nat) (around : Option Nat) (d : Nat)
    (x : Option (Except ParseFailure α × Machine)) (y : EStateM.Result ParseFailure Parser α) : Prop :=
  ∃ n, x = some (given y, n) ∧ Ready source log k around d n (after y)

/-- The step of the machine does what the step of the parser does, from wherever both stand. -/
def Follows (source : String) (log : List Call) (k : Nat) (around : Option Nat) (d : Nat) (w : Walk α)
    (step : Step α) : Prop :=
  ∀ m p, Ready source log k around d m p → Arrives source log k around d (w m) (step p)

variable {x : Option (Except ParseFailure α × Machine)} {y : EStateM.Result ParseFailure Parser α}

theorem walk_of_ok {w : Walk α} {n : Machine} {a : α} (h : w m = some (.ok a, n)) (f : α → Walk β) :
    (w >>= f) m = f a n := by
  show (w m).bind _ = _
  rw [h]
  rfl

theorem walk_of_error {w : Walk α} {n : Machine} {e : ParseFailure} (h : w m = some (.error e, n)) (f : α → Walk β) :
    (w >>= f) m = some (.error e, n) := by
  show (w m).bind _ = _
  rw [h]
  rfl

theorem Arrives.mono (h : Arrives source log k around d x y) {k' : Nat} (hk : k' ≤ k) :
    Arrives source log k' around d x y := by
  obtain ⟨n, hn, hready⟩ := h
  exact ⟨n, hn, hready.mono hk⟩

theorem Arrives.of_ok (h : Arrives source log k around d x y) {a : α} {q : Parser} (hy : y = .ok a q) :
    ∃ n, x = some (.ok a, n) ∧ Ready source log k around d n q := by
  subst hy
  exact h

theorem Arrives.of_error (h : Arrives source log k around d x y) {e : ParseFailure} {q : Parser} (hy : y = .error e q) :
    ∃ n, x = some (.error e, n) ∧ Ready source log k around d n q := by
  subst hy
  exact h

theorem Arrives.bind {w : Walk α} {f : α → Walk β} {step : Step α} {g : α → Step β}
    (h : Arrives source log k around d (w m) (step p))
    (hf : ∀ a n q, step p = .ok a q → Ready source log k around d n q → Arrives source log k around d (f a n) (g a q)) :
    Arrives source log k around d ((w >>= f) m) ((step >>= g) p) := by
  cases hs : step p with
  | ok a q =>
    obtain ⟨n, hn, hready⟩ := h.of_ok hs
    rw [walk_of_ok hn, bind_of_ok hs]
    exact hf a n q hs hready
  | error e q =>
    obtain ⟨n, hn, hready⟩ := h.of_error hs
    rw [walk_of_error hn, bind_of_error hs]
    exact ⟨n, rfl, hready⟩

theorem Follows.bind {w : Walk α} {f : α → Walk β} {step : Step α} {g : α → Step β}
    (h : Follows source log k around d w step) (hf : ∀ a, Follows source log k around d (f a) (g a)) :
    Follows source log k around d (w >>= f) (step >>= g) :=
  fun m p hp => (h m p hp).bind fun a n q _ hq => hf a n q hq

theorem follows_pure (a : α) : Follows source log k around d (pure a) (pure a) := fun m _ h => ⟨m, rfl, h⟩

/-! ## Single tokens -/

theorem current_eq (h : Ready source log k around d m p) : current (tokens source) m = some (.ok p.current, m) := by
  have hE := ends_tokens source
  have hlast : minus? (tokens source).length 1 = some (eofIndex source) := hE.eofAt_eq
  have hnext := hE.next h.covers
  rw [current, hlast, Option.bind_eq_bind, Option.bind_some, Nat.min_eq_left h.pos_le, hnext, Option.bind_eq_bind,
    Option.bind_some, Parser.current, h.stop_eq]

theorem peek_eq (p : Parser) : peek p = .ok p.current.kind p := rfl

theorem remaining_eq (p : Parser) : remaining p = .ok p.rest.length p := rfl

theorem follows_fail (fault : ParseFault) :
    Follows source log k around d (fail (tokens source) fault : Walk α) (Parser.fail fault) := by
  intro m p h
  rw [fail, walk_of_ok (current_eq h)]
  exact ⟨m, rfl, h⟩

theorem Ready.advance (h : Ready source log k around d m p) {t : Token} {rest : List Token} (hr : p.rest = t :: rest) :
    ∃ n, advance (tokens source) m = some (.ok (), n) ∧
      Ready source log (m.place.pos + 1) around d n { p with rest } := by
  have hcovers := h.covers
  rw [hr] at hcovers
  have hlt : m.place.pos + 1 < (tokens source).length := by
    have hlength := (ends_tokens source).length_eq
    have hpos := hcovers.lt
    omega
  refine ⟨_, rfl, ?_⟩
  rw [if_pos hlt]
  exact ⟨h.source_eq, h.stop_eq, hcovers.tail, Nat.le_refl _, h.around_eq, h.depth_eq, h.place_depth, h.depth_le,
    h.tooDeep_eq, h.noted, h.kept.goTo hcovers.lt (h.place_depth ▸ h.depth_le)⟩

/-- At the end of input the machine stays where it is. -/
theorem Ready.advance_end (h : Ready source log k around d m p) (hr : p.rest = []) :
    Indexed.advance (tokens source) m = some (.ok (), m) := by
  have hlength := (ends_tokens source).length_eq
  have hplace := h.pos_eq
  rw [hr, List.length_nil] at hplace
  rw [Indexed.advance, if_neg (by omega)]

theorem follows_advance : Follows source log k around d (advance (tokens source)) Parser.advance := by
  intro m p h
  cases hr : p.rest with
  | nil =>
    have hstay : { p with rest := p.rest.tail } = p := by
      cases p
      cases hr
      rfl
    exact ⟨m, h.advance_end hr, by rw [Parser.advance, after, hstay]; exact h⟩
  | cons t rest =>
    obtain ⟨n, hn, hready⟩ := h.advance hr
    rw [hn, Parser.advance_head hr]
    exact ⟨n, rfl, hready.mono (Nat.le_succ_of_le h.le_pos)⟩

theorem Ready.eat (h : Ready source log k around d m p) {x : Punct} {t : Token} {rest : List Token}
    (hr : p.rest = t :: rest) (ht : t.kind = .punct x) :
    ∃ n, Indexed.eat (tokens source) x m = some (.ok true, n) ∧
      Ready source log (m.place.pos + 1) around d n { p with rest } := by
  obtain ⟨n, hn, hready⟩ := h.advance hr
  refine ⟨n, ?_, hready⟩
  rw [Indexed.eat, walk_of_ok (current_eq h), current_of_rest hr, if_pos ht, walk_of_ok hn]
  rfl

theorem Ready.eat_other (h : Ready source log k around d m p) {x : Punct} (hk : p.current.kind ≠ .punct x) :
    Indexed.eat (tokens source) x m = some (.ok false, m) := by
  rw [Indexed.eat, walk_of_ok (current_eq h), if_neg hk]
  rfl

theorem follows_eat (x : Punct) : Follows source log k around d (eat (tokens source) x) (Parser.eat x) := by
  intro m p h
  by_cases hk : p.current.kind = .punct x
  · obtain ⟨t, rest, hr, ht⟩ := rest_of_current hk (by simp)
    obtain ⟨n, hn, hready⟩ := h.eat hr ht
    rw [hn, Parser.eat_head hr ht]
    exact ⟨n, rfl, hready.mono (Nat.le_succ_of_le h.le_pos)⟩
  · rw [h.eat_other hk, Parser.eat_other hk]
    exact ⟨m, rfl, h⟩

theorem follows_expect (x : Punct) : Follows source log k around d (expect (tokens source) x) (Parser.expect x) := by
  refine (follows_eat x).bind fun b m p h => ?_
  cases b with
  | true => exact ⟨m, rfl, h⟩
  | false =>
    rw [if_neg Bool.false_ne_true, if_neg Bool.false_ne_true, walk_of_ok (current_eq h), bind_of_ok (peek_eq p)]
    exact follows_fail _ m p h

/-! ## Levels -/

theorem Ready.enter (h : Ready source log k around d m p) (hd : d + 1 ≤ maxNesting) :
    ∃ n, Indexed.enter (tokens source) m = some (.ok (), n) ∧ Parser.enter p = .ok () { p with depth := d + 1 } ∧
      Ready source log k around (d + 1) n { p with depth := d + 1 } := by
  have hplace := h.place_depth
  have hdepth := h.depth_eq
  refine ⟨m.goTo { m.place with depth := d + 1 }, ?_, ?_, ?_⟩
  · rw [Indexed.enter, if_neg (by omega), hplace]
  · rw [Parser.enter, if_neg (by omega), hdepth]
  · exact ⟨h.source_eq, h.stop_eq, h.covers, h.le_pos, h.around_eq, rfl, rfl, hd, h.tooDeep_eq, h.noted,
      h.kept.goTo h.pos_le hd⟩

/-- Beyond the limit both fail, and remember it. -/
theorem Ready.enter_deep (h : Ready source log k around d m p) (hd : ¬d + 1 ≤ maxNesting) :
    Parser.enter p = failTooDeep p ∧
      Arrives source log k around d (Indexed.enter (tokens source) m) (failTooDeep p : EStateM.Result _ _ Unit) := by
  have hplace := h.place_depth
  have hdepth := h.depth_eq
  have hready : Ready source log k around d (m.goTo { m.place with tooDeep := true }) { p with tooDeep := true } :=
    ⟨h.source_eq, h.stop_eq, h.covers, h.le_pos, h.around_eq, hdepth, hplace, h.depth_le, rfl, h.noted,
      h.kept.goTo h.pos_le (hplace ▸ h.depth_le)⟩
  refine ⟨by rw [Parser.enter, if_pos (by omega)], ?_⟩
  rw [Indexed.enter, if_pos (by omega)]
  exact follows_fail .tooDeep _ _ hready

theorem Ready.leave {levels : Nat} (h : Ready source log k around (d + levels) m p) :
    ∃ n, m.leave levels = some n ∧ Ready source log k around d n { p with depth := d } := by
  have hle := h.depth_le
  have hminus : minus? m.place.depth levels = some d := by
    rw [minus?, h.place_depth, if_pos (by omega), Nat.add_sub_cancel]
  refine ⟨m.goTo { m.place with depth := d }, ?_, ?_⟩
  · rw [Machine.leave, hminus]
    rfl
  · exact ⟨h.source_eq, h.stop_eq, h.covers, h.le_pos, h.around_eq, rfl, rfl, by omega, h.tooDeep_eq, h.noted,
      h.kept.goTo h.pos_le (show d ≤ maxNesting by omega)⟩

/-- What a step gives, with the parser back on a level. -/
def backOn (d : Nat) : EStateM.Result ParseFailure Parser α → EStateM.Result ParseFailure Parser α
  | .ok a q => .ok a { q with depth := d }
  | .error e q => .error e { q with depth := d }

theorem onLevel_eq (step : Step α) (p : Parser) : onLevel step p = backOn p.depth (step p) := by
  unfold onLevel backOn
  cases step p <;> rfl

theorem given_backOn (y : EStateM.Result ParseFailure Parser α) : given (backOn d y) = given y := by
  cases y <;> rfl

theorem after_backOn (y : EStateM.Result ParseFailure Parser α) : after (backOn d y) = { after y with depth := d } := by
  cases y <;> rfl

/-- A machine that leaves as many levels as it went down arrives where the parser comes back to its level. -/
theorem Ready.arrives {levels : Nat} {n : Machine} (h : Ready source log k around (d + levels) n (after y)) :
    Arrives source log k around d (n.leave levels >>= fun n => some (given y, n)) (backOn d y) := by
  obtain ⟨n', hn', hready⟩ := h.leave
  refine ⟨n', ?_, by rwa [after_backOn]⟩
  rw [hn', given_backOn]
  rfl

/-! ## Loops

A loop of the parser has a bound on its turns, and the number of tokens left is enough.  One turn more is enough for the
machine, which looks at the token behind the last turn. -/

section Loops

variable {turns bound : Nat}

theorem arrives_dotted (name : String) (hturns : p.rest.length < turns) (hbound : p.rest.length ≤ bound)
    (h : Ready source log k around d m p) :
    Arrives source log k around d (dotted (tokens source) name turns m) (Parser.dotted name bound p) := by
  induction turns generalizing name m p bound with
  | zero => omega
  | succ turns ih =>
    by_cases hk : p.current.kind = .punct .dot
    · obtain ⟨t, rest, hr, ht⟩ := rest_of_current hk (by simp)
      obtain ⟨m', hm', hq⟩ := h.eat hr ht
      rw [hr, List.length_cons] at hturns hbound
      obtain ⟨bound, rfl⟩ := Nat.exists_eq_succ_of_ne_zero (by omega : bound ≠ 0)
      rw [dotted, walk_of_ok hm', if_pos rfl, walk_of_ok (current_eq hq), Parser.dotted, bind_of_ok (eat_head hr ht),
        if_pos rfl, bind_of_ok (peek_eq _)]
      have hq' := hq.mono (Nat.le_succ_of_le h.le_pos)
      cases (Parser.current { p with rest }).kind with
      | ident part =>
        refine (follows_advance m' _ hq').bind fun _ n q hadvance hready => ?_
        have hlength := (tidy_advance.of_ok hadvance).1.length_le
        dsimp only at hlength
        exact ih _ (by omega) (by omega) hready
      | _ => exact follows_fail _ m' _ hq'
    · rw [dotted, walk_of_ok (h.eat_other hk), dotted_other hk]
      exact ⟨m, rfl, h⟩

/-- Items behind separators, where each item does what the parser does. -/
theorem arrives_more (separator : Punct) {w : Walk α} {item : Step α} (hitem : Follows source log k around d w item)
    (htidy : Tidy item) (hturns : p.rest.length < turns) (hbound : p.rest.length ≤ bound)
    (h : Ready source log k around d m p) :
    Arrives source log k around d (more (tokens source) separator w turns m) (Parser.more separator item bound p) := by
  induction turns generalizing m p bound with
  | zero => omega
  | succ turns ih =>
    by_cases hk : p.current.kind = .punct separator
    · obtain ⟨t, rest, hr, ht⟩ := rest_of_current hk (by simp)
      obtain ⟨m', hm', hq⟩ := h.eat hr ht
      rw [hr, List.length_cons] at hturns hbound
      obtain ⟨bound, rfl⟩ := Nat.exists_eq_succ_of_ne_zero (by omega : bound ≠ 0)
      rw [more, walk_of_ok hm', if_pos rfl, Parser.more, bind_of_ok (eat_head hr ht), if_pos rfl]
      refine (hitem m' _ (hq.mono (Nat.le_succ_of_le h.le_pos))).bind fun a n q ha hready => ?_
      have hlength := (htidy.of_ok ha).1.length_le
      dsimp only at hlength
      exact (ih (by omega) (by omega) hready).bind fun as n' q' _ hready' => follows_pure _ n' q' hready'
    · rw [more, walk_of_ok (h.eat_other hk), more_other hk]
      exact ⟨m, rfl, h⟩

/-- The levels that the suffixes go down are those that are counted. -/
theorem counts_suffixes (e : TypeExpr) (count : Nat) (hturns : p.rest.length < turns) (hbound : p.rest.length ≤ bound)
    (h : Ready source log k around (d + count) m p) :
    ∃ count' n, suffixes (tokens source) e count turns m = some ((given (Parser.suffixes e bound p), count'), n) ∧
      Ready source log k around (d + count') n (after (Parser.suffixes e bound p)) := by
  induction turns generalizing e count m p bound with
  | zero => omega
  | succ turns ih =>
    by_cases hk : p.current.kind = .punct .openBracket
    · obtain ⟨t, rest, hr, ht⟩ := rest_of_current hk (by simp)
      obtain ⟨m₁, hm₁, h₁⟩ := h.eat hr ht
      rw [hr, List.length_cons] at hturns hbound
      obtain ⟨bound, rfl⟩ := Nat.exists_eq_succ_of_ne_zero (by omega : bound ≠ 0)
      have hexpect := follows_expect .closeBracket m₁ _ (h₁.mono (Nat.le_succ_of_le h.le_pos))
      rw [suffixes, suffix, walk_of_ok hm₁, if_pos rfl, Parser.suffixes, bind_of_ok (eat_head hr ht), if_pos rfl]
      cases hx : Parser.expect .closeBracket { p with rest } with
      | error failure q =>
        obtain ⟨m₂, hm₂, h₂⟩ := hexpect.of_error hx
        rw [walk_of_error hm₂, bind_of_error hx]
        exact ⟨count, m₂, rfl, h₂⟩
      | ok _ q =>
        obtain ⟨m₂, hm₂, h₂⟩ := hexpect.of_ok hx
        rw [walk_of_ok hm₂, bind_of_ok hx]
        by_cases hd : d + count + 1 ≤ maxNesting
        · obtain ⟨m₃, hm₃, henter, h₃⟩ := h₂.enter hd
          rw [walk_of_ok hm₃, bind_of_ok henter]
          have hlength := ((tidy_expect _).of_ok hx).1.length_le
          dsimp only at hlength
          exact ih _ _ (show q.rest.length < turns by omega) (show q.rest.length ≤ bound by omega) h₃
        · obtain ⟨henter, hdeep⟩ := h₂.enter_deep hd
          obtain ⟨m₃, hm₃, h₃⟩ := hdeep.of_error rfl
          rw [walk_of_error hm₃, bind_of_error henter]
          exact ⟨count, m₃, rfl, h₃⟩
    · rw [suffixes, suffix, walk_of_ok (h.eat_other hk), suffixes_other hk]
      exact ⟨count, m, rfl, h⟩

theorem not_isClose_of_isOpen {kind : TokenKind} (h : kind.isOpen = true) : kind.isClose = false := by
  cases kind with
  | punct x => cases x <;> first | rfl | cases h
  | _ => cases h

/-- One turn over the tokens of a key, in the words of the parser. -/
theorem Ready.keyEnd_cons (h : Ready source log k around d m p) {depth stop : Nat} {t : Token} {rest : List Token}
    {n : Machine} (hr : p.rest = t :: rest) (hn : Indexed.advance (tokens source) m = some (.ok (), n)) :
    keyEnd (tokens source) depth stop (turns + 1) m =
      if depth = 0 && t.isPunct .comma then some (.ok (some stop), m)
      else if depth = 0 && t.kind.isClose then some (.ok none, m)
      else keyEnd (tokens source) (t.kind.nesting depth) t.span.stop turns n := by
  have heof : t.kind ≠ .eof := h.kind_ne_eof t (by simp [hr])
  rw [keyEnd, walk_of_ok (current_eq h), current_of_rest hr, if_neg heof]
  by_cases hcomma : t.kind = .punct .comma ∧ depth = 0
  · rw [if_pos hcomma, if_pos (by simp [Token.isPunct, hcomma])]
    rfl
  have hcomma' : ¬(depth = 0 && t.isPunct .comma) = true := by simpa [Token.isPunct, and_comm] using hcomma
  rw [if_neg hcomma, if_neg hcomma']
  by_cases ho : t.kind.isOpen = true
  · have hc : ¬(depth = 0 && t.kind.isClose) = true := by simp [not_isClose_of_isOpen ho]
    rw [if_pos ho, if_neg hc, TokenKind.nesting, if_pos ho, walk_of_ok hn]
  rw [if_neg ho, TokenKind.nesting, if_neg ho]
  by_cases hc : t.kind.isClose = true
  · rw [if_pos hc, if_pos hc, hc, Bool.and_true]
    by_cases hd : depth = 0
    · rw [if_pos hd, if_pos (decide_eq_true hd)]
      rfl
    · have hminus : minus? depth 1 = some (depth - 1) := if_pos (by omega)
      rw [if_neg hd, if_neg (by simpa using hd)]
      show Option.bind ((minus? depth 1).map _) _ = _
      rw [hminus]
      exact walk_of_ok hn _
  · have hc' : ¬(depth = 0 && t.kind.isClose) = true := by simp [hc]
    rw [if_neg hc, if_neg hc', if_neg hc, walk_of_ok hn]

/-- Where a key ends, if it does: the machine then stands before the comma behind it. -/
theorem keyEnd_eq (depth stop : Nat) (hturns : p.rest.length < turns) (h : Ready source log k around d m p) :
    ∃ n rest, keyEnd (tokens source) depth stop turns m =
        some (.ok ((splitKey? depth p.rest).map fun s => s.1.foldl (fun _ t => t.span.stop) stop), n) ∧
      Ready source log k around d n { p with rest } ∧ ∀ s, splitKey? depth p.rest = some s → s.2 = rest := by
  induction turns generalizing m p depth stop with
  | zero => omega
  | succ turns ih =>
    cases hr : p.rest with
    | nil =>
      have hk : p.current.kind = .eof := by rw [Parser.current, hr]; rfl
      refine ⟨m, p.rest, ?_, h, by simp [splitKey?]⟩
      rw [keyEnd, walk_of_ok (current_eq h), if_neg (by simp [hk]), if_pos hk]
      rfl
    | cons t ts =>
      obtain ⟨m', hm', hready⟩ := h.advance hr
      rw [h.keyEnd_cons hr hm', splitKey?]
      rw [hr, List.length_cons] at hturns
      split
      · exact ⟨m, p.rest, rfl, h, by rintro _ ⟨⟩; exact hr.symm⟩
      · split
        · exact ⟨m, p.rest, rfl, h, by simp⟩
        · obtain ⟨n, rest, hn, hready', hrest⟩ :=
            ih _ _ (show ts.length < turns by omega) (hready.mono (Nat.le_succ_of_le h.le_pos))
          refine ⟨n, rest, ?_, hready', ?_⟩
          · rw [hn, Option.map_map]
            rfl
          · intro s hs
            obtain ⟨s', hs', rfl⟩ := Option.map_eq_some_iff.1 hs
            exact hrest s' hs'

theorem foldl_stop_eq (t : Token) (ts : List Token) (stop : Nat) :
    ∃ last, (t :: ts).getLast? = some last ∧ (t :: ts).foldl (fun _ u => u.span.stop) stop = last.span.stop := by
  induction ts generalizing t stop with
  | nil => exact ⟨t, rfl, rfl⟩
  | cons u us ih =>
    obtain ⟨last, hlast, hstop⟩ := ih u t.span.stop
    exact ⟨last, by rw [List.getLast?_cons_cons, hlast], hstop⟩

theorem collapse_empty : (Text.collapse "").isEmpty = true := rfl

/-- The text of a key is what stands between its first token and where it ends. -/
theorem keyText?_eq {key : List Token} {first : Token} (hfirst : ∀ t ∈ key.head?, t = first) :
    keyText? source first.span.start (key.foldl (fun _ t => t.span.stop) first.span.start) =
      Parser.keyText? source key := by
  cases key with
  | nil =>
    have hslice : Text.slice? first.span.start first.span.start source.toList =
        (Text.splitBytes? first.span.start source.toList).map fun _ => [] := by
      rw [Text.slice?, if_neg (Nat.lt_irrefl _), Nat.sub_self]
      cases Text.splitBytes? first.span.start source.toList with
      | none => rfl
      | some s =>
        obtain ⟨before, after⟩ := s
        cases after <;> rfl
    rw [keyText?, List.foldl_nil, hslice]
    cases Text.splitBytes? first.span.start source.toList with
    | none => rfl
    | some s => exact (if_pos collapse_empty : ite _ none (some (Text.collapse "")) = none)
  | cons t ts =>
    obtain rfl := hfirst t rfl
    obtain ⟨last, hlast, hstop⟩ := foldl_stop_eq t ts t.span.start
    rw [keyText?, hstop, Parser.keyText?, hlast, List.head?_cons]
    dsimp only
    rw [Span.text, Span.upTo]
    cases Text.slice? t.span.start last.span.stop source.toList with
    | none => exact (if_pos collapse_empty).symm
    | some cs => rw [Option.bind_eq_bind, Option.bind_some]

/-- The key of a record that the parser stands before. -/
def keyAhead? (p : Parser) : Option String := (splitKey? 0 p.rest).bind fun s => Parser.keyText? p.source s.1

/-- The machine reads the key that the parser takes. -/
theorem key_eq (hturns : p.rest.length < turns) (h : Ready source log k around d m p) :
    ∃ n rest, key source (tokens source) turns m = some (.ok (keyAhead? p), n) ∧
      Ready source log k around d n { p with rest } ∧ ∀ s, splitKey? 0 p.rest = some s → s.2 = rest := by
  obtain ⟨n, rest, hn, hready, hrest⟩ := keyEnd_eq 0 p.current.span.start hturns h
  refine ⟨n, rest, ?_, hready, hrest⟩
  rw [key, walk_of_ok (current_eq h), walk_of_ok hn, keyAhead?, h.source_eq]
  cases hs : splitKey? 0 p.rest with
  | none => rfl
  | some s =>
    obtain ⟨happ, -⟩ := key_of_splitKey? hs
    have hfirst : ∀ t ∈ s.1.head?, t = p.current := by
      intro t ht
      obtain ⟨ts, hts⟩ := List.head?_eq_some_iff.1 ht
      rw [hts] at happ
      exact (current_of_rest happ).symm
    rw [Option.map_some, Option.bind_some, keyText?_eq hfirst]
    rfl

/-- The machine passes over a group of angles, or fails at the end of input. -/
theorem arrives_skipAngles (depth : Nat) (hturns : p.rest.length < turns) (h : Ready source log k around d m p) :
    Arrives source log k around d (skipAngles (tokens source) depth turns m)
      (match afterAngles? depth p.rest with
      | some rest => .ok () { p with rest }
      | none => Parser.fail .openArguments { p with rest := [] }) := by
  induction turns generalizing m p depth with
  | zero => omega
  | succ turns ih =>
    cases hr : p.rest with
    | nil =>
      have hk : p.current.kind = .eof := by rw [Parser.current, hr]; rfl
      rw [skipAngles, walk_of_ok (current_eq h), hk, afterAngles?, ← hr]
      exact follows_fail _ m p h
    | cons t ts =>
      obtain ⟨m', hm', hready⟩ := h.advance hr
      have hready' := hready.mono (Nat.le_succ_of_le h.le_pos)
      have heof : t.kind ≠ .eof := h.kind_ne_eof t (by simp [hr])
      have hpunct (x : Punct) : t.isPunct x = true ↔ t.kind = .punct x := beq_iff_eq
      rw [hr, List.length_cons] at hturns
      have hgoOn (depth' : Nat) := ih depth' (show ts.length < turns by omega) hready'
      rw [skipAngles, walk_of_ok (current_eq h), current_of_rest hr, if_neg heof, afterAngles?]
      simp only [hpunct]
      by_cases ho : t.kind = .punct .openAngle
      · rw [if_pos ho, if_pos ho, walk_of_ok hm']
        exact hgoOn _
      rw [if_neg ho, if_neg ho]
      by_cases hc : t.kind = .punct .closeAngle
      · rw [if_pos hc, if_pos hc, walk_of_ok hm']
        by_cases hd : depth ≤ 1
        · rw [if_pos (by omega), if_pos hd]
          exact ⟨m', rfl, hready'⟩
        · rw [if_neg (by omega), if_neg hd]
          exact hgoOn _
      · rw [if_neg hc, if_neg hc, walk_of_ok hm']
        exact hgoOn _

end Loops

end Indexed

end Parser

end TypeSchema
