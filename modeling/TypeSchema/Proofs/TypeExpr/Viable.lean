import Mathlib.Computability.Language
import TypeSchema.Proofs.TypeExpr.Language

/-!
# Reading the language from left to right

The language of type expressions, without the nesting limit, is read by a machine that goes from token to token.  Its
`Reading` is what it stands in the middle of, and the groups and argument lists that are open around that.  It has no
choice (`Reading.next`), and it is never stuck before it has to be: from every reading there is a way to the end.

* `settles_of_isUnion`: the machine reads whatever the grammar has, by induction on the rules of the grammar;
* `Reading.cons_mem_ahead`: what may follow a step of the machine may follow, behind its token, what was before;
* `isSentence_iff_reads`, `isViable_iff_reads`: the machine reads exactly the beginnings of sentences.
-/

namespace TypeSchema

namespace Parser

/-- All levels are allowed. -/
abbrev anyLevel : Nat → Prop := fun _ => True

/-- The tokens are a type expression, however deep it is nested. -/
def IsSentence (ts : List Token) : Prop := ∃ e, IsType anyLevel ts e

/-- The tokens are the beginning of a type expression. -/
def IsViable (ts : List Token) : Prop := ∃ us, IsSentence (ts ++ us)

/-! ## The machine -/

/-- What a reading is in the middle of. -/
inductive Mode where
  /-- A union starts, perhaps with a bar. -/
  | start
  /-- A branch starts. -/
  | operand
  /-- A name goes on behind a dot. -/
  | part
  /-- A name may end here. -/
  | name
  /-- A branch may end here. -/
  | tail
  /-- A suffix is to be closed. -/
  | suffix
  /-- There was a question mark. -/
  | ended
  deriving DecidableEq

/-- Whether a branch may end in this mode. -/
def Mode.isComplete : Mode → Bool
  | .name | .tail => true
  | _ => false

/-- What can be open around a union. -/
inductive Frame where
  | group
  | arguments
  deriving DecidableEq

/-- How far a reading from left to right has come. -/
structure Reading where
  mode : Mode
  frames : List Frame

namespace Reading

/-- Starts a branch. -/
def begin (frames : List Frame) : TokenKind → Option Reading
  | .punct .openParen => some ⟨.start, .group :: frames⟩
  | .str _ _ => some ⟨.tail, frames⟩
  | .ident _ => some ⟨.name, frames⟩
  | _ => none

/-- Goes on behind a primary. -/
def goOn : List Frame → TokenKind → Option Reading
  | frames, .punct .openBracket => some ⟨.suffix, frames⟩
  | frames, .punct .pipe => some ⟨.operand, frames⟩
  | .group :: frames, .punct .closeParen => some ⟨.tail, frames⟩
  | .arguments :: frames, .punct .comma => some ⟨.start, .arguments :: frames⟩
  | .arguments :: frames, .punct .closeAngle => some ⟨.tail, frames⟩
  | [], .punct .question => some ⟨.ended, []⟩
  | _, _ => none

/-- The reading behind a token of this kind; nothing if there can be none here. -/
def next (r : Reading) (kind : TokenKind) : Option Reading :=
  match r.mode with
  | .start => if kind = .punct .pipe then some ⟨.operand, r.frames⟩ else begin r.frames kind
  | .operand => begin r.frames kind
  | .part =>
    match kind with
    | .ident _ => some ⟨.name, r.frames⟩
    | _ => none
  | .name =>
    match kind with
    | .punct .dot => some ⟨.part, r.frames⟩
    | .punct .openAngle => some ⟨.start, .arguments :: r.frames⟩
    | _ => goOn r.frames kind
  | .tail => goOn r.frames kind
  | .suffix => if kind = .punct .closeBracket then some ⟨.tail, r.frames⟩ else none
  | .ended => none

/-- The reading behind these tokens. -/
def reads : Reading → List Token → Option Reading
  | r, [] => some r
  | r, t :: ts => (r.next t.kind).bind (reads · ts)

/-- Whether the text may end here. -/
def accepts : Reading → Bool
  | ⟨.name, []⟩ | ⟨.tail, []⟩ | ⟨.ended, []⟩ => true
  | _ => false

/-- The reading before the first token. -/
def origin : Reading := ⟨.start, []⟩

theorem reads_cons {r s : Reading} {t : Token} (h : r.next t.kind = some s) (ts : List Token) :
    r.reads (t :: ts) = s.reads ts := by
  rw [reads, h, Option.bind_some]

theorem reads_append (r : Reading) (ts us : List Token) :
    r.reads (ts ++ us) = (r.reads ts).bind (reads · us) := by
  induction ts generalizing r with
  | nil => rfl
  | cons t ts ih =>
    rw [List.cons_append, reads, reads, Option.bind_assoc]
    congr 1
    funext r'
    exact ih r'

/-- The tokens lead from the reading to the end of a branch with these frames open. -/
def Settles (r : Reading) (ts : List Token) (frames : List Frame) : Prop :=
  ∃ mode : Mode, mode.isComplete = true ∧ r.reads ts = some ⟨mode, frames⟩

theorem goOn_openBracket (frames : List Frame) : goOn frames (.punct .openBracket) = some ⟨.suffix, frames⟩ := by
  cases frames <;> rfl

theorem goOn_pipe (frames : List Frame) : goOn frames (.punct .pipe) = some ⟨.operand, frames⟩ := by
  cases frames <;> rfl

/-- A union without a bar starts as its first branch does. -/
theorem next_start {frames : List Frame} {kind : TokenKind} (h : kind ≠ .punct .pipe) :
    next ⟨.start, frames⟩ kind = next ⟨.operand, frames⟩ kind := if_neg h

/-- Behind a name that does not go on, a reading goes on as it does behind any primary. -/
theorem next_name {frames : List Frame} {kind : TokenKind} (hdot : kind ≠ .punct .dot)
    (hangle : kind ≠ .punct .openAngle) : next ⟨.name, frames⟩ kind = goOn frames kind := by
  simp only [next]

/-- Where a branch may end, a reading goes on as it does behind any primary. -/
theorem next_eq_some_of_goOn {mode : Mode} {frames : List Frame} {kind : TokenKind} {r : Reading}
    (hmode : mode.isComplete = true) (h : goOn frames kind = some r) : next ⟨mode, frames⟩ kind = some r := by
  cases mode with
  | tail => exact h
  | name =>
    rw [next_name, h]
    all_goals
      rintro rfl
      cases frames with
      | nil => cases h
      | cons frame frames => cases frame <;> cases h
  | start | operand | part | suffix | ended => cases hmode

theorem Settles.reads_append_cons {r s : Reading} {ts : List Token} {frames : List Frame} {t : Token}
    (h : r.Settles ts frames) (ht : goOn frames t.kind = some s) (us : List Token) :
    r.reads (ts ++ t :: us) = s.reads us := by
  obtain ⟨mode, hmode, hr⟩ := h
  rw [reads_append, hr, Option.bind_some, reads_cons (next_eq_some_of_goOn hmode ht)]

/-- A union may start with a branch. -/
theorem Settles.start {ts : List Token} {frames frames' : List Frame} (h : Settles ⟨.operand, frames⟩ ts frames') :
    Settles ⟨.start, frames⟩ ts frames' := by
  obtain ⟨mode, hmode, hr⟩ := h
  cases ts with
  | nil =>
    cases hr
    cases hmode
  | cons t ts =>
    refine ⟨mode, hmode, ?_⟩
    by_cases hbar : t.kind = .punct .pipe
    · rw [reads, hbar] at hr
      cases hr
    · rwa [reads, next_start hbar]

theorem reads_nameTail {name full : String} {ts : List Token} (h : NameTail name ts full) (frames : List Frame) :
    reads ⟨.name, frames⟩ ts = some ⟨.name, frames⟩ := by
  induction h with
  | done => rfl
  | part hdot ht _ ih =>
    rw [reads_cons (s := ⟨.part, frames⟩) (by rw [hdot]; rfl), reads_cons (s := ⟨.name, frames⟩) (by rw [ht]; rfl)]
    exact ih

theorem reads_names {ts : List Token} {name : String} (h : Names ts name) (frames : List Frame) :
    reads ⟨.operand, frames⟩ ts = some ⟨.name, frames⟩ := by
  obtain ⟨t, us, first, rfl, ht, htail⟩ := h
  rw [reads_cons (s := ⟨.name, frames⟩) (by rw [ht]; rfl)]
  exact reads_nameTail htail frames

theorem settles_names {ts : List Token} {name : String} (h : Names ts name) (frames : List Frame) :
    Settles ⟨.operand, frames⟩ ts frames :=
  ⟨.name, rfl, reads_names h frames⟩

theorem settles_brackets {n : Nat} {us : List Token} (h : Brackets n us) {mode : Mode} (hmode : mode.isComplete = true)
    (frames : List Frame) : Settles ⟨mode, frames⟩ us frames := by
  induction h generalizing mode with
  | none => exact ⟨mode, hmode, rfl⟩
  | pair ho hc _ ih =>
    obtain ⟨mode', hmode', hr⟩ := @ih .tail rfl
    refine ⟨mode', hmode', ?_⟩
    rw [reads_cons (next_eq_some_of_goOn hmode (by rw [ho, goOn_openBracket])),
      reads_cons (s := ⟨.tail, frames⟩) (by rw [hc]; rfl)]
    exact hr

/-- Arguments behind a name. -/
theorem settles_applied {ts us : List Token} {name : String} {opening closing : Token} {frames : List Frame}
    (hn : Names ts name) (ho : opening.kind = .punct .openAngle)
    (hargs : Settles ⟨.start, .arguments :: frames⟩ us (.arguments :: frames))
    (hc : closing.kind = .punct .closeAngle) :
    Settles ⟨.operand, frames⟩ (ts ++ opening :: (us ++ [closing])) frames := by
  refine ⟨.tail, rfl, ?_⟩
  rw [reads_append, reads_names hn, Option.bind_some,
    reads_cons (s := ⟨.start, .arguments :: frames⟩) (by rw [ho]; rfl),
    hargs.reads_append_cons (s := ⟨.tail, frames⟩) (by rw [hc]; rfl)]
  rfl

end Reading

section Language

variable {allowed : Nat → Prop}

open Reading

mutual

/-- **The machine reads what the grammar has**, whatever is open around it: by induction on the rules. -/
theorem settles_of_isUnion {level : Nat} {ts : List Token} {e : TypeExpr} :
    IsUnion allowed level ts e → ∀ frames, Settles ⟨.start, frames⟩ ts frames
  | .bare _ h, frames => (settles_of_areBranches h frames).start
  | .barred _ hbar h, frames => by
    obtain ⟨mode, hmode, hr⟩ := settles_of_areBranches h frames
    refine ⟨mode, hmode, ?_⟩
    rw [reads_cons (s := ⟨.operand, frames⟩) (by rw [hbar]; rfl)]
    exact hr

theorem settles_of_areBranches {level : Nat} {ts : List Token} {es : List TypeExpr} :
    AreBranches allowed level ts es → ∀ frames, Settles ⟨.operand, frames⟩ ts frames
  | .one h, frames => settles_of_isSuffixed h frames
  | .more h hbar h', frames => by
    obtain ⟨mode, hmode, hr⟩ := settles_of_areBranches h' frames
    refine ⟨mode, hmode, ?_⟩
    rw [(settles_of_isSuffixed h frames).reads_append_cons (by rw [hbar, goOn_pipe])]
    exact hr

theorem settles_of_isSuffixed {level : Nat} {ts : List Token} {e : TypeExpr} :
    IsSuffixed allowed level ts e → ∀ frames, Settles ⟨.operand, frames⟩ ts frames
  | .suffixes h hb _, frames => by
    obtain ⟨mode, hmode, hr⟩ := settles_of_isPrimary h frames
    obtain ⟨mode', hmode', hr'⟩ := settles_brackets hb hmode frames
    exact ⟨mode', hmode', by rw [reads_append, hr, Option.bind_some, hr']⟩

theorem settles_of_isPrimary {level : Nat} {ts : List Token} {e : TypeExpr} :
    IsPrimary allowed level ts e → ∀ frames, Settles ⟨.operand, frames⟩ ts frames
  | .group ho h hc, frames => by
    refine ⟨.tail, rfl, ?_⟩
    rw [reads_cons (s := ⟨.start, .group :: frames⟩) (by rw [ho]; rfl),
      (settles_of_isUnion h (.group :: frames)).reads_append_cons (s := ⟨.tail, frames⟩) (by rw [hc]; rfl)]
    rfl
  | .literal ht, frames => ⟨.tail, rfl, reads_cons (by rw [ht]; rfl) []⟩
  | .keyword hn, frames => settles_names hn frames
  | .reference hn _, frames => settles_names hn frames
  | .array hn ho h hc, frames => settles_applied hn ho (settles_of_isUnion h _) hc
  | .generic hn _ ho h hc, frames => settles_applied hn ho (settles_of_areArguments h frames) hc

theorem settles_of_areArguments {level : Nat} {ts : List Token} {es : List TypeExpr} :
    AreArguments allowed level ts es → ∀ frames, Settles ⟨.start, .arguments :: frames⟩ ts (.arguments :: frames)
  | .one h, frames => settles_of_isUnion h _
  | .more h hcomma h', frames => by
    obtain ⟨mode, hmode, hr⟩ := settles_of_areArguments h' frames
    refine ⟨mode, hmode, ?_⟩
    rw [(settles_of_isUnion h _).reads_append_cons (s := ⟨.start, .arguments :: frames⟩) (by rw [hcomma]; rfl)]
    exact hr

end

theorem exists_reads_of_isType {ts : List Token} {e : TypeExpr} (h : IsType allowed ts e) :
    ∃ r, origin.reads ts = some r ∧ r.accepts = true := by
  cases h with
  | bare h =>
    obtain ⟨mode, hmode, hr⟩ := settles_of_isUnion h []
    refine ⟨_, hr, ?_⟩
    cases mode <;> first | rfl | cases hmode
  | optional h hq =>
    refine ⟨⟨.ended, []⟩, ?_, rfl⟩
    rw [origin, (settles_of_isUnion h []).reads_append_cons (s := ⟨.ended, []⟩) (by rw [hq]; rfl)]
    rfl

end Language

/-! ## The lines of the grammar as inclusions -/

/-- The token `x`. -/
def mark (x : Punct) : Language Token := { ts | ∃ t, t.kind = .punct x ∧ ts = [t] }

/-- Any identifier. -/
def identifiers : Language Token := { ts | ∃ t name, t.kind = .ident name ∧ ts = [t] }

/-- Any string. -/
def strings : Language Token := { ts | ∃ t value quote, t.kind = .str value quote ∧ ts = [t] }

/-- What may follow the first identifier of a name. -/
def nameTails : Language Token := { ts | ∀ name, ∃ full, NameTail name ts full }

/-- Any number of suffixes. -/
def suffixRuns : Language Token := { ts | ∃ n, Brackets n ts }

/-- Unions on any level. -/
def unions : Language Token := { ts | ∀ level, ∃ e, IsUnion anyLevel level ts e }

/-- Lists of branches on any level. -/
def branchLists : Language Token := { ts | ∀ level, ∃ es, AreBranches anyLevel level ts es }

/-- Primaries with suffixes on any level. -/
def suffixedParts : Language Token := { ts | ∀ level, ∃ e, IsSuffixed anyLevel level ts e }

/-- Primaries on any level. -/
def primaries : Language Token := { ts | ∀ level, ∃ e, IsPrimary anyLevel level ts e }

/-- Lists of arguments on any level. -/
def argumentLists : Language Token := { ts | ∀ level, ∃ es, AreArguments anyLevel level ts es }

/-- Further branches, or none. -/
def moreBranches : Language Token := 1 + mark .pipe * branchLists

/-- Further arguments, or none. -/
def moreArguments : Language Token := 1 + mark .comma * argumentLists

/-- Arguments in angles, or none. -/
def anyArguments : Language Token := 1 + mark .openAngle * (argumentLists * mark .closeAngle)

section Rules

theorem one_le_nameTails : 1 ≤ nameTails := by
  rintro _ rfl name
  exact ⟨name, .done name⟩

theorem dot_mul_nameTails_le : mark .dot * (identifiers * nameTails) ≤ nameTails := by
  rintro _ ⟨_, ⟨dot, hdot, rfl⟩, _, ⟨_, ⟨t, part, ht, rfl⟩, ts, hts, rfl⟩, rfl⟩ name
  obtain ⟨full, hfull⟩ := hts (name ++ "." ++ part)
  exact ⟨full, .part hdot ht hfull⟩

theorem one_le_suffixRuns : 1 ≤ suffixRuns := by
  rintro _ rfl
  exact ⟨0, .none⟩

theorem brackets_mul_suffixRuns_le : mark .openBracket * (mark .closeBracket * suffixRuns) ≤ suffixRuns := by
  rintro _ ⟨_, ⟨opening, ho, rfl⟩, _, ⟨_, ⟨closing, hc, rfl⟩, ts, ⟨n, hn⟩, rfl⟩, rfl⟩
  exact ⟨n + 1, .pair ho hc hn⟩

theorem branchLists_le_unions : branchLists ≤ unions := by
  intro ts hts level
  obtain ⟨es, hes⟩ := hts level
  exact ⟨_, .bare trivial hes⟩

theorem pipe_mul_branchLists_le : mark .pipe * branchLists ≤ unions := by
  rintro _ ⟨_, ⟨bar, hbar, rfl⟩, ts, hts, rfl⟩ level
  obtain ⟨es, hes⟩ := hts level
  exact ⟨_, .barred trivial hbar hes⟩

theorem suffixedParts_mul_moreBranches_le : suffixedParts * moreBranches ≤ branchLists := by
  rintro _ ⟨ts, hts, us, hus, rfl⟩ level
  obtain ⟨e, he⟩ := hts level
  rcases hus with rfl | ⟨_, ⟨bar, hbar, rfl⟩, us, hus, rfl⟩
  · exact ⟨[e], by simpa using AreBranches.one he⟩
  · obtain ⟨es, hes⟩ := hus level
    exact ⟨e :: es, .more he hbar hes⟩

theorem primaries_mul_suffixRuns_le : primaries * suffixRuns ≤ suffixedParts := by
  rintro _ ⟨ts, hts, us, ⟨n, hn⟩, rfl⟩ level
  obtain ⟨e, he⟩ := hts level
  exact ⟨_, .suffixes he hn fun _ _ _ => trivial⟩

theorem group_le_primaries : mark .openParen * (unions * mark .closeParen) ≤ primaries := by
  rintro _ ⟨_, ⟨opening, ho, rfl⟩, _, ⟨ts, hts, _, ⟨closing, hc, rfl⟩, rfl⟩, rfl⟩ level
  obtain ⟨e, he⟩ := hts (level + 1)
  exact ⟨e, .group ho he hc⟩

theorem strings_le_primaries : strings ≤ primaries := by
  rintro _ ⟨t, value, quote, ht, rfl⟩ level
  exact ⟨_, .literal ht⟩

theorem named_le_primaries : identifiers * (nameTails * anyArguments) ≤ primaries := by
  rintro _ ⟨_, ⟨t, first, ht, rfl⟩, _, ⟨ts, hts, us, hus, rfl⟩, rfl⟩ level
  obtain ⟨name, hname⟩ := hts first
  have hnames : Names ([t] ++ ts) name := ⟨t, ts, first, rfl, ht, hname⟩
  rcases hus with rfl | ⟨_, ⟨opening, ho, rfl⟩, _, ⟨us, hus, _, ⟨closing, hc, rfl⟩, rfl⟩, rfl⟩
  · exact ⟨_, by simpa using isPrimary_plain hnames⟩
  · obtain ⟨es, hes⟩ := hus (level + 1)
    exact ⟨_, by simpa using isPrimary_applied hnames ho hes hc⟩

theorem unions_mul_moreArguments_le : unions * moreArguments ≤ argumentLists := by
  rintro _ ⟨ts, hts, us, hus, rfl⟩ level
  obtain ⟨e, he⟩ := hts level
  rcases hus with rfl | ⟨_, ⟨comma, hcomma, rfl⟩, us, hus, rfl⟩
  · exact ⟨[e], by simpa using AreArguments.one he⟩
  · obtain ⟨es, hes⟩ := hus level
    exact ⟨e :: es, .more he hcomma hes⟩

end Rules

/-! ## What lies ahead of a reading -/

/-- What may follow a primary in a union that `follow` follows. -/
def tails (follow : Language Token) : Language Token := suffixRuns * (moreBranches * follow)

/-- What may follow a union inside of these frames. -/
def follows : List Frame → Language Token
  | [] => 1 + mark .question
  | .group :: frames => mark .closeParen * tails (follows frames)
  | .arguments :: frames => moreArguments * (mark .closeAngle * tails (follows frames))

/-- What may follow a reading. -/
def Reading.ahead (r : Reading) : Language Token :=
  match r.mode with
  | .start => unions * follows r.frames
  | .operand => branchLists * follows r.frames
  | .part => identifiers * (nameTails * (anyArguments * tails (follows r.frames)))
  | .name => nameTails * (anyArguments * tails (follows r.frames))
  | .tail => tails (follows r.frames)
  | .suffix => mark .closeBracket * tails (follows r.frames)
  | .ended => 1

section Ahead

variable {l m follow : Language Token}

theorem le_mul_of_one_le (h : 1 ≤ l) : m ≤ l * m := by
  calc m = 1 * m := (one_mul m).symm
    _ ≤ l * m := mul_le_mul_left h m

theorem le_tails : follow ≤ tails follow :=
  (le_mul_of_one_le le_self_add).trans (le_mul_of_one_le one_le_suffixRuns)

theorem pipe_mul_le_tails : mark .pipe * (branchLists * follow) ≤ tails follow := by
  rw [← mul_assoc]
  have hmore : mark .pipe * branchLists ≤ moreBranches := le_add_self
  exact (mul_le_mul_left hmore follow).trans (le_mul_of_one_le one_le_suffixRuns)

theorem brackets_mul_le_tails : mark .openBracket * (mark .closeBracket * tails follow) ≤ tails follow := by
  rw [tails, ← mul_assoc (mark .closeBracket), ← mul_assoc (mark .openBracket)]
  exact mul_le_mul_left brackets_mul_suffixRuns_le _

/-- A primary and what may follow it are branches and what may follow them. -/
theorem primaries_mul_tails_le : primaries * tails follow ≤ branchLists * follow := by
  calc primaries * (suffixRuns * (moreBranches * follow))
      = primaries * suffixRuns * moreBranches * follow := by simp only [mul_assoc]
    _ ≤ suffixedParts * moreBranches * follow := by gcongr; exact primaries_mul_suffixRuns_le
    _ ≤ branchLists * follow := by gcongr; exact suffixedParts_mul_moreBranches_le

theorem group_mul_le : mark .openParen * (unions * (mark .closeParen * tails follow)) ≤ branchLists * follow := by
  calc mark .openParen * (unions * (mark .closeParen * tails follow))
      = mark .openParen * (unions * mark .closeParen) * tails follow := by simp only [mul_assoc]
    _ ≤ primaries * tails follow := by gcongr; exact group_le_primaries
    _ ≤ branchLists * follow := primaries_mul_tails_le

theorem named_mul_le : identifiers * (nameTails * (anyArguments * tails follow)) ≤ branchLists * follow := by
  calc identifiers * (nameTails * (anyArguments * tails follow))
      = identifiers * (nameTails * anyArguments) * tails follow := by simp only [mul_assoc]
    _ ≤ primaries * tails follow := by gcongr; exact named_le_primaries
    _ ≤ branchLists * follow := primaries_mul_tails_le

theorem strings_mul_le : strings * tails follow ≤ branchLists * follow :=
  (mul_le_mul_left strings_le_primaries _).trans primaries_mul_tails_le

theorem dot_mul_le : mark .dot * (identifiers * (nameTails * l)) ≤ nameTails * l := by
  rw [← mul_assoc identifiers, ← mul_assoc (mark .dot)]
  exact mul_le_mul_left dot_mul_nameTails_le l

theorem unions_mul_follows_le {frames : List Frame} :
    unions * follows (.arguments :: frames) ≤ argumentLists * (mark .closeAngle * tails (follows frames)) := by
  rw [follows, ← mul_assoc]
  exact mul_le_mul_left unions_mul_moreArguments_le _

theorem comma_mul_le {frames : List Frame} :
    mark .comma * (unions * follows (.arguments :: frames)) ≤ follows (.arguments :: frames) := by
  calc mark .comma * (unions * follows (.arguments :: frames))
      ≤ mark .comma * (argumentLists * (mark .closeAngle * tails (follows frames))) :=
        mul_le_mul_right unions_mul_follows_le _
    _ = mark .comma * argumentLists * (mark .closeAngle * tails (follows frames)) := by simp only [mul_assoc]
    _ ≤ moreArguments * (mark .closeAngle * tails (follows frames)) := by gcongr; exact le_add_self

theorem openAngle_mul_le {frames : List Frame} :
    mark .openAngle * (unions * follows (.arguments :: frames)) ≤
      nameTails * (anyArguments * tails (follows frames)) := by
  calc mark .openAngle * (unions * follows (.arguments :: frames))
      ≤ mark .openAngle * (argumentLists * (mark .closeAngle * tails (follows frames))) :=
        mul_le_mul_right unions_mul_follows_le _
    _ = mark .openAngle * (argumentLists * mark .closeAngle) * tails (follows frames) := by simp only [mul_assoc]
    _ ≤ anyArguments * tails (follows frames) := by gcongr; exact le_add_self
    _ ≤ nameTails * (anyArguments * tails (follows frames)) := le_mul_of_one_le one_le_nameTails

theorem cons_mem_mul {t : Token} {us : List Token} (ht : [t] ∈ l) (hu : us ∈ m) : t :: us ∈ l * m :=
  Language.append_mem_mul ht hu

theorem mark_mem {t : Token} {x : Punct} (h : t.kind = .punct x) : [t] ∈ mark x := ⟨t, h, rfl⟩

end Ahead

namespace Reading

theorem cons_mem_of_begin {frames : List Frame} {t : Token} {r : Reading} {us : List Token}
    (h : begin frames t.kind = some r) (hu : us ∈ r.ahead) : t :: us ∈ branchLists * follows frames := by
  unfold begin at h
  split at h
  case h_1 hk =>
    cases h
    exact group_mul_le (cons_mem_mul (mark_mem hk) hu)
  case h_2 value quote hk =>
    cases h
    exact strings_mul_le (cons_mem_mul ⟨t, value, quote, hk, rfl⟩ hu)
  case h_3 name hk =>
    cases h
    exact named_mul_le (cons_mem_mul ⟨t, name, hk, rfl⟩ hu)
  case h_4 => cases h

theorem cons_mem_of_goOn {frames : List Frame} {t : Token} {r : Reading} {us : List Token}
    (h : goOn frames t.kind = some r) (hu : us ∈ r.ahead) : t :: us ∈ tails (follows frames) := by
  unfold goOn at h
  split at h
  case h_1 hk =>
    cases h
    exact brackets_mul_le_tails (cons_mem_mul (mark_mem hk) hu)
  case h_2 hk =>
    cases h
    exact pipe_mul_le_tails (cons_mem_mul (mark_mem hk) hu)
  case h_3 hk =>
    cases h
    exact le_tails (cons_mem_mul (mark_mem hk) hu)
  case h_4 hk =>
    cases h
    exact le_tails (comma_mul_le (cons_mem_mul (mark_mem hk) hu))
  case h_5 hk =>
    cases h
    exact le_tails (le_mul_of_one_le le_self_add (cons_mem_mul (mark_mem hk) hu))
  case h_6 hk =>
    cases h
    obtain rfl : us = [] := hu
    exact le_tails (.inr (mark_mem hk))
  case h_7 => cases h

/-- **What may follow a step may follow, behind its token, what was before the step.** -/
theorem cons_mem_ahead {r r' : Reading} {t : Token} {us : List Token} (h : r.next t.kind = some r')
    (hu : us ∈ r'.ahead) : t :: us ∈ r.ahead := by
  obtain ⟨mode, frames⟩ := r
  cases mode with
  | start =>
    simp only [next] at h
    split at h
    case isTrue hk =>
      cases h
      have hbarred : mark .pipe * (branchLists * follows frames) ≤ unions * follows frames := by
        rw [← mul_assoc]
        exact mul_le_mul_left pipe_mul_branchLists_le _
      exact hbarred (cons_mem_mul (mark_mem hk) hu)
    case isFalse => exact mul_le_mul_left branchLists_le_unions _ (cons_mem_of_begin h hu)
  | operand => exact cons_mem_of_begin h hu
  | part =>
    simp only [next] at h
    split at h
    case h_1 name hk =>
      cases h
      exact cons_mem_mul ⟨t, name, hk, rfl⟩ hu
    case h_2 => cases h
  | name =>
    simp only [next] at h
    split at h
    case h_1 hk =>
      cases h
      exact dot_mul_le (cons_mem_mul (mark_mem hk) hu)
    case h_2 hk =>
      cases h
      exact openAngle_mul_le (cons_mem_mul (mark_mem hk) hu)
    case h_3 =>
      exact le_mul_of_one_le one_le_nameTails (le_mul_of_one_le le_self_add (cons_mem_of_goOn h hu))
  | tail => exact cons_mem_of_goOn h hu
  | suffix =>
    simp only [next] at h
    split at h
    case isTrue hk =>
      cases h
      exact cons_mem_mul (mark_mem hk) hu
    case isFalse => cases h
  | ended => cases h

theorem append_mem_ahead {r r' : Reading} {ts us : List Token} (h : r.reads ts = some r') (hu : us ∈ r'.ahead) :
    ts ++ us ∈ r.ahead := by
  induction ts generalizing r with
  | nil =>
    cases h
    exact hu
  | cons t ts ih =>
    obtain ⟨r₁, hnext, hr⟩ := Option.bind_eq_some_iff.1 h
    exact cons_mem_ahead hnext (ih hr)

theorem nil_mem_ahead {r : Reading} (h : r.accepts = true) : [] ∈ r.ahead := by
  have htails : (1 : Language Token) ≤ tails (follows []) := le_self_add.trans le_tails
  unfold accepts at h
  split at h
  · exact le_mul_of_one_le one_le_nameTails (le_mul_of_one_le le_self_add (htails rfl))
  · exact htails rfl
  · rfl
  · cases h

/-! ## Every reading can be completed -/

theorem exists_mem_mark (x : Punct) : ∃ ts, ts ∈ mark x := ⟨[⟨.punct x, default, ""⟩], _, rfl, rfl⟩

theorem exists_mem_identifiers : ∃ ts, ts ∈ identifiers := ⟨[⟨.ident "x", default, ""⟩], _, _, rfl, rfl⟩

theorem exists_mem_mul {l m : Language Token} (hl : ∃ ts, ts ∈ l) (hm : ∃ ts, ts ∈ m) : ∃ ts, ts ∈ l * m := by
  obtain ⟨ts, hts⟩ := hl
  obtain ⟨us, hus⟩ := hm
  exact ⟨ts ++ us, Language.append_mem_mul hts hus⟩

theorem exists_mem_mono {l m : Language Token} (h : l ≤ m) : (∃ ts, ts ∈ l) → ∃ ts, ts ∈ m
  | ⟨ts, hts⟩ => ⟨ts, h hts⟩

theorem exists_mem_follows : ∀ frames, ∃ ts, ts ∈ follows frames
  | [] => ⟨[], .inl rfl⟩
  | .group :: frames =>
    exists_mem_mul (exists_mem_mark _) (exists_mem_mono le_tails (exists_mem_follows frames))
  | .arguments :: frames =>
    exists_mem_mono (le_mul_of_one_le le_self_add)
      (exists_mem_mul (exists_mem_mark _) (exists_mem_mono le_tails (exists_mem_follows frames)))

/-- **From every reading there is a way to the end.** -/
theorem exists_mem_ahead (r : Reading) : ∃ us, us ∈ r.ahead := by
  obtain ⟨mode, frames⟩ := r
  have htails : ∃ us, us ∈ tails (follows frames) := exists_mem_mono le_tails (exists_mem_follows frames)
  have hname : ∃ us, us ∈ ahead ⟨.name, frames⟩ :=
    exists_mem_mono ((le_mul_of_one_le le_self_add).trans (le_mul_of_one_le one_le_nameTails)) htails
  have hpart : ∃ us, us ∈ ahead ⟨.part, frames⟩ := exists_mem_mul exists_mem_identifiers hname
  have hoperand : ∃ us, us ∈ ahead ⟨.operand, frames⟩ := exists_mem_mono named_mul_le hpart
  cases mode with
  | start => exact exists_mem_mono (mul_le_mul_left branchLists_le_unions _) hoperand
  | operand => exact hoperand
  | part => exact hpart
  | name => exact hname
  | tail => exact htails
  | suffix => exact exists_mem_mul (exists_mem_mark _) htails
  | ended => exact ⟨[], rfl⟩

end Reading

/-! ## Sentences and their beginnings -/

open Reading

theorem isSentence_of_mem_ahead {ts : List Token} (h : ts ∈ origin.ahead) : IsSentence ts := by
  obtain ⟨us, hus, vs, hvs, rfl⟩ := h
  obtain ⟨e, he⟩ := hus 1
  rcases hvs with rfl | ⟨question, hq, rfl⟩
  · exact ⟨e, .bare (by simpa using he)⟩
  · exact ⟨.optional e, .optional he hq⟩

/-- **The machine reads exactly the sentences** to where they may end. -/
theorem isSentence_iff_reads {ts : List Token} :
    IsSentence ts ↔ ∃ r, origin.reads ts = some r ∧ r.accepts = true := by
  constructor
  · rintro ⟨e, he⟩
    exact exists_reads_of_isType he
  · rintro ⟨r, hr, haccepts⟩
    have hmem := append_mem_ahead hr (nil_mem_ahead haccepts)
    rw [List.append_nil] at hmem
    exact isSentence_of_mem_ahead hmem

/-- **The machine reads exactly the beginnings of sentences.** -/
theorem isViable_iff_reads {ts : List Token} : IsViable ts ↔ ∃ r, origin.reads ts = some r := by
  constructor
  · rintro ⟨us, hus⟩
    obtain ⟨r, hr, -⟩ := isSentence_iff_reads.1 hus
    rw [reads_append] at hr
    obtain ⟨r', hr', -⟩ := Option.bind_eq_some_iff.1 hr
    exact ⟨r', hr'⟩
  · rintro ⟨r, hr⟩
    obtain ⟨us, hus⟩ := exists_mem_ahead r
    exact ⟨us, isSentence_of_mem_ahead (append_mem_ahead hr hus)⟩

end Parser

end TypeSchema
