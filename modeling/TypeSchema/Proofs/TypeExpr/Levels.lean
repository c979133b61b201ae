import TypeSchema.Proofs.TypeExpr.Steps

/-!
# The parser comes back to its level

`Leaves R step` says that the parser before a step and the one it leaves behind are related by `R`, whether it succeeds
or fails.  Every reader of the grammar leaves a parser of the same text on the same level (`steady_union`): going deeper
is always undone by `onLevel`, also on a failure.
-/

namespace TypeSchema

namespace Parser

variable {α β : Type}

/-- The parser that a step leaves behind. -/
def after : EStateM.Result ParseFailure Parser α → Parser
  | .ok _ q => q
  | .error _ q => q

/-- The parsers are of the same text. -/
structure SameText (p q : Parser) : Prop where
  source : q.source = p.source
  stop : q.stop = p.stop

/-- The parsers differ in nothing but the tokens to be read and the mark for depth. -/
structure Keeps (p q : Parser) : Prop extends SameText p q where
  depth : q.depth = p.depth

/-- The parser that the step leaves behind is related to the one before it. -/
def Leaves (R : Parser → Parser → Prop) (step : Step α) : Prop := ∀ p, R p (after (step p))

/-- The step comes back to its level. -/
abbrev Steady (step : Step α) : Prop := Leaves Keeps step

theorem SameText.trans {p q r : Parser} (h : SameText p q) (h' : SameText q r) : SameText p r :=
  ⟨h'.source.trans h.source, h'.stop.trans h.stop⟩

theorem Keeps.refl (p : Parser) : Keeps p p := ⟨⟨rfl, rfl⟩, rfl⟩

theorem Keeps.trans {p q r : Parser} (h : Keeps p q) (h' : Keeps q r) : Keeps p r :=
  ⟨h.toSameText.trans h'.toSameText, h'.depth.trans h.depth⟩

theorem keeps_rest (p : Parser) (rest : List Token) : Keeps p { p with rest } := ⟨⟨rfl, rfl⟩, rfl⟩

theorem Leaves.of_ok {R : Parser → Parser → Prop} {step : Step α} (h : Leaves R step) {p q : Parser} {a : α}
    (hs : step p = .ok a q) : R p q := by
  have := h p
  rwa [hs] at this

theorem Leaves.of_error {R : Parser → Parser → Prop} {step : Step α} (h : Leaves R step) {p q : Parser}
    {e : ParseFailure} (hs : step p = .error e q) : R p q := by
  have := h p
  rwa [hs] at this

theorem leaves_bind {R : Parser → Parser → Prop} (htrans : ∀ p q r, R p q → R q r → R p r) {x : Step α}
    {f : α → Step β} (hx : Leaves R x) (hf : ∀ a, Leaves R (f a)) : Leaves R (x >>= f) := by
  intro p
  cases h : x p with
  | ok a q =>
    rw [bind_of_ok h]
    exact htrans _ _ _ (hx.of_ok h) (hf a q)
  | error e q =>
    rw [bind_of_error h]
    exact hx.of_error h

theorem Steady.bind {x : Step α} {f : α → Step β} (hx : Steady x) (hf : ∀ a, Steady (f a)) : Steady (x >>= f) :=
  leaves_bind (R := Keeps) (fun _ _ _ => Keeps.trans) hx hf

theorem sameText_bind {x : Step α} {f : α → Step β} (hx : Leaves SameText x) (hf : ∀ a, Leaves SameText (f a)) :
    Leaves SameText (x >>= f) := leaves_bind (R := SameText) (fun _ _ _ => SameText.trans) hx hf

theorem Steady.sameText {step : Step α} (h : Steady step) : Leaves SameText step := fun p => (h p).toSameText

/-! ## Single tokens -/

theorem steady_pure (a : α) : Steady (pure a) := fun p => .refl p

theorem steady_fail (fault : ParseFault) : Steady (fail fault : Step α) := fun p => .refl p

theorem steady_peek : Steady peek := fun p => .refl p

theorem steady_remaining : Steady remaining := fun p => .refl p

theorem steady_advance : Steady advance := fun p => keeps_rest p _

theorem steady_ite {b : Prop} [Decidable b] {x y : Step α} (hx : Steady x) (hy : Steady y) :
    Steady (if b then x else y) := by
  split
  · exact hx
  · exact hy

theorem steady_eat (x : Punct) : Steady (eat x) :=
  steady_peek.bind fun _ => steady_ite (steady_advance.bind fun _ => steady_pure _) (steady_pure _)

theorem steady_expect (x : Punct) : Steady (expect x) :=
  (steady_eat x).bind fun _ => steady_ite (steady_pure _) (steady_peek.bind fun _ => steady_fail _)

/-! ## Levels -/

theorem sameText_enter : Leaves SameText enter := by
  intro p
  unfold enter
  split
  · exact ⟨rfl, rfl⟩
  · exact ⟨rfl, rfl⟩

/-- Coming back to the level makes any step steady that stays with its text. -/
theorem steady_onLevel {step : Step α} (h : Leaves SameText step) : Steady (onLevel step) := by
  intro p
  have hp := h p
  unfold onLevel
  cases hs : step p with
  | ok a q =>
    rw [hs] at hp
    exact ⟨⟨hp.source, hp.stop⟩, rfl⟩
  | error e q =>
    rw [hs] at hp
    exact ⟨⟨hp.source, hp.stop⟩, rfl⟩

theorem sameText_suffixes (e : TypeExpr) (n : Nat) : Leaves SameText (suffixes e n) := by
  induction n generalizing e with
  | zero => exact (steady_pure e).sameText
  | succ n ih =>
    refine sameText_bind (steady_eat _).sameText fun b => ?_
    split
    · refine sameText_bind (steady_expect _).sameText fun _ => ?_
      exact sameText_bind sameText_enter fun _ => ih _
    · exact (steady_pure e).sameText

/-! ## Readers -/

theorem steady_more (separator : Punct) {item : Step α} (hitem : Steady item) (n : Nat) :
    Steady (more separator item n) := by
  induction n with
  | zero => exact steady_pure _
  | succ n ih =>
    refine (steady_eat separator).bind fun b => steady_ite ?_ (steady_pure _)
    exact hitem.bind fun a => ih.bind fun as => steady_pure _

theorem steady_dotted (name : String) (n : Nat) : Steady (dotted name n) := by
  induction n generalizing name with
  | zero => exact steady_pure _
  | succ n ih =>
    refine (steady_eat .dot).bind fun b => steady_ite (steady_peek.bind fun kind => ?_) (steady_pure _)
    split
    · exact steady_advance.bind fun _ => ih _
    · exact steady_fail _

section Readers

variable {inner : Step TypeExpr} (hinner : Steady inner)

include hinner

theorem steady_recordArguments : Steady (recordArguments inner) := by
  intro p
  rcases recordArguments_cases inner p with h | ⟨key, rest, text, hs, hk⟩
  · rw [h]
    exact .refl p
  · rw [recordArguments_some hs hk]
    have h : Steady (do expect .comma; let value ← inner; expect .closeAngle; return some (text, value) : Step _) :=
      (steady_expect _).bind fun _ => hinner.bind fun _ => (steady_expect _).bind fun _ => steady_pure _
    exact (keeps_rest p rest).trans (h _)

omit hinner in
theorem steady_skipAngles : Steady skipAngles := by
  intro p
  unfold skipAngles
  split
  · exact keeps_rest p _
  · exact keeps_rest p _

theorem steady_record : Steady (record inner) := by
  intro p
  have hargs : Steady (do advance; recordArguments inner : Step (Option (String × TypeExpr))) :=
    steady_advance.bind fun _ => steady_recordArguments hinner
  have hskip : Steady (do skipAngles; return .anyRecord : Step TypeExpr) :=
    steady_skipAngles.bind fun _ => steady_pure _
  have hwiden {q : Parser} (hq : Keeps p q) :
      Keeps p (after ((do skipAngles; return .anyRecord : Step TypeExpr) { q with rest := p.rest })) :=
    (hq.trans (keeps_rest q _)).trans (hskip _)
  unfold record
  dsimp only
  split
  · rename_i h
    exact hargs.of_ok h
  · rename_i h
    exact hwiden (hargs.of_ok h)
  · rename_i h
    split
    · exact hargs.of_error h
    · exact hwiden (hargs.of_error h)

theorem steady_arguments : Steady (arguments inner) := by
  refine steady_advance.bind fun _ => hinner.bind fun _ => steady_remaining.bind fun n => ?_
  exact (steady_more .comma hinner n).bind fun _ => (steady_expect _).bind fun _ => steady_pure _

theorem steady_named (first : String) : Steady (named inner first) := by
  refine steady_remaining.bind fun n => (steady_dotted first n).bind fun name => steady_peek.bind fun kind => ?_
  refine steady_ite (steady_ite (steady_record hinner) ?_) (steady_pure _)
  exact (steady_arguments hinner).bind fun _ => steady_pure _

theorem steady_primary : Steady (primary inner) := by
  refine steady_peek.bind fun kind => ?_
  split
  · exact steady_advance.bind fun _ => hinner.bind fun _ => (steady_expect _).bind fun _ => steady_pure _
  · exact steady_advance.bind fun _ => steady_pure _
  · exact steady_advance.bind fun _ => steady_named hinner _
  · exact steady_fail _
  · exact steady_fail _
  · exact steady_fail _

theorem steady_suffixed : Steady (suffixed inner) := by
  refine (steady_primary hinner).bind fun e => steady_onLevel ?_
  exact sameText_bind steady_remaining.sameText fun n => sameText_suffixes e n

theorem steady_branches : Steady (branches inner) := by
  refine (steady_eat .pipe).bind fun _ => (steady_suffixed hinner).bind fun first =>
    steady_remaining.bind fun n => (steady_more .pipe (steady_suffixed hinner) n).bind fun others => ?_
  split
  · exact steady_pure _
  · exact steady_pure _

end Readers

/-- **The reader of unions comes back to its level**, whether it succeeds or fails. -/
theorem steady_union (n : Nat) : Steady (union n) := by
  induction n with
  | zero =>
    intro p
    exact ⟨⟨rfl, rfl⟩, rfl⟩
  | succ n ih => exact steady_onLevel (sameText_bind sameText_enter fun _ => (steady_branches ih).sameText)

end Parser

end TypeSchema
