import TypeSchema.Proofs.TypeExpr.Grammar
import TypeSchema.Proofs.TypeExpr.Levels

/-!
# Where steps end

A parser only goes forward, a failure is reported at the token it stands before, and the mark for depth is set by
exactly the failures for depth (`Outcome`).  Going back to the arguments of a record is no exception: they are passed
over from where they start, and not at all if the mark is set.  `tidy_typeExpr` says this of the whole reader.
-/

namespace TypeSchema

namespace Parser

variable {α β : Type}

/-- How a step may end that starts at `p`. -/
def Outcome (p : Parser) : EStateM.Result ParseFailure Parser α → Prop
  | .ok _ q => q.rest <:+ p.rest ∧ q.tooDeep = p.tooDeep
  | .error e q => q.rest <:+ p.rest ∧ e.span = q.current.span ∧
      (q.tooDeep = true ↔ p.tooDeep = true ∨ e.fault = .tooDeep)

/-- The step ends as steps may end, wherever it starts. -/
def Tidy (step : Step α) : Prop := ∀ p, Outcome p (step p)

section Steps

variable {step : Step α} {p q : Parser}

theorem Tidy.of_ok (h : Tidy step) {a : α} (hs : step p = .ok a q) : q.rest <:+ p.rest ∧ q.tooDeep = p.tooDeep := by
  have := h p
  rwa [hs] at this

theorem Tidy.of_error (h : Tidy step) {e : ParseFailure} (hs : step p = .error e q) :
    q.rest <:+ p.rest ∧ e.span = q.current.span ∧ (q.tooDeep = true ↔ p.tooDeep = true ∨ e.fault = .tooDeep) := by
  have := h p
  rwa [hs] at this

/-- A step may go on from where another one ended. -/
theorem Outcome.trans {r : EStateM.Result ParseFailure Parser α} (h : Outcome q r) (hrest : q.rest <:+ p.rest)
    (hdeep : q.tooDeep = p.tooDeep) : Outcome p r := by
  cases r with
  | ok a s =>
    obtain ⟨h₁, h₂⟩ := h
    exact ⟨h₁.trans hrest, h₂.trans hdeep⟩
  | error e s =>
    obtain ⟨h₁, h₂, h₃⟩ := h
    exact ⟨h₁.trans hrest, h₂, by rw [← hdeep]; exact h₃⟩

theorem Tidy.bind {x : Step α} {f : α → Step β} (hx : Tidy x) (hf : ∀ a, Tidy (f a)) : Tidy (x >>= f) := by
  intro p
  cases h : x p with
  | ok a q =>
    rw [bind_of_ok h]
    obtain ⟨hrest, hdeep⟩ := hx.of_ok h
    exact (hf a q).trans hrest hdeep
  | error e q =>
    rw [bind_of_error h]
    exact hx.of_error h

end Steps

/-! ## Single tokens -/

theorem tidy_pure (a : α) : Tidy (pure a) := fun _ => ⟨List.suffix_refl _, rfl⟩

theorem tidy_fail {fault : ParseFault} (h : fault ≠ .tooDeep) : Tidy (fail fault : Step α) :=
  fun p => ⟨List.suffix_refl _, rfl, by simp [h]⟩

theorem tidy_peek : Tidy peek := fun _ => ⟨List.suffix_refl _, rfl⟩

theorem tidy_remaining : Tidy remaining := fun _ => ⟨List.suffix_refl _, rfl⟩

theorem tidy_advance : Tidy advance := fun _ => ⟨List.tail_suffix _, rfl⟩

theorem tidy_ite {b : Prop} [Decidable b] {x y : Step α} (hx : Tidy x) (hy : Tidy y) :
    Tidy (if b then x else y) := by
  split
  · exact hx
  · exact hy

theorem tidy_eat (x : Punct) : Tidy (eat x) :=
  tidy_peek.bind fun _ => tidy_ite (tidy_advance.bind fun _ => tidy_pure _) (tidy_pure _)

theorem tidy_expect (x : Punct) : Tidy (expect x) :=
  (tidy_eat x).bind fun _ => tidy_ite (tidy_pure _) (tidy_peek.bind fun _ => tidy_fail (by simp))

/-! ## Levels -/

theorem tidy_failTooDeep : Tidy (failTooDeep : Step α) := fun p => ⟨List.suffix_refl _, rfl, by simp⟩

theorem tidy_enter : Tidy enter := by
  intro p
  unfold enter
  split
  · exact tidy_failTooDeep p
  · exact ⟨List.suffix_refl _, rfl⟩

theorem tidy_onLevel {step : Step α} (h : Tidy step) : Tidy (onLevel step) := by
  intro p
  unfold onLevel
  cases hs : step p with
  | ok a q =>
    obtain ⟨hrest, hdeep⟩ := h.of_ok hs
    exact ⟨hrest, hdeep⟩
  | error e q =>
    obtain ⟨hrest, hspan, hdeep⟩ := h.of_error hs
    exact ⟨hrest, hspan, hdeep⟩

theorem tidy_suffixes (e : TypeExpr) (n : Nat) : Tidy (suffixes e n) := by
  induction n generalizing e with
  | zero => exact tidy_pure e
  | succ n ih =>
    refine (tidy_eat _).bind fun b => tidy_ite ?_ (tidy_pure e)
    exact (tidy_expect _).bind fun _ => tidy_enter.bind fun _ => ih _

/-! ## Readers -/

theorem tidy_more (separator : Punct) {item : Step α} (hitem : Tidy item) (n : Nat) :
    Tidy (more separator item n) := by
  induction n with
  | zero => exact tidy_pure _
  | succ n ih =>
    refine (tidy_eat separator).bind fun b => tidy_ite ?_ (tidy_pure _)
    exact hitem.bind fun a => ih.bind fun as => tidy_pure _

theorem tidy_dotted (name : String) (n : Nat) : Tidy (dotted name n) := by
  induction n generalizing name with
  | zero => exact tidy_pure _
  | succ n ih =>
    refine (tidy_eat .dot).bind fun b => tidy_ite (tidy_peek.bind fun kind => ?_) (tidy_pure _)
    split
    · exact tidy_advance.bind fun _ => ih _
    · exact tidy_fail (by simp)

theorem tidy_skipAngles : Tidy skipAngles := by
  intro p
  unfold skipAngles
  split
  · rename_i rest hrest
    obtain ⟨us, hus, -⟩ := exists_of_afterAngles? hrest
    exact ⟨⟨us, hus.symm⟩, rfl⟩
  · exact ⟨List.nil_suffix, rfl, by simp⟩

section Readers

variable {inner : Step TypeExpr} (hinner : Tidy inner)

include hinner

theorem tidy_recordArguments : Tidy (recordArguments inner) := by
  intro p
  rcases recordArguments_cases inner p with h | ⟨key, rest, text, hs, hk⟩
  · rw [h]
    exact ⟨List.suffix_refl _, rfl⟩
  · rw [recordArguments_some hs hk]
    have h : Tidy (do expect .comma; let value ← inner; expect .closeAngle; return some (text, value) : Step _) :=
      (tidy_expect _).bind fun _ => hinner.bind fun _ => (tidy_expect _).bind fun _ => tidy_pure _
    obtain ⟨hrest, -⟩ := key_of_splitKey? hs
    exact (h { p with rest }).trans ⟨key, hrest.symm⟩ rfl

theorem tidy_record : Tidy (record inner) := by
  intro p
  have hargs : Tidy (do advance; recordArguments inner : Step (Option (String × TypeExpr))) :=
    tidy_advance.bind fun _ => tidy_recordArguments hinner
  have hskip : Tidy (do skipAngles; return .anyRecord : Step TypeExpr) := tidy_skipAngles.bind fun _ => tidy_pure _
  have hwiden {q : Parser} (hq : q.tooDeep = p.tooDeep) :
      Outcome p ((do skipAngles; return .anyRecord : Step TypeExpr) { q with rest := p.rest }) :=
    (hskip _).trans (List.suffix_refl _) hq
  unfold record
  dsimp only
  split
  · rename_i h
    exact hargs.of_ok h
  · rename_i h
    exact hwiden (hargs.of_ok h).2
  · rename_i e q h
    obtain ⟨-, -, hdeep⟩ := hargs.of_error h
    split
    · exact hargs.of_error h
    · rename_i hq
      refine hwiden ?_
      have hp : ¬p.tooDeep = true := fun hp => hq (hdeep.2 (.inl hp))
      rw [Bool.eq_false_iff.2 hq, Bool.eq_false_iff.2 hp]

theorem tidy_arguments : Tidy (arguments inner) := by
  refine tidy_advance.bind fun _ => hinner.bind fun _ => tidy_remaining.bind fun n => ?_
  exact (tidy_more .comma hinner n).bind fun _ => (tidy_expect _).bind fun _ => tidy_pure _

theorem tidy_named (first : String) : Tidy (named inner first) := by
  refine tidy_remaining.bind fun n => (tidy_dotted first n).bind fun name => tidy_peek.bind fun kind => ?_
  refine tidy_ite (tidy_ite (tidy_record hinner) ?_) (tidy_pure _)
  exact (tidy_arguments hinner).bind fun _ => tidy_pure _

theorem tidy_primary : Tidy (primary inner) := by
  refine tidy_peek.bind fun kind => ?_
  split
  · exact tidy_advance.bind fun _ => hinner.bind fun _ => (tidy_expect _).bind fun _ => tidy_pure _
  · exact tidy_advance.bind fun _ => tidy_pure _
  · exact tidy_advance.bind fun _ => tidy_named hinner _
  · exact tidy_fail (by simp)
  · exact tidy_fail (by simp)
  · exact tidy_fail (by simp)

theorem tidy_suffixed : Tidy (suffixed inner) := by
  refine (tidy_primary hinner).bind fun e => tidy_onLevel ?_
  exact tidy_remaining.bind fun n => tidy_suffixes e n

theorem tidy_branches : Tidy (branches inner) := by
  refine (tidy_eat .pipe).bind fun _ => (tidy_suffixed hinner).bind fun first =>
    tidy_remaining.bind fun n => (tidy_more .pipe (tidy_suffixed hinner) n).bind fun others => ?_
  split
  · exact tidy_pure _
  · exact tidy_pure _

end Readers

theorem tidy_union (n : Nat) : Tidy (union n) := by
  induction n with
  | zero => exact tidy_failTooDeep
  | succ n ih => exact tidy_onLevel (tidy_enter.bind fun _ => tidy_branches ih)

theorem steady_typeExpr : Steady typeExpr := by
  refine (steady_union maxNesting).bind fun e => (steady_eat .question).bind fun b => steady_peek.bind fun kind => ?_
  split
  · exact steady_pure _
  · exact steady_fail _

/-- **The reader of type expressions ends as steps may end.** -/
theorem tidy_typeExpr : Tidy typeExpr := by
  refine (tidy_union maxNesting).bind fun e => (tidy_eat .question).bind fun b => tidy_peek.bind fun kind => ?_
  split
  · exact tidy_pure _
  · exact tidy_fail (by simp)

end Parser

end TypeSchema
