import TypeSchema.Proofs.TypeExpr.Agreement
import TypeSchema.Proofs.TypeExpr.Completeness
import TypeSchema.Proofs.TypeExpr.Outcomes
import TypeSchema.Proofs.TypeExpr.Soundness

/-!
# Calls of readers

The readers of the grammar call each other.  `Calls r p s q` says that reader `r`, called at the parser `p`, calls
reader `s` at the parser `q`, whether or not the call of `r` succeeds in the end, and `Reached source r p` that `r` is
called at `p` when a text is read.

* `Reached.fresh`: every call stands somewhere in the text, and the mark for depth is not set there;
* `Calls.failsForDepth`: a call that fails for depth makes the call around it fail for depth, also from the arguments of
  a record;
* `nestedTooDeeply_of_reached`: so the whole text fails for depth.
-/

namespace TypeSchema

/-- Reading the text fails for depth. -/
def TypeExpr.NestedTooDeeply (text : String) : Prop :=
  ∃ err, TypeExpr.parse text = .error err ∧ err.parseMessage? = some ParseFault.tooDeep.message

namespace Parser

variable {α β : Type}

/-- The readers, each with the number of levels left for the unions inside. -/
inductive Reader where
  | union (levels : Nat)
  | suffixed (levels : Nat)
  | primary (levels : Nat)
  /-- The arguments of a record, from the angle on. -/
  | record (levels : Nat)

/-- What a reader does. -/
def Reader.step : Reader → Step TypeExpr
  | union n => Parser.union n
  | suffixed n => Parser.suffixed (Parser.union n)
  | primary n => Parser.primary (Parser.union n)
  | record n => Parser.record (Parser.union n)

theorem Reader.tidy : ∀ r : Reader, Tidy r.step
  | union n => tidy_union n
  | suffixed n => tidy_suffixed (tidy_union n)
  | primary n => tidy_primary (tidy_union n)
  | record n => tidy_record (tidy_union n)

theorem Reader.steady : ∀ r : Reader, Steady r.step
  | union n => steady_union n
  | suffixed n => steady_suffixed (steady_union n)
  | primary n => steady_primary (steady_union n)
  | record n => steady_record (steady_union n)

/-! ## Calls -/

/-- An item that starts at `p` is followed, behind separators, by one that starts at the last parser. -/
inductive Turns (separator : Punct) (item : Step α) : Parser → Parser → Prop
  | first (p : Parser) : Turns separator item p p
  | next {p q q' r : Parser} {a : α} : item p = .ok a q → eat separator q = .ok true q' →
      Turns separator item q' r → Turns separator item p r

/-- Reader, parser, and the reader that is called from there, with its parser. -/
inductive Calls : Reader → Parser → Reader → Parser → Prop
  | branch {n : Nat} {p p₁ q : Parser} {b : Bool} : p.depth + 1 ≤ maxNesting →
      eat .pipe { p with depth := p.depth + 1 } = .ok b p₁ → Turns .pipe (Reader.suffixed n).step p₁ q →
      Calls (.union (n + 1)) p (.suffixed n) q
  | operand (n : Nat) (p : Parser) : Calls (.suffixed n) p (.primary n) p
  | group {n : Nat} {p : Parser} {opening : Token} {rest : List Token} : p.rest = opening :: rest →
      opening.kind = .punct .openParen → Calls (.primary n) p (.union n) { p with rest }
  | argument {n : Nat} {p q : Parser} {ts rest : List Token} {name : String} {opening : Token} : Names ts name →
      name ≠ "Record" → p.rest = ts ++ opening :: rest → opening.kind = .punct .openAngle →
      Turns .comma (Reader.union n).step { p with rest } q → Calls (.primary n) p (.union n) q
  | record {n : Nat} {p : Parser} {t opening : Token} {rest : List Token} : t.kind = .ident "Record" →
      p.rest = t :: opening :: rest → opening.kind = .punct .openAngle →
      Calls (.primary n) p (.record n) { p with rest := opening :: rest }
  | value {n : Nat} {p : Parser} {key rest : List Token} {opening comma : Token} :
      p.rest = opening :: (key ++ comma :: rest) → key ≠ [] → isKey 0 key = true → comma.kind = .punct .comma →
      Calls (.record n) p (.union n) { p with rest }

/-- The calls that are made when the text is read by a new parser. -/
inductive Reached (source : String) : Reader → Parser → Prop
  | start : Reached source (.union maxNesting) (ofText source)
  | call {r s : Reader} {p q : Parser} : Reached source r p → Calls r p s q → Reached source s q

/-! ## Where calls stand -/

/-- The parser stands somewhere in the text, within the nesting limit, and the mark for depth is not set. -/
structure Fresh (source : String) (p : Parser) : Prop where
  source_eq : p.source = source
  suffix : p.rest <:+ (ofText source).rest
  depth_le : p.depth ≤ maxNesting
  unmarked : p.tooDeep = false

section Fresh

variable {source : String} {p q : Parser}

theorem fresh_ofText (source : String) : Fresh source (ofText source) := ⟨rfl, List.suffix_refl _, Nat.zero_le _, rfl⟩

theorem Fresh.goOn (h : Fresh source p) {rest : List Token} (hrest : rest <:+ p.rest) :
    Fresh source { p with rest } := ⟨h.source_eq, hrest.trans h.suffix, h.depth_le, h.unmarked⟩

theorem Fresh.of_ok (h : Fresh source p) {step : Step α} (htidy : Tidy step) (hsteady : Steady step) {a : α}
    (hs : step p = .ok a q) : Fresh source q := by
  obtain ⟨hrest, hdeep⟩ := htidy.of_ok hs
  have hkeeps := hsteady.of_ok hs
  exact ⟨hkeeps.source.trans h.source_eq, hrest.trans h.suffix, hkeeps.depth ▸ h.depth_le, hdeep.trans h.unmarked⟩

theorem Turns.fresh {separator : Punct} {r : Reader} (h : Turns separator r.step p q) (hp : Fresh source p) :
    Fresh source q := by
  induction h with
  | first => exact hp
  | next hitem heat _ ih => exact ih ((hp.of_ok r.tidy r.steady hitem).of_ok (tidy_eat _) (steady_eat _) heat)

theorem Calls.fresh {r s : Reader} (h : Calls r p s q) (hp : Fresh source p) : Fresh source q := by
  cases h with
  | branch hdepth heat hturns =>
    have hp' : Fresh source { p with depth := p.depth + 1 } := ⟨hp.source_eq, hp.suffix, hdepth, hp.unmarked⟩
    exact hturns.fresh (hp'.of_ok (tidy_eat _) (steady_eat _) heat)
  | operand => exact hp
  | group hrest => exact hp.goOn (hrest ▸ List.suffix_cons _ _)
  | @argument _ _ _ ts rest _ opening _ _ hrest _ hturns =>
    exact hturns.fresh (hp.goOn ⟨ts ++ [opening], by simp [hrest]⟩)
  | record _ hrest => exact hp.goOn (hrest ▸ List.suffix_cons _ _)
  | @value _ _ key rest opening comma hrest => exact hp.goOn ⟨opening :: (key ++ [comma]), by simp [hrest]⟩

/-- **Every call stands somewhere in the text**, and the mark for depth is not set there. -/
theorem Reached.fresh {r : Reader} (h : Reached source r p) : Fresh source p := by
  induction h with
  | start => exact fresh_ofText source
  | call _ hcall ih => exact hcall.fresh ih

/-- A stretch of the tokens ahead has a text. -/
theorem Fresh.exists_keyText (h : Fresh source p) {key : List Token} (hkey : key <:+: p.rest) (hne : key ≠ []) :
    ∃ text, keyText? p.source key = some text := by
  rw [h.source_eq]
  exact hasTexts_of_sublist (h.suffix.sublist.trans List.filter_sublist) key hkey hne

end Fresh

/-! ## Failures for depth -/

/-- The step fails for depth. -/
def FailsForDepth (step : Step α) (p : Parser) : Prop := ∃ e q, step p = .error e q ∧ e.fault = .tooDeep

section Failures

variable {p q : Parser}

theorem FailsForDepth.bind {x : Step α} (h : FailsForDepth x p) (f : α → Step β) : FailsForDepth (x >>= f) p := by
  obtain ⟨e, q, hx, he⟩ := h
  exact ⟨e, q, bind_of_error hx f, he⟩

theorem failsForDepth_bind {x : Step α} {a : α} (hx : x p = .ok a q) {f : α → Step β} (h : FailsForDepth (f a) q) :
    FailsForDepth (x >>= f) p := by
  obtain ⟨e, r, hf, he⟩ := h
  exact ⟨e, r, by rw [bind_of_ok hx, hf], he⟩

theorem FailsForDepth.onLevel {step : Step α} (h : FailsForDepth step p) : FailsForDepth (onLevel step) p := by
  obtain ⟨e, q, hs, he⟩ := h
  exact ⟨e, { q with depth := p.depth }, by rw [Parser.onLevel, hs], he⟩

/-- If one of several items fails for depth, either the first one does, or reading on behind it does. -/
theorem Turns.failsForDepth {separator : Punct} {item : Step α} (htidy : Tidy item)
    (h : Turns separator item p q) (hq : FailsForDepth item q) : FailsForDepth item p ∨
      ∃ a r, item p = .ok a r ∧ ∀ n, r.rest.length ≤ n → FailsForDepth (more separator item n) r := by
  induction h with
  | first => exact .inl hq
  | @next p r r' q a hitem heat _ ih =>
    refine .inr ⟨a, r, hitem, fun n hn => ?_⟩
    rcases eat_eq_ok heat with ⟨-, t, rest, hrest, -, rfl⟩ | ⟨hfalse, -⟩
    · rw [hrest, List.length_cons] at hn
      obtain ⟨n, rfl⟩ := Nat.exists_eq_succ_of_ne_zero (by omega : n ≠ 0)
      refine failsForDepth_bind heat ?_
      rw [if_pos rfl]
      rcases ih hq with hfirst | ⟨b, s, hs, hmore⟩
      · exact hfirst.bind _
      · have hlen := (htidy.of_ok hs).1.length_le
        dsimp only at hlen
        exact failsForDepth_bind hs ((hmore n (by omega)).bind _)
    · cases hfalse

theorem failsForDepth_items {separator : Punct} {item : Step α} (htidy : Tidy item) (h : Turns separator item p q)
    (hq : FailsForDepth item q) (f : α → List α → Step β) :
    FailsForDepth (do let a ← item; let as ← more separator item (← remaining); f a as : Step β) p := by
  rcases h.failsForDepth htidy hq with hfirst | ⟨a, r, ha, hmore⟩
  · exact hfirst.bind _
  · have hn : remaining r = .ok r.rest.length r := rfl
    exact failsForDepth_bind ha (failsForDepth_bind hn ((hmore _ (Nat.le_refl _)).bind _))

/-- Arguments that fail for depth are not passed over: the mark is set. -/
theorem record_of_deep {inner : Step TypeExpr} (htidy : Tidy inner) {e : ParseFailure}
    (h : (do advance; recordArguments inner : Step (Option (String × TypeExpr))) p = .error e q)
    (he : e.fault = .tooDeep) : record inner p = .error e q := by
  have htidy' : Tidy (do advance; recordArguments inner : Step (Option (String × TypeExpr))) :=
    tidy_advance.bind fun _ => tidy_recordArguments htidy
  rw [record, h]
  exact if_pos ((htidy'.of_error h).2.2.2 (.inr he))

/-- With the key before it, a value that fails for depth makes its record fail for depth. -/
theorem failsForDepth_record {source : String} {inner : Step TypeExpr} (htidy : Tidy inner) (hp : Fresh source p)
    {key rest : List Token} {opening comma : Token} (hrest : p.rest = opening :: (key ++ comma :: rest))
    (hne : key ≠ []) (hkey : isKey 0 key = true) (hcomma : comma.kind = .punct .comma)
    (h : FailsForDepth inner { p with rest }) : FailsForDepth (record inner) p := by
  obtain ⟨text, htext⟩ := hp.exists_keyText ⟨[opening], comma :: rest, by simp [hrest]⟩ hne
  have hargs : FailsForDepth (do advance; recordArguments inner : Step (Option (String × TypeExpr))) p := by
    refine failsForDepth_bind (advance_head hrest) ?_
    have hsome := @recordArguments_some inner { p with rest := key ++ comma :: rest } _ _ _
      (splitKey?_key hkey hcomma rest) htext
    unfold FailsForDepth
    rw [hsome]
    exact failsForDepth_bind (expect_head rfl hcomma) (h.bind _)
  obtain ⟨e, q, hs, he⟩ := hargs
  exact ⟨e, q, record_of_deep htidy hs he, he⟩

/-- **A call that fails for depth makes the call around it fail for depth.** -/
theorem Calls.failsForDepth {source : String} {r s : Reader} (h : Calls r p s q) (hp : Fresh source p)
    (hq : FailsForDepth s.step q) : FailsForDepth r.step p := by
  cases h with
  | @branch n _ p₁ _ b hdepth heat hturns =>
    have henter : enter p = .ok () { p with depth := p.depth + 1 } := if_neg (by omega)
    refine FailsForDepth.onLevel (failsForDepth_bind henter (failsForDepth_bind heat ?_))
    exact failsForDepth_items (Reader.tidy _) hturns hq _
  | operand n => exact hq.bind _
  | @group n _ opening rest hrest ho =>
    have hk : peek p = .ok (.punct .openParen) p := by rw [peek, current_of_rest hrest, ho]
    exact failsForDepth_bind hk (failsForDepth_bind (advance_head hrest) (hq.bind _))
  | @argument n _ _ ts rest name opening hn hrecord hrest ho hturns =>
    have hk : peek { p with rest := opening :: rest } = .ok (.punct .openAngle) { p with rest := opening :: rest } := by
      rw [peek, current_of_rest rfl, ho]
    have harguments : FailsForDepth (arguments (Parser.union n)) { p with rest := opening :: rest } :=
      failsForDepth_bind (advance_head rfl) (failsForDepth_items (Reader.tidy (.union n)) hturns hq _)
    unfold FailsForDepth Reader.step
    dsimp only
    rw [primary_of_names hn hrest (notNext_cons (by simp [ho]) _)]
    refine failsForDepth_bind hk ?_
    rw [if_pos rfl, if_neg hrecord]
    exact harguments.bind _
  | @record n _ t opening rest ht hrest ho =>
    have hnames : Names [t] "Record" := ⟨t, [], "Record", rfl, ht, .done _⟩
    unfold FailsForDepth Reader.step
    dsimp only
    rw [primary_of_record hnames ho hrest]
    exact hq
  | value hrest hne hkey hcomma => exact failsForDepth_record (tidy_union _) hp hrest hne hkey hcomma hq

theorem Reached.failsForDepth {source : String} {r : Reader} (h : Reached source r p)
    (hp : FailsForDepth r.step p) : FailsForDepth (Parser.union maxNesting) (ofText source) := by
  induction h with
  | start => exact hp
  | call hreached hcall ih => exact ih (hcall.failsForDepth hreached.fresh hp)

end Failures

/-- **A call that fails for depth makes the whole text fail for depth.** -/
theorem nestedTooDeeply_of_reached {source : String} {r : Reader} {p : Parser} (h : Reached source r p)
    (hp : FailsForDepth r.step p) : TypeExpr.NestedTooDeeply source := by
  have hfails : FailsForDepth typeExpr (ofText source) := (h.failsForDepth hp).bind _
  obtain ⟨e, q, hrun, he⟩ := hfails
  refine ⟨errorOf source e, ?_, ?_⟩
  · rw [TypeExpr.parse, run, hrun]
    rfl
  · rw [← he]
    rfl

end Parser

end TypeSchema
