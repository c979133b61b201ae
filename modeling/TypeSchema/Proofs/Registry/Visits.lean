import TypeSchema.Proofs.Registry.Origins
import TypeSchema.Proofs.Registry.Settled

/-!
# The places that a walk visits

A walk keeps in mind whether a dot stands before the tokens at which it goes on.  `past_declaration` says that what a
reader of declarations gives back about this is so, and `Visits` describes a walk by the tokens behind it and before it,
with all that it has found so far (`scan_of_visits`).
-/

namespace TypeSchema

/-- The word that starts declarations of a kind. -/
def DeclarationKind.keyword : DeclarationKind → String
  | enum => "enum"
  | typeAlias => "type"
  | interface => "interface"

namespace Extract

/-! ## The token before the rest -/

/-- Reading has come from `us` to `rest`; `dot` says whether the token right before `rest` is a dot. -/
def Past (us rest : List Token) (dot : Bool) : Prop :=
  ∃ front last, us = front ++ last :: rest ∧ last.isPunct .dot = dot

section

variable {us vs rest : List Token} {t : Token} {dot : Bool}

theorem isPunct_eq_false {p q : Punct} (h : t.isPunct p = true) (hne : p ≠ q) : t.isPunct q = false := by
  rw [Token.isPunct, beq_iff_eq] at h
  rw [Token.isPunct, h]
  exact beq_false_of_ne fun he => hne (TokenKind.punct.inj he)

theorem isPunct_of_ident {name : String} (h : t.kind = .ident name) (p : Punct) : t.isPunct p = false := by
  rw [Token.isPunct, h]
  rfl

theorem endsWithDot_concat (ts : List Token) (t : Token) : endsWithDot (ts ++ [t]) = t.isPunct .dot := by
  simp [endsWithDot]

theorem past_cons (t : Token) (rest : List Token) : Past (t :: rest) rest (t.isPunct .dot) := ⟨[], t, rfl, rfl⟩

theorem Past.of_suffix (h : Past us rest dot) (hs : us <:+ vs) : Past vs rest dot := by
  obtain ⟨front, last, rfl, hl⟩ := h
  obtain ⟨before, rfl⟩ := hs
  exact ⟨before ++ front, last, (List.append_assoc before front _).symm, hl⟩

theorem Past.cons (h : Past us rest dot) (t : Token) : Past (t :: us) rest dot := h.of_suffix (List.suffix_cons t us)

/-- Reading goes on where it has come to. -/
theorem Past.trans {rest' : List Token} (h : Past us rest false)
    (h' : ∀ t : Token, t.isPunct .dot = false → Past (t :: rest) rest' dot) : Past us rest' dot := by
  obtain ⟨front, last, rfl, hlast⟩ := h
  exact (h' last hlast).of_suffix (List.suffix_append front _)

/-- A group of tokens whose last bracket closes it. -/
theorem past_splitClosed? {opening close : Punct} {depth : Nat} {inside after : List Token} (hc : close ≠ .dot)
    (h : splitClosed? opening close depth us = some (inside, after)) : Past us after false := by
  obtain ⟨closing, hclose, rfl⟩ := exists_close_of_splitClosed? h
  exact ⟨inside, closing, rfl, isPunct_eq_false hclose hc⟩

theorem past_afterBlock (ht : t.isPunct .dot = false) (us : List Token) : Past (t :: us) (afterBlock us) false := by
  unfold afterBlock
  split
  · rename_i h
    exact (past_splitClosed? (by decide) h).cons t
  · exact ht ▸ past_cons t us

theorem isPunct_of_dropWhile {p : Punct} {ts : List Token} (h : (ts.dropWhile fun t => !t.isPunct p) = t :: us) :
    t.isPunct p = true := by
  have hhead := List.head?_dropWhile_not (fun t => !t.isPunct p) ts
  rw [h] at hhead
  simpa using hhead

theorem past_afterGeneric (ht : t.isPunct .dot = false) (us : List Token) : Past (t :: us) (afterGeneric us) false := by
  unfold afterGeneric
  split
  · exact ht ▸ past_cons t us
  · rename_i after h
    have hdrop := List.dropWhile_suffix (l := after) fun t => !t.isPunct .openBrace
    split
    · exact (past_splitClosed? (by decide) h).cons t
    · rename_i brace behind hd
      rw [hd] at hdrop
      have hblock := past_afterBlock (isPunct_eq_false (isPunct_of_dropWhile hd) (by decide)) behind
      exact (hblock.of_suffix (hdrop.trans (after_splitClosed? h))).cons t

theorem past_unnamedBlock (ht : t.isPunct .dot = false) (kind : DeclarationKind) (us : List Token) :
    Past (t :: us) (unnamedBlock kind t us).rest false := by
  unfold unnamedBlock
  split
  · rename_i brace behind
    split
    · rename_i hb
      exact (past_afterBlock (isPunct_eq_false hb (by decide)) behind).cons t
    · exact ht ▸ past_cons t _
  · exact ht ▸ past_cons t []

/-! Names, with the token before them. -/

theorem past_dottedTail {name full : String} (ht : t.isPunct .dot = false) (h : dottedTail name us = .ok (full, rest)) :
    Past (t :: us) rest false := by
  fun_induction dottedTail name us generalizing t with
  | case1 | case3 | case6 =>
    cases h
    exact ht ▸ past_cons t _
  | case2 | case5 => cases h
  | case4 name u v vs _ part hv ih => exact ((ih (isPunct_of_ident hv .dot) h).cons u).cons t

theorem past_dottedTail_error {name : String} (ht : t.isPunct .dot = false) (h : dottedTail name us = .error rest) :
    Past (t :: us) rest false := by
  fun_induction dottedTail name us generalizing t with
  | case1 | case3 | case6 => cases h
  | case2 | case5 =>
    cases h
    exact ht ▸ past_cons t _
  | case4 name u v vs _ part hv ih => exact ((ih (isPunct_of_ident hv .dot) h).cons u).cons t

theorem past_dottedName {full : String} (h : dottedName us = .ok (full, rest)) : Past us rest false := by
  unfold dottedName at h
  split at h
  · cases h
  · split at h
    · rename_i hk
      exact past_dottedTail (isPunct_of_ident hk .dot) h
    · cases h

theorem past_dottedName_error (ht : t.isPunct .dot = false) (h : dottedName us = .error rest) :
    Past (t :: us) rest false := by
  unfold dottedName at h
  split at h
  · cases h
    exact ht ▸ past_cons t []
  · split at h
    · rename_i hk
      exact (past_dottedTail_error (isPunct_of_ident hk .dot) h).cons t
    · cases h
      exact ht ▸ past_cons t _

/-! Declarations, with the token before what is read. -/

theorem past_extendsClause {stop : Span} {owner : String} (ht : t.isPunct .dot = false)
    (h : (extendsClause stop owner us).finish ≠ .openArguments) :
    Past (t :: us) (extendsClause stop owner us).finish.rest false := by
  fun_induction extendsClause stop owner us generalizing t with
  | case1 us rest hd => exact past_dottedName_error ht hd
  | case2 us base hd => exact (past_dottedName hd).cons t
  | case3 => exact absurd rfl h
  | case4 =>
    rename_i u rest hd _ _ inside hs
    exact ((past_splitClosed? (by decide) hs).of_suffix ((List.suffix_cons u rest).trans (rest_dottedName hd))).cons t
  | case5 =>
    rename_i u rest hd _ _ inside comma after hs hc others ih
    have hafter := (after_splitClosed? hs).trans ((List.suffix_cons u rest).trans (rest_dottedName hd))
    exact ((ih (isPunct_eq_false hc (by decide)) h).of_suffix hafter).cons t
  | case6 =>
    rename_i u rest hd _ _ inside v after hs _
    exact ((past_splitClosed? (by decide) hs).of_suffix ((List.suffix_cons u rest).trans (rest_dottedName hd))).cons t
  | case7 =>
    rename_i comma rest hd _ hc others ih
    exact ((ih (isPunct_eq_false hc (by decide)) h).of_suffix (rest_dottedName hd)).cons t
  | case8 us base u rest hd => exact (past_dottedName hd).cons t

variable {kind : DeclarationKind} {keyword nameToken : Token} {name : String}

theorem past_body_error {reading : Reading} (ht : t.isPunct .dot = false)
    (h : body kind keyword name us = .error reading) : Past (t :: us) reading.rest reading.afterDot := by
  unfold body at h
  split at h
  · cases h
    exact ht ▸ past_cons t []
  · rename_i u inner
    split at h
    · rename_i hu
      split at h
      · cases h
      · cases h
        have hdot : u.isPunct .dot = false := isPunct_eq_false hu (by decide)
        exact (hdot ▸ past_cons u inner).cons t
    · cases h
      exact ht ▸ past_cons t _

theorem past_body {inside after : List Token} (h : body kind keyword name us = .ok (inside, after)) :
    Past us after false := by
  obtain ⟨opening, closing, rfl, -, hs⟩ := exists_of_body_ok h
  exact (past_splitClosed? (by decide) hs).cons opening

theorem past_interfaceBody (ht : t.isPunct .dot = false) (bases : List String) (us : List Token) :
    Past (t :: us) (interfaceBody keyword name bases us).rest (interfaceBody keyword name bases us).afterDot := by
  unfold interfaceBody
  split
  · rename_i h
    exact past_body_error ht h
  · rename_i h
    exact (past_body h).cons t

theorem past_enumNamed (ht : t.isPunct .dot = false) (us : List Token) :
    Past (t :: us) (enumNamed keyword name us).rest (enumNamed keyword name us).afterDot := by
  unfold enumNamed
  split
  · rename_i h
    exact past_body_error ht h
  · rename_i h
    exact (past_body h).cons t

theorem past_interfaceNamed (hk : t.isPunct .dot = false) (hn : nameToken.isPunct .dot = false) (stop : Span)
    (us : List Token) :
    Past (t :: nameToken :: us) (interfaceNamed stop keyword nameToken name us).rest
      (interfaceNamed stop keyword nameToken name us).afterDot := by
  unfold interfaceNamed
  split
  · exact (past_interfaceBody hn [] []).cons t
  · rename_i u behind
    split
    · rename_i hu
      exact ((past_afterGeneric (isPunct_eq_false hu (by decide)) behind).cons nameToken).cons t
    · split
      · rename_i hu
        rw [Token.isIdent, beq_iff_eq] at hu
        have hclause (h : (extendsClause stop name behind).finish ≠ .openArguments) :
            Past (u :: behind) (extendsClause stop name behind).finish.rest false :=
          past_extendsClause (isPunct_of_ident hu .dot) h
        dsimp only
        split
        · rename_i rest hr
          rw [hr] at hclause
          exact (((hclause nofun).trans fun v hv => past_interfaceBody hv _ rest).cons nameToken).cons t
        · rename_i rest hr
          rw [hr] at hclause
          exact ((hclause nofun).cons nameToken).cons t
        · exact hk ▸ past_cons t _
      · exact (past_interfaceBody hn [] _).cons t

theorem past_expression (ht : t.isPunct .dot = false) (us : List Token) :
    Past (t :: us) (expression t us).2 (endsWithDot (expression t us).1) := by
  have hcut : (expression t us).1 ++ (expression t us).2 = us := splitExpression_append ..
  rcases List.eq_nil_or_concat (expression t us).1 with h | ⟨front, last, h⟩
  · rw [h] at hcut ⊢
    exact ⟨[], t, congrArg (t :: ·) hcut.symm, ht⟩
  · rw [h] at hcut ⊢
    refine ⟨t :: front, last, ?_, ?_⟩
    · rw [List.concat_eq_append, List.append_assoc] at hcut
      exact congrArg (t :: ·) hcut.symm
    · rw [List.concat_eq_append, endsWithDot_concat]

theorem past_aliasNamed (ht : t.isPunct .dot = false) (us : List Token) :
    Past (t :: us) (aliasNamed keyword name us).rest (aliasNamed keyword name us).afterDot := by
  unfold aliasNamed
  dsimp only
  split
  · exact ht ▸ past_cons t []
  · rename_i u behind
    split
    · rename_i hu
      have hread := (past_expression (isPunct_eq_false hu (by decide)) behind).cons t
      split
      · exact hread
      · exact hread
    · split
      · rename_i hu
        exact (past_expression (isPunct_eq_false hu (by decide)) behind).cons t
      · exact ht ▸ past_cons t _

/-- The reader that a keyword with a name behind it calls for. -/
theorem declaration_named (stop : Span) (kind : DeclarationKind) (keyword : Token) (hn : nameToken.kind = .ident name)
    (us : List Token) : declaration stop kind keyword (nameToken :: us) =
      match kind with
      | .interface => interfaceNamed stop keyword nameToken name us
      | .typeAlias => aliasNamed keyword name us
      | .enum => enumNamed keyword name us := by
  have hident : nameToken.kind.ident? = some name := by rw [hn]; rfl
  cases kind with
  | interface => simp only [declaration, hident]
  | typeAlias => simp only [declaration, hident]
  | enum => simp only [declaration, hident]

/-- **What a reader of declarations says about the dot before the rest is so.** -/
theorem past_declaration (hk : keyword.isPunct .dot = false) (stop : Span) (kind : DeclarationKind) (us : List Token) :
    Past (keyword :: us) (declaration stop kind keyword us).rest (declaration stop kind keyword us).afterDot := by
  unfold declaration
  split
  · exact hk ▸ past_cons keyword []
  · rename_i u behind
    split
    · rename_i hn
      exact past_interfaceNamed hk (isPunct_of_ident (eq_ident_of_ident? hn) .dot) stop behind
    · rename_i hn
      exact (past_aliasNamed (isPunct_of_ident (eq_ident_of_ident? hn) .dot) behind).cons keyword
    · rename_i hn
      exact (past_enumNamed (isPunct_of_ident (eq_ident_of_ident? hn) .dot) behind).cons keyword
    · exact hk ▸ past_cons keyword _
    · have hblock (kind : DeclarationKind) : (unnamedBlock kind keyword (u :: behind)).afterDot = false := by
        unfold unnamedBlock
        dsimp only
        split
        · rfl
        · rfl
      rw [hblock]
      exact past_unnamedBlock hk _ _

end

/-! ## Visits -/

theorem isPunct_of_keywordKind? {afterDot : Bool} {t : Token} {kind : DeclarationKind}
    (h : keywordKind? afterDot t = some kind) (p : Punct) : t.isPunct p = false := by
  have hword := isIdent_of_keywordKind? h
  rw [Token.isIdent, beq_iff_eq] at hword
  exact isPunct_of_ident hword p

/-- A walk over the tokens `ts` gets to the place between `before` and `rest`, and has found `found` so far. -/
inductive Visits (stop : Span) (ts : List Token) : List Finding → List Token → List Token → Prop
  | start : Visits stop ts [] [] ts
  | pass {found : List Finding} {before rest : List Token} {t : Token} : Visits stop ts found before (t :: rest) →
      keywordKind? (endsWithDot before) t = none → Visits stop ts found (before ++ [t]) rest
  | read {found : List Finding} {before rest passed : List Token} {t : Token} {kind : DeclarationKind} :
      Visits stop ts found before (t :: rest) → keywordKind? (endsWithDot before) t = some kind →
      t :: rest = passed ++ (declaration stop kind t rest).rest →
      Visits stop ts (found ++ (declaration stop kind t rest).found) (before ++ passed)
        (declaration stop kind t rest).rest

theorem Visits.append {stop : Span} {ts before rest : List Token} {found : List Finding}
    (h : Visits stop ts found before rest) : before ++ rest = ts := by
  induction h with
  | start => rfl
  | pass _ _ ih => rw [List.append_assoc, List.singleton_append, ih]
  | read _ _ hrest ih => rw [List.append_assoc, ← hrest, ih]

/-- **What a walk finds in all is what it has found so far and what it finds from there on.** -/
theorem scan_of_visits {stop : Span} {ts before rest : List Token} {found : List Finding}
    (h : Visits stop ts found before rest) :
    scan stop false ts = found ++ scan stop (endsWithDot before) rest := by
  induction h with
  | start => rfl
  | @pass found before rest t _ hk ih => rw [ih, scan, hk, endsWithDot_concat]
  | @read found before rest passed t kind _ hk hrest ih =>
    obtain ⟨front, last, hpast, hlast⟩ := past_declaration (isPunct_of_keywordKind? hk .dot) stop kind rest
    -- what has been passed ends with the token that the reader looks back at
    have hpassed : passed = front ++ [last] := by
      rw [hpast, List.append_cons] at hrest
      exact (List.append_cancel_right hrest).symm
    rw [ih, scan, hk, hpassed, ← List.append_assoc, ← List.append_assoc, endsWithDot_concat, hlast]

/-- **Whatever a walk finds, it finds at a keyword that it visits.** -/
theorem exists_visits {stop : Span} {ts before rest : List Token} {found : List Finding}
    (h : Visits stop ts found before rest) {x : Finding} (hx : x ∈ scan stop (endsWithDot before) rest) :
    ∃ found before keyword us kind, Visits stop ts found before (keyword :: us) ∧
      keywordKind? (endsWithDot before) keyword = some kind ∧ x ∈ (declaration stop kind keyword us).found := by
  generalize hdot : endsWithDot before = afterDot at hx
  fun_induction scan stop afterDot rest generalizing found before with
  | case1 => cases hx
  | case2 afterDot t ts hk ih =>
    subst hdot
    exact ih (h.pass hk) (endsWithDot_concat before t) hx
  | case3 =>
    rename_i t us kind hk reading ih
    subst hdot
    rcases List.mem_append.1 hx with hx | hx
    · exact ⟨found, before, t, us, kind, h, hk, hx⟩
    · obtain ⟨front, last, hpast, hlast⟩ := past_declaration (isPunct_of_keywordKind? hk .dot) stop kind us
      rw [List.append_cons] at hpast
      refine ih (h.read hk hpast) ?_ hx
      rw [← List.append_assoc, endsWithDot_concat, hlast]

end Extract

end TypeSchema
