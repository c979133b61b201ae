import Mathlib
import TypeSchema.Proofs.TypeExpr.Completeness
import TypeSchema.Proofs.TypeExpr.Keys
import TypeSchema.Proofs.TypeExpr.Soundness

/-!
# The language of type expressions without records

The grammar as it is written down, one predicate for each of its lines:

```text
type     := union '?'? end                                                     IsType
union    := '|'? suffixed ('|' suffixed)*                                      IsUnion, AreBranches
suffixed := primary ('[' ']')*                                                 IsSuffixed
primary  := '(' union ')' | string | name ('<' union (',' union)* '>')?        IsPrimary, AreArguments
name     := identifier ('.' identifier)*                                       Names
```

Each says which tree the tokens have, and on which level they stand; `allowed` says which levels there are.  Where no
record is written, this is what `Derives` says with its record rules left out (`isPart_of_derives`, `IsUnion.derives`),
so the parser reads exactly this language (`parse_eq_ok_iff_isType`).
-/

namespace TypeSchema

namespace Parser

/-! ## The grammar -/

mutual

/-- Branches with bars between them, and perhaps one before the first.  A single branch stands for itself. -/
inductive IsUnion (allowed : Nat → Prop) : Nat → List Token → TypeExpr → Prop
  | bare {level : Nat} {ts : List Token} {es : List TypeExpr} : allowed level → AreBranches allowed level ts es →
      IsUnion allowed level ts (joined es)
  | barred {level : Nat} {bar : Token} {ts : List Token} {es : List TypeExpr} : allowed level →
      bar.kind = .punct .pipe → AreBranches allowed level ts es → IsUnion allowed level (bar :: ts) (joined es)

/-- The branches of a union on this level. -/
inductive AreBranches (allowed : Nat → Prop) : Nat → List Token → List TypeExpr → Prop
  | one {level : Nat} {ts : List Token} {e : TypeExpr} : IsSuffixed allowed level ts e →
      AreBranches allowed level ts [e]
  | more {level : Nat} {ts us : List Token} {bar : Token} {e : TypeExpr} {es : List TypeExpr} :
      IsSuffixed allowed level ts e → bar.kind = .punct .pipe → AreBranches allowed level us es →
      AreBranches allowed level (ts ++ bar :: us) (e :: es)

/-- A primary with suffixes: in a union on `level`, the `i`th suffix stands on `level + i`. -/
inductive IsSuffixed (allowed : Nat → Prop) : Nat → List Token → TypeExpr → Prop
  | suffixes {level n : Nat} {ts us : List Token} {e : TypeExpr} : IsPrimary allowed level ts e → Brackets n us →
      (∀ i, 1 ≤ i → i ≤ n → allowed (level + i)) → IsSuffixed allowed level (ts ++ us) (arrayed n e)

/-- A group, a string, or a name with or without arguments.  What stands inside is one level deeper. -/
inductive IsPrimary (allowed : Nat → Prop) : Nat → List Token → TypeExpr → Prop
  | group {level : Nat} {opening closing : Token} {ts : List Token} {e : TypeExpr} :
      opening.kind = .punct .openParen → IsUnion allowed (level + 1) ts e → closing.kind = .punct .closeParen →
      IsPrimary allowed level (opening :: (ts ++ [closing])) e
  | literal {level : Nat} {t : Token} {value : String} {quote : Char} : t.kind = .str value quote →
      IsPrimary allowed level [t] (.literal ⟨value, quote⟩)
  | keyword {level : Nat} {ts : List Token} {p : Primitive} : Names ts p.keyword →
      IsPrimary allowed level ts (.primitive p)
  | reference {level : Nat} {ts : List Token} {name : String} : Names ts name →
      (∀ p : Primitive, p.keyword ≠ name) → IsPrimary allowed level ts (.reference name)
  | array {level : Nat} {ts us : List Token} {opening closing : Token} {e : TypeExpr} : Names ts "Array" →
      opening.kind = .punct .openAngle → IsUnion allowed (level + 1) us e → closing.kind = .punct .closeAngle →
      IsPrimary allowed level (ts ++ opening :: (us ++ [closing])) (.array e)
  | generic {level : Nat} {ts us : List Token} {name : String} {opening closing : Token} {es : List TypeExpr} :
      Names ts name → (name = "Array" → es.length ≠ 1) → opening.kind = .punct .openAngle →
      AreArguments allowed (level + 1) us es → closing.kind = .punct .closeAngle →
      IsPrimary allowed level (ts ++ opening :: (us ++ [closing])) (.generic name es)

/-- The arguments of a name, unions on this level with commas between them. -/
inductive AreArguments (allowed : Nat → Prop) : Nat → List Token → List TypeExpr → Prop
  | one {level : Nat} {ts : List Token} {e : TypeExpr} : IsUnion allowed level ts e →
      AreArguments allowed level ts [e]
  | more {level : Nat} {ts us : List Token} {comma : Token} {e : TypeExpr} {es : List TypeExpr} :
      IsUnion allowed level ts e → comma.kind = .punct .comma → AreArguments allowed level us es →
      AreArguments allowed level (ts ++ comma :: us) (e :: es)

end

/-- A whole type expression: a union on the first level, and perhaps a question mark. -/
inductive IsType (allowed : Nat → Prop) : List Token → TypeExpr → Prop
  | bare {ts : List Token} {e : TypeExpr} : IsUnion allowed 1 ts e → IsType allowed ts e
  | optional {ts : List Token} {question : Token} {e : TypeExpr} : IsUnion allowed 1 ts e →
      question.kind = .punct .question → IsType allowed (ts ++ [question]) (.optional e)

/-- Nowhere does an angle open right behind the identifier `Record`. -/
def RecordFree (ts : List Token) : Prop :=
  ts.IsChain fun t u => ¬(t.kind = .ident "Record" ∧ u.kind = .punct .openAngle)

instance (ts : List Token) : Decidable (RecordFree ts) :=
  inferInstanceAs (Decidable (ts.IsChain fun t u => ¬(t.kind = .ident "Record" ∧ u.kind = .punct .openAngle)))

theorem RecordFree.part {ts us : List Token} (h : RecordFree ts) (hi : us <:+: ts) : RecordFree us :=
  List.IsChain.infix h hi

/-! ## Names -/

/-- A name of several identifiers has a dot. -/
theorem NameTail.eq_or_dot_mem {name full : String} {ts : List Token} (h : NameTail name ts full) :
    (ts = [] ∧ full = name) ∨ '.' ∈ full.toList := by
  have hkeep {name full : String} {ts : List Token} (h : NameTail name ts full) (hd : '.' ∈ name.toList) :
      '.' ∈ full.toList := by
    induction h with
    | done => exact hd
    | part _ _ _ ih => exact ih (by simp [hd])
  cases h with
  | done => exact .inl ⟨rfl, rfl⟩
  | part _ _ h => exact .inr (hkeep h (by simp))

/-- Where no record is written, no name before an angle is that of a record. -/
theorem ne_record_of_names {ts us : List Token} {opening : Token} {name : String} (hn : Names ts name)
    (ho : opening.kind = .punct .openAngle) (hfree : RecordFree (ts ++ opening :: us)) : name ≠ "Record" := by
  rintro rfl
  obtain ⟨t, vs, first, rfl, ht, htail⟩ := hn
  rcases htail.eq_or_dot_mem with ⟨rfl, rfl⟩ | hdot
  · have hchain := List.isChain_cons_cons.1 hfree
    exact hchain.1 ⟨ht, ho⟩
  · exact absurd hdot (by decide)

theorem plain_of_forall_ne {name : String} (h : ∀ p : Primitive, p.keyword ≠ name) : plain name = .reference name := by
  have hnone : Primitive.ofKeyword? name = none := by
    refine List.find?_eq_none.2 fun p _ => ?_
    simpa using h p
  rw [plain, hnone]

theorem keyword_or_forall_ne (name : String) :
    (∃ p : Primitive, p.keyword = name) ∨ ∀ p : Primitive, p.keyword ≠ name := by
  by_cases h : ∃ p : Primitive, p.keyword = name
  · exact .inl h
  · exact .inr fun p hp => h ⟨p, hp⟩

/-! ## What is derived belongs to the language -/

section Derived

variable {allowed : Nat → Prop}

/-- Tokens that are a part of sort `c` belong to the line of the grammar for that sort. -/
def IsPart (allowed : Nat → Prop) : Category → Nat → List Token → List TypeExpr → Prop
  | .union, level, ts, es => ∃ e, es = [e] ∧ IsUnion allowed level ts e
  | .suffixed, level, ts, es => ∃ e, es = [e] ∧ IsSuffixed allowed level ts e
  | .primary, level, ts, es => ∃ e, es = [e] ∧ IsPrimary allowed level ts e
  | .several .union, level, ts, es => AreArguments allowed level ts es
  | .several .suffixed, level, ts, es => AreBranches allowed level ts es
  | .several _, _, _, _ => True

theorem isPrimary_plain {level : Nat} {ts : List Token} {name : String} (hn : Names ts name) :
    IsPrimary allowed level ts (plain name) := by
  rcases keyword_or_forall_ne name with ⟨p, rfl⟩ | h
  · rw [plain_keyword]
    exact .keyword hn
  · rw [plain_of_forall_ne h]
    exact .reference hn h

/-- A single argument is a union. -/
theorem AreArguments.isUnion {level : Nat} {ts : List Token} {e : TypeExpr}
    (h : AreArguments allowed level ts [e]) : IsUnion allowed level ts e := by
  cases h with
  | one h => exact h
  | more _ _ h => cases h

theorem isPrimary_applied {level : Nat} {ts us : List Token} {name : String} {opening closing : Token}
    {es : List TypeExpr} (hn : Names ts name) (ho : opening.kind = .punct .openAngle)
    (hes : AreArguments allowed (level + 1) us es) (hc : closing.kind = .punct .closeAngle) :
    IsPrimary allowed level (ts ++ opening :: (us ++ [closing])) (applied name es) := by
  unfold applied
  split
  · split
    · rename_i harray
      subst harray
      exact .array hn ho hes.isUnion hc
    · rename_i harray
      exact .generic hn (fun h => absurd h harray) ho hes hc
  · rename_i hsingle
    refine .generic hn (fun _ hlen => ?_) ho hes hc
    obtain ⟨e, rfl⟩ := List.length_eq_one_iff.1 hlen
    exact hsingle e rfl

/-- A primary without suffixes is a union of one branch. -/
theorem IsPrimary.isUnion {level : Nat} {ts : List Token} {e : TypeExpr} (h : IsPrimary allowed level ts e)
    (hl : allowed level) : IsUnion allowed level ts e := by
  have hnone : ∀ i, 1 ≤ i → i ≤ 0 → allowed (level + i) := fun i _ hi => by omega
  rw [← List.append_nil ts]
  exact .bare hl (.one (.suffixes h .none hnone))

/-- **What is derived without records belongs to the language**, if all levels down to the deepest are allowed. -/
theorem isPart_of_derives {source : String} {widens : List Token → Prop} {c : Category} {level top : Nat}
    {ts : List Token} {es : List TypeExpr} (h : Derives source widens c level ts es top) (hfree : RecordFree ts)
    (hall : ∀ l ≤ top, allowed l) : IsPart allowed c level ts es := by
  induction h with
  | @union level top ts es h ih => exact ⟨_, rfl, .bare (hall _ h.level_le) (ih hfree hall)⟩
  | @barred level top bar ts es hbar h ih =>
    have hts : RecordFree ts := hfree.part (List.suffix_cons bar ts).isInfix
    exact ⟨_, rfl, .barred (hall _ h.level_le) hbar (ih hts hall)⟩
  | @suffixed level top n ts us e h hb ih =>
    have hts : RecordFree ts := hfree.part (List.prefix_append ts us).isInfix
    obtain ⟨e', he, hprimary⟩ := ih hts fun l hl => hall l (by omega)
    cases he
    exact ⟨_, rfl, .suffixes hprimary hb fun i _ hi => hall _ (by omega)⟩
  | @group level top opening closing ts e ho h hc ih =>
    have hts : RecordFree ts := hfree.part ⟨[opening], [closing], by simp⟩
    obtain ⟨e', he, hunion⟩ := ih hts hall
    cases he
    exact ⟨_, rfl, .group ho hunion hc⟩
  | literal ht => exact ⟨_, rfl, .literal ht⟩
  | plain hn => exact ⟨_, rfl, isPrimary_plain hn⟩
  | @applied level top ts us name opening closing es hn hne ho h hc ih =>
    have hus : RecordFree us := hfree.part ⟨ts ++ [opening], [closing], by simp⟩
    exact ⟨_, rfl, isPrimary_applied hn ho (ih hus hall) hc⟩
  | record hn ho | anyRecord hn ho => exact absurd rfl (ne_record_of_names hn ho hfree)
  | @one c level top ts e h ih =>
    cases c with
    | union =>
      obtain ⟨e', he, hunion⟩ := ih hfree hall
      cases he
      exact .one hunion
    | suffixed =>
      obtain ⟨e', he, hsuffixed⟩ := ih hfree hall
      cases he
      exact .one hsuffixed
    | primary | several => trivial
  | @more c level top top' ts us sep e es h hsep h' ih ih' =>
    have hts : RecordFree ts := hfree.part (List.prefix_append ts _).isInfix
    have hus : RecordFree us := hfree.part ⟨ts ++ [sep], [], by simp⟩
    have hall₁ : ∀ l ≤ top, allowed l := fun l hl => hall l (by omega)
    have hall₂ : ∀ l ≤ top', allowed l := fun l hl => hall l (by omega)
    cases c with
    | union =>
      obtain ⟨e', he, hunion⟩ := ih hts hall₁
      cases he
      exact .more hunion hsep (ih' hus hall₂)
    | suffixed =>
      obtain ⟨e', he, hsuffixed⟩ := ih hts hall₁
      cases he
      exact .more hsuffixed hsep (ih' hus hall₂)
    | primary | several => trivial

theorem isType_of_derivesType {source : String} {widens : List Token → Prop} {ts : List Token} {e : TypeExpr}
    {top : Nat} (h : DerivesType source widens ts e top) (hfree : RecordFree ts) (hall : ∀ l ≤ top, allowed l) :
    IsType allowed ts e := by
  cases h with
  | bare h =>
    obtain ⟨e', he, hunion⟩ := isPart_of_derives h hfree hall
    cases he
    exact .bare hunion
  | @optional ts question e top h hq =>
    obtain ⟨e', he, hunion⟩ := isPart_of_derives h (hfree.part (List.prefix_append ts _).isInfix) hall
    cases he
    exact .optional hunion hq

end Derived

/-! ## The language is derived -/

section Language

variable {allowed : Nat → Prop} (source : String) (widens : List Token → Prop)

theorem allowed_max {m n : Nat} (hm : allowed m) (hn : allowed n) : allowed (max m n) := by
  rcases Nat.le_total m n with h | h
  · rwa [Nat.max_eq_right h]
  · rwa [Nat.max_eq_left h]

mutual

/-- **The language is derived** where no record is written, and reaches allowed levels only: by induction on the rules
of the grammar. -/
theorem IsUnion.derives {level : Nat} {ts : List Token} {e : TypeExpr} :
    IsUnion allowed level ts e → RecordFree ts →
      ∃ top, Derives source widens .union level ts [e] top ∧ allowed top
  | .bare hl h, hfree => by
    obtain ⟨top, hder, htop⟩ := h.derives hfree hl
    exact ⟨top, .union hder, htop⟩
  | .barred hl hbar h, hfree => by
    obtain ⟨top, hder, htop⟩ := h.derives (hfree.part (List.suffix_cons _ _).isInfix) hl
    exact ⟨top, .barred hbar hder, htop⟩

theorem AreBranches.derives {level : Nat} {ts : List Token} {es : List TypeExpr} :
    AreBranches allowed level ts es → RecordFree ts → allowed level →
      ∃ top, Derives source widens (.several .suffixed) level ts es top ∧ allowed top
  | .one h, hfree, hl => by
    obtain ⟨top, hder, htop⟩ := h.derives hfree hl
    exact ⟨top, .one hder, htop⟩
  | @AreBranches.more _ level ts us bar e es h hbar h', hfree, hl => by
    obtain ⟨top, hder, htop⟩ := h.derives (hfree.part (List.prefix_append ts _).isInfix) hl
    obtain ⟨top', hder', htop'⟩ := h'.derives (hfree.part ⟨ts ++ [bar], [], by simp⟩) hl
    exact ⟨max top top', .more hder hbar hder', allowed_max htop htop'⟩

theorem IsSuffixed.derives {level : Nat} {ts : List Token} {e : TypeExpr} :
    IsSuffixed allowed level ts e → RecordFree ts → allowed level →
      ∃ top, Derives source widens .suffixed level ts [e] top ∧ allowed top
  | @IsSuffixed.suffixes _ level n ts us e h hb hn, hfree, hl => by
    obtain ⟨top, hder, htop⟩ := h.derives (hfree.part (List.prefix_append ts _).isInfix) hl
    refine ⟨max top (level + n), .suffixed hder hb, allowed_max htop ?_⟩
    rcases Nat.eq_zero_or_pos n with rfl | hpos
    · exact hl
    · exact hn n hpos (Nat.le_refl n)

theorem IsPrimary.derives {level : Nat} {ts : List Token} {e : TypeExpr} :
    IsPrimary allowed level ts e → RecordFree ts → allowed level →
      ∃ top, Derives source widens .primary level ts [e] top ∧ allowed top
  | @IsPrimary.group _ level opening closing ts e ho h hc, hfree, _ => by
    obtain ⟨top, hder, htop⟩ := h.derives (hfree.part ⟨[opening], [closing], by simp⟩)
    exact ⟨top, .group ho hder hc, htop⟩
  | .literal ht, _, hl => ⟨level, .literal ht, hl⟩
  | .keyword hn, _, hl => by
    rw [← plain_keyword]
    exact ⟨level, .plain hn, hl⟩
  | .reference hn h, _, hl => by
    rw [← plain_of_forall_ne h]
    exact ⟨level, .plain hn, hl⟩
  | @IsPrimary.array _ level ts us opening closing e hn ho h hc, hfree, _ => by
    obtain ⟨top, hder, htop⟩ := h.derives (hfree.part ⟨ts ++ [opening], [closing], by simp⟩)
    have hname := ne_record_of_names hn ho hfree
    exact ⟨top, .applied hn hname ho (.one hder) hc, htop⟩
  | @IsPrimary.generic _ level ts us name opening closing es hn ha ho h hc, hfree, _ => by
    obtain ⟨top, hder, htop⟩ := h.derives (hfree.part ⟨ts ++ [opening], [closing], by simp⟩)
    have hname := ne_record_of_names hn ho hfree
    rw [← applied_eq_generic ha]
    exact ⟨top, .applied hn hname ho hder hc, htop⟩

theorem AreArguments.derives {level : Nat} {ts : List Token} {es : List TypeExpr} :
    AreArguments allowed level ts es → RecordFree ts →
      ∃ top, Derives source widens (.several .union) level ts es top ∧ allowed top
  | .one h, hfree => by
    obtain ⟨top, hder, htop⟩ := h.derives hfree
    exact ⟨top, .one hder, htop⟩
  | @AreArguments.more _ level ts us comma e es h hcomma h', hfree => by
    obtain ⟨top, hder, htop⟩ := h.derives (hfree.part (List.prefix_append ts _).isInfix)
    obtain ⟨top', hder', htop'⟩ := h'.derives (hfree.part ⟨ts ++ [comma], [], by simp⟩)
    exact ⟨max top top', .more hder hcomma hder', allowed_max htop htop'⟩

end

theorem IsType.derivesType {ts : List Token} {e : TypeExpr} (h : IsType allowed ts e) (hfree : RecordFree ts) :
    ∃ top, DerivesType source widens ts e top ∧ allowed top := by
  cases h with
  | bare h =>
    obtain ⟨top, hder, htop⟩ := h.derives source widens hfree
    exact ⟨top, .bare hder, htop⟩
  | @optional ts question e h hq =>
    obtain ⟨top, hder, htop⟩ := h.derives source widens (hfree.part (List.prefix_append ts _).isInfix)
    exact ⟨top, .optional hder hq, htop⟩

end Language

end Parser

/-! ## Whole texts -/

namespace TypeExpr

open TypeSchema.Parser (IsPrimary IsType IsUnion Names RecordFree applied isPrimary_applied isPrimary_plain
  isType_of_derivesType plain significant)

/-- **The parser reads exactly the language**: a text in which, comments left out, no record is written has a tree iff
its other tokens are a type expression with this tree within the nesting limit. -/
theorem parse_eq_ok_iff_isType {source : String} (hfree : RecordFree (significant (tokenize source).body))
    (e : TypeExpr) :
    parse source = .ok e ↔ IsType (· ≤ maxNesting) (significant (tokenize source).body) e := by
  constructor
  · intro h
    obtain ⟨top, hder, htop⟩ := derives_of_parse h
    exact isType_of_derivesType hder hfree fun l hl => hl.trans htop
  · intro h
    obtain ⟨top, hder, htop⟩ := h.derivesType source Parser.NoKey hfree
    exact (parse_eq_ok_iff_of_derives hder).2 htop

/-- A text with a comment, a leading bar, a group with suffixes, a dotted name and an array that is written out. -/
theorem parse_eq_ok_iff_isType_group :
    RecordFree (significant (tokenize "|Api.Page<('a'|Date)[] /* c */, Array<Record>>?").body) ∧
    IsType (· ≤ maxNesting) (significant (tokenize "|Api.Page<('a'|Date)[] /* c */, Array<Record>>?").body)
      (.optional (.generic "Api.Page" [.array (.union [.literal ⟨"a", '\''⟩, .primitive .date]),
        .array (.reference "Record")])) := by
  have hfree : RecordFree (significant (tokenize "|Api.Page<('a'|Date)[] /* c */, Array<Record>>?").body) :=
    of_decide_eq_true (by cbv)
  exact ⟨hfree, (parse_eq_ok_iff_isType hfree _).1 (by cbv)⟩

/-- A comment between the name and the angle is left out before the text is read, so this is a record, although no
angle stands right behind `Record` and the language has it as a name with two arguments. -/
theorem not_parse_eq_ok_iff_isType_commented :
    RecordFree (tokenize "Record/* c */<A, B>").body ∧
      parse "Record/* c */<A, B>" = .ok (.record "A" (.reference "B")) ∧
      ¬∀ e, parse "Record/* c */<A, B>" = .ok e ↔
        IsType (· ≤ maxNesting) (significant (tokenize "Record/* c */<A, B>").body) e := by
  have hfree : RecordFree (tokenize "Record/* c */<A, B>").body := of_decide_eq_true (by cbv)
  have hparse : parse "Record/* c */<A, B>" = .ok (.record "A" (.reference "B")) := by cbv
  -- The tokens in the parts that the grammar has for a name with arguments.
  have htokens : significant (tokenize "Record/* c */<A, B>").body =
      [⟨.ident "Record", ⟨0, 6, 1, 1⟩, "Record"⟩] ++ ⟨.punct .openAngle, ⟨13, 14, 1, 14⟩, "<"⟩ ::
        (([⟨.ident "A", ⟨14, 15, 1, 15⟩, "A"⟩] ++ ⟨.punct .comma, ⟨15, 16, 1, 16⟩, ","⟩ ::
          [⟨.ident "B", ⟨17, 18, 1, 18⟩, "B"⟩]) ++ [⟨.punct .closeAngle, ⟨18, 19, 1, 19⟩, ">"⟩]) := by cbv
  have hname {t : Token} {name : String} (ht : t.kind = .ident name) : Names [t] name :=
    ⟨t, [], name, rfl, ht, .done name⟩
  have hargument {t : Token} {name : String} (ht : t.kind = .ident name) :
      IsUnion (· ≤ maxNesting) 2 [t] (plain name) := (isPrimary_plain (hname ht)).isUnion (by decide)
  have htype : IsType (· ≤ maxNesting) (significant (tokenize "Record/* c */<A, B>").body)
      (applied "Record" [plain "A", plain "B"]) := by
    rw [htokens]
    refine .bare (IsPrimary.isUnion (isPrimary_applied (hname rfl) rfl ?_ rfl) (by decide))
    exact .more (hargument rfl) rfl (.one (hargument rfl))
  refine ⟨hfree, hparse, fun hiff => ?_⟩
  cases hparse.symm.trans ((hiff _).2 htype)

end TypeExpr

end TypeSchema
