import TypeSchema.Proofs.TypeExpr.Keys
import TypeSchema.Proofs.TypeExpr.Steps

/-!
# Parsing depends on kinds of tokens

Two parsers are `Alike` if tokens of the same kinds are left to them, on the same level.  Steps `Agree` if from parsers
that are alike they give related values, or the same fault, and leave parsers that are alike.  Every reader of the
grammar agrees with itself up to the keys of records (`agree_typeExpr`): keys are cut from the text, and no other part
of a tree is.
-/

namespace TypeSchema

namespace TypeExpr

mutual

/-- The expression with its keys taken out. -/
def withoutKeys : TypeExpr → TypeExpr
  | primitive p => primitive p
  | literal l => literal l
  | reference name => reference name
  | array e => array e.withoutKeys
  | record _ e => record "" e.withoutKeys
  | anyRecord => anyRecord
  | generic name es => generic name (withoutKeysAll es)
  | union es => union (withoutKeysAll es)
  | optional e => optional e.withoutKeys

/-- The expressions with their keys taken out. -/
def withoutKeysAll : List TypeExpr → List TypeExpr
  | [] => []
  | e :: es => e.withoutKeys :: withoutKeysAll es

end

/-- The two expressions are the same up to their keys. -/
def Matches (e f : TypeExpr) : Prop := e.withoutKeys = f.withoutKeys

/-- The two lists of expressions are the same up to their keys. -/
def MatchesAll (es fs : List TypeExpr) : Prop := withoutKeysAll es = withoutKeysAll fs

section

variable {e f : TypeExpr} {es fs : List TypeExpr}

theorem Matches.array (h : Matches e f) : Matches (.array e) (.array f) := congrArg TypeExpr.array h

theorem Matches.record (h : Matches e f) (j k : String) : Matches (.record j e) (.record k f) :=
  congrArg (TypeExpr.record "") h

theorem Matches.optional (h : Matches e f) : Matches (.optional e) (.optional f) := congrArg TypeExpr.optional h

theorem MatchesAll.generic (h : MatchesAll es fs) (name : String) : Matches (.generic name es) (.generic name fs) :=
  congrArg (TypeExpr.generic name) h

theorem MatchesAll.union (h : MatchesAll es fs) : Matches (.union es) (.union fs) := congrArg TypeExpr.union h

theorem MatchesAll.cons (h : Matches e f) (hs : MatchesAll es fs) : MatchesAll (e :: es) (f :: fs) := by
  rw [MatchesAll, withoutKeysAll, withoutKeysAll, h, hs]

theorem MatchesAll.of_cons (h : MatchesAll (e :: es) (f :: fs)) : Matches e f ∧ MatchesAll es fs :=
  List.cons.inj h

end

end TypeExpr

/-- A text that starts with a word is not collapsed to nothing. -/
theorem Text.collapseChars_ne_nil {cs : List Char} (h : startsWord cs = true) : collapseChars cs ≠ [] := by
  cases cs with
  | nil => cases h
  | cons c cs =>
    have hc : isBlank c = false := by simpa [startsWord] using h
    obtain ⟨w, ws, hw⟩ : ∃ w ws, words (c :: cs) = (c :: w) :: ws := by
      rw [words, if_neg (by simp [hc])]
      split
      · split
        · exact ⟨[], [], rfl⟩
        · exact ⟨_, _, rfl⟩
      · exact ⟨[], _, rfl⟩
    rw [collapseChars, hw]
    cases ws <;> simp

namespace Parser

open TypeExpr (Matches MatchesAll)

variable {α β γ δ : Type}

/-! ## Two parsers side by side -/

/-- Every stretch of these tokens has a text in the source. -/
def HasTexts (source : String) (ts : List Token) : Prop :=
  ∀ key, key <:+: ts → key ≠ [] → ∃ text, keyText? source key = some text

theorem HasTexts.mono {source : String} {ts us : List Token} (h : HasTexts source ts) (hu : us <:+: ts) :
    HasTexts source us := fun key hk => h key (hk.trans hu)

/-- Tokens of the same kinds are left to the parsers of the two sources, on the same level. -/
structure Alike (sources : String × String) (p q : Parser) : Prop where
  kinds : p.rest.map Token.kind = q.rest.map Token.kind
  depth : p.depth = q.depth
  tooDeep : p.tooDeep = q.tooDeep
  source_eq : (p.source, q.source) = sources
  left : HasTexts p.source p.rest
  right : HasTexts q.source q.rest

/-- The two steps ended in the same way: with related values, or with the same fault. -/
def Related (sources : String × String) (R : α → β → Prop) :
    EStateM.Result ParseFailure Parser α → EStateM.Result ParseFailure Parser β → Prop
  | .ok a p, .ok b q => R a b ∧ Alike sources p q
  | .error e p, .error f q => e.fault = f.fault ∧ Alike sources p q
  | _, _ => False

/-- From parsers that are alike the two steps end in the same way. -/
def Agree (sources : String × String) (R : α → β → Prop) (s : Step α) (s' : Step β) : Prop :=
  ∀ p q, Alike sources p q → Related sources R (s p) (s' q)

variable {sources : String × String}

section

variable {p q : Parser}

theorem Alike.current (h : Alike sources p q) : p.current.kind = q.current.kind := by
  have hk := h.kinds
  unfold Parser.current
  cases hp : p.rest with
  | nil =>
    cases hq : q.rest with
    | nil => rfl
    | cons u us => rw [hp, hq] at hk; cases hk
  | cons t ts =>
    cases hq : q.rest with
    | nil => rw [hp, hq] at hk; cases hk
    | cons u us => rw [hp, hq] at hk; exact (List.cons.inj hk).1

/-- Parsers that are alike stay so if they go on at tokens of the same kinds. -/
theorem Alike.goOn (h : Alike sources p q) {ts us : List Token} (hts : ts <:+: p.rest) (hus : us <:+: q.rest)
    (hk : ts.map Token.kind = us.map Token.kind) : Alike sources { p with rest := ts } { q with rest := us } :=
  ⟨hk, h.depth, h.tooDeep, h.source_eq, h.left.mono hts, h.right.mono hus⟩

theorem Alike.atDepth (h : Alike sources p q) (n : Nat) : Alike sources { p with depth := n } { q with depth := n } :=
  ⟨h.kinds, rfl, h.tooDeep, h.source_eq, h.left, h.right⟩

end

/-! ## Single steps -/

section

variable {R : α → β → Prop} {S : γ → δ → Prop}

theorem agree_pure {a : α} {b : β} (h : R a b) : Agree sources R (pure a) (pure b) := fun _ _ hpq => ⟨h, hpq⟩

theorem Agree.bind {s : Step α} {s' : Step β} (h : Agree sources R s s') {f : α → Step γ} {g : β → Step δ}
    (hf : ∀ a b, R a b → Agree sources S (f a) (g b)) : Agree sources S (s >>= f) (s' >>= g) := by
  intro p q hpq
  have hs := h p q hpq
  cases hp : s p with
  | ok a p' =>
    cases hq : s' q with
    | ok b q' =>
      rw [hp, hq] at hs
      rw [bind_of_ok hp, bind_of_ok hq]
      exact hf a b hs.1 p' q' hs.2
    | error => rw [hp, hq] at hs; exact hs.elim
  | error e p' =>
    cases hq : s' q with
    | ok => rw [hp, hq] at hs; exact hs.elim
    | error f q' =>
      rw [hp, hq] at hs
      rw [bind_of_error hp, bind_of_error hq]
      exact hs

theorem agree_fail (fault : ParseFault) : Agree sources R (fail fault) (fail fault) := fun _ _ hpq => ⟨rfl, hpq⟩

theorem agree_peek : Agree sources Eq peek peek := fun _ _ hpq => ⟨hpq.current, hpq⟩

theorem agree_remaining : Agree sources Eq remaining remaining := by
  intro p q hpq
  have hlength := congrArg List.length hpq.kinds
  rw [List.length_map, List.length_map] at hlength
  exact ⟨hlength, hpq⟩

theorem agree_advance : Agree sources Eq advance advance := by
  intro p q hpq
  have hk := congrArg List.tail hpq.kinds
  rw [← List.map_tail, ← List.map_tail] at hk
  exact ⟨rfl, hpq.goOn (List.tail_suffix _).isInfix (List.tail_suffix _).isInfix hk⟩

theorem agree_eat (x : Punct) : Agree sources Eq (eat x) (eat x) := by
  refine agree_peek.bind ?_
  rintro kind _ rfl
  split
  · exact agree_advance.bind fun _ _ _ => agree_pure rfl
  · exact agree_pure rfl

theorem agree_expect (x : Punct) : Agree sources Eq (expect x) (expect x) := by
  refine (agree_eat x).bind ?_
  rintro b _ rfl
  split
  · exact agree_pure rfl
  · refine agree_peek.bind ?_
    rintro kind _ rfl
    exact agree_fail _

theorem agree_failTooDeep : Agree sources R failTooDeep failTooDeep :=
  fun _ _ hpq => ⟨rfl, hpq.kinds, hpq.depth, rfl, hpq.source_eq, hpq.left, hpq.right⟩

theorem agree_enter : Agree sources Eq enter enter := by
  intro p q hpq
  unfold enter
  rw [hpq.depth]
  split
  · exact agree_failTooDeep p q hpq
  · exact ⟨rfl, hpq.atDepth _⟩

theorem agree_onLevel {s : Step α} {s' : Step β} (h : Agree sources R s s') :
    Agree sources R (onLevel s) (onLevel s') := by
  intro p q hpq
  have hs := h p q hpq
  unfold onLevel
  rw [hpq.depth]
  cases hp : s p with
  | ok a p' =>
    cases hq : s' q with
    | ok b q' => rw [hp, hq] at hs; exact ⟨hs.1, hs.2.atDepth _⟩
    | error => rw [hp, hq] at hs; exact hs.elim
  | error e p' =>
    cases hq : s' q with
    | ok => rw [hp, hq] at hs; exact hs.elim
    | error f q' => rw [hp, hq] at hs; exact ⟨hs.1, hs.2.atDepth _⟩

end

/-! ## Pieces of the grammar -/

section

variable {inner : Step TypeExpr}

theorem agree_more {item : Step TypeExpr} (h : Agree sources Matches item item) (separator : Punct) (n : Nat) :
    Agree sources MatchesAll (more separator item n) (more separator item n) := by
  induction n with
  | zero => exact agree_pure rfl
  | succ n ih =>
    refine (agree_eat separator).bind ?_
    rintro b _ rfl
    split
    · exact h.bind fun e f hef => ih.bind fun es fs hes => agree_pure (.cons hef hes)
    · exact agree_pure rfl

theorem agree_dotted (name : String) (n : Nat) : Agree sources Eq (dotted name n) (dotted name n) := by
  induction n generalizing name with
  | zero => exact agree_pure rfl
  | succ n ih =>
    refine (agree_eat .dot).bind ?_
    rintro b _ rfl
    split
    · refine agree_peek.bind ?_
      rintro kind _ rfl
      split
      · exact agree_advance.bind fun _ _ _ => ih _
      · exact agree_fail _
    · exact agree_pure rfl

/-- Where a key ends depends on kinds only. -/
theorem splitKey?_congr {ts us : List Token} (h : ts.map Token.kind = us.map Token.kind) (depth : Nat) :
    splitKey? depth ts = none ∧ splitKey? depth us = none ∨
      ∃ key rest key' rest', splitKey? depth ts = some (key, rest) ∧ splitKey? depth us = some (key', rest') ∧
        key.map Token.kind = key'.map Token.kind ∧ rest.map Token.kind = rest'.map Token.kind := by
  induction ts generalizing us depth with
  | nil =>
    cases us with
    | nil => exact .inl ⟨rfl, rfl⟩
    | cons u us => cases h
  | cons t ts ih =>
    cases us with
    | nil => cases h
    | cons u us =>
      obtain ⟨hk, hs⟩ := List.cons.inj h
      have hcomma : t.isPunct .comma = u.isPunct .comma := by rw [Token.isPunct, hk, Token.isPunct]
      rw [splitKey?, splitKey?, hcomma, hk]
      split
      · exact .inr ⟨[], t :: ts, [], u :: us, rfl, rfl, rfl, h⟩
      · split
        · exact .inl ⟨rfl, rfl⟩
        · rcases ih hs (u.kind.nesting depth) with ⟨h₁, h₂⟩ | ⟨key, rest, key', rest', h₁, h₂, hkey, hrest⟩
          · exact .inl ⟨by rw [h₁]; rfl, by rw [h₂]; rfl⟩
          · refine .inr ⟨t :: key, rest, u :: key', rest', by rw [h₁]; rfl, by rw [h₂]; rfl, ?_, hrest⟩
            rw [List.map_cons, List.map_cons, hk, hkey]

/-- Where angles are closed depends on kinds only. -/
theorem afterAngles?_congr {ts us : List Token} (h : ts.map Token.kind = us.map Token.kind) (depth : Nat) :
    (afterAngles? depth ts).map (List.map Token.kind) = (afterAngles? depth us).map (List.map Token.kind) := by
  induction ts generalizing us depth with
  | nil =>
    cases us with
    | nil => rfl
    | cons u us => cases h
  | cons t ts ih =>
    cases us with
    | nil => cases h
    | cons u us =>
      obtain ⟨hk, hs⟩ := List.cons.inj h
      have hpunct (x : Punct) : t.isPunct x = u.isPunct x := by rw [Token.isPunct, hk, Token.isPunct]
      simp only [afterAngles?, hpunct]
      split
      · exact ih hs _
      · split
        · split
          · exact congrArg some hs
          · exact ih hs _
        · exact ih hs _

theorem agree_skipAngles : Agree sources Eq skipAngles skipAngles := by
  intro p q hpq
  have hangles := afterAngles?_congr hpq.kinds 0
  unfold skipAngles
  cases hp : afterAngles? 0 p.rest with
  | none =>
    cases hq : afterAngles? 0 q.rest with
    | none => exact ⟨rfl, hpq.goOn List.nil_infix List.nil_infix rfl⟩
    | some us => rw [hp, hq] at hangles; cases hangles
  | some ts =>
    cases hq : afterAngles? 0 q.rest with
    | none => rw [hp, hq] at hangles; cases hangles
    | some us =>
      rw [hp, hq] at hangles
      have hsuffix {ts rest : List Token} (h : afterAngles? 0 ts = some rest) : rest <:+: ts := by
        obtain ⟨before, rfl, -⟩ := exists_of_afterAngles? h
        exact (List.suffix_append _ _).isInfix
      exact ⟨rfl, hpq.goOn (hsuffix hp) (hsuffix hq) (Option.some.inj hangles)⟩

/-- Related arguments of records: none in both, or values that match. -/
def SameArguments : Option (String × TypeExpr) → Option (String × TypeExpr) → Prop
  | none, none => True
  | some a, some b => Matches a.2 b.2
  | _, _ => False

theorem agree_recordArguments (h : Agree sources Matches inner inner) :
    Agree sources SameArguments (recordArguments inner) (recordArguments inner) := by
  intro p q hpq
  rcases splitKey?_congr hpq.kinds 0 with ⟨h₁, h₂⟩ | ⟨key, rest, key', rest', h₁, h₂, hkey, hrest⟩
  · rw [recordArguments_none h₁, recordArguments_none h₂]
    exact ⟨trivial, hpq⟩
  · obtain ⟨hp, -⟩ := key_of_splitKey? h₁
    obtain ⟨hq, -⟩ := key_of_splitKey? h₂
    cases key with
    | nil =>
      obtain rfl : key' = [] := List.map_eq_nil_iff.1 hkey.symm
      have hnone {p : Parser} {rest : List Token} (hs : splitKey? 0 p.rest = some ([], rest)) :
          recordArguments inner p = .ok none p := by
        rcases recordArguments_cases inner p with h | ⟨key, rest', text, hs', ht⟩
        · exact h
        · rw [hs] at hs'
          obtain ⟨rfl, rfl⟩ := Prod.mk.inj (Option.some.inj hs')
          cases ht
      rw [hnone h₁, hnone h₂]
      exact ⟨trivial, hpq⟩
    | cons t key =>
      have hne : key' ≠ [] := by
        rintro rfl
        cases hkey
      obtain ⟨text, ht⟩ := hpq.left (t :: key) (hp ▸ (List.prefix_append _ _).isInfix) (List.cons_ne_nil _ _)
      obtain ⟨text', ht'⟩ := hpq.right key' (hq ▸ (List.prefix_append _ _).isInfix) hne
      rw [recordArguments_some h₁ ht, recordArguments_some h₂ ht']
      have hsteps : Agree sources SameArguments
          (do expect .comma; let value ← inner; expect .closeAngle; return some (text, value))
          (do expect .comma; let value ← inner; expect .closeAngle; return some (text', value)) :=
        (agree_expect .comma).bind fun _ _ _ => h.bind fun e f hef =>
          (agree_expect .closeAngle).bind fun _ _ _ => agree_pure hef
      refine hsteps _ _ (hpq.goOn ?_ ?_ hrest)
      · exact hp ▸ (List.suffix_append _ _).isInfix
      · exact hq ▸ (List.suffix_append _ _).isInfix

/-- Going back to where tokens of the same kinds were left. -/
theorem Alike.goBack {p q p' q' : Parser} (h : Alike sources p q) (h' : Alike sources p' q') :
    Alike sources { p' with rest := p.rest } { q' with rest := q.rest } := by
  obtain ⟨hp, hq⟩ := Prod.mk.inj (h'.source_eq.trans h.source_eq.symm)
  refine ⟨h.kinds, h'.depth, h'.tooDeep, h'.source_eq, ?_, ?_⟩
  · show HasTexts p'.source p.rest
    rw [hp]
    exact h.left
  · show HasTexts q'.source q.rest
    rw [hq]
    exact h.right

theorem agree_record (h : Agree sources Matches inner inner) :
    Agree sources Matches (record inner) (record inner) := by
  intro p q hpq
  have hargs := agree_advance.bind (fun _ _ _ => agree_recordArguments h) p q hpq
  have hwiden : Agree sources Matches (do skipAngles; return .anyRecord) (do skipAngles; return .anyRecord) :=
    agree_skipAngles.bind fun _ _ _ => agree_pure rfl
  unfold record
  dsimp only
  cases hp : (do advance; recordArguments inner : Step (Option (String × TypeExpr))) p with
  | ok a p' =>
    cases hq : (do advance; recordArguments inner : Step (Option (String × TypeExpr))) q with
    | ok b q' =>
      rw [hp, hq] at hargs
      obtain ⟨hab, h'⟩ := hargs
      cases a with
      | none =>
        cases b with
        | none => exact hwiden _ _ (hpq.goBack h')
        | some => exact hab.elim
      | some a =>
        cases b with
        | none => exact hab.elim
        | some b => exact ⟨hab.record a.1 b.1, h'⟩
    | error => rw [hp, hq] at hargs; exact hargs.elim
  | error e p' =>
    cases hq : (do advance; recordArguments inner : Step (Option (String × TypeExpr))) q with
    | ok => rw [hp, hq] at hargs; exact hargs.elim
    | error f q' =>
      rw [hp, hq] at hargs
      obtain ⟨hef, h'⟩ := hargs
      dsimp only
      by_cases hdeep : q'.tooDeep = true
      · rw [if_pos (h'.tooDeep.trans hdeep), if_pos hdeep]
        exact ⟨hef, h'⟩
      · rw [if_neg (by rwa [h'.tooDeep]), if_neg hdeep]
        exact hwiden _ _ (hpq.goBack h')

theorem agree_arguments (h : Agree sources Matches inner inner) :
    Agree sources MatchesAll (arguments inner) (arguments inner) := by
  refine agree_advance.bind fun _ _ _ => h.bind fun e f hef => agree_remaining.bind ?_
  rintro n _ rfl
  exact (agree_more h .comma n).bind fun es fs hes =>
    (agree_expect .closeAngle).bind fun _ _ _ => agree_pure (.cons hef hes)

theorem matches_applied {es fs : List TypeExpr} (h : MatchesAll es fs) (name : String) :
    Matches (applied name es) (applied name fs) := by
  match es, fs, h with
  | [], [], h => exact h.generic name
  | [e], [f], h =>
    by_cases hn : name = "Array"
    · simp only [applied, if_pos hn]
      exact h.of_cons.1.array
    · simp only [applied, if_neg hn]
      exact h.generic name
  | _ :: _ :: _, _ :: _ :: _, h => exact h.generic name
  | [_], _ :: _ :: _, h => cases h.of_cons.2
  | _ :: _ :: _, [_], h => cases h.of_cons.2

theorem agree_named (h : Agree sources Matches inner inner) (first : String) :
    Agree sources Matches (named inner first) (named inner first) := by
  refine agree_remaining.bind ?_
  rintro n _ rfl
  refine (agree_dotted first n).bind ?_
  rintro name _ rfl
  refine agree_peek.bind ?_
  rintro kind _ rfl
  split
  · split
    · exact agree_record h
    · exact (agree_arguments h).bind fun es fs hes => agree_pure (matches_applied hes name)
  · exact agree_pure rfl

theorem agree_primary (h : Agree sources Matches inner inner) :
    Agree sources Matches (primary inner) (primary inner) := by
  refine agree_peek.bind ?_
  rintro kind _ rfl
  split
  · exact agree_advance.bind fun _ _ _ => h.bind fun e f hef =>
      (agree_expect .closeParen).bind fun _ _ _ => agree_pure hef
  · exact agree_advance.bind fun _ _ _ => agree_pure rfl
  · exact agree_advance.bind fun _ _ _ => agree_named h _
  · exact agree_fail _
  · exact agree_fail _
  · exact agree_fail _

theorem agree_suffixes {e f : TypeExpr} (h : Matches e f) (n : Nat) :
    Agree sources Matches (suffixes e n) (suffixes f n) := by
  induction n generalizing e f with
  | zero => exact agree_pure h
  | succ n ih =>
    refine (agree_eat .openBracket).bind ?_
    rintro b _ rfl
    split
    · exact (agree_expect .closeBracket).bind fun _ _ _ => agree_enter.bind fun _ _ _ => ih h.array
    · exact agree_pure h

theorem agree_suffixed (h : Agree sources Matches inner inner) :
    Agree sources Matches (suffixed inner) (suffixed inner) := by
  refine (agree_primary h).bind fun e f hef => agree_onLevel (agree_remaining.bind ?_)
  rintro n _ rfl
  exact agree_suffixes hef n

theorem agree_branches (h : Agree sources Matches inner inner) :
    Agree sources Matches (branches inner) (branches inner) := by
  refine (agree_eat .pipe).bind fun _ _ _ => (agree_suffixed h).bind fun e f hef => agree_remaining.bind ?_
  rintro n _ rfl
  refine (agree_more (agree_suffixed h) .pipe n).bind fun es fs hes => ?_
  match es, fs, hes with
  | [], [], _ => exact agree_pure hef
  | _ :: _, _ :: _, hes => exact agree_pure (MatchesAll.union (.cons hef hes))

theorem agree_union (levels : Nat) : Agree sources Matches (union levels) (union levels) := by
  induction levels with
  | zero => exact agree_failTooDeep
  | succ levels ih => exact agree_onLevel (agree_enter.bind fun _ _ _ => agree_branches ih)

/-- **Reading a type expression depends on the kinds of tokens only**, up to the keys of records. -/
theorem agree_typeExpr : Agree sources Matches typeExpr typeExpr := by
  refine (agree_union maxNesting).bind fun e f hef => (agree_eat .question).bind ?_
  rintro b _ rfl
  have hopt : Matches (if b = true then .optional e else e) (if b = true then .optional f else f) := by
    split
    · exact hef.optional
    · exact hef
  refine agree_peek.bind ?_
  rintro kind _ rfl
  split
  · exact agree_pure hopt
  · exact agree_fail _

end

/-! ## Keys have texts -/

/-- Some of the tokens of a list stand in a stretch of it that starts with the first and ends with the last of them. -/
theorem exists_stretch_of_sublist {ts key : List Token} (h : key.Sublist ts) (hne : key ≠ []) :
    ∃ us vs ws, ts = us ++ vs ++ ws ∧ vs.head? = key.head? ∧ vs.getLast? = key.getLast? := by
  induction h with
  | slnil => exact absurd rfl hne
  | cons t _ ih =>
    obtain ⟨us, vs, ws, rfl, hh, hl⟩ := ih hne
    exact ⟨t :: us, vs, ws, rfl, hh, hl⟩
  | @cons_cons key ts t _ ih =>
    cases key with
    | nil => exact ⟨[], [t], ts, rfl, rfl, rfl⟩
    | cons u key =>
      obtain ⟨us, vs, ws, rfl, -, hl⟩ := ih (List.cons_ne_nil _ _)
      refine ⟨[], t :: (us ++ vs), ws, by simp, rfl, ?_⟩
      have hlast : (u :: key).getLast? = some _ := List.getLast?_eq_some_getLast (List.cons_ne_nil u key)
      rw [List.getLast?_cons_cons, ← List.cons_append, List.getLast?_append, hl, hlast, Option.some_or]

/-- **Every stretch of tokens of a text has a text.** -/
theorem hasTexts_of_sublist {source : String} {ts : List Token} (h : ts.Sublist (tokenize source).body) :
    HasTexts source ts := by
  intro key hkey hne
  obtain ⟨us, vs, ws, hbody, hhead, hlast⟩ := exists_stretch_of_sublist (hkey.sublist.trans h) hne
  obtain ⟨first, last, hf, hl⟩ : ∃ first last, key.head? = some first ∧ key.getLast? = some last :=
    ⟨key.head hne, key.getLast hne, List.head?_eq_some_head hne, List.getLast?_eq_some_getLast hne⟩
  have hreads := Lexer.reads_tokenize source
  rw [hbody, List.append_assoc] at hreads
  obtain ⟨w₁, w₂₃, hsource, -, hreads⟩ := hreads.split
  obtain ⟨w₂, w₃, rfl, hreads, -⟩ := hreads.split
  obtain ⟨b, v, b', rfl, -, -, -, hstart, -, hslice⟩ := hreads.exists_slice (hhead.trans hf) (hlast.trans hl)
  have hcut : source.toList = w₁ ++ (b ++ v ++ b') ++ (w₃ ++ []) := by simp [hsource]
  rw [keyText?_eq hf hl, hslice w₁ source hcut rfl]
  refine ⟨_, if_neg ?_⟩
  rw [String.isEmpty_iff, Text.collapse, ← String.toList_inj, String.toList_ofList, String.toList_ofList]
  exact Text.collapseChars_ne_nil hstart

/-! ## Whole texts -/

end Parser

/-- The message of an error about a type expression. -/
def Error.parseMessage? (e : Error) : Option String :=
  match e.cause with
  | .parse message _ _ _ => some message
  | _ => none

namespace TypeExpr

/-- Both readings give the same tree up to keys, or fail with the same message. -/
def SameReading : Except Error TypeExpr → Except Error TypeExpr → Prop
  | .ok e, .ok f => Matches e f
  | .error e, .error f => ∃ message, e.parseMessage? = some message ∧ f.parseMessage? = some message
  | _, _ => False

end TypeExpr

/-- **Parsers that are alike read the same.** -/
theorem Parser.sameReading_run {sources : String × String} {p q : Parser} (h : Alike sources p q) :
    TypeExpr.SameReading p.run.1 q.run.1 := by
  have hread := agree_typeExpr p q h
  unfold run
  cases hp : typeExpr p with
  | ok e p' =>
    cases hq : typeExpr q with
    | ok f q' => rw [hp, hq] at hread; exact hread.1
    | error => rw [hp, hq] at hread; exact hread.elim
  | error e p' =>
    cases hq : typeExpr q with
    | ok => rw [hp, hq] at hread; exact hread.elim
    | error f q' =>
      rw [hp, hq] at hread
      refine ⟨e.fault.message, rfl, ?_⟩
      rw [hread.1]
      rfl

end TypeSchema
