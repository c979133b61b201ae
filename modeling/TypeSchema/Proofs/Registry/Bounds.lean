import Mathlib
import TypeSchema.Proofs.Registry.IndexedMembers

/-!
# Reading never leaves the tokens

Declarations are read by index as in the list of the tokens that are left (`Resumes`), and so a walk by index over the
tokens of a source comes to an end and finds what a walk over the list finds (`findingsFrom_eq`).  As the readers by
index give nothing if they leave the tokens, they never do (`readsWithin`).
-/

namespace TypeSchema

namespace Extract

namespace Indexed

/-! ## Declarations -/

/-- The result of a reader by index is that of a reader over the list: what is found, and where to go on. -/
def Resumes (e i : Nat) (result : Option (List Finding × Option Nat)) (reading : Reading) : Prop :=
  ∃ next, result = some (reading.found, next) ∧ next.getD (i + 1) = e - reading.rest.length

section

variable {ts us : List Token} {stop : Span} {e k i : Nat} {t keyword : Token} {kind : DeclarationKind} {name : String}

theorem identAt_eq (hE : Ends ts stop e) (hc : Covers ts e k us) :
    identAt ts k = some (us.head?.bind fun t => t.kind.ident?) := by
  rw [identAt, hE.next hc, Option.map_some]
  cases us with
  | nil => rfl
  | cons t us => rfl

theorem identAt_of_kind (hE : Ends ts stop e) (hc : Covers ts e k (t :: us)) (ht : t.kind = .ident name) :
    identAt ts k = some (some name) := by
  rw [identAt_eq hE hc, List.head?_cons, Option.bind_some, ht]
  rfl

theorem resumes_unnamedBlock (hE : Ends ts stop e) (hc : Covers ts e i (keyword :: us)) :
    Resumes e i (unnamedBlockAt ts kind i) (unnamedBlock kind keyword us) := by
  have hnext := hc.tail.place
  rw [unnamedBlockAt, hE.next hc.tail, Option.bind_eq_bind, Option.bind_some]
  cases us with
  | nil => exact ⟨none, rfl, hnext⟩
  | cons t body =>
    rw [unnamedBlock, List.headD_cons]
    cases ht : t.isPunct .openBrace with
    | false => exact ⟨none, rfl, hnext⟩
    | true =>
      rw [if_pos rfl, hc.head, Option.bind_eq_bind, Option.bind_some, blockEnd_eq hE hc.tail ht]
      exact ⟨some _, rfl, rfl⟩

/-! Names -/

/-- What reading a name by index gives, from what reading it in the list does. -/
def dottedPlace (e : Nat) : Except (List Token) (String × List Token) → Option String × Nat
  | .ok (name, rest) => (some name, e - rest.length)
  | .error rest => (none, e - rest.length)

/-- One turn over the parts of a name. -/
theorem dottedTailAt_cons (hE : Ends ts stop e) (hc : Covers ts e k (t :: us)) :
    dottedTailAt ts name k =
      if t.isPunct .dot then
        match us.head?.bind fun t => t.kind.ident? with
        | some part => dottedTailAt ts (name ++ "." ++ part) (k + 2)
        | none => some (none, k)
      else some (some name, k) := by
  rw [dottedTailAt, if_pos (hE.lt_length hc), hc.head, identAt_eq hE hc.tail]
  rfl

theorem dottedTailAt_eq (hE : Ends ts stop e) (hc : Covers ts e k us) :
    dottedTailAt ts name k = some (dottedPlace e (dottedTail name us)) := by
  fun_induction dottedTail name us generalizing k with
  | case1 name =>
    rw [dottedTailAt, if_pos (hE.lt_length hc), hE.next hc]
    exact congrArg (fun n => some (some name, n)) hc.place
  | case2 name t ht =>
    rw [dottedTailAt_cons hE hc, if_pos ht]
    exact congrArg (fun n => some (none, n)) hc.place
  | case3 name t ht =>
    rw [dottedTailAt_cons hE hc, if_neg ht]
    exact congrArg (fun n => some (some name, n)) hc.place
  | case4 name t u us ht part hu ih =>
    rw [dottedTailAt_cons hE hc, if_pos ht, List.head?_cons, Option.bind_some, hu]
    exact ih hc.tail.tail
  | case5 name t u us ht hu =>
    have hpart : u.kind.ident? = none := by
      cases hk : u.kind with
      | ident part => exact absurd hk (hu part)
      | _ => rfl
    rw [dottedTailAt_cons hE hc, if_pos ht, List.head?_cons, Option.bind_some, hpart]
    exact congrArg (fun n => some (none, n)) hc.place
  | case6 name t u us ht =>
    rw [dottedTailAt_cons hE hc, if_neg ht]
    exact congrArg (fun n => some (some name, n)) hc.place

theorem dottedNameAt_eq (hE : Ends ts stop e) (hc : Covers ts e k us) :
    dottedNameAt ts k = some (dottedPlace e (dottedName us)) := by
  rw [dottedNameAt, identAt_eq hE hc]
  cases us with
  | nil => exact congrArg (fun n => some (none, n)) hc.place
  | cons t us =>
    rw [List.head?_cons, Option.bind_some, dottedName]
    cases t.kind with
    | ident name => exact dottedTailAt_eq hE hc.tail
    | _ => exact congrArg (fun n => some (none, n)) hc.place

/-- What reading a clause by index gives, from what reading it in the list does. -/
def clausePlace (e : Nat) (clause : Clause) : ClauseAt where
  bases := clause.bases
  found := clause.found
  finish :=
    match clause.finish with
    | .read rest => .read (e - rest.length)
    | .malformed rest => .malformed (e - rest.length)
    | .openArguments => .openArguments

/-- One turn over a base with arguments that are closed. -/
theorem clauseAt_angle (hE : Ends ts stop e) (hc : Covers ts e k us) {base : String} {rest inside after : List Token}
    (hd : dottedName us = .ok (base, t :: rest)) (ht : t.isPunct .openAngle = true)
    (hs : splitClosed? .openAngle .closeAngle 0 rest = some (inside, after)) (owner : String) :
    clauseAt ts owner k =
      if (after.headD (.eof stop)).isPunct .comma then
        (clauseAt ts owner (e - after.length + 1)).bind fun others =>
          some { others with found := warn t.span (.genericBase base owner) :: others.found }
      else some { found := [warn t.span (.genericBase base owner)], finish := .read (e - after.length) } := by
  have hrest := hc.suffix (rest_dottedName hd)
  have hafter := covers_behind hrest hs
  have hplace := hafter.place
  have hcomma : e - (t :: rest).length + 1 + inside.length + 2 = e - after.length + 1 := by omega
  have hfurther : k < e - after.length + 1 := by
    have hle := hc.le_suffix (rest_dottedName hd)
    omega
  rw [clauseAt, if_pos (hE.lt_length hc), dottedNameAt_eq hE hc, hd]
  simp only [dottedPlace, Option.bind_eq_bind, Option.bind_some, hrest.head]
  rw [if_pos ht, findMatching_angle hE hrest ht, hs, Option.map_some, Option.bind_some]
  dsimp only
  rw [hE.next hafter, Option.bind_some, hcomma, hplace, if_pos hfurther]

theorem clauseAt_eq (hE : Ends ts stop e) (hc : Covers ts e k us) (owner : String) :
    clauseAt ts owner k = some (clausePlace e (extendsClause stop owner us)) := by
  fun_induction extendsClause stop owner us generalizing k with
  | case1 =>
    rename_i us rest hd
    have hrest := hc.suffix (rest_of_dottedName_error hd)
    rw [clauseAt, if_pos (hE.lt_length hc), dottedNameAt_eq hE hc, hd]
    simp only [dottedPlace, Option.bind_eq_bind, Option.bind_some, hE.next hrest]
    rfl
  | case2 =>
    rename_i us base hd
    have hrest := hc.suffix (rest_dottedName hd)
    rw [clauseAt, if_pos (hE.lt_length hc), dottedNameAt_eq hE hc, hd]
    simp only [dottedPlace, Option.bind_eq_bind, Option.bind_some, hE.next hrest]
    rfl
  | case3 =>
    rename_i us base t rest hd hangle ignored hs
    have hrest := hc.suffix (rest_dottedName hd)
    rw [clauseAt, if_pos (hE.lt_length hc), dottedNameAt_eq hE hc, hd]
    simp only [dottedPlace, Option.bind_eq_bind, Option.bind_some, hrest.head]
    rw [if_pos hangle, findMatching_angle hE hrest hangle, hs]
    rfl
  | case4 =>
    rename_i us base t rest hd hangle ignored inside hs
    rw [clauseAt_angle hE hc hd hangle hs]
    rfl
  | case5 =>
    rename_i us base t rest hd hangle ignored inside u after hs hcomma others ih
    have hafter := hc.suffix ((after_splitClosed? hs).trans ((List.suffix_cons t rest).trans (rest_dottedName hd)))
    rw [clauseAt_angle hE hc hd hangle hs, List.headD_cons, if_pos hcomma, ih hafter.tail]
    rfl
  | case6 =>
    rename_i us base t rest hd hangle ignored inside u after hs hcomma
    rw [clauseAt_angle hE hc hd hangle hs, List.headD_cons, if_neg hcomma]
    rfl
  | case7 =>
    rename_i us base t rest hd hangle hcomma others ih
    have hrest := hc.suffix (rest_dottedName hd)
    rw [clauseAt, if_pos (hE.lt_length hc), dottedNameAt_eq hE hc, hd]
    simp only [dottedPlace, Option.bind_eq_bind, Option.bind_some, hrest.head]
    rw [if_neg hangle, if_pos hcomma, if_pos (Nat.lt_succ_of_le (hc.le_suffix (rest_dottedName hd))), ih hrest.tail]
    rfl
  | case8 =>
    rename_i us base t rest hd hangle hcomma
    have hrest := hc.suffix (rest_dottedName hd)
    rw [clauseAt, if_pos (hE.lt_length hc), dottedNameAt_eq hE hc, hd]
    simp only [dottedPlace, Option.bind_eq_bind, Option.bind_some, hrest.head]
    rw [if_neg hangle, if_neg hcomma]
    rfl

/-! Bodies -/

/-- What reading a body by index gives, from what reading it in the list does. -/
def bodyPlace (e : Nat) : Except Reading (List Token × List Token) → Except (List Finding × Nat) Nat
  | .ok (_, after) => .ok (e - after.length - 1)
  | .error reading => .error (reading.found, e - reading.rest.length)

theorem bodyAt_eq (hE : Ends ts stop e) (hc : Covers ts e k us) :
    bodyAt ts kind keyword name k = some (bodyPlace e (body kind keyword name us)) := by
  rw [bodyAt, hE.next hc, Option.bind_eq_bind, Option.bind_some]
  cases us with
  | nil =>
    rw [hc.place]
    rfl
  | cons t inner =>
    rw [List.headD_cons, body]
    cases ht : t.isPunct .openBrace with
    | false =>
      rw [hc.place]
      rfl
    | true =>
      rw [if_pos rfl, if_pos rfl, findMatching_brace hE hc ht, Option.bind_eq_bind, Option.bind_some]
      cases hs : splitClosed? .openBrace .closeBrace 0 inner with
      | none =>
        dsimp only [Option.map_none, bodyPlace]
        rw [← hc.tail.place]
      | some split =>
        have hplace : k + 1 + split.1.length = e - split.2.length - 1 := by
          have hbehind := (covers_behind hc hs).place
          omega
        dsimp only [Option.map_some, bodyPlace]
        rw [hplace]

/-- A body that is read lies between its braces. -/
theorem covers_body {inside after : List Token} (hc : Covers ts e k us)
    (hb : body kind keyword name us = .ok (inside, after)) :
    Covers ts (e - after.length - 1) (k + 1) inside ∧ e - after.length - 1 + 1 = e - after.length := by
  obtain ⟨opening, closing, rfl, -, -⟩ := exists_of_body_ok hb
  have hbehind := hc.tail.skip.tail.place
  have hplace : e - after.length - 1 = k + 1 + inside.length := by omega
  rw [hplace]
  exact ⟨hc.tail.cut, hbehind⟩

theorem interfaceBodyAt_eq (hE : Ends ts stop e) (hc : Covers ts e k us) (bases : List String) :
    interfaceBodyAt ts keyword name bases k = some ((interfaceBody keyword name bases us).found,
      e - (interfaceBody keyword name bases us).rest.length) := by
  rw [interfaceBodyAt, bodyAt_eq hE hc, Option.bind_eq_bind, Option.bind_some, interfaceBody]
  cases hb : body .interface keyword name us with
  | error reading => rfl
  | ok split =>
    obtain ⟨inside, after⟩ := split
    obtain ⟨hinside, hplace⟩ := covers_body hc hb
    dsimp only [bodyPlace]
    rw [membersFrom_eq hE (by omega) hinside]
    exact congrArg (fun n => some (_, n)) hplace

theorem resumes_enumAt (hE : Ends ts stop e) {nameToken : Token} (hc : Covers ts e i (keyword :: nameToken :: us))
    (hn : nameToken.kind = .ident name) : Resumes e i (enumAt ts i) (enumNamed keyword name us) := by
  have hident := identAt_of_kind hE hc.tail hn
  rw [enumAt, hc.head, Option.bind_eq_bind, Option.bind_some, hident, Option.bind_eq_bind, Option.bind_some]
  dsimp only
  rw [bodyAt_eq hE hc.tail.tail, Option.bind_eq_bind, Option.bind_some, enumNamed]
  cases hb : body .enum keyword name us with
  | error reading => exact ⟨some _, rfl, rfl⟩
  | ok split =>
    obtain ⟨inside, after⟩ := split
    obtain ⟨hinside, hplace⟩ := covers_body hc.tail.tail hb
    dsimp only [bodyPlace]
    rw [enumMembersFrom_eq hinside (by rw [hE.length_eq]; omega), Option.bind_eq_bind, Option.bind_some, hplace]
    exact ⟨some _, rfl, rfl⟩

theorem resumes_aliasAt (hE : Ends ts stop e) {nameToken : Token} (hc : Covers ts e i (keyword :: nameToken :: us))
    (hn : nameToken.kind = .ident name) : Resumes e i (aliasAt ts i) (aliasNamed keyword name us) := by
  have hident := identAt_of_kind hE hc.tail hn
  have hbehind := hc.tail.tail
  have hlength : e ≤ ts.length := by rw [hE.length_eq]; omega
  rw [aliasAt, hc.head, Option.bind_eq_bind, Option.bind_some, hident, Option.bind_eq_bind, Option.bind_some]
  dsimp only
  rw [hE.next hbehind, Option.bind_eq_bind, Option.bind_some]
  cases us with
  | nil => exact ⟨some _, rfl, hbehind.place⟩
  | cons t behind =>
    have hk : ∀ u ∈ behind, u.kind ≠ .eof := hE.kind_ne_of_mem hbehind.tail (Nat.le_refl e)
    rw [List.headD_cons, aliasNamed, hE.eofAt_eq]
    dsimp only [Option.bind_some]
    rw [expressionEnd_eq hbehind hk]
    cases t.isPunct .equals with
    | true =>
      rw [if_pos rfl, if_pos rfl, Option.bind_some, textBetween_eq hbehind hlength]
      cases typeText? (expression t behind).1 with
      | some type => exact ⟨some _, rfl, rfl⟩
      | none => exact ⟨some _, rfl, rfl⟩
    | false =>
      rw [if_neg Bool.false_ne_true, if_neg Bool.false_ne_true]
      cases t.isPunct .openAngle with
      | true => exact ⟨some _, rfl, rfl⟩
      | false => exact ⟨some _, rfl, hbehind.place⟩

theorem resumes_interfaceAt (hE : Ends ts stop e) {nameToken : Token} (hc : Covers ts e i (keyword :: nameToken :: us))
    (hn : nameToken.kind = .ident name) :
    Resumes e i (interfaceAt ts i) (interfaceNamed stop keyword nameToken name us) := by
  have hident := identAt_of_kind hE hc.tail hn
  have hbehind := hc.tail.tail
  rw [interfaceAt, hc.head, Option.bind_eq_bind, Option.bind_some, hident, Option.bind_eq_bind, Option.bind_some]
  dsimp only
  rw [hE.next hbehind, Option.bind_eq_bind, Option.bind_some]
  cases us with
  | nil =>
    rw [interfaceBodyAt_eq hE hbehind]
    exact ⟨some _, rfl, rfl⟩
  | cons t behind =>
    rw [List.headD_cons, interfaceNamed]
    cases ht : t.isPunct .openAngle with
    | true =>
      rw [if_pos rfl, if_pos rfl, genericEnd_eq hE hbehind ht]
      exact ⟨some _, rfl, rfl⟩
    | false =>
      rw [if_neg Bool.false_ne_true, if_neg Bool.false_ne_true]
      cases t.isIdent "extends" with
      | false =>
        rw [if_neg Bool.false_ne_true, if_neg Bool.false_ne_true, interfaceBodyAt_eq hE hbehind]
        exact ⟨some _, rfl, rfl⟩
      | true =>
        have hclause := rest_extendsClause stop name behind
        rw [if_pos rfl, if_pos rfl, clauseAt_eq hE hbehind.tail, Option.bind_eq_bind, Option.bind_some]
        dsimp only [clausePlace]
        cases hf : (extendsClause stop name behind).finish with
        | read rest =>
          rw [hf] at hclause
          have hrest : Covers ts e (e - rest.length) rest := hbehind.tail.suffix hclause
          dsimp only
          rw [interfaceBodyAt_eq hE hrest]
          exact ⟨some _, rfl, rfl⟩
        | malformed rest => exact ⟨some _, rfl, rfl⟩
        | openArguments => exact ⟨none, rfl, hc.tail.place⟩

/-- Without a name only a block is passed over. -/
theorem resumes_unnamed (hE : Ends ts stop e) (hc : Covers ts e i (keyword :: us))
    (hn : (us.head?.bind fun t => t.kind.ident?) = none) (kind : DeclarationKind) :
    Resumes e i (readAt ts kind i) (declaration stop kind keyword us) := by
  have hident : identAt ts (i + 1) = some none := (identAt_eq hE hc.tail).trans (congrArg some hn)
  have hdeclaration : declaration stop kind keyword us =
      if kind = .typeAlias then { rest := us } else unnamedBlock kind keyword us := by
    cases us with
    | nil => cases kind <;> rfl
    | cons t us =>
      have ht : t.kind.ident? = none := hn
      cases kind <;> simp [declaration, ht]
  rw [hdeclaration]
  cases kind with
  | typeAlias =>
    rw [readAt, aliasAt, hc.head, Option.bind_eq_bind, Option.bind_some, hident]
    exact ⟨none, rfl, hc.tail.place⟩
  | interface =>
    rw [readAt, interfaceAt, hc.head, Option.bind_eq_bind, Option.bind_some, hident]
    exact resumes_unnamedBlock hE hc
  | enum =>
    rw [readAt, enumAt, hc.head, Option.bind_eq_bind, Option.bind_some, hident]
    exact resumes_unnamedBlock hE hc

/-- **The declaration that a keyword starts is read by index as in the list.** -/
theorem resumes_declaration (hE : Ends ts stop e) (hc : Covers ts e i (keyword :: us)) (kind : DeclarationKind) :
    Resumes e i (readAt ts kind i) (declaration stop kind keyword us) := by
  cases us with
  | nil => exact resumes_unnamed hE hc rfl kind
  | cons nameToken behind =>
    cases hn : nameToken.kind.ident? with
    | none => exact resumes_unnamed hE hc hn kind
    | some name =>
      have hname := eq_ident_of_ident? hn
      rw [declaration_named stop kind keyword hname]
      cases kind with
      | interface => exact resumes_interfaceAt hE hc hname
      | typeAlias => exact resumes_aliasAt hE hc hname
      | enum => exact resumes_enumAt hE hc hname

/-! ## The whole source -/

theorem take_succ (hc : Covers ts e k (t :: us)) : ts.take (k + 1) = ts.take k ++ [t] := by
  rw [List.take_add_one, hc.head]
  rfl

theorem dotBefore_eq (h : i ≤ ts.length) : dotBefore ts i = some (endsWithDot (ts.take i)) := by
  cases i with
  | zero => rfl
  | succ i =>
    obtain ⟨t, ht⟩ : ∃ t, ts[i]? = some t := ⟨_, List.getElem?_eq_getElem h⟩
    rw [dotBefore, if_pos (Nat.succ_pos i), List.take_add_one, ht]
    show (ts[i]? >>= fun t => some (t.isPunct .dot)) = some (endsWithDot (ts.take i ++ [t]))
    rw [ht, endsWithDot_concat]
    rfl

theorem declarationAt_none (ht : ts[i]? = some t) (hk : keywordKind? (endsWithDot (ts.take i)) t = none) :
    declarationAt ts i = some ([], none) := by
  obtain ⟨hlt, -⟩ := List.getElem?_eq_some_iff.1 ht
  rw [declarationAt, ht, Option.bind_eq_bind, Option.bind_some]
  cases hkind : keywordKind? false t with
  | none => rfl
  | some kind =>
    cases hdot : endsWithDot (ts.take i) with
    | false =>
      rw [hdot, hkind] at hk
      cases hk
    | true =>
      dsimp only
      rw [dotBefore_eq (Nat.le_of_lt hlt), hdot]
      rfl

theorem declarationAt_some (ht : ts[i]? = some t) (hk : keywordKind? (endsWithDot (ts.take i)) t = some kind) :
    declarationAt ts i = readAt ts kind i := by
  obtain ⟨hlt, -⟩ := List.getElem?_eq_some_iff.1 ht
  cases hdot : endsWithDot (ts.take i) with
  | true =>
    rw [hdot] at hk
    cases hk
  | false =>
    rw [hdot] at hk
    rw [declarationAt, ht, Option.bind_eq_bind, Option.bind_some, hk]
    dsimp only
    rw [dotBefore_eq (Nat.le_of_lt hlt), hdot]
    rfl

/-- A walk by index finds what a walk over the list finds. -/
theorem findingsFrom_eq (hE : Ends ts stop e) (hc : Covers ts e i us) :
    findingsFrom ts i = some (scan stop (endsWithDot (ts.take i)) us) := by
  generalize hdot : endsWithDot (ts.take i) = afterDot
  fun_induction scan stop afterDot us generalizing i with
  | case1 =>
    have hstops := hc.stops
    rw [List.length_nil] at hstops
    have hlast : findingsFrom ts (i + 1) = some [] := by
      rw [findingsFrom, if_neg (by rw [hE.length_eq]; omega)]
    have hkind : keywordKind? (endsWithDot (ts.take i)) (.eof stop) = none := by
      cases endsWithDot (ts.take i) <;> rfl
    rw [findingsFrom, if_pos (hE.lt_length hc), declarationAt_none (hE.next hc) hkind, Option.bind_eq_bind,
      Option.bind_some]
    dsimp only [Option.getD_none]
    rw [if_pos (Nat.lt_succ_self i), hlast]
    rfl
  | case2 =>
    rename_i t us hk ih
    subst hdot
    have hnext := ih hc.tail (by rw [take_succ hc, endsWithDot_concat])
    rw [findingsFrom, if_pos (hE.lt_length hc), declarationAt_none hc.head hk, Option.bind_eq_bind, Option.bind_some]
    dsimp only [Option.getD_none]
    rw [if_pos (Nat.lt_succ_self i), hnext]
    rfl
  | case3 =>
    rename_i t us kind hk reading ih
    subst hdot
    obtain ⟨next, hread, hnext⟩ := resumes_declaration hE hc kind
    obtain ⟨front, last, hpast, hlast⟩ := past_declaration (isPunct_of_keywordKind? hk .dot) stop kind us
    -- the token before the rest is the one that the reader looks back at
    have hfront : Covers ts e (i + front.length) (last :: reading.rest) := (hpast ▸ hc).skip
    have hplace := hfront.tail.place
    have hlater := ih (hplace ▸ hfront.tail) (by rw [← hplace, take_succ hfront, endsWithDot_concat, hlast])
    rw [findingsFrom, if_pos (hE.lt_length hc), declarationAt_some hc.head hk, hread, Option.bind_eq_bind,
      Option.bind_some]
    dsimp only
    rw [hnext, if_pos (hc.lt_suffix (rest_declaration stop kind t us)), hlater]
    rfl

/-- A declaration that is read by index is within the tokens. -/
theorem exists_declarationAt (hE : Ends ts stop e) (h : i < ts.length) :
    ∃ found next, declarationAt ts i = some (found, next) ∧ ∀ n, next = some n → i < n ∧ n ≤ ts.length := by
  have hlength := hE.length_eq
  obtain ⟨us, hc⟩ := exists_covers (show i ≤ e by omega) (show e ≤ ts.length by omega)
  have hread := hE.next hc
  cases hk : keywordKind? (endsWithDot (ts.take i)) (us.headD (.eof stop)) with
  | none => exact ⟨[], none, declarationAt_none hread hk, nofun⟩
  | some kind =>
    cases us with
    | nil =>
      have hkind : keywordKind? (endsWithDot (ts.take i)) (.eof stop) = none := by
        cases endsWithDot (ts.take i) <;> rfl
      cases hkind.symm.trans hk
    | cons keyword us =>
      obtain ⟨next, hdeclaration, hnext⟩ := resumes_declaration hE hc kind
      refine ⟨_, next, (declarationAt_some hread hk).trans hdeclaration, ?_⟩
      rintro n rfl
      have hlt := hc.lt_suffix (rest_declaration stop kind keyword us)
      rw [Option.getD_some] at hnext
      omega

theorem exists_endsExpressionAt (h : k + 1 < ts.length) : ∃ ends, endsExpressionAt ts (k + 1) = some ends := by
  obtain ⟨previous, hprevious⟩ : ∃ t, ts[k]? = some t := ⟨_, List.getElem?_eq_getElem (by omega)⟩
  obtain ⟨t, ht⟩ : ∃ t, ts[k + 1]? = some t := ⟨_, List.getElem?_eq_getElem h⟩
  by_cases heof : t.kind = .eof
  · refine ⟨true, ?_⟩
    rw [endsExpressionAt, ht, Option.bind_eq_bind, Option.bind_some, heof]
  · exact ⟨_, endsExpressionAt_eq hprevious ht heof⟩

theorem exists_expressionEndFrom {start limit depth : Nat} (hs : start ≤ k) (hk : k ≤ limit) (hlt : start < limit)
    (hl : limit ≤ ts.length) : ∃ r, expressionEndFrom ts start limit depth k = some r ∧ start < r ∧ r ≤ limit := by
  -- over the indices that are left
  induction hn : limit - k generalizing k depth with
  | zero =>
    rw [expressionEndFrom, if_neg (by omega)]
    exact ⟨_, rfl, by omega, by omega⟩
  | succ n ih =>
    obtain ⟨t, ht⟩ : ∃ t, ts[k]? = some t := ⟨_, List.getElem?_eq_getElem (by omega)⟩
    have hnext (depth : Nat) : ∃ r, expressionEndFrom ts start limit depth (k + 1) = some r ∧ start < r ∧ r ≤ limit :=
      ih (by omega) (by omega) (by omega)
    rw [expressionEndFrom, if_pos (by omega), ht, Option.bind_eq_bind, Option.bind_some]
    by_cases hends : start < k ∧ depth = 0
    · obtain ⟨j, rfl⟩ : ∃ j, k = j + 1 := ⟨k - 1, by omega⟩
      obtain ⟨ends, he⟩ := exists_endsExpressionAt (show j + 1 < ts.length by omega)
      rw [if_pos hends, he, Option.bind_eq_bind, Option.bind_some]
      cases ends with
      | true => exact ⟨j + 1, rfl, hends.1, hk⟩
      | false => exact hnext _
    · rw [if_neg hends, Option.bind_eq_bind, Option.bind_some]
      exact hnext _

end

/-- The readers by index find what the readers over the list find, without ever leaving the tokens. -/
structure ReadsWithin (ts : List Token) (found : List Finding) : Prop where
  /-- The walk comes to an end, with every token that is read, every cut and every difference in it there. -/
  walk : findingsFrom ts 0 = some found
  /-- So does the reader of a declaration at every index; where it says to go on is further behind. -/
  declaration : ∀ i < ts.length, ∃ found next, declarationAt ts i = some (found, next) ∧
    ∀ n, next = some n → i < n ∧ n ≤ ts.length
  /-- Every turn over the members of an interface gets further. -/
  member : ∀ (owner : String) (description : Option String) {k limit : Nat}, k < limit → limit < ts.length →
    ∃ member description' next, memberTurn ts owner description limit k = some (member, description', next) ∧
      k < next ∧ next ≤ limit
  /-- Every turn over the members of an enum gets further. -/
  enumMember : ∀ (owner : String) {k limit : Nat}, k < limit → limit < ts.length →
    ∃ step next, enumTurn ts owner limit k = some (step, next) ∧ k < next ∧ next ≤ limit
  /-- An expression ends behind the token it starts at and not behind its limit. -/
  expression : ∀ {start limit : Nat}, start < limit → limit ≤ ts.length →
    ∃ r, expressionEnd ts start limit = some r ∧ start < r ∧ r ≤ limit

theorem readsWithin_of_ends {ts : List Token} {stop : Span} {e : Nat} (hE : Ends ts stop e) :
    ReadsWithin ts (scan stop false (ts.take e)) := by
  have hlength := hE.length_eq
  have hturn {k limit : Nat} (hk : k < limit) (hl : limit < ts.length) :
      ∃ t us, Covers ts limit k (t :: us) ∧ ∀ u ∈ us, u.kind ≠ .eof := by
    obtain ⟨us, hc⟩ := exists_covers (Nat.le_of_lt hk) (Nat.le_of_lt hl)
    cases us with
    | nil =>
      have hstops := hc.stops
      rw [List.length_nil] at hstops
      omega
    | cons t us => exact ⟨t, us, hc, hE.kind_ne_of_mem hc.tail (by omega)⟩
  constructor
  case walk =>
    have hall : Covers ts e 0 (ts.take e) := by
      refine ⟨List.take_prefix e ts, ?_⟩
      rw [List.length_take]
      omega
    exact findingsFrom_eq hE hall
  case declaration => exact fun i hi => exists_declarationAt hE hi
  case member =>
    intro owner description k limit hk hl
    obtain ⟨t, us, hc, hkind⟩ := hturn hk hl
    obtain ⟨member, description', rest, hmember, hrest, -⟩ := exists_memberTurn owner description hc hkind (by omega)
    exact ⟨member, description', _, hmember, hc.lt_suffix hrest, Nat.sub_le limit rest.length⟩
  case enumMember =>
    intro owner k limit hk hl
    obtain ⟨t, us, hc, -⟩ := hturn hk hl
    obtain ⟨step, rest, hstep, hrest, -⟩ := exists_enumTurn owner hc (by omega)
    exact ⟨step, _, hstep, hc.lt_suffix hrest, Nat.sub_le limit rest.length⟩
  case expression =>
    intro start limit hlt hl
    exact exists_expressionEndFrom (Nat.le_refl start) (Nat.le_of_lt hlt) hlt hl

theorem ends_tokenizeSignificant (source : String) : Ends (tokenizeSignificant source).toList
    (tokenizeSignificant source).stop (tokenizeSignificant source).body.length := by
  constructor
  · exact List.drop_left
  · intro t ht
    rw [Tokens.toList, List.take_left] at ht
    exact (Lexer.reads_tokenize source).kind_ne_eof t (List.mem_filter.1 ht).1

/-- **Reading never leaves the tokens of a source and always comes to an end.** -/
theorem readsWithin (source : String) : ReadsWithin (tokenizeSignificant source).toList (findings source) := by
  have hwithin := readsWithin_of_ends (ends_tokenizeSignificant source)
  rw [Tokens.toList, List.take_left] at hwithin
  exact hwithin

/-- A source in which everything is left open. -/
def unclosed : String := "interface A extends B.C<D, enum E \x7b x = [1, type F ="

theorem readsWithin_unclosed :
    (∃ found next, declarationAt (tokenizeSignificant unclosed).toList 0 = some (found, next) ∧
      ∀ n, next = some n → 0 < n ∧ n ≤ (tokenizeSignificant unclosed).toList.length) ∧
    (∃ member description next, memberTurn (tokenizeSignificant unclosed).toList "E" none 20 13 =
      some (member, description, next) ∧ 13 < next ∧ next ≤ 20) ∧
    ∃ r, expressionEnd (tokenizeSignificant unclosed).toList 19 21 = some r ∧ 19 < r ∧ r ≤ 21 := by
  have hlength : (tokenizeSignificant unclosed).toList.length = 21 := by cbv
  have hwithin := readsWithin unclosed
  refine ⟨hwithin.declaration 0 (by omega), hwithin.member "E" none (by omega) (by omega), ?_⟩
  exact hwithin.expression (by omega) (by omega)

end Indexed

end Extract

end TypeSchema
