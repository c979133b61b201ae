import Mathlib
import TypeSchema.Proofs.Registry.Names
import TypeSchema.Proofs.Registry.Relocation
import TypeSchema.Proofs.Registry.Settled

/-!
# Registries of composed sources

A text whose brackets are closed and that ends with a semicolon may be followed by any other text: the declarations of
both are those of the first and those of the second, added in this order to one registry.  This holds exactly if no
generic interface without a brace comes up in the first text (`extract_append_iff`), for such an interface takes the
next block of the second text for its body.
-/

namespace TypeSchema

open Named (nameOf)

/-! ## Tables of tables -/

namespace Table

variable {α : Type} [Named α]

/-- The table with all of these added in order. -/
def insertAll (t : Table α) (as : List α) : Table α := as.foldl insert t

theorem insertAll_cons (t : Table α) (a : α) (as : List α) : t.insertAll (a :: as) = (t.insert a).insertAll as := rfl

theorem insertAll_append (t : Table α) (as bs : List α) :
    t.insertAll (as ++ bs) = (t.insertAll as).insertAll bs := List.foldl_append

theorem contains_insert (t : Table α) (a : α) (name : String) :
    (t.insert a).contains name = (t.contains name || nameOf a == name) := by
  rw [Bool.eq_iff_iff, Bool.or_eq_true, contains_iff, contains_iff, names_insert, beq_iff_eq]
  split
  · rename_i h
    rw [contains_iff] at h
    constructor
    · exact .inl
    · rintro (h' | rfl)
      · exact h'
      · exact h
  · rw [List.mem_append, List.mem_singleton, eq_comm (a := name)]

theorem insert_of_contains {t : Table α} {a : α} (h : t.contains (nameOf a) = true) :
    t.insert a = ⟨t.entries.map fun b => if nameOf b = nameOf a then a else b⟩ := if_pos h

theorem insert_of_not_contains {t : Table α} {a : α} (h : t.contains (nameOf a) = false) :
    t.insert a = ⟨t.entries ++ [a]⟩ := if_neg (by rw [h]; exact Bool.false_ne_true)

theorem map_replace_eq_self {as : List α} {a : α} (h : nameOf a ∉ as.map nameOf) :
    (as.map fun b => if nameOf b = nameOf a then a else b) = as := by
  refine (List.map_congr_left fun b hb => ?_).trans (List.map_id as)
  have hne : nameOf b ≠ nameOf a := fun he => h (he ▸ List.mem_map_of_mem hb)
  rw [if_neg hne, id]

/-- A declaration is replaced by a later one of its name. -/
theorem insert_insert {a b : α} (h : nameOf b = nameOf a) (t : Table α) : (t.insert b).insert a = t.insert a := by
  have hc : (t.insert b).contains (nameOf a) = true := by rw [contains_insert, h, beq_self_eq_true, Bool.or_true]
  rw [insert_of_contains hc]
  cases ht : t.contains (nameOf a) with
  | true =>
    rw [insert_of_contains ht, insert_of_contains (h ▸ ht)]
    simp only [List.map_map, Table.mk.injEq]
    refine List.map_congr_left fun c _ => ?_
    simp only [Function.comp_apply, h]
    split
    · rfl
    · rfl
  | false =>
    rw [insert_of_not_contains ht, insert_of_not_contains (h ▸ ht)]
    have hmem : nameOf a ∉ t.entries.map nameOf := fun hm => by
      rw [Table.contains_iff.2 hm] at ht
      cases ht
    simp only [List.map_append, List.map_cons, List.map_nil, if_pos h, map_replace_eq_self hmem]

/-- Two additions may be exchanged if the later one replaces a declaration of another name. -/
theorem insert_comm {t : Table α} {a c : α} (ha : t.contains (nameOf a) = true) (hne : nameOf c ≠ nameOf a) :
    (t.insert c).insert a = (t.insert a).insert c := by
  have ha' : (t.insert c).contains (nameOf a) = true := by rw [contains_insert, ha, Bool.true_or]
  have hc' : (t.insert a).contains (nameOf c) = t.contains (nameOf c) := by
    rw [contains_insert, beq_false_of_ne (Ne.symm hne), Bool.or_false]
  rw [insert_of_contains ha']
  cases hc : t.contains (nameOf c) with
  | true =>
    rw [insert_of_contains hc, insert_of_contains (hc'.trans hc), insert_of_contains ha]
    simp only [List.map_map, Table.mk.injEq]
    refine List.map_congr_left fun b _ => ?_
    simp only [Function.comp_apply]
    by_cases hb : nameOf b = nameOf c
    · have hba : nameOf b ≠ nameOf a := hb ▸ hne
      rw [if_pos hb, if_neg hne, if_neg hba, if_pos hb]
    · by_cases hba : nameOf b = nameOf a
      · rw [if_neg hb, if_pos hba, if_neg (Ne.symm hne)]
      · rw [if_neg hb, if_neg hba, if_neg hb]
  | false =>
    rw [insert_of_not_contains hc, insert_of_not_contains (hc'.trans hc), insert_of_contains ha]
    simp only [List.map_append, List.map_cons, List.map_nil, if_neg hne]

theorem insertAll_insert {as : List α} {a : α} (h : nameOf a ∉ as.map nameOf) {t : Table α}
    (ht : t.contains (nameOf a) = true) : (t.insertAll as).insert a = (t.insert a).insertAll as := by
  induction as generalizing t with
  | nil => rfl
  | cons c as ih =>
    rw [List.map_cons, List.mem_cons, not_or] at h
    have ht' : (t.insert c).contains (nameOf a) = true := by rw [contains_insert, ht, Bool.true_or]
    rw [insertAll_cons, ih h.2 ht', insert_comm ht (Ne.symm h.1), insertAll_cons]

/-- Adding the entries of a table after one more addition is adding them, and then that one. -/
theorem insertAll_entries_insert {u : Table α} (hu : u.names.Nodup) (a : α) (t : Table α) :
    t.insertAll (u.insert a).entries = (t.insertAll u.entries).insert a := by
  cases hc : u.contains (nameOf a) with
  | false => rw [insert_of_not_contains hc, insertAll_append]; rfl
  | true =>
    rw [insert_of_contains hc]
    have hmem : nameOf a ∈ u.entries.map nameOf := Table.contains_iff.1 hc
    have hnodup : (u.entries.map nameOf).Nodup := hu
    generalize u.entries = bs at hmem hnodup
    induction bs generalizing t with
    | nil => cases hmem
    | cons b bs ih =>
      obtain ⟨hb, hbs⟩ := List.nodup_cons.1 hnodup
      rw [List.map_cons, insertAll_cons, insertAll_cons]
      by_cases hname : nameOf b = nameOf a
      · have hnot : nameOf a ∉ bs.map nameOf := hname ▸ hb
        rw [if_pos hname, map_replace_eq_self hnot, insertAll_insert hnot, insert_insert hname]
        rw [contains_insert, hname, beq_self_eq_true, Bool.or_true]
      · rw [if_neg hname]
        refine ih (t.insert b) ?_ hbs
        rcases List.mem_cons.1 hmem with h | h
        · exact absurd h.symm hname
        · exact h

/-- **Adding the entries of a table adds all that was added to it.** -/
theorem insertAll_entries (as : List α) (t : Table α) :
    t.insertAll (({} : Table α).insertAll as).entries = t.insertAll as := by
  have hgeneral (u : Table α) (hu : u.names.Nodup) :
      t.insertAll (u.insertAll as).entries = (t.insertAll u.entries).insertAll as := by
    induction as generalizing u with
    | nil => rfl
    | cons a as ih =>
      rw [insertAll_cons, ih _ (nodup_names_insert hu a), insertAll_entries_insert hu, insertAll_cons]
  exact hgeneral {} List.nodup_nil

end Table

/-! ## Declarations of a registry -/

namespace Finding

/-- The interface that was found. -/
def interface? : Finding → Option Interface
  | interface i => some i
  | _ => none

/-- The alias that was found. -/
def typeAlias? : Finding → Option Alias
  | typeAlias a => some a
  | _ => none

/-- The enum that was found. -/
def enum? : Finding → Option Enumeration
  | enum e => some e
  | _ => none

end Finding

namespace Registry

/-- The declarations of a registry, table by table. -/
def declarations (r : Registry) : List Finding :=
  r.interfaces.entries.map .interface ++ r.aliases.entries.map .typeAlias ++ r.enums.entries.map .enum

/-- The registry without spans and warnings. -/
def content (r : Registry) : Registry := { r.bare with diagnostics := [] }

section

variable {α : Type} [Named α] {table : Registry → Table α} {pick : Finding → Option α}

/-- A table gets what is picked for it from the findings. -/
theorem table_addAll (hadd : ∀ r x, table (add r x) = (table r).insertAll (pick x).toList) (r : Registry)
    (found : List Finding) : table (r.addAll found) = (table r).insertAll (found.filterMap pick) := by
  induction found generalizing r with
  | nil => rfl
  | cons x found ih =>
    show table ((r.add x).addAll found) = _
    rw [ih, hadd, ← Table.insertAll_append, List.filterMap_cons]
    cases pick x <;> rfl

end

variable (r : Registry) (found : List Finding)

theorem interfaces_addAll :
    (r.addAll found).interfaces = r.interfaces.insertAll (found.filterMap Finding.interface?) := by
  refine table_addAll (fun r x => ?_) r found
  cases x with
  | interface i => simp [add, addInterface, Finding.interface?, Table.insertAll]
  | typeAlias a => simp [add, addAlias, Finding.interface?, Table.insertAll]
  | enum e => simp [add, addEnum, Finding.interface?, Table.insertAll]
  | warning d => rfl

theorem aliases_addAll : (r.addAll found).aliases = r.aliases.insertAll (found.filterMap Finding.typeAlias?) := by
  refine table_addAll (fun r x => ?_) r found
  cases x with
  | interface i => simp [add, addInterface, Finding.typeAlias?, Table.insertAll]
  | typeAlias a => simp [add, addAlias, Finding.typeAlias?, Table.insertAll]
  | enum e => simp [add, addEnum, Finding.typeAlias?, Table.insertAll]
  | warning d => rfl

theorem enums_addAll : (r.addAll found).enums = r.enums.insertAll (found.filterMap Finding.enum?) := by
  refine table_addAll (fun r x => ?_) r found
  cases x with
  | interface i => simp [add, addInterface, Finding.enum?, Table.insertAll]
  | typeAlias a => simp [add, addAlias, Finding.enum?, Table.insertAll]
  | enum e => simp [add, addEnum, Finding.enum?, Table.insertAll]
  | warning d => rfl

theorem content_congr {r r' : Registry} (hi : r.interfaces = r'.interfaces) (ha : r.aliases = r'.aliases)
    (he : r.enums = r'.enums) : r.content = r'.content := by
  simp only [content, bare, mapSpans, hi, ha, he]

/-- What each table gets from the declarations of a registry. -/
theorem filterMap_declarations : r.declarations.filterMap Finding.interface? = r.interfaces.entries ∧
    r.declarations.filterMap Finding.typeAlias? = r.aliases.entries ∧
    r.declarations.filterMap Finding.enum? = r.enums.entries := by
  have hnone {α β : Type} (as : List α) : as.filterMap (fun _ => (none : Option β)) = [] :=
    List.filterMap_eq_nil_iff.2 fun _ _ => rfl
  refine ⟨?_, ?_, ?_⟩
  · simp [declarations, List.filterMap_map, Function.comp_def, Finding.interface?]
  · simp [declarations, List.filterMap_map, Function.comp_def, Finding.typeAlias?, hnone]
  · simp [declarations, List.filterMap_map, Function.comp_def, Finding.enum?, hnone]

/-- **Adding findings in two steps**: into two registries, and then the declarations of both into one. -/
theorem content_addAll_append (f₁ f₂ : List Finding) : (({} : Registry).addAll (f₁ ++ f₂)).content =
    (({} : Registry).addAll ((({} : Registry).addAll f₁).declarations ++
      (({} : Registry).addAll f₂).declarations)).content := by
  obtain ⟨hi₁, ha₁, he₁⟩ := filterMap_declarations (({} : Registry).addAll f₁)
  obtain ⟨hi₂, ha₂, he₂⟩ := filterMap_declarations (({} : Registry).addAll f₂)
  refine content_congr ?_ ?_ ?_
  · simp only [interfaces_addAll, List.filterMap_append, Table.insertAll_append] at hi₁ hi₂ ⊢
    rw [hi₁, hi₂, Table.insertAll_entries, Table.insertAll_entries]
  · simp only [aliases_addAll, List.filterMap_append, Table.insertAll_append] at ha₁ ha₂ ⊢
    rw [ha₁, ha₂, Table.insertAll_entries, Table.insertAll_entries]
  · simp only [enums_addAll, List.filterMap_append, Table.insertAll_append] at he₁ he₂ ⊢
    rw [he₁, he₂, Table.insertAll_entries, Table.insertAll_entries]

end Registry

/-! ## Walks over composed sources -/

namespace Extract

/-- Whether a walk over the tokens comes upon a generic interface without a brace behind its parameters. -/
def leavesOpen (stop : Span) (afterDot : Bool) : List Token → Bool
  | [] => false
  | t :: ts =>
    match keywordKind? afterDot t with
    | none => leavesOpen stop (t.isPunct .dot) ts
    | some kind =>
      let reading := declaration stop kind t ts
      (kind = .interface && bodiless ts) || leavesOpen stop reading.afterDot reading.rest
termination_by ts => ts.length
decreasing_by
  · simp
  · exact Nat.lt_succ_of_le (rest_declaration _ _ _ _).length_le

theorem isPunct_semicolon_of_last {t : Token} (h : Settled [t]) : t.kind = .punct .semicolon := by
  obtain ⟨u, hu, hk⟩ := h.last
  obtain rfl : t = u := Option.some.inj hu
  exact hk

theorem settled_of_keyword {afterDot : Bool} {t : Token} {ts : List Token} {kind : DeclarationKind}
    (h : Settled (t :: ts)) (hk : keywordKind? afterDot t = some kind) : Settled ts := by
  refine h.tail_of_ne fun ht => ?_
  simp [keywordKind?, Token.isIdent, ht] at hk

/-- **Walks over settled tokens are composed**, if no generic interface is left open. -/
theorem scan_append {stop : Span} {afterDot : Bool} {ts : List Token} (h : Settled ts)
    (hopen : leavesOpen stop afterDot ts = false) (stop' : Span) (us : List Token) :
    scan stop' afterDot (ts ++ us) = scan stop afterDot ts ++ scan stop' false us := by
  fun_induction leavesOpen stop afterDot ts with
  | case1 => exact absurd rfl h.ne_nil
  | case2 afterDot t ts hk ih =>
    rw [List.cons_append, scan, scan, hk]
    dsimp only
    cases ts with
    | nil =>
      have hdot : t.isPunct .dot = false := by
        rw [Token.isPunct, isPunct_semicolon_of_last h]
        rfl
      rw [hdot, scan]
      rfl
    | cons u ts => exact ih (h.tail (List.cons_ne_nil _ _)) hopen
  | case3 afterDot t ts kind hk reading ih =>
    rw [Bool.or_eq_false_iff] at hopen
    have hts := settled_of_keyword h hk
    have hb : kind = .interface → bodiless ts = false := by
      intro hkind
      simpa [hkind] using hopen.1
    obtain ⟨hrest, happ⟩ := declaration_append t hts hb stop stop'
    have hreading : Settled reading.rest := hts.suffix (rest_declaration stop kind t ts) hrest
    rw [List.cons_append, scan, scan, hk]
    dsimp only
    rw [happ, List.append_assoc, ← ih hreading hopen.2]
    rfl

/-- A block comes next in these tokens, and nothing behind it. -/
def IsBlock (us : List Token) : Prop :=
  ∃ front opening closing, us = front ++ [opening, closing] ∧ (∀ t ∈ front, t.isPunct .openBrace = false) ∧
    opening.isPunct .openBrace = true ∧ closing.isPunct .closeBrace = true

/-- A generic interface without a brace takes the next block for its body. -/
theorem afterGeneric_of_bodiless {nameToken angle : Token} {ts us : List Token}
    (h : bodiless (nameToken :: angle :: ts) = true) (hus : IsBlock us) : afterGeneric (ts ++ us) = [] := by
  simp only [bodiless, Bool.and_eq_true] at h
  obtain ⟨-, h⟩ := h
  split at h
  · rename_i inside after hs
    obtain ⟨front, opening, closing, rfl, hfront, ho, hc⟩ := hus
    rw [Bool.not_eq_true', List.any_eq_false] at h
    have hdrop : (after ++ (front ++ [opening, closing])).dropWhile (fun t => !t.isPunct .openBrace) =
        [opening, closing] := by
      rw [← List.append_assoc, List.dropWhile_append_of_pos, List.dropWhile_cons, if_neg (by simp [ho])]
      intro t ht
      rcases List.mem_append.1 ht with ht | ht
      · simpa using h t ht
      · simpa using hfront t ht
    have hclose : closing.isPunct .openBrace = false := by
      rw [Token.isPunct, beq_iff_eq] at hc
      rw [Token.isPunct, hc]
      rfl
    simp only [afterGeneric, splitClosed?_append hs, hdrop, afterBlock, splitClosed?_cons, hc, hclose,
      Bool.false_eq_true, if_false, if_true]
  · cases h

/-- A walk that comes upon a generic interface without a brace ends behind the next block. -/
theorem mem_scan_of_leavesOpen {stop : Span} {afterDot : Bool} {ts : List Token} (h : Settled ts)
    (hopen : leavesOpen stop afterDot ts = true) (stop' : Span) {us : List Token} (hus : IsBlock us) :
    ∀ x ∈ scan stop' afterDot (ts ++ us), x ∈ scan stop afterDot ts := by
  fun_induction leavesOpen stop afterDot ts with
  | case1 => cases hopen
  | case2 afterDot t ts hk ih =>
    rw [List.cons_append, scan, scan, hk]
    dsimp only
    cases ts with
    | nil => rw [leavesOpen] at hopen; cases hopen
    | cons u ts => exact ih (h.tail (List.cons_ne_nil _ _)) hopen
  | case3 afterDot t ts kind hk reading ih =>
    have hts := settled_of_keyword h hk
    rw [List.cons_append, scan, scan, hk]
    dsimp only
    by_cases hb : kind = .interface ∧ bodiless ts = true
    · obtain ⟨rfl, hb⟩ := hb
      obtain ⟨nameToken, angle, behind, rfl⟩ : ∃ nameToken angle behind, ts = nameToken :: angle :: behind := by
        cases ts with
        | nil => cases hb
        | cons nameToken ts =>
          cases ts with
          | nil => cases hb
          | cons angle behind => exact ⟨nameToken, angle, behind, rfl⟩
      have hread (stop : Span) (behind' : List Token) :
          declaration stop .interface t (nameToken :: angle :: behind') =
            { found := [warn t.span (.genericInterface (nameToken.kind.ident?.getD ""))],
              rest := afterGeneric behind' } := by
        simp only [bodiless, Bool.and_eq_true] at hb
        obtain ⟨name, hname⟩ := Option.isSome_iff_exists.1 hb.1.1
        simp only [declaration, hname, interfaceNamed, hb.1.2, if_true]
        rfl
      rw [List.cons_append, List.cons_append, hread, hread, afterGeneric_of_bodiless hb hus, scan]
      intro x hx
      rw [List.append_nil] at hx
      exact List.mem_append_left _ hx
    · have hb' : kind = .interface → bodiless ts = false := by
        intro hkind
        exact Bool.eq_false_iff.2 fun h => hb ⟨hkind, h⟩
      obtain ⟨hrest, happ⟩ := declaration_append t hts hb' stop stop'
      have hreading : Settled reading.rest := hts.suffix (rest_declaration stop kind t ts) hrest
      have hopen' : leavesOpen stop reading.afterDot reading.rest = true := by
        rw [Bool.or_eq_true, Bool.and_eq_true, decide_eq_true_eq] at hopen
        exact hopen.resolve_left hb
      rw [happ]
      intro x hx
      rcases List.mem_append.1 hx with hx | hx
      · exact List.mem_append_left _ hx
      · exact List.mem_append_right _ (ih hreading hopen' x hx)

/-- What is found in a text, a line feed and a second text. -/
theorem findings_append_newline {s : String} (hs : Lexer.ClosedLines (tokenize s).body) (s' : String) :
    findings (s ++ "\n" ++ s') = scan ((Relocation.below s).span (tokenizeSignificant s').stop) false
      ((tokenizeSignificant s).body ++ (tokenizeSignificant s').body.map (Relocation.below s).token) := by
  rw [findings, tokenizeSignificant_append_newline hs]

end Extract

/-! ## Settled texts -/

theorem isNested_filter (stack : List Punct) (ts : List Token) :
    isNested stack ((ts.filter fun t => !t.kind.isTrivia).map Token.kind) = isNested stack (ts.map Token.kind) := by
  induction ts generalizing stack with
  | nil => rfl
  | cons t ts ih =>
    cases hk : t.kind.isTrivia with
    | true =>
      have hb : t.kind.brackets stack = some stack := by
        cases ht : t.kind with
        | comment => rfl
        | _ => rw [ht] at hk; cases hk
      rw [List.filter_cons_of_neg (by simp [hk]), ih, List.map_cons, isNested, hb]
    | false =>
      rw [List.filter_cons_of_pos (by simp [hk]), List.map_cons, List.map_cons, isNested, isNested]
      cases t.kind.brackets stack with
      | none => rfl
      | some stack' => exact ih stack'

/-- The tokens of the text are closed and properly nested, and a semicolon comes last. -/
structure IsSettled (s : String) : Prop where
  closed : ∀ t ∈ (tokenize s).body, t.kind.isError = false
  nested : isNested [] ((tokenize s).body.map Token.kind) = true
  last : (tokenize s).body.getLast?.map Token.kind = some (.punct .semicolon)

namespace IsSettled

variable {s : String} (h : IsSettled s)

include h

theorem settled : Extract.Settled (tokenizeSignificant s).body := by
  refine ⟨⟨[], (isNested_filter [] _).trans h.nested⟩, ?_⟩
  obtain ⟨t, ht, hk⟩ := Option.map_eq_some_iff.1 h.last
  obtain ⟨init, hi⟩ := List.getLast?_eq_some_iff.1 ht
  refine ⟨t, ?_, hk⟩
  simp [tokenizeSignificant, Tokens.without, hi, hk, TokenKind.isTrivia]

theorem closedLines : Lexer.ClosedLines (tokenize s).body := Lexer.closedLines_of_forall h.closed

end IsSettled

/-! ## Names that are not taken -/

theorem Identifier.exists_not_mem (names : List String) :
    ∃ name : String, isIdentifier name.toList = true ∧ name ∉ names := by
  obtain ⟨n, hn⟩ : ∃ n, ∀ name ∈ names, name.toList.length < n := by
    induction names with
    | nil => exact ⟨0, by simp⟩
    | cons name names ih =>
      obtain ⟨n, hn⟩ := ih
      refine ⟨n + name.toList.length + 1, fun other h => ?_⟩
      rcases List.mem_cons.1 h with rfl | h
      · omega
      · have := hn other h
        omega
  refine ⟨String.ofList (List.replicate (n + 1) 'a'), ?_, fun h => ?_⟩
  · have hstart : isStart 'a' = true := by decide
    have hpart : isPart 'a' = true := by decide
    rw [String.toList_ofList, List.replicate_succ, isIdentifier, List.all_replicate, hstart, hpart]
    simp
  · have := hn _ h
    rw [String.toList_ofList, List.length_replicate] at this
    omega

/-- An interface without members. -/
def emptyInterface (name : String) : String := "interface " ++ name ++ " \x7b\x7d"

theorem tokens_emptyInterface {name : String} (hn : Identifier.isIdentifier name.toList = true) :
    ∃ keyword nameToken opening closing,
      (tokenizeSignificant (emptyInterface name)).body = [keyword, nameToken, opening, closing] ∧
      keyword.kind = .ident "interface" ∧ nameToken.kind = .ident name ∧ opening.kind = .punct .openBrace ∧
      closing.kind = .punct .closeBrace := by
  have hspace : Text.isBlank ' ' = true := by decide
  -- from the last token to the first
  have hclose (p : Position) : Lexer.Reads [] p ['\x7d'] _ := Lexer.reads_spelled (.punct .closeBrace) trivial p
  have hopen (p : Position) : Lexer.Reads [] p ['\x7b', '\x7d'] _ :=
    Lexer.reads_cons (.punct .openBrace) trivial (hclose _)
  have hname (p : Position) : Lexer.Reads [] p (name.toList ++ [' ', '\x7b', '\x7d']) _ :=
    Lexer.reads_cons (.ident hn) (Lexer.follow_cons (by decide) _) (.blank hspace (hopen _))
  have hword : Lexer.Reads [] .origin ("interface".toList ++ ' ' :: (name.toList ++ [' ', '\x7b', '\x7d'])) _ :=
    Lexer.reads_cons (.ident (by decide)) (Lexer.follow_cons (by decide) _) (.blank hspace (hname _))
  have htext : emptyInterface name =
      String.ofList ("interface".toList ++ ' ' :: (name.toList ++ [' ', '\x7b', '\x7d'])) := by
    simp [emptyInterface, ← String.toList_inj]
  rw [htext, tokenizeSignificant, Tokens.without, Lexer.tokenize_of_reads hword]
  exact ⟨_, _, _, _, rfl, rfl, by rw [Token.kind_spelled, String.ofList_toList], rfl, rfl⟩

namespace Extract

theorem findings_emptyInterface {name : String} (hn : Identifier.isIdentifier name.toList = true) :
    ∃ span, findings (emptyInterface name) = [.interface { name, bases := [], fields := [], span }] := by
  obtain ⟨keyword, nameToken, opening, closing, hbody, hk, hname, ho, hc⟩ := tokens_emptyInterface hn
  refine ⟨keyword.span, ?_⟩
  have hkind : keywordKind? false keyword = some .interface := by simp [keywordKind?, Token.isIdent, hk]
  have hclosed : splitClosed? .openBrace .closeBrace 0 [closing] = some ([], []) := by
    simp [splitClosed?, Token.isPunct, hc]
  have hread (stop : Span) : declaration stop .interface keyword [nameToken, opening, closing] =
      { found := [.interface { name, bases := [], fields := [], span := keyword.span }], rest := [] } := by
    simp [declaration, hname, TokenKind.ident?, interfaceNamed, interfaceBody, body, ho, Token.isPunct, Token.isIdent,
      hclosed, members]
  rw [findings, hbody, scan, hkind]
  simp only [hread, scan, List.append_nil]

end Extract

/-! ## Composed texts -/

namespace Registry

open Extract (leavesOpen findings)

theorem contains_insertAll {α : Type} [Named α] (t : Table α) (as : List α) (name : String) :
    (t.insertAll as).contains name = true ↔ t.contains name = true ∨ ∃ a ∈ as, nameOf a = name := by
  induction as generalizing t with
  | nil => simp [Table.insertAll]
  | cons a as ih =>
    rw [Table.insertAll_cons, ih, Table.contains_insert, Bool.or_eq_true, beq_iff_eq, or_assoc]
    simp

theorem interfaces_contains_content (r : Registry) (name : String) :
    r.content.interfaces.contains name = r.interfaces.contains name :=
  Table.contains_map (f := Interface.mapSpans fun _ => {}) (fun _ => rfl) r.interfaces name

theorem contains_addAll (found : List Finding) (name : String) :
    (({} : Registry).addAll found).interfaces.contains name = true ↔ ∃ i, .interface i ∈ found ∧ i.name = name := by
  rw [interfaces_addAll, contains_insertAll]
  constructor
  · rintro (h | ⟨i, hi, hname⟩)
    · cases h
    · obtain ⟨x, hx, hpick⟩ := List.mem_filterMap.1 hi
      cases x with
      | interface j =>
        obtain rfl := Option.some.inj hpick
        exact ⟨j, hx, hname⟩
      | _ => cases hpick
  · rintro ⟨i, hi, hname⟩
    exact .inr ⟨i, List.mem_filterMap.2 ⟨_, hi, rfl⟩, hname⟩

/-- **Composed texts.**  Behind a settled text any other text is read as by itself, so that the declarations of both
are those of the first and those of the second, added to one registry.  This holds exactly if the walk over the first
text does not come upon a generic interface without a brace behind its parameters. -/
theorem extract_append_iff {s₁ : String} (h : IsSettled s₁) :
    (∀ s₂, (extract (s₁ ++ "\n" ++ s₂)).content =
      (({} : Registry).addAll ((extract s₁).declarations ++ (extract s₂).declarations)).content) ↔
    leavesOpen (tokenizeSignificant s₁).stop false (tokenizeSignificant s₁).body = false := by
  constructor
  · intro hcompose
    refine Bool.eq_false_iff.2 fun hopen => ?_
    -- an empty interface of a new name is taken for the body
    obtain ⟨name, hname, hfresh⟩ :=
      Identifier.exists_not_mem ((findings s₁).filterMap fun x => x.interface?.map Interface.name)
    have heq := congrArg (fun r => r.interfaces.contains name) (hcompose (emptyInterface name))
    simp only [interfaces_contains_content] at heq
    have hright : (({} : Registry).addAll ((extract s₁).declarations ++
        (extract (emptyInterface name)).declarations)).interfaces.contains name = true := by
      obtain ⟨span, hfound⟩ := Extract.findings_emptyInterface hname
      refine (contains_addAll _ _).2 ⟨{ name, bases := [], fields := [], span }, List.mem_append_right _ ?_, rfl⟩
      rw [extract, hfound]
      exact List.mem_append_left _ (List.mem_append_left _ (List.mem_singleton.2 rfl))
    rw [hright, extract, contains_addAll] at heq
    obtain ⟨i, hi, rfl⟩ := heq
    rw [Extract.findings_append_newline h.closedLines] at hi
    have hmem := Extract.mem_scan_of_leavesOpen h.settled hopen _ ?_ _ hi
    · exact hfresh (List.mem_filterMap.2 ⟨_, hmem, rfl⟩)
    · obtain ⟨keyword, nameToken, opening, closing, hbody, hk, hn, ho, hc⟩ := tokens_emptyInterface hname
      rw [hbody]
      refine ⟨[_, _], _, _, rfl, ?_, ?_, ?_⟩
      · simp [Token.isPunct, Relocation.token, hk, hn]
      · rw [Relocation.isPunct_token, Token.isPunct, ho, beq_self_eq_true]
      · rw [Relocation.isPunct_token, Token.isPunct, hc, beq_self_eq_true]
  · intro hopen s₂
    have hbare : (extract (s₁ ++ "\n" ++ s₂)).bare = (({} : Registry).addAll (findings s₁ ++ findings s₂)).bare := by
      rw [extract, Extract.findings_append_newline h.closedLines, Extract.scan_append h.settled hopen, Extract.scan_map]
      refine bare_addAll_congr _ ?_
      rw [List.map_append, List.map_append, List.map_map]
      refine congrArg _ (List.map_congr_left fun x _ => ?_)
      exact Finding.bare_mapSpans _ x
    rw [content, hbare]
    exact content_addAll_append (findings s₁) (findings s₂)

theorem isSettled_of_all {s : String} (hclosed : ((tokenize s).body.all fun t => !t.kind.isError) = true)
    (hnested : isNested [] ((tokenize s).body.map Token.kind) = true)
    (hlast : (tokenize s).body.getLast?.map Token.kind = some (.punct .semicolon)) : IsSettled s :=
  ⟨fun t ht => by simpa using List.all_eq_true.1 hclosed t ht, hnested, hlast⟩

/-- A generic interface with a body, an interface without a base, and an alias without a type. -/
def malformed : String := "interface G<T> \x7b x: T \x7d interface B extends ; type A = ;"

theorem extract_append_iff_malformed :
    IsSettled malformed ∧ (extract (malformed ++ "\n" ++ "interface B \x7b x: G; \x7d")).content =
      (({} : Registry).addAll ((extract malformed).declarations ++
        (extract "interface B \x7b x: G; \x7d").declarations)).content := by
  have hsettled : IsSettled malformed := isSettled_of_all (by cbv) (by cbv) (by cbv)
  exact ⟨hsettled, (extract_append_iff hsettled).2 (by cbv) _⟩

/-- The body of `B` is taken for that of `A`. -/
theorem not_extract_append_generic :
    IsSettled "interface A<T>;" ∧
      (extract ("interface A<T>;" ++ "\n" ++ "interface B \x7b x: string; \x7d")).content ≠
        (({} : Registry).addAll ((extract "interface A<T>;").declarations ++
          (extract "interface B \x7b x: string; \x7d").declarations)).content := by
  refine ⟨isSettled_of_all (by cbv) (by cbv) (by cbv), fun heq => ?_⟩
  have hnames := congrArg (fun r => r.interfaces.names) heq
  have hleft : (extract ("interface A<T>;" ++ "\n" ++ "interface B \x7b x: string; \x7d")).content.interfaces.names =
      [] := by cbv
  have hright : (({} : Registry).addAll ((extract "interface A<T>;").declarations ++
      (extract "interface B \x7b x: string; \x7d").declarations)).content.interfaces.names = ["B"] := by cbv
  simp only [hleft, hright] at hnames
  cases hnames

end Registry

end TypeSchema
