import TypeSchema.Proofs.Registry.Relocation
import TypeSchema.Proofs.Registry.Scanning
import TypeSchema.Proofs.Registry.Settled
import TypeSchema.Proofs.Registry.TypeTexts
import TypeSchema.Proofs.TypeExpr.Grammar

/-!
# Declarations as they are written

`Writes ts x` says that the tokens `ts` are a well-formed declaration and that `x` is what they declare.  Every part of
a declaration has a relation of its own, and every reader finds exactly what is written, whatever follows:

* `splitClosed?_nested`: a body whose brackets are nested ends at its own brace;
* `WritesType.expression`: a type on one line ends at its semicolon;
* `extendsClause_of_writes`, `members_of_writes`, `enumMembers_of_writes`: bases, fields and values are read;
* `Writes.yields`: a walk comes upon the declaration and goes on behind it.
-/

namespace TypeSchema

/-! ## Balanced tokens -/

/-- The tokens are closed, and their brackets are properly nested. -/
structure Balanced (ts : List Token) : Prop where
  closed : ∀ t ∈ ts, t.kind.isError = false
  nested : isNested [] (ts.map Token.kind) = true

theorem balanced_iff {ts : List Token} : Balanced ts ↔ BalancedKinds (ts.map Token.kind) := by
  constructor
  · intro h
    refine ⟨fun kind hk => ?_, h.nested⟩
    obtain ⟨t, ht, rfl⟩ := List.mem_map.1 hk
    exact h.closed t ht
  · exact fun h => ⟨fun t ht => h.closed _ (List.mem_map_of_mem ht), h.nested⟩

namespace Balanced

variable {ts us : List Token}

theorem nil : Balanced [] := balanced_iff.2 .nil

theorem append (h : Balanced ts) (h' : Balanced us) : Balanced (ts ++ us) := by
  rw [balanced_iff, List.map_append]
  exact (balanced_iff.1 h).append (balanced_iff.1 h')

theorem cons {t : Token} {kind : TokenKind} (ht : t.kind = kind) (hk : kind.isPlain = true) (h : Balanced ts) :
    Balanced (t :: ts) := by
  rw [balanced_iff, List.map_cons, ht]
  exact (balanced_iff.1 h).cons hk

theorem braces {opening closing : Token} (ho : opening.kind = .punct .openBrace) (h : Balanced ts)
    (hc : closing.kind = .punct .closeBrace) : Balanced (opening :: (ts ++ [closing])) := by
  rw [balanced_iff, List.map_cons, List.map_append, List.map_singleton, ho, hc]
  exact (balanced_iff.1 h).group Punct.closing?_openBrace

end Balanced

theorem nesting_of_brackets {kind : TokenKind} {stack stack' : List Punct} (h : kind.brackets stack = some stack') :
    kind.nesting stack.length = stack'.length := by
  obtain ⟨x, y, rfl, hxy, rfl⟩ | ⟨y, rfl, hy, rfl⟩ | ⟨ho, hc, rfl⟩ := brackets_cases h
  · have hopen : (TokenKind.punct x).isOpen = true := (Punct.isClose_of_closing? hxy).2.2
    rw [TokenKind.nesting, if_pos hopen, List.length_cons]
  · have hopen : (TokenKind.punct y).isOpen = false := by cases y <;> first | rfl | cases hy
    have hclose : (TokenKind.punct y).isClose = true := hy
    rw [TokenKind.nesting, if_neg (by simp [hopen]), if_pos hclose, List.length_cons, Nat.add_sub_cancel]
  · rw [TokenKind.nesting, if_neg (by simp [ho]), if_neg (by simp [hc])]

namespace Extract

/-- **What stands between braces is cut out as a whole** if its brackets are nested. -/
theorem splitClosed?_nested {opening close : Punct} (hoc : opening.closing? = some close) {stack : List Punct}
    {ts : List Token} (h : isNested stack (ts.map Token.kind) = true) {closing : Token}
    (hc : closing.kind = .punct close) (us : List Token) :
    splitClosed? opening close (stack.count close) (ts ++ closing :: us) = some (ts, us) := by
  have hclosing : close ≠ opening := by
    rintro rfl
    rw [(Punct.isClose_of_closing? hoc).1] at hoc
    cases hoc
  induction ts generalizing stack with
  | nil =>
    rw [List.map_nil, isNested, List.isEmpty_iff] at h
    rw [h, List.nil_append, splitClosed?_cons, if_neg (by simp [Token.isPunct, hc, hclosing]),
      if_pos (by simp [Token.isPunct, hc])]
    rfl
  | cons t ts ih =>
    obtain ⟨stack', hb, hn⟩ := exists_of_isNested_cons h
    have hrest := ih hn
    rw [List.cons_append, splitClosed?_cons]
    by_cases ho : t.kind = .punct opening
    · rw [ho, brackets_open hoc] at hb
      cases hb
      rw [List.count_cons_self] at hrest
      rw [if_pos (by simp [Token.isPunct, ho]), hrest]
      rfl
    · rw [if_neg (by simp [Token.isPunct, ho])]
      by_cases hk : t.kind = .punct close
      · -- the group that is closed is one of those that are counted
        rw [hk] at hb
        rw [if_pos (by simp [Token.isPunct, hk]), eq_cons_of_brackets_close (Punct.isClose_of_closing? hoc).2.1 hb,
          List.count_cons_self]
        dsimp only
        rw [hrest]
        rfl
      · rw [if_neg (by simp [Token.isPunct, hk]), ← count_brackets hoc hb ho hk, hrest]
        rfl

/-! ## Types -/

/-- Whether a semicolon or comma stands outside of the brackets, with `depth` of them open. -/
def isSeparated (depth : Nat) : List TokenKind → Bool
  | [] => false
  | kind :: kinds =>
    (depth = 0 && (kind == .punct .semicolon || kind == .punct .comma)) || isSeparated (kind.nesting depth) kinds

theorem belongs_of_isNested {stack : List Punct} {kinds : List TokenKind} (h : isNested stack kinds = true)
    (hs : isSeparated stack.length kinds = false) (hc : ∀ kind ∈ kinds, kind.isComment = false) :
    belongs stack.length kinds = true := by
  induction kinds generalizing stack with
  | nil =>
    rw [isNested, List.isEmpty_iff] at h
    rw [h]
    rfl
  | cons kind kinds ih =>
    obtain ⟨stack', hb, hn⟩ := exists_of_isNested_cons h
    rw [isSeparated, nesting_of_brackets hb, Bool.or_eq_false_iff] at hs
    have hrest := ih hn hs.2 fun kind' hk => hc kind' (List.mem_cons_of_mem kind hk)
    have hgoes : (decide (stack.length = 0) && separates kind) = false := by
      obtain ⟨x, y, rfl, hxy, -⟩ | ⟨y, rfl, -, rfl⟩ | ⟨-, hclose, -⟩ := brackets_cases hb
      · cases x <;> first | exact Bool.and_false _ | cases hxy
      · rfl
      · have hcomment := hc kind List.mem_cons_self
        have hseparated := hs.1
        unfold separates
        split
        · simpa using hseparated
        · simpa using hseparated
        · cases hcomment
        · rw [hclose, Bool.and_false]
    rw [belongs, nesting_of_brackets hb, hgoes, hrest]
    rfl

/-- The tokens are a type with this text: they are nested, and there is no separator outside of their brackets. -/
structure WritesType (ts : List Token) (type : String) : Prop extends Balanced ts where
  ne_nil : ts ≠ []
  uncommented : ∀ t ∈ ts, t.kind.isComment = false
  unseparated : isSeparated 0 (ts.map Token.kind) = false
  text : spell ts = type

/-- The tokens stand on this line, and each of them covers some text. -/
def OnLine (line : Nat) (ts : List Token) : Prop := ∀ t ∈ ts, t.span.line = line ∧ t.text.toList ≠ []

theorem OnLine.sublist {line : Nat} {ts us : List Token} (h : OnLine line us) (hs : ts.Sublist us) : OnLine line ts :=
  fun t ht => h t (hs.subset ht)

theorem typeText?_eq_spell {ts : List Token} (hne : ts ≠ []) (ht : ∀ t ∈ ts, t.text.toList ≠ [])
    (hc : ∀ t ∈ ts, t.kind.isComment = false) : typeText? ts = some (spell ts) := by
  have hfilter : (ts.filter fun t => !isDoc t) = ts := by
    refine List.filter_eq_self.2 fun t ht => ?_
    have := hc t ht
    cases hk : t.kind with
    | docComment text => rw [hk] at this; cases this
    | _ => simp [isDoc, hk]
  obtain ⟨t, us, rfl⟩ := List.exists_cons_of_ne_nil hne
  have hhead := head?_spell (ht t List.mem_cons_self) us
  rw [typeText?, hfilter, if_neg]
  intro hempty
  rw [String.isEmpty_iff] at hempty
  rw [hempty] at hhead
  exact ht t List.mem_cons_self (List.head?_eq_none_iff.1 hhead.symm)

/-- **A type on one line ends at its semicolon.** -/
theorem WritesType.expression {ts : List Token} {type : String} (h : WritesType ts type) {line : Nat}
    {first semicolon : Token} (hline : OnLine line (first :: ts)) (hfirst : first.kind.nesting 0 = 0)
    (hs : semicolon.kind = .punct .semicolon) (us : List Token) :
    expression first (ts ++ semicolon :: us) = (ts, semicolon :: us) := by
  have hcomments : ∀ kind ∈ ts.map Token.kind, kind.isComment = false := by
    intro kind hk
    obtain ⟨t, ht, rfl⟩ := List.mem_map.1 hk
    exact h.uncommented t ht
  have hbelongs := belongs_of_isNested h.nested h.unseparated hcomments
  rw [Extract.expression, hfirst]
  exact splitExpression_line hbelongs (hline first List.mem_cons_self).1
    (fun t ht => (hline t (List.mem_cons_of_mem first ht)).1) hs us

theorem WritesType.typeText? {ts : List Token} {type : String} (h : WritesType ts type) {line : Nat}
    (hline : OnLine line ts) : typeText? ts = some type := by
  rw [typeText?_eq_spell h.ne_nil (fun t ht => (hline t ht).2) h.uncommented, h.text]

/-! ## Members of interfaces -/

/-- The tokens are `[/** doc */] [readonly] name[?]: type;`. -/
inductive WritesMember : List Token → Field → Prop
  | member {doc modifier question : Option Token} {nameToken colon semicolon : Token} {typeTokens : List Token}
      {name type : String} {optional : Bool} {description : Option String}
      (hdoc : doc.map Token.kind = description.map .docComment)
      (hmodifier : ∀ t ∈ modifier, t.kind = .ident "readonly")
      (hname : nameToken.kind = .ident name ∨ ∃ quote, nameToken.kind = .str name quote)
      (hquestion : question.map Token.kind = if optional then some (.punct .question) else none)
      (hcolon : colon.kind = .punct .colon) (htype : WritesType typeTokens type)
      (hsemicolon : semicolon.kind = .punct .semicolon) :
      WritesMember
        (doc.toList ++ modifier.toList ++ nameToken :: question.toList ++ colon :: typeTokens ++ [semicolon])
        { name, type, optional, description }

/-- The tokens are the members of an interface with these fields. -/
inductive WritesMembers : List Token → List Field → Prop
  | none : WritesMembers [] []
  | more {ts us : List Token} {f : Field} {fs : List Field} (h : WritesMember ts f) (h' : WritesMembers us fs) :
      WritesMembers (ts ++ us) (f :: fs)

section

variable {owner : String} {description : Option String}

theorem members_doc {doc : Option Token} (h : doc.map Token.kind = description.map .docComment) (ts : List Token) :
    members owner none (doc.toList ++ ts) = members owner description ts := by
  cases doc with
  | none =>
    cases description with
    | none => rfl
    | some text => cases h
  | some t =>
    cases description with
    | none => cases h
    | some text =>
      have hk : t.kind = .docComment text := Option.some.inj h
      rw [Option.toList_some, List.singleton_append, members, hk]

theorem members_name {t : Token} (h : (memberName? t).isSome = true) (ts : List Token) :
    members owner description (t :: ts) =
      (memberAt owner description t ts).1 :: members owner none (memberAt owner description t ts).2 := by
  cases hk : t.kind with
  | ident name => rw [members, hk]
  | str name quote => rw [members, hk]
  | _ => simp [memberName?, hk] at h

theorem members_semicolon {t : Token} (h : t.kind = .punct .semicolon) (ts : List Token) :
    members owner description (t :: ts) = members owner description ts := by
  rw [members, h]

end

/-- A member starts at its name, with or without the word before it. -/
theorem exists_memberStart {modifier : Option Token} (hm : ∀ t ∈ modifier, t.kind = .ident "readonly")
    {nameToken : Token} (hn : (memberName? nameToken).isSome = true) {u : Token} (hu : memberName? u = none)
    (us : List Token) :
    ∃ t ts, modifier.toList ++ nameToken :: u :: us = t :: ts ∧ (memberName? t).isSome = true ∧
      memberStart t ts = (nameToken, u :: us) := by
  cases modifier with
  | none => exact ⟨nameToken, u :: us, rfl, hn, by simp [memberStart, hu]⟩
  | some t =>
    have ht : t.kind = .ident "readonly" := hm t rfl
    exact ⟨t, nameToken :: u :: us, rfl, by simp [memberName?, ht], by simp [memberStart, Token.isIdent, ht, hn]⟩

theorem takeQuestion_of_writes {question : Option Token} {optional : Bool}
    (h : question.map Token.kind = if optional then some (.punct .question) else none) {colon : Token}
    (hc : colon.kind = .punct .colon) (ts : List Token) :
    takeQuestion (question.toList ++ colon :: ts) = (optional, colon :: ts) := by
  cases question with
  | none =>
    cases optional with
    | false => simp [takeQuestion, Token.isPunct, hc]
    | true => cases h
  | some t =>
    cases optional with
    | false => cases h
    | true =>
      have ht : t.kind = .punct .question := Option.some.inj h
      simp [takeQuestion, Token.isPunct, ht]

/-- **A member is read as it is written**, and reading goes on behind it. -/
theorem members_of_writesMember {ts : List Token} {f : Field} (h : WritesMember ts f) {line : Nat}
    (hline : OnLine line ts) (owner : String) (us : List Token) :
    ∃ g, members owner none (ts ++ us) = .ok g :: members owner none us ∧ g.mapSpan (fun _ => {}) = f := by
  obtain @⟨doc, modifier, question, nameToken, colon, semicolon, typeTokens, name, type, optional, description, hdoc,
    hmodifier, hname, hquestion, hcolon, htype, hsemicolon⟩ := h
  refine ⟨{ name, type, optional, description, span := nameToken.span }, ?_, rfl⟩
  have hmember : memberName? nameToken = some name := by
    rcases hname with hn | ⟨quote, hn⟩
    · simp only [memberName?, hn]
    · simp only [memberName?, hn]
  -- what follows the name is a question mark or the colon
  obtain ⟨u, behind, hu, hbehind⟩ : ∃ u behind, memberName? u = none ∧
      question.toList ++ colon :: (typeTokens ++ semicolon :: us) = u :: behind := by
    cases question with
    | none => exact ⟨colon, _, by simp [memberName?, hcolon], rfl⟩
    | some t =>
      have ht : t.kind = .punct .question := by
        cases optional with
        | false => cases hquestion
        | true => exact Option.some.inj hquestion
      exact ⟨t, _, by simp [memberName?, ht], rfl⟩
  obtain ⟨t, rest, ht, htname, hstart⟩ := exists_memberStart hmodifier (by rw [hmember]; rfl) hu behind
  have hquestion' := takeQuestion_of_writes hquestion hcolon (typeTokens ++ semicolon :: us)
  have htyped : OnLine line (colon :: typeTokens) := hline.sublist <| by
    rw [List.append_assoc, List.append_assoc]
    exact (List.sublist_append_left (colon :: typeTokens) [semicolon]).trans
      ((List.sublist_append_right _ _).trans (List.sublist_append_right _ _))
  have hcolon' : colon.isPunct .colon = true := by rw [Token.isPunct, hcolon, beq_self_eq_true]
  have hexpression := htype.expression htyped (by rw [hcolon]; rfl) hsemicolon us
  have hread : memberAt owner description t rest =
      (.ok { name, type, optional, description, span := nameToken.span }, semicolon :: us) := by
    simp only [memberAt, hstart, ← hbehind, hquestion', hcolon', if_true, hexpression,
      htype.typeText? (htyped.sublist (List.sublist_cons_self _ _)), hmember, Option.getD_some]
  have happ :
      doc.toList ++ modifier.toList ++ nameToken :: question.toList ++ colon :: typeTokens ++ [semicolon] ++ us =
      doc.toList ++ (modifier.toList ++ nameToken ::
        (question.toList ++ colon :: (typeTokens ++ semicolon :: us))) := by simp
  rw [happ, members_doc hdoc, hbehind, ht, members_name htname, hread, members_semicolon hsemicolon]

theorem WritesMember.balanced {ts : List Token} {f : Field} (h : WritesMember ts f) : Balanced ts := by
  obtain @⟨doc, modifier, question, nameToken, colon, semicolon, typeTokens, name, type, optional, description, hdoc,
    hmodifier, hname, hquestion, hcolon, htype, hsemicolon⟩ := h
  have hdoc' : Balanced doc.toList := by
    cases doc with
    | none => exact .nil
    | some t =>
      obtain ⟨text, -, ht⟩ := Option.map_eq_some_iff.1 hdoc.symm
      exact .cons ht.symm rfl .nil
  have hmodifier' : Balanced modifier.toList := by
    cases modifier with
    | none => exact .nil
    | some t => exact .cons (hmodifier t rfl) rfl .nil
  have hquestion' : Balanced question.toList := by
    cases question with
    | none => exact .nil
    | some t =>
      cases optional with
      | false => cases hquestion
      | true => exact .cons (Option.some.inj hquestion) rfl .nil
  have hname' : Balanced (nameToken :: question.toList) := by
    rcases hname with hn | ⟨quote, hn⟩
    · exact .cons hn rfl hquestion'
    · exact .cons hn rfl hquestion'
  have htype' : Balanced (colon :: typeTokens) := .cons hcolon rfl htype.toBalanced
  exact (((hdoc'.append hmodifier').append hname').append htype').append (.cons hsemicolon rfl .nil)

theorem WritesMembers.balanced {ts : List Token} {fs : List Field} (h : WritesMembers ts fs) : Balanced ts := by
  induction h with
  | none => exact .nil
  | more h _ ih => exact h.balanced.append ih

/-- **The fields of an interface are read as they are written.** -/
theorem members_of_writes {ts : List Token} {fs : List Field} (h : WritesMembers ts fs) {line : Nat}
    (hline : OnLine line ts) (owner : String) :
    ∃ gs : List Field, members owner none ts = gs.map .ok ∧ gs.map (Field.mapSpan fun _ => {}) = fs := by
  induction h with
  | none => exact ⟨[], by rw [members]; rfl, rfl⟩
  | @more ts us f fs h _ ih =>
    obtain ⟨gs, hgs, hfs⟩ := ih (hline.sublist (List.sublist_append_right ts us))
    obtain ⟨g, hg, hf⟩ := members_of_writesMember h (hline.sublist (List.sublist_append_left ts us)) owner us
    exact ⟨g :: gs, by rw [hg, hgs]; rfl, by rw [List.map_cons, hf, hfs]⟩

/-! ## Members of enums -/

/-- The tokens are an enum member with this value: a name, which may be set to a string. -/
inductive WritesValue : List Token → String → Prop
  | name {t : Token} {name : String} (hname : t.kind = .ident name) : WritesValue [t] name
  | text {t equals u : Token} {name value : String} {quote : Char} (hname : t.kind = .ident name)
      (hequals : equals.kind = .punct .equals) (htext : u.kind = .str value quote) : WritesValue [t, equals, u] value

/-- The tokens are the members of an enum with these values; a comma may stand behind the last one. -/
inductive WritesValues : List Token → List String → Prop
  | none : WritesValues [] []
  | last {ts : List Token} {v : String} (h : WritesValue ts v) : WritesValues ts [v]
  | more {ts us : List Token} {comma : Token} {v : String} {vs : List String} (h : WritesValue ts v)
      (hcomma : comma.kind = .punct .comma) (h' : WritesValues us vs) : WritesValues (ts ++ comma :: us) (v :: vs)

/-- The value of an enum member is read up to the next comma or the end of the body. -/
theorem enumMembers_of_writesValue {ts us : List Token} {v : String} (h : WritesValue ts v)
    (hus : ∀ u ∈ us.head?, endsEnumMember u = true) (owner : String) :
    enumMembers owner (ts ++ us) = (some v, none) :: enumMembers owner us := by
  have hend : splitEnumMember 0 us = ([], us) := by
    cases us with
    | nil => rfl
    | cons u us => simp [splitEnumMember, hus u rfl]
  cases h with
  | @name t name hname =>
    have hstart : endsEnumMember t = false := by simp [endsEnumMember, hname]
    have hdepth : t.kind.nesting 0 = 0 := by rw [hname]; rfl
    rw [List.singleton_append, enumMembers, hstart, hdepth, hend]
    simp [enumMember, memberName?, hname]
  | @text t equals u name value quote hname hequals htext =>
    have hstart : endsEnumMember t = false := by simp [endsEnumMember, hname]
    have hdepth : t.kind.nesting 0 = 0 := by rw [hname]; rfl
    have hbehind : splitEnumMember 0 (equals :: u :: us) = ([equals, u], us) := by
      simp [splitEnumMember, endsEnumMember, hequals, htext, hend, TokenKind.nesting, TokenKind.isOpen,
        TokenKind.isClose, Punct.isOpen, Punct.isClose]
    rw [List.cons_append, List.cons_append, List.singleton_append, enumMembers, hstart, hdepth, hbehind]
    simp [enumMember, memberName?, hname, hequals, htext]

/-- **The values of an enum are read as they are written.** -/
theorem enumMembers_of_writes {ts : List Token} {vs : List String} (h : WritesValues ts vs) (owner : String) :
    enumMembers owner ts = vs.map fun v => (some v, none) := by
  induction h with
  | none => rw [enumMembers]; rfl
  | @last ts v h =>
    have hread := @enumMembers_of_writesValue ts [] v h (by simp) owner
    rw [List.append_nil, enumMembers] at hread
    exact hread
  | @more ts us comma v vs h hcomma _ ih =>
    have hend : endsEnumMember comma = true := by simp [endsEnumMember, hcomma]
    rw [enumMembers_of_writesValue h (by simpa using hend), enumMembers, if_pos hend, ih]
    rfl

theorem WritesValue.balanced {ts : List Token} {v : String} (h : WritesValue ts v) : Balanced ts := by
  cases h with
  | name hname => exact .cons hname rfl .nil
  | text hname hequals htext => exact .cons hname rfl (.cons hequals rfl (.cons htext rfl .nil))

theorem WritesValues.balanced {ts : List Token} {vs : List String} (h : WritesValues ts vs) : Balanced ts := by
  induction h with
  | none => exact .nil
  | last h => exact h.balanced
  | more h hcomma _ ih => exact h.balanced.append (.cons hcomma rfl ih)

/-! ## Bases -/

/-- The tokens are names with commas between them. -/
inductive WritesNames : List Token → List String → Prop
  | one {ts : List Token} {name : String} (h : Parser.Names ts name) : WritesNames ts [name]
  | more {ts us : List Token} {comma : Token} {name : String} {names : List String} (h : Parser.Names ts name)
      (hcomma : comma.kind = .punct .comma) (h' : WritesNames us names) :
      WritesNames (ts ++ comma :: us) (name :: names)

/-- The tokens are an `extends` clause with these bases, or nothing at all. -/
inductive WritesBases : List Token → List String → Prop
  | none : WritesBases [] []
  | clause {word : Token} {ts : List Token} {bases : List String} (hword : word.kind = .ident "extends")
      (h : WritesNames ts bases) : WritesBases (word :: ts) bases

theorem balanced_nameTail {first full : String} {ts : List Token} (h : Parser.NameTail first ts full) :
    Balanced ts := by
  induction h with
  | done => exact .nil
  | part hdot ht _ ih => exact .cons hdot rfl (.cons ht rfl ih)

theorem balanced_names {ts : List Token} {name : String} (h : Parser.Names ts name) : Balanced ts := by
  obtain ⟨t, us, first, rfl, ht, htail⟩ := h
  exact .cons ht rfl (balanced_nameTail htail)

theorem WritesNames.balanced {ts : List Token} {names : List String} (h : WritesNames ts names) : Balanced ts := by
  induction h with
  | one h => exact balanced_names h
  | more h hcomma _ ih => exact (balanced_names h).append (.cons hcomma rfl ih)

theorem WritesBases.balanced {ts : List Token} {bases : List String} (h : WritesBases ts bases) : Balanced ts := by
  cases h with
  | none => exact .nil
  | clause hword h => exact .cons hword rfl h.balanced

theorem dottedTail_of_nameTail {first full : String} {ts : List Token} (h : Parser.NameTail first ts full) {t : Token}
    (ht : t.isPunct .dot = false) (us : List Token) : dottedTail first (ts ++ t :: us) = .ok (full, t :: us) := by
  induction h with
  | done name =>
    cases us with
    | nil => simp [dottedTail, ht]
    | cons u us => simp [dottedTail, ht]
  | @part name part full dot u ts hdot hu _ ih =>
    have hdot' : dot.isPunct .dot = true := by rw [Token.isPunct, hdot, beq_self_eq_true]
    rw [List.cons_append, List.cons_append, dottedTail, if_pos hdot', hu]
    exact ih

theorem dottedName_of_names {ts : List Token} {name : String} (h : Parser.Names ts name) {t : Token}
    (ht : t.isPunct .dot = false) (us : List Token) : dottedName (ts ++ t :: us) = .ok (name, t :: us) := by
  obtain ⟨u, tail, first, rfl, hu, htail⟩ := h
  rw [List.cons_append, dottedName, hu]
  exact dottedTail_of_nameTail htail ht us

/-- **The bases of an interface are read as they are written**, up to the brace. -/
theorem extendsClause_of_writes {ts : List Token} {bases : List String} (h : WritesNames ts bases) {brace : Token}
    (hb : brace.kind = .punct .openBrace) (stop : Span) (owner : String) (us : List Token) :
    extendsClause stop owner (ts ++ brace :: us) = { bases, finish := .read (brace :: us) } := by
  induction h with
  | one h =>
    rw [extendsClause_eq, dottedName_of_names h (by rw [Token.isPunct, hb]; rfl)]
    simp [Token.isPunct, hb]
  | more h hcomma _ ih =>
    rw [List.append_assoc, List.cons_append, extendsClause_eq,
      dottedName_of_names h (by rw [Token.isPunct, hcomma]; rfl)]
    simp [Token.isPunct, hcomma, ih]

/-! ## Declarations -/

/-- The tokens are a declaration on its own, and this is what they declare. -/
inductive Writes : List Token → Finding → Prop
  | interface {keyword nameToken opening closing : Token} {head inside : List Token} {name : String}
      {bases : List String} {fields : List Field} (hkeyword : keyword.kind = .ident "interface")
      (hname : nameToken.kind = .ident name) (hbases : WritesBases head bases)
      (hopening : opening.kind = .punct .openBrace) (hfields : WritesMembers inside fields)
      (hclosing : closing.kind = .punct .closeBrace) :
      Writes (keyword :: nameToken :: (head ++ opening :: (inside ++ [closing]))) (.interface { name, bases, fields })
  | typeAlias {keyword nameToken equals semicolon : Token} {typeTokens : List Token} {name type : String}
      (hkeyword : keyword.kind = .ident "type") (hname : nameToken.kind = .ident name)
      (hequals : equals.kind = .punct .equals) (htype : WritesType typeTokens type)
      (hsemicolon : semicolon.kind = .punct .semicolon) :
      Writes (keyword :: nameToken :: equals :: (typeTokens ++ [semicolon])) (.typeAlias { name, type })
  | enum {keyword nameToken opening closing : Token} {inside : List Token} {name : String} {values : List String}
      (hkeyword : keyword.kind = .ident "enum") (hname : nameToken.kind = .ident name)
      (hopening : opening.kind = .punct .openBrace) (hvalues : WritesValues inside values)
      (hclosing : closing.kind = .punct .closeBrace) :
      Writes (keyword :: nameToken :: opening :: (inside ++ [closing])) (.enum { name, values })

theorem Writes.balanced {ts : List Token} {x : Finding} (h : Writes ts x) : Balanced ts := by
  cases h with
  | interface hkeyword hname hbases hopening hfields hclosing =>
    exact .cons hkeyword rfl (.cons hname rfl (hbases.balanced.append (.braces hopening hfields.balanced hclosing)))
  | typeAlias hkeyword hname hequals htype hsemicolon =>
    exact .cons hkeyword rfl (.cons hname rfl
      (.cons hequals rfl (htype.toBalanced.append (.cons hsemicolon rfl .nil))))
  | enum hkeyword hname hopening hvalues hclosing =>
    exact .cons hkeyword rfl (.cons hname rfl (.braces hopening hvalues.balanced hclosing))

/-- A walk over these tokens, whatever follows them, comes upon exactly this, spans aside. -/
def Yields (ts : List Token) (found : List Finding) : Prop :=
  ∀ stop us, (scan stop false (ts ++ us)).map Finding.bare = found ++ (scan stop false us).map Finding.bare

/-- A declaration is found if its reader stops behind it, or at tokens that are passed over. -/
theorem yields_of_declaration {kind : DeclarationKind} {keyword : Token} {ts : List Token} {x : Finding}
    (hk : keywordKind? false keyword = some kind)
    (hd : ∀ stop us, ∃ y after afterDot, y.bare = x ∧ passes afterDot (after.map Token.kind) = true ∧
      declaration stop kind keyword (ts ++ us) = { found := [y], rest := after ++ us, afterDot }) :
    Yields (keyword :: ts) [x] := by
  intro stop us
  obtain ⟨y, after, afterDot, hy, hafter, hread⟩ := hd stop us
  rw [List.cons_append, scan, hk]
  simp only [hread, scan_of_passes hafter]
  rw [List.map_append, List.map_singleton, hy]

theorem filterMap_map_eq_nil {α β γ : Type} {f : β → Option γ} {g : α → β} {as : List α}
    (h : ∀ a ∈ as, f (g a) = none) : (as.map g).filterMap f = [] := by
  rw [List.filterMap_map]
  exact List.filterMap_eq_nil_iff.2 h

theorem body_of_balanced {kind : DeclarationKind} {keyword opening closing : Token} {name : String}
    {inside : List Token} (ho : opening.kind = .punct .openBrace) (h : Balanced inside)
    (hc : closing.kind = .punct .closeBrace) (us : List Token) :
    body kind keyword name (opening :: (inside ++ closing :: us)) = .ok (inside, us) := by
  have hsplit := splitClosed?_nested Punct.closing?_openBrace h.nested hc us
  rw [List.count_nil] at hsplit
  simp only [body, Token.isPunct, ho, beq_self_eq_true, if_true, hsplit]

theorem interfaceNamed_of_writes {head : List Token} {bases : List String} (h : WritesBases head bases)
    {brace : Token} (hb : brace.kind = .punct .openBrace) (stop : Span) (keyword nameToken : Token) (name : String)
    (us : List Token) :
    interfaceNamed stop keyword nameToken name (head ++ brace :: us) =
      interfaceBody keyword name bases (brace :: us) := by
  cases h with
  | none => simp [interfaceNamed, Token.isPunct, Token.isIdent, hb]
  | clause hword h =>
    rw [List.cons_append, interfaceNamed, extendsClause_of_writes h hb]
    simp [Token.isPunct, Token.isIdent, hword]

theorem interfaceBody_of_writes {inside : List Token} {fields : List Field} (h : WritesMembers inside fields)
    {line : Nat} (hline : OnLine line inside) {opening closing : Token} (ho : opening.kind = .punct .openBrace)
    (hc : closing.kind = .punct .closeBrace) (keyword : Token) (name : String) (bases : List String) (us : List Token) :
    ∃ i : Interface, (Finding.interface i).bare = .interface { name, bases, fields } ∧
      interfaceBody keyword name bases (opening :: (inside ++ closing :: us)) =
        { found := [.interface i], rest := us } := by
  obtain ⟨gs, hgs, rfl⟩ := members_of_writes h hline name
  refine ⟨{ name, bases, fields := gs, span := keyword.span }, rfl, ?_⟩
  have hfields : (gs.map (@Except.ok Diagnostic Field)).filterMap Except.toOption = gs := by
    rw [List.filterMap_map]
    exact List.filterMap_some
  simp only [interfaceBody, body_of_balanced ho h.balanced hc, hgs, hfields]
  rw [filterMap_map_eq_nil fun _ _ => rfl, List.nil_append]

/-- **A walk over a written declaration comes upon it**, and goes on behind it. -/
theorem Writes.yields {ts : List Token} {x : Finding} (h : Writes ts x) {line : Nat} (hline : OnLine line ts) :
    Yields ts [x] := by
  cases h with
  | @interface keyword nameToken opening closing head inside name bases fields hkeyword hname hbases hopening hfields
      hclosing =>
    have hkind : keywordKind? false keyword = some .interface := by simp [keywordKind?, Token.isIdent, hkeyword]
    refine yields_of_declaration hkind fun stop us => ?_
    have hinside : OnLine line inside := by
      refine hline.sublist (.cons _ (.cons _ ?_))
      exact (List.sublist_append_left inside [closing]).trans
        ((List.sublist_cons_self opening _).trans (List.sublist_append_right head _))
    obtain ⟨i, hi, hread⟩ := interfaceBody_of_writes hfields hinside hopening hclosing keyword name bases us
    refine ⟨.interface i, [], false, hi, rfl, ?_⟩
    have happ : nameToken :: (head ++ opening :: (inside ++ [closing])) ++ us =
        nameToken :: (head ++ opening :: (inside ++ closing :: us)) := by simp
    simp only [happ, declaration, hname, TokenKind.ident?]
    exact (interfaceNamed_of_writes hbases hopening stop keyword nameToken name _).trans hread
  | @typeAlias keyword nameToken equals semicolon typeTokens name type hkeyword hname hequals htype hsemicolon =>
    have hkind : keywordKind? false keyword = some .typeAlias := by simp [keywordKind?, Token.isIdent, hkeyword]
    refine yields_of_declaration hkind fun stop us => ?_
    refine ⟨.typeAlias { name, type, span := keyword.span }, [semicolon], endsWithDot typeTokens, rfl, ?_, ?_⟩
    · rw [List.map_singleton, hsemicolon]
      cases endsWithDot typeTokens <;> rfl
    · have htyped : OnLine line (equals :: typeTokens) :=
        hline.sublist (.cons _ (.cons _ (.cons_cons _ (List.sublist_append_left typeTokens [semicolon]))))
      have happ : nameToken :: equals :: (typeTokens ++ [semicolon]) ++ us =
          nameToken :: equals :: (typeTokens ++ semicolon :: us) := by simp
      have hexpression := htype.expression htyped (by rw [hequals]; rfl) hsemicolon us
      have htext := htype.typeText? (htyped.sublist (List.sublist_cons_self _ _))
      simp only [happ, declaration, hname, TokenKind.ident?, aliasNamed, hexpression, htext, Token.isPunct, hequals,
        beq_self_eq_true, if_true]
      rfl
  | @enum keyword nameToken opening closing inside name values hkeyword hname hopening hvalues hclosing =>
    have hkind : keywordKind? false keyword = some .enum := by simp [keywordKind?, Token.isIdent, hkeyword]
    refine yields_of_declaration hkind fun stop us => ?_
    refine ⟨.enum { name, values, span := keyword.span }, [], false, rfl, rfl, ?_⟩
    have happ : nameToken :: opening :: (inside ++ [closing]) ++ us =
        nameToken :: opening :: (inside ++ closing :: us) := by simp
    have hvalues' : (values.map fun v => (some v, (none : Option Diagnostic))).filterMap Prod.fst = values := by
      rw [List.filterMap_map]
      exact List.filterMap_some
    simp only [happ, declaration, hname, TokenKind.ident?, enumNamed,
      body_of_balanced hopening hvalues.balanced hclosing, enumMembers_of_writes hvalues, hvalues']
    rw [filterMap_map_eq_nil fun _ _ => rfl, List.nil_append]
    rfl

end Extract

end TypeSchema
