import TypeSchema.Proofs.TypeExpr.Contained
import TypeSchema.Proofs.TypeExpr.Embedding
import TypeSchema.Validator.Convert

/-!
# Two ways to write an array

The array of a text is written with the text as an argument (`argumentArray`) or with the text as a group that has a
suffix (`suffixArray`).  Both are read one level below the text itself, so they are the array of the text or nested too
deeply, with one exception: a record that is given up at the end of the text may take the angle of the argument list for
its own.  `array_texts_agree` says this, and `array_texts_differ` is a text with such a record.
-/

namespace TypeSchema

/-- The array of a text, with the text as an argument. -/
def TypeExpr.argumentArray (text : String) : String := "Array<" ++ text ++ "\n>"

/-- The array of a text, with the text as a group that has a suffix. -/
def TypeExpr.suffixArray (text : String) : String := "(" ++ text ++ "\n)[]"

namespace Parser

open Lexer (Yields Anywhere)
open TypeExpr (argumentArray suffixArray)

/-! ## Runs that follow others -/

section Follows

variable {α : Type} {s : String} {k : Nat} {F : List Token} {p : Parser} {r : EStateM.Result ParseFailure Parser α}

/-- What was read up to the end of a text is read up to what follows, or there is no level left for it. -/
theorem Follows.of_ok {a : α} (h : Follows s k F (.ok a p) r) (hp : p.rest = []) :
    (∃ q, r = .ok a q ∧ q.rest = F) ∨ 0 < k ∧ ∃ f q, r = .error f q ∧ f.fault = .tooDeep := by
  cases h with
  | @same _ _ q hpq =>
    obtain ⟨us, hus, hmirror⟩ := hpq.tokens
    rw [hp] at hmirror
    exact .inl ⟨q, rfl, by rw [hus, hmirror.eq_nil, List.nil_append]⟩
  | deeper hk hf => exact .inr ⟨hk, _, _, rfl, hf⟩

theorem Follows.of_deep {e : ParseFailure} (h : Follows s k F (.error e p) r) (he : e.fault = .tooDeep) :
    ∃ f q, r = .error f q ∧ f.fault = .tooDeep := by
  cases h with
  | fail hne => exact absurd he hne
  | deep _ hf => exact ⟨_, _, rfl, hf⟩
  | deeper _ hf => exact ⟨_, _, rfl, hf⟩
  | ended _ hne => exact absurd he hne

end Follows

/-- The parser at the start of a text, one level down. -/
def lowered (source : String) : Parser := { ofText source with depth := 1 }

/-- The union at `q` is read as `e`, up to `F`. -/
def ReadsUpTo (F : List Token) (q : Parser) (e : TypeExpr) : Prop :=
  ∃ r, union (maxNesting - 1) q = .ok e r ∧ r.rest = F

/-- The parser stands before the tokens of `s`, one level down, and `F` follows. -/
structure Inside (s : String) (F : List Token) (q : Parser) : Prop where
  tokens : ∃ us, q.rest = us ++ F ∧ Mirrors s (ofText s).rest q.source us
  depth : q.depth = 1
  unmarked : q.tooDeep = false

section Inside

variable {s : String} {F : List Token} {q : Parser} {e : TypeExpr} (hF : Closing F) (h : Inside s F q)

/-- A text that is not inside of more text. -/
theorem inside_self (s : String) : Inside s [] (lowered s) :=
  ⟨⟨(ofText s).rest, (List.append_nil _).symm, .refl s _⟩, rfl, rfl⟩

include hF h

/-- One level down, a text is read as on its own, or nested too deeply. -/
theorem Inside.reads_or_fails (hguard : ∀ n d, d + n = maxNesting → Guarded s 1 F d (union n))
    (he : union maxNesting (ofText s) = .ok e { ofText s with rest := [] }) :
    ReadsUpTo F q e ∨ FailsForDepth (union (maxNesting - 1)) q := by
  have hahead : Ahead s 1 F (ofText s) q := ⟨rfl, List.suffix_refl _, h.tokens, h.depth, h.unmarked⟩
  have hfollows := simulates_union hF hguard (Nat.zero_add maxNesting) (ofText s) q rfl hahead
  rw [he] at hfollows
  rcases hfollows.of_ok rfl with hread | ⟨-, hfails⟩
  · exact .inl hread
  · exact .inr hfails

/-- What follows a text in which no record is given up at the end does not matter for how it is read. -/
theorem Inside.follows_self (hs : isContained s = true) :
    Follows s 0 F (union (maxNesting - 1) (lowered s)) (union (maxNesting - 1) q) := by
  have hahead : Ahead s 0 F (lowered s) q := ⟨rfl, List.suffix_refl _, h.tokens, h.depth, h.unmarked⟩
  have hlevels : 1 + (maxNesting - 1) = maxNesting := rfl
  exact simulates_union hF (fun _ _ => guarded_of_isContained hs 0 F) hlevels (lowered s) q rfl hahead

theorem Inside.reads_of_self (hs : isContained s = true) (hself : ReadsUpTo [] (lowered s) e) : ReadsUpTo F q e := by
  obtain ⟨r, hread, hr⟩ := hself
  have hfollows := h.follows_self hF hs
  rw [hread] at hfollows
  rcases hfollows.of_ok hr with hread' | ⟨hk, -⟩
  · exact hread'
  · exact absurd hk (Nat.lt_irrefl 0)

theorem Inside.fails_of_self (hs : isContained s = true)
    (hself : FailsForDepth (union (maxNesting - 1)) (lowered s)) : FailsForDepth (union (maxNesting - 1)) q := by
  obtain ⟨f, r, hfails, hf⟩ := hself
  have hfollows := h.follows_self hF hs
  rw [hfails] at hfollows
  exact hfollows.of_deep hf

end Inside

/-! ## What is around -/

/-- A type expression that has no question mark is a union up to the end. -/
theorem union_of_parse {source : String} {e : TypeExpr} (h : TypeExpr.parse source = .ok e)
    (he : ∀ f, e ≠ .optional f) : union maxNesting (ofText source) = .ok e { ofText source with rest := [] } := by
  obtain ⟨f, r, hunion, ⟨hnil, rfl⟩ | ⟨question, -, -, rfl⟩⟩ := TypeExpr.exists_union_of_parse h
  · rw [hunion, eq_of_union hunion, hnil]
  · exact absurd rfl (he f)

/-- A text that is one primary and its suffixes. -/
theorem parse_of_primary {source : String} {e f : TypeExpr} {q r : Parser}
    (hbar : (lowered source).current.kind ≠ .punct .pipe)
    (hprimary : primary (union (maxNesting - 1)) (lowered source) = .ok e q)
    (hsuffixes : suffixes e q.rest.length q = .ok f r) (hr : r.rest = []) : TypeExpr.parse source = .ok f := by
  have hn (p : Parser) : remaining p = .ok p.rest.length p := rfl
  have hend (depth : Nat) (x : Punct) : (current { r with depth }).kind ≠ .punct x := by
    rw [current, hr]
    exact TokenKind.noConfusion
  have hsuffixed : suffixed (union (maxNesting - 1)) (lowered source) =
      .ok f { r with depth := q.depth } := by
    rw [suffixed, bind_of_ok hprimary, onLevel, bind_of_ok (hn q), hsuffixes]
  have hbranches : branches (union (maxNesting - 1)) (lowered source) =
      .ok f { r with depth := q.depth } := by
    have hbar' : eat .pipe (lowered source) = .ok false (lowered source) :=
      eat_other hbar
    rw [branches, bind_of_ok hbar', bind_of_ok hsuffixed, bind_of_ok (hn _), bind_of_ok (more_other (hend _ _) _)]
    rfl
  have henter : enter (ofText source) = .ok () (lowered source) := rfl
  have hunion : union maxNesting (ofText source) = .ok f { r with depth := 0 } := by
    change onLevel (enter >>= fun _ => branches (union (maxNesting - 1))) (ofText source) = _
    rw [onLevel, bind_of_ok henter, hbranches]
    rfl
  have hk : peek { r with depth := 0 } = .ok .eof { r with depth := 0 } := by
    rw [peek, current, hr]
    rfl
  rw [TypeExpr.parse, run, typeExpr, bind_of_ok hunion, bind_of_ok (eat_other (hend _ _)), bind_of_ok hk]
  rfl

section Around

variable {source : String} {rest : List Token} {e : TypeExpr}

/-- The reader of the union inside of a group or an argument list that starts the text. -/
theorem Reached.inside {source : String} {r : Reader} {q : Parser} (hbar : (lowered source).current.kind ≠ .punct .pipe)
    (h : Calls (.primary (maxNesting - 1)) (lowered source) r q) : Reached source r q := by
  have hbranch : Calls (.union maxNesting) (ofText source) (.suffixed (maxNesting - 1)) (lowered source) :=
    .branch (Nat.le_of_ble_eq_true rfl) (eat_other hbar) (.first _)
  exact ((Reached.start.call hbranch).call (.operand _ _)).call h

section Argument

variable {name opening closing : Token} (hrest : (lowered source).rest = name :: opening :: rest)
  (hname : name.kind = .ident "Array") (ho : opening.kind = .punct .openAngle)

include hrest hname ho

theorem parse_argument (hc : closing.kind = .punct .closeAngle)
    (h : ReadsUpTo [closing] { lowered source with rest } e) : TypeExpr.parse source = .ok (.array e) := by
  obtain ⟨r, hread, hr⟩ := h
  have hn : remaining r = .ok r.rest.length r := rfl
  have hk : peek { lowered source with rest := opening :: rest } =
      .ok (.punct .openAngle) { lowered source with rest := opening :: rest } := by
    rw [peek, current_of_rest rfl, ho]
  have hcomma : r.current.kind ≠ .punct .comma := by rw [current_of_rest hr, hc]; simp
  have harguments : arguments (union (maxNesting - 1)) { lowered source with rest := opening :: rest } =
      .ok [e] { r with rest := [] } := by
    rw [arguments, bind_of_ok (advance_head rfl), bind_of_ok hread, bind_of_ok hn, bind_of_ok (more_other hcomma _),
      bind_of_ok (expect_head hr hc)]
    rfl
  have hprimary : primary (union (maxNesting - 1)) (lowered source) =
      .ok (.array e) { r with rest := [] } := by
    rw [primary_of_names ⟨name, [], "Array", rfl, hname, .done _⟩ hrest (notNext_cons (by simp [ho]) rest),
      bind_of_ok hk, if_pos rfl, if_neg (by simp), bind_of_ok harguments]
    rfl
  exact parse_of_primary (by rw [current_of_rest hrest, hname]; simp) hprimary rfl rfl

theorem nestedTooDeeply_argument
    (h : FailsForDepth (union (maxNesting - 1)) { lowered source with rest }) :
    TypeExpr.NestedTooDeeply source := by
  have hcall : Calls (.primary (maxNesting - 1)) (lowered source) (.union (maxNesting - 1))
      { lowered source with rest } :=
    .argument ⟨name, [], "Array", rfl, hname, .done _⟩ (by simp) hrest ho (.first _)
  exact nestedTooDeeply_of_reached (.inside (by rw [current_of_rest hrest, hname]; simp) hcall) h

end Argument

section Group

variable {opening : Token} (hrest : (lowered source).rest = opening :: rest) (ho : opening.kind = .punct .openParen)

include hrest ho

theorem parse_group {closing open' close' : Token} (hc : closing.kind = .punct .closeParen)
    (ho' : open'.kind = .punct .openBracket) (hc' : close'.kind = .punct .closeBracket)
    (h : ReadsUpTo [closing, open', close'] { lowered source with rest } e) :
    TypeExpr.parse source = .ok (.array e) := by
  obtain ⟨r, hread, hr⟩ := h
  have hk : peek (lowered source) = .ok (.punct .openParen) (lowered source) := by
    rw [peek, current_of_rest hrest, ho]
  have hprimary : primary (union (maxNesting - 1)) (lowered source) =
      .ok e { r with rest := [open', close'] } := by
    rw [primary, bind_of_ok hk]
    change (advance >>= _) (lowered source) = _
    rw [bind_of_ok (advance_head hrest), bind_of_ok hread, bind_of_ok (expect_head hr hc)]
    rfl
  have hdepth : r.depth = 1 := by
    rw [eq_of_union hread]
    rfl
  have henter : enter { r with rest := [] } = .ok () { r with rest := [], depth := r.depth + 1 } := by
    rw [enter, if_neg (by rw [hdepth]; decide)]
  have hsuffixes : suffixes e 2 { r with rest := [open', close'] } =
      .ok (.array e) { r with rest := [], depth := r.depth + 1 } := by
    rw [suffixes, bind_of_ok (eat_head rfl ho'), if_pos rfl, bind_of_ok (expect_head rfl hc'), bind_of_ok henter]
    exact suffixes_other TokenKind.noConfusion 1
  exact parse_of_primary (by rw [current_of_rest hrest, ho]; simp) hprimary hsuffixes rfl

theorem nestedTooDeeply_group
    (h : FailsForDepth (union (maxNesting - 1)) { lowered source with rest }) :
    TypeExpr.NestedTooDeeply source :=
  nestedTooDeeply_of_reached (.inside (by rw [current_of_rest hrest, ho]; simp) (.group hrest ho)) h

end Group

end Around

/-! ## Arrays -/

/-- The text is read at `q` as the element of an array, and `F` closes it. -/
structure Encloses (text source : String) (F : List Token) (q : Parser) : Prop where
  closing : Closing F
  inside : Inside text F q
  reads (e : TypeExpr) : ReadsUpTo F q e → TypeExpr.parse source = .ok (.array e)
  fails : FailsForDepth (union (maxNesting - 1)) q → TypeExpr.NestedTooDeeply source

section Arrays

variable {text : String} (h : Lexer.ClosedLines (tokenize text).body)

include h

theorem encloses_argumentArray : ∃ F q, Encloses text (argumentArray text) F q := by
  have ho : Yields Anywhere "Array<" [.ident "Array", .punct .openAngle] := Lexer.yields_of_isPiece (by cbv)
  have hc : Yields Anywhere ("\n" ++ ">") [.punct .closeAngle] := Lexer.yields_of_isPiece (by cbv)
  obtain ⟨before, us, after, hrest, hbefore, hafter, hmirrors⟩ := mirrors_around h ho hc (by simp [TokenKind.isComment])
  obtain ⟨name, _, rfl, hname, hbefore⟩ := List.map_eq_cons_iff.1 hbefore
  obtain ⟨opening, _, rfl, hopening, hbefore⟩ := List.map_eq_cons_iff.1 hbefore
  obtain ⟨closing, _, rfl, hclosing, hafter⟩ := List.map_eq_cons_iff.1 hafter
  obtain rfl := List.map_eq_nil_iff.1 hbefore
  obtain rfl := List.map_eq_nil_iff.1 hafter
  have hrest' : (lowered (argumentArray text)).rest = name :: opening :: (us ++ [closing]) := hrest
  refine ⟨[closing], { lowered (argumentArray text) with rest := us ++ [closing] }, ?_⟩
  exact ⟨⟨by simp [hclosing], by simp [hclosing]⟩, ⟨⟨us, rfl, hmirrors⟩, rfl, rfl⟩,
    fun e => parse_argument hrest' hname hopening hclosing, nestedTooDeeply_argument hrest' hname hopening⟩

theorem encloses_suffixArray :
    ∃ F q, Encloses text (suffixArray text) F q ∧ ∀ t ∈ F, t.kind ≠ .punct .closeAngle := by
  have ho : Yields Anywhere "(" [.punct .openParen] := Lexer.yields_of_isPiece (by cbv)
  have hc : Yields Anywhere ("\n" ++ ")[]") [.punct .closeParen, .punct .openBracket, .punct .closeBracket] :=
    Lexer.yields_of_isPiece (by cbv)
  obtain ⟨before, us, after, hrest, hbefore, hafter, hmirrors⟩ := mirrors_around h ho hc (by simp [TokenKind.isComment])
  obtain ⟨opening, _, rfl, hopening, hbefore⟩ := List.map_eq_cons_iff.1 hbefore
  obtain ⟨closing, _, rfl, hclosing, hafter⟩ := List.map_eq_cons_iff.1 hafter
  obtain ⟨open', _, rfl, hopen', hafter⟩ := List.map_eq_cons_iff.1 hafter
  obtain ⟨close', _, rfl, hclose', hafter⟩ := List.map_eq_cons_iff.1 hafter
  obtain rfl := List.map_eq_nil_iff.1 hbefore
  obtain rfl := List.map_eq_nil_iff.1 hafter
  have hrest' : (lowered (suffixArray text)).rest = opening :: (us ++ [closing, open', close']) := hrest
  refine ⟨[closing, open', close'], { lowered (suffixArray text) with rest := us ++ [closing, open', close'] }, ?_,
    by simp [hclosing, hopen', hclose']⟩
  exact ⟨⟨by simp [hclosing], by simp [hclosing, hopen', hclose']⟩, ⟨⟨us, rfl, hmirrors⟩, rfl, rfl⟩,
    fun e => parse_group hrest' hopening hclosing hopen' hclose', nestedTooDeeply_group hrest' hopening⟩

end Arrays

end Parser

namespace TypeExpr

/-- **Two ways to write an array.**  Behind a type expression without a question mark, a suffix gives its array, or the
text is nested too deeply.  Unless a record is given up at the end of the expression, an argument list gives the same,
and where these texts are read, they have the same validators. -/
theorem array_texts_agree {text : String} {e : TypeExpr} (h : parse text = .ok e) (he : ∀ f, e ≠ .optional f) :
    (parse (suffixArray text) = .ok (.array e) ∨ NestedTooDeeply (suffixArray text)) ∧
      (Parser.isContained text = true →
        (parse (argumentArray text) = .ok (.array e) ∧ parse (suffixArray text) = .ok (.array e) ∨
          NestedTooDeeply (argumentArray text) ∧ NestedTooDeeply (suffixArray text)) ∧
        ∀ registry optional a, parse (argumentArray text) = .ok a ∨ parse (suffixArray text) = .ok a →
          Validator.ofText registry (argumentArray text) optional =
            Validator.ofText registry (suffixArray text) optional) := by
  have hclosed := Parser.closedLines_of_parse h
  have hunion := Parser.union_of_parse h he
  obtain ⟨F, q, hargument⟩ := Parser.encloses_argumentArray hclosed
  obtain ⟨F', q', hsuffix, hangle⟩ := Parser.encloses_suffixArray hclosed
  refine ⟨?_, fun hcontained => ?_⟩
  · -- no angle follows the text
    have hguard (n d : Nat) (_ : d + n = maxNesting) : Parser.Guarded text 1 F' d (Parser.union n) :=
      .inr (.inl ⟨Nat.one_pos, hangle⟩)
    rcases hsuffix.inside.reads_or_fails hsuffix.closing hguard hunion with hread | hfails
    · exact .inl (hsuffix.reads e hread)
    · exact .inr (hsuffix.fails hfails)
  · have hagree : parse (argumentArray text) = .ok (.array e) ∧ parse (suffixArray text) = .ok (.array e) ∨
        NestedTooDeeply (argumentArray text) ∧ NestedTooDeeply (suffixArray text) := by
      -- both are read as the text by itself, one level down
      rcases (Parser.inside_self text).reads_or_fails Parser.closing_nil (fun _ _ _ => .inl rfl) hunion with
        hread | hfails
      · exact .inl ⟨hargument.reads e (hargument.inside.reads_of_self hargument.closing hcontained hread),
          hsuffix.reads e (hsuffix.inside.reads_of_self hsuffix.closing hcontained hread)⟩
      · exact .inr ⟨hargument.fails (hargument.inside.fails_of_self hargument.closing hcontained hfails),
          hsuffix.fails (hsuffix.inside.fails_of_self hsuffix.closing hcontained hfails)⟩
    refine ⟨hagree, fun registry optional a ha => ?_⟩
    rcases hagree with ⟨hargument, hsuffix⟩ | ⟨⟨err, hargument, -⟩, err', hsuffix, -⟩
    · rw [Validator.ofText, hargument, Validator.ofText, hsuffix]
    · rw [hargument, hsuffix] at ha
      rcases ha with ha | ha <;> cases ha

/-- A text with a record that is given up, but not at the end. -/
theorem array_texts_agree_record :
    Parser.isContained "Record<User> | Record<string, User[]>" = true ∧ ∀ registry optional,
      Validator.ofText registry (argumentArray "Record<User> | Record<string, User[]>") optional =
        Validator.ofText registry (suffixArray "Record<User> | Record<string, User[]>") optional := by
  have hcontained : Parser.isContained "Record<User> | Record<string, User[]>" = true := by cbv
  have hparse : parse "Record<User> | Record<string, User[]>" =
      .ok (.union [.anyRecord, .record "string" (.array (.reference "User"))]) := by cbv
  have hsuffix : parse (suffixArray "Record<User> | Record<string, User[]>") =
      .ok (.array (.union [.anyRecord, .record "string" (.array (.reference "User"))])) := by cbv
  refine ⟨hcontained, fun registry optional => ?_⟩
  exact ((array_texts_agree hparse (by simp)).2 hcontained).2 registry optional _ (.inr hsuffix)

/-- A text whose outer record is given up at the end: in the key of the inner one an angle closes a round bracket, so
the inner record is read up to the last angle and leaves none for the outer one, which is widened.  As an argument of
`Array`, the outer record takes the angle of the array for its own, and there is none left for the array. -/
theorem array_texts_differ :
    parse "Record<a, Record<(>, b>" = .ok .anyRecord ∧
      parse (suffixArray "Record<a, Record<(>, b>") = .ok (.array .anyRecord) ∧
      ∃ err, parse (argumentArray "Record<a, Record<(>, b>") = .error err ∧
        err.parseMessage? = some "expected '>', found end of input" := by
  refine ⟨by cbv, by cbv, _, by cbv, by cbv⟩

end TypeExpr

end TypeSchema
