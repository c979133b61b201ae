import TypeSchema.Registry
import TypeSchema.Token.Lexer

/-!
# Finding the declarations of a source

`scan` walks over the tokens of a source.  At a keyword it reads a declaration as far as it goes and
resumes behind it; all other code is passed over.  What is malformed or not supported is skipped
with a warning, so every source has a registry.

Readers take the tokens that follow and give back what they have found and the tokens at which to go
on, which are some of those that they were given (`rest_declaration`).
-/

namespace TypeSchema

namespace Extract

/-! ## Cutting tokens -/

/-- Splits at the `close` that matches an `opening` before the tokens, with `depth` more such groups
open: what stands inside, and what follows. -/
def splitClosed? (opening close : Punct) (depth : Nat) :
    List Token → Option (List Token × List Token)
  | [] => none
  | t :: ts =>
    if t.isPunct opening then
      (splitClosed? opening close (depth + 1) ts).map fun (inside, after) => (t :: inside, after)
    else if t.isPunct close then
      match depth with
      | 0 => some ([], ts)
      | depth + 1 =>
        (splitClosed? opening close depth ts).map fun (inside, after) => (t :: inside, after)
    else (splitClosed? opening close depth ts).map fun (inside, after) => (t :: inside, after)

/-- What is inside a group, its closing bracket and what follows are all tokens. -/
theorem exists_of_splitClosed? {opening close : Punct} {depth : Nat} {ts inside after : List Token}
    (h : splitClosed? opening close depth ts = some (inside, after)) : ∃ t, ts = inside ++ t :: after := by
  fun_induction splitClosed? opening close depth ts generalizing inside after with
  | case1 => cases h
  | case2 depth t ts _ ih | case4 t ts _ _ depth ih | case5 depth t ts _ _ ih =>
    obtain ⟨⟨inside', after'⟩, hs, he⟩ := Option.map_eq_some_iff.1 h
    obtain ⟨rfl, rfl⟩ := Prod.mk.inj he
    obtain ⟨u, rfl⟩ := ih hs
    exact ⟨u, rfl⟩
  | case3 t ts =>
    obtain ⟨rfl, rfl⟩ := Prod.mk.inj (Option.some.inj h)
    exact ⟨t, rfl⟩

theorem after_splitClosed? {opening close : Punct} {depth : Nat} {ts inside after : List Token}
    (h : splitClosed? opening close depth ts = some (inside, after)) : after <:+ ts := by
  obtain ⟨t, rfl⟩ := exists_of_splitClosed? h
  exact ⟨inside ++ [t], by simp⟩

theorem inside_splitClosed? {opening close : Punct} {depth : Nat} {ts inside after : List Token}
    (h : splitClosed? opening close depth ts = some (inside, after)) : inside ⊆ ts := by
  obtain ⟨t, rfl⟩ := exists_of_splitClosed? h
  exact List.subset_append_left ..

/-- Whether an expression ends before `t` outside of its brackets, when `previous` comes before
`t`: at a separator, a comment or a closing bracket, and on a new line that does not go on with the
expression. -/
def endsExpression (previous t : Token) : Bool :=
  match t.kind with
  | .punct .semicolon | .punct .comma | .docComment _ => true
  | .punct .pipe | .punct .amp | .punct .arrow | .punct .dot => false
  | kind => kind.isClose || (previous.span.line < t.span.line && !previous.kind.continues)

/-- Splits where the expression that `previous` belongs to ends, with `depth` brackets open. -/
def splitExpression (previous : Token) (depth : Nat) : List Token → List Token × List Token
  | [] => ([], [])
  | t :: ts =>
    if depth = 0 && endsExpression previous t then ([], t :: ts)
    else
      let (inside, after) := splitExpression t (t.kind.nesting depth) ts
      (t :: inside, after)

/-- What belongs to the expression that starts with `first`, and what follows it. -/
def expression (first : Token) (ts : List Token) : List Token × List Token :=
  splitExpression first (first.kind.nesting 0) ts

theorem splitExpression_append (previous : Token) (depth : Nat) (ts : List Token) :
    (splitExpression previous depth ts).1 ++ (splitExpression previous depth ts).2 = ts := by
  fun_induction splitExpression previous depth ts <;> simp_all

theorem rest_expression (first : Token) (ts : List Token) : (expression first ts).2 <:+ ts :=
  ⟨_, splitExpression_append first (first.kind.nesting 0) ts⟩

/-- Whether an enum member ends before this token. -/
def endsEnumMember (t : Token) : Bool :=
  match t.kind with
  | .punct .comma | .docComment _ => true
  | _ => false

/-- Splits where an enum member ends, with `depth` brackets open. -/
def splitEnumMember (depth : Nat) : List Token → List Token × List Token
  | [] => ([], [])
  | t :: ts =>
    if depth = 0 && endsEnumMember t then ([], t :: ts)
    else
      let (inside, after) := splitEnumMember (t.kind.nesting depth) ts
      (t :: inside, after)

theorem rest_splitEnumMember (depth : Nat) (ts : List Token) : (splitEnumMember depth ts).2 <:+ ts := by
  fun_induction splitEnumMember depth ts with
  | case1 => exact List.suffix_refl _
  | case2 => exact List.suffix_refl _
  | case3 depth t ts _ inside after hs ih =>
    rw [hs] at ih
    exact ih.trans (List.suffix_cons t ts)

/-! ## Text of tokens -/

/-- Whether the token is a documentation comment. -/
def isDoc (t : Token) : Bool :=
  match t.kind with
  | .docComment _ => true
  | _ => false

/-- The texts of the tokens, with a space wherever there is something between two of them. -/
def spell : List Token → String
  | [] => ""
  | [t] => t.text
  | t :: u :: us =>
    t.text ++ (if t.span.stop < u.span.start then " " else "") ++ spell (u :: us)

/-- The text of the tokens without documentation comments, if there is any. -/
def typeText? (ts : List Token) : Option String :=
  let text := spell (ts.filter fun t => !isDoc t)
  if text.isEmpty then none else some text

/-! ## Members of interfaces -/

/-- The name that a member has if it starts with this token. -/
def memberName? (t : Token) : Option String :=
  match t.kind with
  | .ident name | .str name _ => some name
  | _ => none

/-- The token that names a member, and what follows it.  The word `readonly` before a name is passed
over. -/
def memberStart (t : Token) : List Token → Token × List Token
  | [] => (t, [])
  | u :: us =>
    if t.isIdent "readonly" && (memberName? u).isSome then (u, us) else (t, u :: us)

/-- Whether a question mark comes next, and what follows it. -/
def takeQuestion : List Token → Bool × List Token
  | [] => (false, [])
  | t :: ts => if t.isPunct .question then (true, ts) else (false, t :: ts)

/-- Why a member without a colon is skipped. -/
def withoutColon (name owner : String) (ts : List Token) : Warning :=
  match ts with
  | t :: _ =>
    if t.isPunct .openParen || t.isPunct .openAngle then .method name owner
    else .missingColon name owner
  | [] => .missingColon name owner

/-- Reads the member `[readonly] name[?]: type` that starts with `t`. -/
def memberAt (owner : String) (description : Option String) (t : Token) (ts : List Token) :
    Except Diagnostic Field × List Token :=
  let (start, behind) := memberStart t ts
  let name := (memberName? start).getD ""
  let (optional, typed) := takeQuestion behind
  let refuse (rest : List Token) (w : Warning) : Except Diagnostic Field × List Token :=
    (.error ⟨start.span, w⟩, rest)
  let noColon := refuse (expression t ts).2 (withoutColon name owner typed)
  match typed with
  | [] => noColon
  | colon :: body =>
    if colon.isPunct .colon then
      let (inside, after) := expression colon body
      match typeText? inside with
      | some type => (.ok { name, type, optional, description, span := start.span }, after)
      | none => refuse after (.untypedMember name owner)
    else noColon

theorem rest_memberStart (t : Token) (ts : List Token) : (memberStart t ts).2 <:+ ts := by
  unfold memberStart
  split
  · exact List.suffix_refl _
  · split
    · exact List.suffix_cons _ _
    · exact List.suffix_refl _

theorem rest_takeQuestion (ts : List Token) : (takeQuestion ts).2 <:+ ts := by
  unfold takeQuestion
  split
  · exact List.suffix_refl _
  · split
    · exact List.suffix_cons _ _
    · exact List.suffix_refl _

theorem rest_memberAt (owner : String) (description : Option String) (t : Token) (ts : List Token) :
    (memberAt owner description t ts).2 <:+ ts := by
  have htyped := (rest_takeQuestion (memberStart t ts).2).trans (rest_memberStart t ts)
  unfold memberAt
  dsimp only
  split
  · exact rest_expression t ts
  · rename_i colon body hc
    rw [hc] at htyped
    have hafter := (rest_expression colon body).trans ((List.suffix_cons colon body).trans htyped)
    split
    · split
      · exact hafter
      · exact hafter
    · exact rest_expression t ts

/-- Reads the members of an interface in order: each is a field or a reason for skipping it.  A
documentation comment describes the member right behind it. -/
def members (owner : String) (description : Option String) :
    List Token → List (Except Diagnostic Field)
  | [] => []
  | t :: ts =>
    match t.kind with
    | .docComment text => members owner (some text) ts
    | .punct .semicolon | .punct .comma => members owner description ts
    | .ident _ | .str _ _ =>
      let member := memberAt owner description t ts
      member.1 :: members owner none member.2
    | .punct .openBracket =>
      .error ⟨t.span, .indexSignature owner⟩ :: members owner none (expression t ts).2
    | found =>
      .error ⟨t.span, .strayToken found .interface owner⟩
        :: members owner none (expression t ts).2
termination_by ts => ts.length
decreasing_by
  · simp
  · simp
  · exact Nat.lt_succ_of_le (rest_memberAt _ _ _ _).length_le
  · exact Nat.lt_succ_of_le (rest_memberAt _ _ _ _).length_le
  · exact Nat.lt_succ_of_le (rest_expression _ _).length_le
  · exact Nat.lt_succ_of_le (rest_expression _ _).length_le

/-- Every field of an interface was read at one of its tokens. -/
theorem exists_of_ok_mem_members {owner : String} {description : Option String} {ts : List Token} {f : Field}
    (hf : .ok f ∈ members owner description ts) :
    ∃ description t behind, t :: behind <:+ ts ∧ (memberName? t).isSome = true ∧
      (memberAt owner description t behind).1 = .ok f := by
  fun_induction members owner description ts with
  | case1 => cases hf
  | case2 description t ts text _ ih =>
    obtain ⟨d, u, us, hu, hm⟩ := ih hf
    exact ⟨d, u, us, hu.trans (List.suffix_cons t ts), hm⟩
  | case3 description t ts _ ih | case4 description t ts _ ih =>
    obtain ⟨d, u, us, hu, hm⟩ := ih hf
    exact ⟨d, u, us, hu.trans (List.suffix_cons t ts), hm⟩
  | case5 description t ts _ hk member ih | case6 description t ts _ _ hk member ih =>
    rcases List.mem_cons.1 hf with hf | hf
    · exact ⟨description, t, ts, List.suffix_refl _, by rw [memberName?, hk]; rfl, hf.symm⟩
    · obtain ⟨d, u, us, hu, hm⟩ := ih hf
      exact ⟨d, u, us, hu.trans ((rest_memberAt _ _ _ _).trans (List.suffix_cons t ts)), hm⟩
  | case7 description t ts _ ih | case8 description t ts found _ _ _ _ _ ih =>
    rcases List.mem_cons.1 hf with hf | hf
    · cases hf
    · obtain ⟨d, u, us, hu, hm⟩ := ih hf
      exact ⟨d, u, us, hu.trans ((rest_expression t ts).trans (List.suffix_cons t ts)), hm⟩

/-! ## Members of enums -/

/-- The value of the enum member that starts with `t`: its own name, or the string it is set to. -/
def enumMember (owner : String) (t : Token) (behind : List Token) :
    Option String × Option Diagnostic :=
  match memberName? t with
  | none => (none, some ⟨t.span, .strayToken t.kind .enum owner⟩)
  | some member =>
    match behind.map Token.kind with
    | [] => (some member, none)
    | [.punct .equals, .str value _] => (some value, none)
    | _ => (some member, some ⟨t.span, .initializer owner member⟩)

/-- Reads the members of an enum in order: the value of each, and what is wrong with it. -/
def enumMembers (owner : String) : List Token → List (Option String × Option Diagnostic)
  | [] => []
  | t :: ts =>
    if endsEnumMember t then enumMembers owner ts
    else
      let split := splitEnumMember (t.kind.nesting 0) ts
      enumMember owner t split.1 :: enumMembers owner split.2
termination_by ts => ts.length
decreasing_by
  · simp
  · exact Nat.lt_succ_of_le (rest_splitEnumMember _ _).length_le

/-! ## Declarations -/

/-- What has been found, the tokens at which to go on, and whether the token before them is a
dot. -/
structure Reading where
  found : List Finding := []
  rest : List Token
  afterDot : Bool := false

/-- The warning as a finding. -/
def warn (span : Span) (w : Warning) : Finding := .warning ⟨span, w⟩

/-- Whether the last of these tokens is a dot. -/
def endsWithDot (ts : List Token) : Bool := ts.getLast?.any fun t => t.isPunct .dot

/-- What follows a block whose opening brace has just been read; an open block is entered. -/
def afterBlock (ts : List Token) : List Token :=
  match splitClosed? .openBrace .closeBrace 0 ts with
  | some (_, after) => after
  | none => ts

/-- A block without a name, if a brace comes next. -/
def unnamedBlock (kind : DeclarationKind) (keyword : Token) (ts : List Token) : Reading :=
  match ts with
  | t :: body =>
    if t.isPunct .openBrace then
      { found := [warn keyword.span (.unnamed kind)], rest := afterBlock body }
    else { rest := ts }
  | [] => { rest := ts }

/-- What follows the body of a generic interface whose opening angle has just been read. -/
def afterGeneric (ts : List Token) : List Token :=
  match splitClosed? .openAngle .closeAngle 0 ts with
  | none => ts
  | some (_, after) =>
    match after.dropWhile fun t => !t.isPunct .openBrace with
    | [] => after
    | _ :: body => afterBlock body

/-- Reads the parts of a name that follow behind dots; fails at a dot without an identifier. -/
def dottedTail (name : String) : List Token → Except (List Token) (String × List Token)
  | [] => .ok (name, [])
  | [t] => if t.isPunct .dot then .error [t] else .ok (name, [t])
  | t :: u :: us =>
    if t.isPunct .dot then
      match u.kind with
      | .ident part => dottedTail (name ++ "." ++ part) us
      | _ => .error (t :: u :: us)
    else .ok (name, t :: u :: us)

/-- Reads a name with dots; fails at the first token that does not fit. -/
def dottedName : List Token → Except (List Token) (String × List Token)
  | [] => .error []
  | t :: ts =>
    match t.kind with
    | .ident name => dottedTail name ts
    | _ => .error (t :: ts)

theorem rest_dottedTail {name full : String} {ts rest : List Token} (h : dottedTail name ts = .ok (full, rest)) :
    rest <:+ ts := by
  fun_induction dottedTail name ts with
  | case1 =>
    cases h
    exact List.suffix_refl _
  | case2 => cases h
  | case3 =>
    cases h
    exact List.suffix_refl _
  | case4 name t u us _ part hu ih => exact (ih h).trans ⟨[t, u], rfl⟩
  | case5 => cases h
  | case6 =>
    cases h
    exact List.suffix_refl _

theorem rest_of_dottedTail_error {name : String} {ts rest : List Token} (h : dottedTail name ts = .error rest) :
    rest <:+ ts := by
  fun_induction dottedTail name ts with
  | case1 => cases h
  | case2 | case5 =>
    cases h
    exact List.suffix_refl _
  | case3 => cases h
  | case4 name t u us _ part hu ih => exact (ih h).trans ⟨[t, u], rfl⟩
  | case6 => cases h

theorem rest_dottedName {full : String} {ts rest : List Token} (h : dottedName ts = .ok (full, rest)) :
    rest <:+ ts := by
  unfold dottedName at h
  split at h
  · cases h
  · split at h
    · exact (rest_dottedTail h).trans (List.suffix_cons _ _)
    · cases h

theorem rest_of_dottedName_error {ts rest : List Token} (h : dottedName ts = .error rest) : rest <:+ ts := by
  unfold dottedName at h
  split at h
  · cases h
    exact List.suffix_refl _
  · split at h
    · exact (rest_of_dottedTail_error h).trans (List.suffix_cons _ _)
    · cases h
      exact List.suffix_refl _

/-- How an `extends` clause ends. -/
inductive ClauseEnd where
  /-- The clause is read, and these tokens follow. -/
  | read (rest : List Token)
  /-- A name was due at these tokens. -/
  | malformed (rest : List Token)
  /-- The arguments of a base are not closed. -/
  | openArguments

/-- An `extends` clause: the bases without arguments, warnings about the others, and its end. -/
structure Clause where
  bases : List String := []
  found : List Finding := []
  finish : ClauseEnd

/-- Reads an `extends` clause from its first base on. -/
def extendsClause (stop : Span) (owner : String) (ts : List Token) : Clause :=
  match _h : dottedName ts with
  | .error rest =>
    { found := [warn (rest.headD (.eof stop)).span (.malformedExtends owner)],
      finish := .malformed rest }
  | .ok (base, []) => { bases := [base], finish := .read [] }
  | .ok (base, t :: rest) =>
    if t.isPunct .openAngle then
      let ignored := warn t.span (.genericBase base owner)
      match _h' : splitClosed? .openAngle .closeAngle 0 rest with
      | none => { found := [ignored], finish := .openArguments }
      | some (_, []) => { found := [ignored], finish := .read [] }
      | some (_, u :: after) =>
        if u.isPunct .comma then
          let others := extendsClause stop owner after
          { others with found := ignored :: others.found }
        else { found := [ignored], finish := .read (u :: after) }
    else if t.isPunct .comma then
      let others := extendsClause stop owner rest
      { others with bases := base :: others.bases }
    else { bases := [base], finish := .read (t :: rest) }
termination_by ts.length
decreasing_by
  · have h₁ := (rest_dottedName _h).length_le
    have h₂ := (after_splitClosed? _h').length_le
    simp only [List.length_cons] at h₁ h₂
    omega
  · exact (rest_dottedName _h).length_le

/-- One turn of reading an `extends` clause. -/
theorem extendsClause_eq (stop : Span) (owner : String) (ts : List Token) :
    extendsClause stop owner ts =
      match dottedName ts with
      | .error rest =>
        { found := [warn (rest.headD (.eof stop)).span (.malformedExtends owner)],
          finish := .malformed rest }
      | .ok (base, []) => { bases := [base], finish := .read [] }
      | .ok (base, t :: rest) =>
        if t.isPunct .openAngle then
          match splitClosed? .openAngle .closeAngle 0 rest with
          | none =>
            { found := [warn t.span (.genericBase base owner)], finish := .openArguments }
          | some (_, []) =>
            { found := [warn t.span (.genericBase base owner)], finish := .read [] }
          | some (_, u :: after) =>
            if u.isPunct .comma then
              { extendsClause stop owner after with
                found := warn t.span (.genericBase base owner)
                  :: (extendsClause stop owner after).found }
            else
              { found := [warn t.span (.genericBase base owner)], finish := .read (u :: after) }
        else if t.isPunct .comma then
          { extendsClause stop owner rest with
            bases := base :: (extendsClause stop owner rest).bases }
        else { bases := [base], finish := .read (t :: rest) } := by
  rw [extendsClause.eq_def]
  split
  · rename_i h
    rw [h]
  · rename_i h
    rw [h]
  · rename_i base t rest h
    rw [h]
    dsimp only
    split
    · split
      · rename_i h'
        rw [h']
      · rename_i h'
        rw [h']
      · rename_i h'
        rw [h']
    · rfl

/-- Reads the body of an interface or enum that follows its head: the tokens inside and what follows
them, or where to go on without a body. -/
def body (kind : DeclarationKind) (keyword : Token) (name : String) (ts : List Token) :
    Except Reading (List Token × List Token) :=
  match ts with
  | [] => .error { found := [warn keyword.span (.noBody kind name)], rest := [] }
  | t :: inner =>
    if t.isPunct .openBrace then
      match splitClosed? .openBrace .closeBrace 0 inner with
      | some split => .ok split
      | none => .error { found := [warn keyword.span (.openBody kind name)], rest := inner }
    else .error { found := [warn keyword.span (.noBody kind name)], rest := ts }

/-- Reads an interface whose head is read. -/
def interfaceBody (keyword : Token) (name : String) (bases : List String) (ts : List Token) :
    Reading :=
  match body .interface keyword name ts with
  | .error reading => reading
  | .ok (inside, after) =>
    let read := members name none inside
    let warnings := read.filterMap fun
      | .error d => some (Finding.warning d)
      | .ok _ => none
    let fields := read.filterMap Except.toOption
    { found := warnings ++ [.interface { name, bases, fields, span := keyword.span }],
      rest := after }

/-- Reads an interface whose name is read.  If the arguments of a base are not closed, only the
keyword is passed over. -/
def interfaceNamed (stop : Span) (keyword nameToken : Token) (name : String) (ts : List Token) :
    Reading :=
  match ts with
  | [] => interfaceBody keyword name [] []
  | t :: behind =>
    if t.isPunct .openAngle then
      { found := [warn keyword.span (.genericInterface name)], rest := afterGeneric behind }
    else if t.isIdent "extends" then
      let clause := extendsClause stop name behind
      match clause.finish with
      | .read rest =>
        let reading := interfaceBody keyword name clause.bases rest
        { reading with found := clause.found ++ reading.found }
      | .malformed rest => { found := clause.found, rest }
      | .openArguments => { found := clause.found, rest := nameToken :: ts }
    else interfaceBody keyword name [] ts

/-- Reads an alias whose name is read. -/
def aliasNamed (keyword : Token) (name : String) (ts : List Token) : Reading :=
  let missing : Reading := { found := [warn keyword.span (.noEquals name)], rest := ts }
  match ts with
  | [] => missing
  | t :: behind =>
    let (inside, rest) := expression t behind
    let afterDot := endsWithDot inside
    if t.isPunct .equals then
      match typeText? inside with
      | some type =>
        { found := [.typeAlias { name, type, span := keyword.span }], rest, afterDot }
      | none => { found := [warn keyword.span (.emptyAlias name)], rest, afterDot }
    else if t.isPunct .openAngle then
      { found := [warn keyword.span (.genericAlias name)], rest, afterDot }
    else missing

/-- Reads an enum whose name is read. -/
def enumNamed (keyword : Token) (name : String) (ts : List Token) : Reading :=
  match body .enum keyword name ts with
  | .error reading => reading
  | .ok (inside, after) =>
    let read := enumMembers name inside
    let warnings := read.filterMap fun step => step.2.map Finding.warning
    let values := read.filterMap Prod.fst
    { found := warnings ++ [.enum { name, values, span := keyword.span }], rest := after }

/-- Reads the declaration that `keyword` starts. -/
def declaration (stop : Span) (kind : DeclarationKind) (keyword : Token) (ts : List Token) :
    Reading :=
  match ts with
  | [] => { rest := [] }
  | t :: behind =>
    match kind, t.kind.ident? with
    | .interface, some name => interfaceNamed stop keyword t name behind
    | .typeAlias, some name => aliasNamed keyword name behind
    | .enum, some name => enumNamed keyword name behind
    | .typeAlias, none => { rest := ts }
    | kind, none => unnamedBlock kind keyword ts

/-- The declaration that a word starts, unless it stands behind a dot. -/
def keywordKind? (afterDot : Bool) (t : Token) : Option DeclarationKind :=
  if afterDot then none
  else if t.isIdent "interface" then some .interface
  else if t.isIdent "type" then some .typeAlias
  else if t.isIdent "enum" then some .enum
  else none

/-! ## The whole source -/

theorem rest_afterBlock (ts : List Token) : afterBlock ts <:+ ts := by
  unfold afterBlock
  split
  · rename_i h
    exact after_splitClosed? h
  · exact List.suffix_refl _

theorem rest_unnamedBlock (kind : DeclarationKind) (keyword : Token) (ts : List Token) :
    (unnamedBlock kind keyword ts).rest <:+ ts := by
  unfold unnamedBlock
  split
  · split
    · exact (rest_afterBlock _).trans (List.suffix_cons _ _)
    · exact List.suffix_refl _
  · exact List.suffix_refl _

theorem rest_afterGeneric (ts : List Token) : afterGeneric ts <:+ ts := by
  unfold afterGeneric
  split
  · exact List.suffix_refl _
  · rename_i after h
    have hafter := after_splitClosed? h
    have hdrop := List.dropWhile_suffix (l := after) fun t => !t.isPunct .openBrace
    split
    · exact hafter
    · rename_i body hd
      rw [hd] at hdrop
      exact (rest_afterBlock body).trans ((List.suffix_cons _ body).trans (hdrop.trans hafter))

theorem rest_of_body_error {kind : DeclarationKind} {keyword : Token} {name : String} {ts : List Token}
    {reading : Reading} (h : body kind keyword name ts = .error reading) : reading.rest <:+ ts := by
  unfold body at h
  split at h
  · cases h
    exact List.suffix_refl _
  · split at h
    · split at h
      · cases h
      · cases h
        exact List.suffix_cons _ _
    · cases h
      exact List.suffix_refl _

/-- The body of a declaration and what follows it. -/
theorem rest_body {kind : DeclarationKind} {keyword : Token} {name : String} {ts inside after : List Token}
    (h : body kind keyword name ts = .ok (inside, after)) : inside ⊆ ts ∧ after <:+ ts := by
  unfold body at h
  split at h
  · cases h
  · rename_i t inner
    split at h
    · split at h
      · rename_i split hs
        cases h
        exact ⟨fun u hu => List.mem_cons_of_mem t (inside_splitClosed? hs hu),
          (after_splitClosed? hs).trans (List.suffix_cons t inner)⟩
      · cases h
    · cases h

theorem rest_interfaceBody (keyword : Token) (name : String) (bases : List String) (ts : List Token) :
    (interfaceBody keyword name bases ts).rest <:+ ts := by
  unfold interfaceBody
  split
  · rename_i h
    exact rest_of_body_error h
  · rename_i h
    exact (rest_body h).2

theorem rest_enumNamed (keyword : Token) (name : String) (ts : List Token) :
    (enumNamed keyword name ts).rest <:+ ts := by
  unfold enumNamed
  split
  · rename_i h
    exact rest_of_body_error h
  · rename_i h
    exact (rest_body h).2

/-- The tokens at which reading goes on behind a clause. -/
def ClauseEnd.rest : ClauseEnd → List Token
  | read rest | malformed rest => rest
  | openArguments => []

theorem rest_extendsClause (stop : Span) (owner : String) (ts : List Token) :
    (extendsClause stop owner ts).finish.rest <:+ ts := by
  fun_induction extendsClause stop owner ts with
  | case1 ts rest h => exact rest_of_dottedName_error h
  | case2 ts base h => exact List.nil_suffix
  | case3 => exact List.nil_suffix
  | case4 => exact List.nil_suffix
  | case5 ts base t rest h _ ignored inside u after h' _ others ih =>
    have hafter := (after_splitClosed? h').trans ((List.suffix_cons t rest).trans (rest_dottedName h))
    exact ih.trans ((List.suffix_cons u after).trans hafter)
  | case6 ts base t rest h _ ignored inside u after h' _ =>
    exact (after_splitClosed? h').trans ((List.suffix_cons t rest).trans (rest_dottedName h))
  | case7 ts base t rest h _ _ others ih => exact ih.trans ((List.suffix_cons t rest).trans (rest_dottedName h))
  | case8 ts base t rest h => exact rest_dottedName h

theorem rest_interfaceNamed (stop : Span) (keyword nameToken : Token) (name : String) (ts : List Token) :
    (interfaceNamed stop keyword nameToken name ts).rest <:+ nameToken :: ts := by
  have hcons := List.suffix_cons nameToken ts
  unfold interfaceNamed
  split
  · exact (rest_interfaceBody keyword name [] []).trans hcons
  · rename_i t behind
    have hbehind := (List.suffix_cons t behind).trans hcons
    split
    · exact (rest_afterGeneric behind).trans hbehind
    · split
      · have hclause := (rest_extendsClause stop name behind).trans hbehind
        dsimp only
        split
        · rename_i rest hr
          rw [hr] at hclause
          exact (rest_interfaceBody keyword name _ rest).trans hclause
        · rename_i rest hr
          rw [hr] at hclause
          exact hclause
        · exact List.suffix_refl _
      · exact (rest_interfaceBody keyword name [] _).trans hcons

theorem rest_aliasNamed (keyword : Token) (name : String) (ts : List Token) :
    (aliasNamed keyword name ts).rest <:+ ts := by
  unfold aliasNamed
  dsimp only
  split
  · exact List.suffix_refl _
  · rename_i t behind
    have hrest := (rest_expression t behind).trans (List.suffix_cons t behind)
    split
    · split
      · exact hrest
      · exact hrest
    · split
      · exact hrest
      · exact List.suffix_refl _

/-- **A reader of declarations goes on at some of the tokens that it was given.** -/
theorem rest_declaration (stop : Span) (kind : DeclarationKind) (keyword : Token) (ts : List Token) :
    (declaration stop kind keyword ts).rest <:+ ts := by
  unfold declaration
  split
  · exact List.suffix_refl _
  · rename_i t behind
    split
    · exact rest_interfaceNamed stop keyword t _ behind
    · exact (rest_aliasNamed keyword _ behind).trans (List.suffix_cons t behind)
    · exact (rest_enumNamed keyword _ behind).trans (List.suffix_cons t behind)
    · exact List.suffix_refl _
    · exact rest_unnamedBlock _ keyword _

/-- What is found in the tokens; `afterDot` says whether a dot stands before them. -/
def scan (stop : Span) (afterDot : Bool) : List Token → List Finding
  | [] => []
  | t :: ts =>
    match keywordKind? afterDot t with
    | none => scan stop (t.isPunct .dot) ts
    | some kind =>
      let reading := declaration stop kind t ts
      reading.found ++ scan stop reading.afterDot reading.rest
termination_by ts => ts.length
decreasing_by
  · simp
  · exact Nat.lt_succ_of_le (rest_declaration _ _ _ _).length_le

/-- What is found in a source, in order. -/
def findings (source : String) : List Finding :=
  let tokens := tokenizeSignificant source
  scan tokens.stop false tokens.body

end Extract

/-- The declarations of a source. -/
def Registry.extract (source : String) : Registry :=
  ({} : Registry).addAll (Extract.findings source)

end TypeSchema
