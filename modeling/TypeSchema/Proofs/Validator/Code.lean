import TypeSchema.Proofs.Lexing.Brackets
import TypeSchema.Proofs.Lexing.Pieces
import TypeSchema.Proofs.Validator.Quoting
import TypeSchema.Proofs.Validator.Resemblance
import TypeSchema.Proofs.Validator.Spelling
import TypeSchema.Proofs.Validator.Unresolved
import TypeSchema.Validator.Render

/-!
# The tokens of the code of a validator

`codeKinds` says, constructor by constructor, of which tokens the code of a validator is made: an unresolved expression
is `z.any()` and one comment.  The code of a spelled validator is read as exactly these tokens (`yields_renderAt`): no
string, key, remark or unresolved expression leaves its quotes or its comment.

What is kept when code is put together (`Composes`) holds of all such tokens (`Composes.codeKinds`):

* `balanced_codeKinds`: no token is open, and brackets are properly nested;
* `comments_codeKinds`: there is one comment for each unresolved expression;
* `Resembles.uncommented_codeKinds`: without comments, the texts of unresolved expressions leave no trace.
-/

namespace TypeSchema

theorem Identifier.isIdentifier_append {cs ds : List Char} (h : isIdentifier cs = true) (hd : ds.all isPart = true) :
    isIdentifier (cs ++ ds) = true := by
  cases cs with
  | nil => cases h
  | cons c cs =>
    rw [isIdentifier, Bool.and_eq_true] at h
    rw [List.cons_append, isIdentifier, List.all_append, h.1, h.2, hd]
    rfl

theorem isIdentifier_schemaName {name : String} (h : Identifier.isIdentifier name.toList = true) :
    Identifier.isIdentifier (schemaName name).toList = true := by
  rw [schemaName, String.toList_append]
  exact Identifier.isIdentifier_append h (by decide)

namespace Validator

open Text (requoteBody quoteBody keyKind)

/-! ## The tokens of the code -/

/-- The tokens of `.name(inside)`. -/
def methodKinds (name : String) (inside : List TokenKind) : List TokenKind :=
  .punct .dot :: .ident name :: .punct .openParen :: (inside ++ [.punct .closeParen])

/-- The tokens of `z.name(inside)`. -/
def builderKinds (name : String) (inside : List TokenKind) : List TokenKind := .ident "z" :: methodKinds name inside

/-- The tokens of a list in brackets. -/
def listKinds (items : List (List TokenKind)) : List TokenKind :=
  .punct .openBracket :: ([TokenKind.punct .comma].intercalate items ++ [.punct .closeBracket])

/-- The token of a value of an enum. -/
def valueKinds (value : String) : List TokenKind := [.str (requoteBody value) '"']

/-- The tokens of an enumeration: none of no values, a literal of one, else a list. -/
def enumKinds : List String → List TokenKind
  | [] => builderKinds "never" []
  | [value] => builderKinds "literal" (valueKinds value)
  | values => builderKinds "enum" (listKinds (values.map valueKinds))

/-- The tokens of an object with these bases. -/
def objectKinds (bases : List String) (inside : List TokenKind) : List TokenKind :=
  match bases with
  | [] => builderKinds "object" inside
  | base :: bases =>
    .ident (schemaName base) :: (bases.flatMap fun b =>
      methodKinds "extend" [.ident (schemaName b), .punct .dot, .ident "shape"]) ++ methodKinds "extend" inside

/-- The comment that holds an unresolved expression. -/
def remark (e : String) : String := "/* unresolved type: " ++ Text.hideCommentEnd e ++ " */"

/-- The tokens of an unresolved expression: `z.any()` and one comment. -/
def fallbackKinds (e : String) : List TokenKind := builderKinds "any" [] ++ [.comment (remark e)]

mutual

/-- The tokens of the code of a validator. -/
def codeKinds : Validator → List TokenKind
  | primitive p => builderKinds p.builder []
  | literal l => builderKinds "literal" [.str l.value l.quote]
  | array v => builderKinds "array" v.codeKinds
  | record v => builderKinds "record" v.codeKinds
  | union vs => builderKinds "union" (listKinds (codeKindsAll vs))
  | enum values => enumKinds values
  | object bases fields =>
    objectKinds bases (.punct .openBrace :: (codeKindsFields fields ++ [.punct .closeBrace]))
  | reference name => [.ident (schemaName name)]
  | unresolved e => fallbackKinds e
  | optional v => v.codeKinds ++ methodKinds "optional" []
  | described v text => v.codeKinds ++ methodKinds "describe" [.str (quoteBody text) '"']

/-- The tokens of every branch. -/
def codeKindsAll : List Validator → List (List TokenKind)
  | [] => []
  | v :: vs => v.codeKinds :: codeKindsAll vs

/-- The tokens of all fields. -/
def codeKindsFields : List (String × Validator) → List TokenKind
  | [] => []
  | (name, v) :: fields =>
    keyKind name :: .punct .colon :: (v.codeKinds ++ [.punct .comma]) ++ codeKindsFields fields

end

theorem codeKindsAll_eq_map (vs : List Validator) :
    codeKindsAll vs = vs.map codeKinds := by
  induction vs with
  | nil => rfl
  | cons v vs ih => rw [codeKindsAll, ih, List.map_cons]

theorem codeKindsFields_eq_flatMap (fields : List (String × Validator)) :
    codeKindsFields fields = fields.flatMap fun f =>
      [keyKind f.1, .punct .colon] ++ f.2.codeKinds ++ [.punct .comma] := by
  induction fields with
  | nil => rfl
  | cons f fields ih => rw [codeKindsFields, ih, List.flatMap_cons]; rfl

/-! ## What is kept when code is put together -/

/-- The relation holds between the tokens of two codes and the expressions that are unresolved in them if it holds
between those of their parts. -/
structure Composes (R : List TokenKind → List TokenKind → List String → Prop) : Prop where
  nil : R [] [] []
  append {ks ls ks' ls' : List TokenKind} {es es' : List String} : R ks ls es → R ks' ls' es' →
    R (ks ++ ks') (ls ++ ls') (es ++ es')
  group {x y : Punct} {ks ls : List TokenKind} {es : List String} : x.closing? = some y → R ks ls es →
    R (.punct x :: (ks ++ [.punct y])) (.punct x :: (ls ++ [.punct y])) es
  builder : R [.ident "z"] [.ident "z"] []
  member (name : String) : R [.punct .dot, .ident name] [.punct .dot, .ident name] []
  schema (name : String) : R [.ident (schemaName name)] [.ident (schemaName name)] []
  key (name : String) : R [keyKind name, .punct .colon] [keyKind name, .punct .colon] []
  comma : R [.punct .comma] [.punct .comma] []
  text (value : String) (quote : Char) : R [.str value quote] [.str value quote] []
  fallback (e : String) : R (fallbackKinds e) (fallbackKinds "") [e]

namespace Composes

variable {R : List TokenKind → List TokenKind → List String → Prop} (h : Composes R)
  {ks ls : List TokenKind} {es : List String}

include h

theorem method (name : String) (hk : R ks ls es) : R (methodKinds name ks) (methodKinds name ls) es :=
  h.append (h.member name) (h.group rfl hk)

theorem built (name : String) (hk : R ks ls es) : R (builderKinds name ks) (builderKinds name ls) es :=
  h.append h.builder (h.method name hk)

section Lists

variable {α : Type} {xs : List α} {f g : α → List TokenKind} {e : α → List String}

theorem join (hx : ∀ x ∈ xs, R (f x) (g x) (e x)) : R (xs.flatMap f) (xs.flatMap g) (xs.flatMap e) := by
  induction xs with
  | nil => exact h.nil
  | cons x xs ih => exact h.append (hx x List.mem_cons_self) (ih fun y hy => hx y (List.mem_cons_of_mem x hy))

theorem list (hx : ∀ x ∈ xs, R (f x) (g x) (e x)) :
    R (listKinds (xs.map f)) (listKinds (xs.map g)) (xs.flatMap e) := by
  refine h.group rfl ?_
  induction xs with
  | nil => exact h.nil
  | cons x xs ih =>
    have hhead := hx x List.mem_cons_self
    have htail := ih fun y hy => hx y (List.mem_cons_of_mem x hy)
    cases xs with
    | nil => simpa using hhead
    | cons y xs =>
      have hall := h.append (h.append hhead h.comma) htail
      rw [List.append_nil] at hall
      rw [List.map_cons, List.map_cons, List.map_cons, List.map_cons, List.intercalate_cons_cons,
        List.intercalate_cons_cons]
      exact hall

end Lists

theorem enum (values : List String) : R (enumKinds values) (enumKinds values) [] := by
  unfold enumKinds
  split
  · exact h.built _ h.nil
  · exact h.built _ (h.text _ _)
  · have hlist := h.list fun value (_ : value ∈ values) => h.text (requoteBody value) '"'
    rw [List.flatMap_eq_nil_iff.2 fun _ _ => rfl] at hlist
    exact h.built _ hlist

theorem object (bases : List String) (hk : R ks ls es) : R (objectKinds bases ks) (objectKinds bases ls) es := by
  cases bases with
  | nil => exact h.built _ hk
  | cons base bases =>
    have hshape (b : String) (_ : b ∈ bases) :
        R (methodKinds "extend" [.ident (schemaName b), .punct .dot, .ident "shape"])
          (methodKinds "extend" [.ident (schemaName b), .punct .dot, .ident "shape"]) [] :=
      h.method "extend" (h.append (h.schema b) (h.member "shape"))
    have hbases := h.join hshape
    rw [List.flatMap_eq_nil_iff.2 fun _ _ => rfl] at hbases
    exact h.append (h.append (h.schema base) hbases) (h.method _ hk)

end Composes

/-- **What is kept when code is put together** holds between the code of a validator, that of the validator without its
unresolved expressions, and these expressions. -/
theorem Composes.codeKinds {R : List TokenKind → List TokenKind → List String → Prop} (h : Composes R)
    (v : Validator) : R v.codeKinds v.withoutExpressions.codeKinds v.unresolvedExpressions := by
  -- lists of parts are compared part by part, so the induction is on the size of the validator
  have ih (u : Validator) (hu : u ∈ v.parts) := h.codeKinds u
  cases v with
  | primitive p => exact h.built _ h.nil
  | literal l => exact h.built _ (h.text _ _)
  | array v => exact h.built _ (ih v List.mem_cons_self)
  | record v => exact h.built _ (ih v List.mem_cons_self)
  | union vs =>
    have hlist := h.list ih
    rw [unresolvedExpressions_eq, withoutExpressions, withoutExpressionsAll_eq_map, Validator.codeKinds,
      Validator.codeKinds, codeKindsAll_eq_map, codeKindsAll_eq_map, List.map_map]
    exact h.built _ hlist
  | enum values => exact h.enum values
  | object bases fields =>
    have hfield (f : String × Validator) (hf : f ∈ fields) :=
      h.append (h.append (h.key f.1) (ih f.2 (List.mem_map_of_mem hf))) h.comma
    have hfields := h.join hfield
    rw [unresolvedExpressions_eq, withoutExpressions, withoutExpressionsFields_eq_map, Validator.codeKinds,
      Validator.codeKinds, codeKindsFields_eq_flatMap, codeKindsFields_eq_flatMap, List.flatMap_map, parts,
      List.flatMap_map]
    simp only [List.nil_append, List.append_nil] at hfields
    exact h.object bases (h.group rfl hfields)
  | reference name => exact h.schema name
  | unresolved e => exact h.fallback e
  | optional v =>
    have hall := h.append (ih v List.mem_cons_self) (h.method "optional" h.nil)
    rw [List.append_nil] at hall
    exact hall
  | described v text =>
    have hall := h.append (ih v List.mem_cons_self) (h.method "describe" (h.text (quoteBody text) '"'))
    rw [List.append_nil] at hall
    exact hall
termination_by sizeOf v
decreasing_by exact sizeOf_lt_of_mem_parts hu

theorem composes_balanced : Composes fun ks _ _ => BalancedKinds ks where
  nil := .nil
  append := .append
  group := .group
  builder := .cons rfl .nil
  member _ := .cons rfl (.cons rfl .nil)
  schema _ := .cons rfl .nil
  key name := by
    unfold keyKind
    split <;> exact .cons rfl (.cons rfl .nil)
  comma := .cons rfl .nil
  text _ _ := .cons rfl .nil
  fallback _ := .append (.cons rfl (.cons rfl (.cons rfl (.group rfl .nil)))) (.cons rfl .nil)

/-- No token of the code is open, and its brackets are properly nested. -/
theorem balanced_codeKinds (v : Validator) : BalancedKinds v.codeKinds := composes_balanced.codeKinds v

/-! ## Reading the code -/

section Equations

variable (indent : Nat) (v : Validator)

theorem renderAt_primitive (p : Primitive) : (primitive p).renderAt indent = "z." ++ p.builder ++ "()" := rfl

theorem renderAt_literal (l : StringLiteral) : (literal l).renderAt indent = "z.literal(" ++ l.render ++ ")" := rfl

theorem renderAt_array : (array v).renderAt indent = "z.array(" ++ v.renderAt indent ++ ")" := rfl

theorem renderAt_record : (record v).renderAt indent = "z.record(" ++ v.renderAt indent ++ ")" := rfl

theorem renderAt_union (vs : List Validator) :
    (union vs).renderAt indent = "z.union([" ++ ", ".intercalate (renderAll indent vs) ++ "])" := rfl

theorem renderAt_enum (values : List String) : (enum values).renderAt indent = renderEnum values := rfl

theorem renderAt_object_nil (bases : List String) :
    (object bases []).renderAt indent = renderBases bases ++ "\x7b\x7d)" := rfl

theorem renderAt_object_cons (bases : List String) (f : String × Validator) (fields : List (String × Validator)) :
    (object bases (f :: fields)).renderAt indent = renderBases bases ++
      ("\x7b\n" ++ String.join (renderFields (indent + 1) (f :: fields)) ++ margin indent ++ "\x7d)") := rfl

theorem renderAt_reference (name : String) : (reference name).renderAt indent = schemaName name := rfl

theorem renderAt_unresolved (e : String) : (unresolved e).renderAt indent =
    "z.any() /* unresolved type: " ++ Text.hideCommentEnd e ++ " */" := rfl

theorem renderAt_optional : (optional v).renderAt indent = v.renderAt indent ++ ".optional()" := rfl

theorem renderAt_described (text : String) :
    (described v text).renderAt indent = v.renderAt indent ++ ".describe(" ++ Text.quoteText text ++ ")" := rfl

end Equations

theorem renderAll_eq_map (indent : Nat) (vs : List Validator) :
    renderAll indent vs = vs.map fun v => v.renderAt indent := by
  induction vs with
  | nil => rfl
  | cons v vs ih => rw [renderAll, ih, List.map_cons]

theorem renderFields_eq_map (indent : Nat) (fields : List (String × Validator)) :
    renderFields indent fields = fields.map fun f =>
      margin indent ++ Text.propertyKey f.1 ++ ": " ++ f.2.renderAt indent ++ ",\n" := by
  induction fields with
  | nil => rfl
  | cons f fields ih => rw [renderFields, ih, List.map_cons]

open Lexer (Yields Anywhere Apart Follow yields_of_isPiece yields_of_spells yields_ident yields_join yields_intercalate)

section Pieces

theorem yields_schemaName {name : String} (h : Identifier.isIdentifier name.toList = true) :
    Yields Follow (schemaName name) [.ident (schemaName name)] := yields_ident (isIdentifier_schemaName h)

theorem yields_requote {raw : String} (h : '\n' ∉ raw.toList) : Yields Anywhere (Text.requote raw) (valueKinds raw) :=
  yields_of_spells (Text.spells_requote h) fun _ _ => trivial

theorem yields_close : Yields Anywhere ")" [.punct .closeParen] := yields_of_isPiece (by cbv)

theorem apart_close : Apart ")" := ⟨')', _, rfl, by decide⟩

/-- A key and its colon. -/
theorem yields_key {name : String} (h : '\n' ∉ name.toList) :
    Yields Anywhere (Text.propertyKey name ++ ": ") [keyKind name, .punct .colon] := by
  have hkey : Yields Follow (Text.propertyKey name) [keyKind name] := by
    refine yields_of_spells (Text.spells_propertyKey h) fun rest hrest => ?_
    unfold keyKind
    split
    · exact hrest
    · trivial
  exact hkey.apart (yields_of_isPiece (by cbv)) ⟨':', _, rfl, by decide⟩

theorem yields_margin (indent : Nat) : Yields Anywhere (margin indent) [] := by
  have hspaces : Yields Anywhere "  " [] := yields_of_isPiece (by cbv)
  induction indent with
  | zero => exact Lexer.yields_empty
  | succ indent ih =>
    rw [margin, List.replicate_succ, String.join_cons]
    exact hspaces.append ih

/-- A call around code. -/
theorem yields_call {name opening w : String} {kinds : List TokenKind}
    (ho : Yields Anywhere opening [.ident "z", .punct .dot, .ident name, .punct .openParen])
    (h : Yields Follow w kinds) : Yields Anywhere (opening ++ w ++ ")") (builderKinds name kinds) :=
  ho.between h yields_close apart_close

/-- A call around a list of pieces. -/
theorem yields_listing {α : Type} {xs : List α} {text : α → String} {kinds : α → List TokenKind}
    {name opening : String}
    (ho : Yields Anywhere opening [.ident "z", .punct .dot, .ident name, .punct .openParen, .punct .openBracket])
    (h : ∀ x ∈ xs, Yields Follow (text x) (kinds x)) :
    Yields Anywhere (opening ++ ", ".intercalate (xs.map text) ++ "])")
      (builderKinds name (listKinds (xs.map kinds))) := by
  have hclose : Yields Anywhere "])" [.punct .closeBracket, .punct .closeParen] := yields_of_isPiece (by cbv)
  have hall := ho.between (yields_intercalate h) hclose ⟨']', _, rfl, by decide⟩
  simpa [builderKinds, methodKinds, listKinds] using hall

theorem yields_renderEnum {values : List String} (h : ∀ value ∈ values, '\n' ∉ value.toList) :
    Yields Anywhere (renderEnum values) (enumKinds values) := by
  match values with
  | [] => exact yields_of_isPiece (by cbv)
  | [value] => exact yields_call (yields_of_isPiece (by cbv)) (yields_requote (h value List.mem_cons_self)).follow
  | value :: value' :: values =>
    have hopen : Yields Anywhere "z.enum(["
        [.ident "z", .punct .dot, .ident "enum", .punct .openParen, .punct .openBracket] := yields_of_isPiece (by cbv)
    exact yields_listing hopen fun value hvalue => (yields_requote (h value hvalue)).follow

/-- An object, with its fields and the end of the call in `w`. -/
theorem yields_object {bases : List String} (h : ∀ base ∈ bases, Identifier.isIdentifier base.toList = true)
    {w : String} {inside : List TokenKind} (hw : Yields Anywhere w (inside ++ [.punct .closeParen])) :
    Yields Anywhere (renderBases bases ++ w) (objectKinds bases inside) := by
  have hextend : Yields Anywhere ".extend(" [.punct .dot, .ident "extend", .punct .openParen] :=
    yields_of_isPiece (by cbv)
  cases bases with
  | nil =>
    have hobject : Yields Anywhere "z.object(" [.ident "z", .punct .dot, .ident "object", .punct .openParen] :=
      yields_of_isPiece (by cbv)
    exact hobject.append hw
  | cons base bases =>
    have hshape : Yields Anywhere ".shape)" [.punct .dot, .ident "shape", .punct .closeParen] :=
      yields_of_isPiece (by cbv)
    have hbase := yields_schemaName (h base List.mem_cons_self)
    have hbases := yields_join fun b hb =>
      hextend.between (yields_schemaName (h b (List.mem_cons_of_mem base hb))) hshape ⟨'.', _, rfl, by decide⟩
    have hapart : Apart (String.join (bases.map fun b => ".extend(" ++ schemaName b ++ ".shape)") ++ ".extend(") := by
      have hdot : Apart ".extend(" := ⟨'.', _, rfl, by decide⟩
      cases bases with
      | nil => exact hdot
      | cons b bases =>
        rw [List.map_cons, String.join_cons]
        exact (((hdot.append _).append _).append _).append _
    -- the first name must not run into what follows it, even if it is the only base
    have hall := (hbase.apart (hbases.append hextend) hapart).append hw
    have hassoc := @String.append_assoc (schemaName base)
    rw [renderBases, hassoc]
    simpa [objectKinds, methodKinds] using hall

/-- The line of a field. -/
theorem yields_field {indent : Nat} {name : String} {v : Validator} {kinds : List TokenKind} (hn : '\n' ∉ name.toList)
    (hv : Yields Follow (v.renderAt indent) kinds) :
    Yields Anywhere (margin indent ++ Text.propertyKey name ++ ": " ++ v.renderAt indent ++ ",\n")
      ([keyKind name, .punct .colon] ++ kinds ++ [.punct .comma]) := by
  have hcomma : Yields Anywhere ",\n" [.punct .comma] := yields_of_isPiece (by cbv)
  have hassoc : margin indent ++ Text.propertyKey name ++ ": " = margin indent ++ (Text.propertyKey name ++ ": ") :=
    String.append_assoc
  rw [hassoc]
  exact (((yields_margin indent).append (yields_key hn)).append hv).apart hcomma ⟨',', _, rfl, by decide⟩

/-- What has no validator stands in a comment, whatever it is. -/
theorem yields_remark (e : String) : Yields Anywhere (remark e) [.comment (remark e)] := by
  have hspace : Lexeme.CommentText [' '] := .cons (by decide) .nil
  have hbody : Lexeme.CommentText (" unresolved type: ".toList ++ (Text.hideCommentEndChars e.toList ++ [' '])) :=
    Lexeme.commentText_append (by decide) (Lexeme.commentText_hideCommentEnd hspace (by decide) e.toList)
  have hw : '/' :: '*' :: (" unresolved type: ".toList ++ (Text.hideCommentEndChars e.toList ++ [' ']) ++ ['*', '/']) =
      (remark e).toList := by
    unfold remark
    simp [Text.hideCommentEnd]
  have hspells := Lexeme.Spells.blockComment hbody (by simp)
  rw [hw, String.ofList_toList] at hspells
  refine yields_of_spells hspells fun rest _ hline => ?_
  rw [← hw] at hline
  simp at hline

theorem yields_unresolved (e : String) :
    Yields Anywhere ("z.any() /* unresolved type: " ++ Text.hideCommentEnd e ++ " */") (fallbackKinds e) := by
  have hany : Yields Anywhere "z.any() " (builderKinds "any" []) := yields_of_isPiece (by cbv)
  have hsplit : "z.any() /* unresolved type: " ++ Text.hideCommentEnd e ++ " */" = "z.any() " ++ remark e := by
    unfold remark
    simp [← String.toList_inj]
  rw [hsplit]
  exact hany.append (yields_remark e)

end Pieces

/-- **The code of a spelled validator is read as its tokens**, unless an identifier goes on behind it. -/
theorem yields_renderAt {v : Validator} (h : v.IsSpelled) (indent : Nat) :
    Yields Follow (v.renderAt indent) v.codeKinds := by
  induction h generalizing indent with
  | primitive p =>
    have hcall : Lexer.isPiece ("z." ++ p.builder ++ "()") (builderKinds p.builder []) = true := by cases p <;> cbv
    rw [renderAt_primitive]
    exact (yields_of_isPiece hcall).follow
  | @literal value quote hq hb =>
    have hliteral : Yields Anywhere (StringLiteral.render ⟨value, quote⟩) [.str value quote] := by
      have hspells := Lexeme.Spells.str hq hb
      refine yields_of_spells ?_ fun _ _ => trivial
      simpa [StringLiteral.render] using hspells
    rw [renderAt_literal]
    exact (yields_call (yields_of_isPiece (by cbv)) hliteral.follow).follow
  | array _ ih =>
    rw [renderAt_array]
    exact (yields_call (yields_of_isPiece (by cbv)) (ih indent)).follow
  | record _ ih =>
    rw [renderAt_record]
    exact (yields_call (yields_of_isPiece (by cbv)) (ih indent)).follow
  | @union vs _ ih =>
    rw [renderAt_union, renderAll_eq_map, codeKinds, codeKindsAll_eq_map]
    exact (yields_listing (yields_of_isPiece (by cbv)) fun v hv => ih v hv indent).follow
  | enum hvalues =>
    rw [renderAt_enum]
    exact (yields_renderEnum hvalues).follow
  | @object bases fields hbases hnames _ ih =>
    have hend : Yields Anywhere "\x7d)" [.punct .closeBrace, .punct .closeParen] := yields_of_isPiece (by cbv)
    refine Yields.follow ?_
    cases fields with
    | nil =>
      rw [renderAt_object_nil]
      exact yields_object hbases (yields_of_isPiece (by cbv))
    | cons field fields =>
      have hopen : Yields Anywhere "\x7b\n" [.punct .openBrace] := yields_of_isPiece (by cbv)
      have hfields := yields_join fun f hf => yields_field (hnames f hf) (ih f hf (indent + 1))
      have hall := ((hopen.append hfields).append (yields_margin indent)).append hend
      rw [renderAt_object_cons, renderFields_eq_map, codeKinds, codeKindsFields_eq_flatMap]
      refine yields_object hbases ?_
      simpa using hall
  | reference hn =>
    rw [renderAt_reference]
    exact yields_schemaName hn
  | unresolved e =>
    rw [renderAt_unresolved]
    exact (yields_unresolved e).follow
  | optional _ ih =>
    have hoptional : Yields Anywhere ".optional()" (methodKinds "optional" []) := yields_of_isPiece (by cbv)
    rw [renderAt_optional]
    exact ((ih indent).apart hoptional ⟨'.', _, rfl, by decide⟩).follow
  | @described v _ text ih =>
    have hdescribe : Yields Anywhere ".describe(" [.punct .dot, .ident "describe", .punct .openParen] :=
      yields_of_isPiece (by cbv)
    have htext : Yields Anywhere (Text.quoteText text) [.str (quoteBody text) '"'] :=
      yields_of_spells (Text.spells_quoteText text) fun _ _ => trivial
    have hall := (((ih indent).apart hdescribe ⟨'.', _, rfl, by decide⟩).append htext).append yields_close
    rw [renderAt_described, codeKinds]
    simpa [methodKinds] using hall.follow

/-! ## Comments -/

/-- The kinds without comments of either sort. -/
def uncommented (kinds : List TokenKind) : List TokenKind := kinds.filter fun kind => !kind.isComment

theorem uncommented_append (ks ls : List TokenKind) : uncommented (ks ++ ls) = uncommented ks ++ uncommented ls :=
  List.filter_append ..

theorem uncommented_fallbackKinds (e : String) : uncommented (fallbackKinds e) = builderKinds "any" [] := rfl

theorem composes_uncommented : Composes fun ks ls _ => uncommented ks = uncommented ls where
  nil := rfl
  append h h' := by rw [uncommented_append, uncommented_append, h, h']
  group {x y ks ls _} _ h := by
    have hall : uncommented ([.punct x] ++ (ks ++ [.punct y])) = uncommented ([.punct x] ++ (ls ++ [.punct y])) := by
      simp only [uncommented_append, h]
    exact hall
  builder := rfl
  member _ := rfl
  schema _ := rfl
  key _ := rfl
  comma := rfl
  text _ _ := rfl
  fallback e := by rw [uncommented_fallbackKinds, uncommented_fallbackKinds]

/-- Without comments, the tokens of validators that resemble each other are the same. -/
theorem Resembles.uncommented_codeKinds {v w : Validator} (h : Resembles v w) :
    uncommented v.codeKinds = uncommented w.codeKinds := by
  have hcode := composes_uncommented.codeKinds
  rw [hcode v, hcode w, h]

/-- The comments among tokens. -/
def comments (kinds : List TokenKind) : List TokenKind := kinds.filter TokenKind.isComment

theorem comments_append (ks ls : List TokenKind) : comments (ks ++ ls) = comments ks ++ comments ls :=
  List.filter_append ..

theorem composes_comments :
    Composes fun ks _ es => comments ks = es.map fun e => .comment (remark e) where
  nil := rfl
  append h h' := by rw [comments_append, h, h', List.map_append]
  group {x y ks _ _} _ h := by
    have hall : comments ([.punct x] ++ (ks ++ [.punct y])) = comments ks := by
      rw [comments_append, comments_append]
      simp [comments, TokenKind.isComment]
    exact hall.trans h
  builder := rfl
  member _ := rfl
  schema _ := rfl
  key name := by
    unfold keyKind
    split <;> rfl
  comma := rfl
  text _ _ := rfl
  fallback _ := rfl

/-- There is one comment for every unresolved expression, and no other. -/
theorem comments_codeKinds (v : Validator) :
    comments v.codeKinds = v.unresolvedExpressions.map fun e => .comment (remark e) := composes_comments.codeKinds v

/-! ## The tokens of a rendered validator -/

theorem body_render {v : Validator} (h : v.IsSpelled) : (tokenize v.render).body.map Token.kind = v.codeKinds :=
  (yields_renderAt h 0).tokenize fun _ hc => nomatch hc

theorem kinds_render {v : Validator} (h : v.IsSpelled) :
    (tokenize v.render).toList.map Token.kind = v.codeKinds ++ [.eof] := by
  rw [Tokens.toList, List.map_append, body_render h]
  rfl

theorem significantKinds_render {v : Validator} (h : v.IsSpelled) :
    significantKinds v.render = uncommented v.codeKinds ++ [.eof] := by
  rw [significantKinds, Tokens.toList, List.map_append, ← body_render h, uncommented, List.filter_map]
  rfl

/-- **The code of a validator is well formed, and what is unresolved stays in its comments.**  Its tokens are those of
`codeKinds`, none of them is open, and their brackets are properly nested.  Every unresolved expression has one comment,
and without comments the tokens do not depend on unresolved expressions. -/
theorem render_stays_closed {v : Validator} (h : v.IsSpelled) :
    (tokenize v.render).toList.map Token.kind = v.codeKinds ++ [.eof] ∧
      (∀ t ∈ (tokenize v.render).toList, t.kind.isError = false) ∧
      isNested [] ((tokenize v.render).toList.map Token.kind) = true ∧
      ((tokenize v.render).toList.map Token.kind).filter TokenKind.isComment =
        v.unresolvedExpressions.map (fun e => .comment (remark e)) ∧
      ∀ w : Validator, w.IsSpelled → Resembles v w → significantKinds v.render = significantKinds w.render := by
  have hkinds := kinds_render h
  have hbalanced : BalancedKinds (v.codeKinds ++ [.eof]) := (balanced_codeKinds v).append (.cons rfl .nil)
  refine ⟨hkinds, fun t ht => ?_, ?_, ?_, fun w hw hvw => ?_⟩
  · exact hbalanced.closed _ (hkinds ▸ List.mem_map_of_mem ht)
  · rw [hkinds]
    exact hbalanced.nested
  · rw [hkinds, ← comments_codeKinds]
    exact (comments_append _ _).trans (List.append_nil _)
  · rw [significantKinds_render h, significantKinds_render hw, hvw.uncommented_codeKinds]

/-- An object whose names, values, remark and unresolved expression try to leave their marks. -/
def unruly (e : String) : Validator :=
  .object ["Base", "Mixin"]
    [("p\"q\\", .described (.optional (.unresolved e)) "a\n*/ \"b\\"),
      ("kind", .union [.enum ["x", "y\"z"], .literal ⟨"it\\'s", '\''⟩, .array (.record (.reference "Node"))])]

theorem isSpelled_unruly (e : String) : (unruly e).IsSpelled := by
  have hliteral : (Validator.literal ⟨"it\\'s", '\''⟩).IsSpelled :=
    .literal (.inr rfl) (by
      refine .char (by decide) (by decide) (by decide) (.char (by decide) (by decide) (by decide) ?_)
      exact .pair (by decide) (.char (by decide) (by decide) (by decide) .nil))
  have hnode : (Validator.reference "Node").IsSpelled := .reference (by decide)
  have hvalues : (Validator.enum ["x", "y\"z"]).IsSpelled := .enum (by decide)
  have hkind := IsSpelled.union (List.forall_mem_cons.2 ⟨hvalues, List.forall_mem_cons.2 ⟨hliteral,
    List.forall_mem_singleton.2 (.array (.record hnode))⟩⟩)
  have hremark := IsSpelled.described (.optional (.unresolved e)) "a\n*/ \"b\\"
  have hnames : '\n' ∉ "p\"q\\".toList ∧ '\n' ∉ "kind".toList := by decide
  refine .object (by decide) (List.forall_mem_cons.2 ⟨hnames.1, List.forall_mem_singleton.2 hnames.2⟩) ?_
  exact List.forall_mem_cons.2 ⟨hremark, List.forall_mem_singleton.2 hkind⟩

theorem render_stays_closed_unruly :
    (∀ t ∈ (tokenize (unruly "*/ )").render).toList, t.kind.isError = false) ∧
      isNested [] ((tokenize (unruly "*/ )").render).toList.map Token.kind) = true ∧
      ((tokenize (unruly "*/ )").render).toList.map Token.kind).filter TokenKind.isComment =
        [.comment "/* unresolved type: *\\/ ) */"] ∧
      significantKinds (unruly "*/ )").render = significantKinds (unruly "**//").render := by
  obtain ⟨-, hclosed, hnested, hcomments, hsame⟩ := render_stays_closed (isSpelled_unruly "*/ )")
  have hremark : remark "*/ )" = "/* unresolved type: *\\/ ) */" := by
    unfold remark
    cbv
  exact ⟨hclosed, hnested, hcomments.trans (hremark ▸ rfl), hsame _ (isSpelled_unruly "**//") rfl⟩

end Validator

end TypeSchema
