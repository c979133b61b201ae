import TypeSchema.Proofs.TypeExpr.Keys
import TypeSchema.Proofs.TypeExpr.Soundness

/-!
# Well-formed trees

`WellFormed p` holds of the trees that texts can have, with keys of `p`: names are identifiers with dots between them,
literals have text that may stand between their quotes, unions have two branches or more, a keyword is no reference, an
array is not written as a generic, and a question mark stands at the root only.

* `inner_of_derives`: whatever is derived from tokens of a text is such a tree;
* `wellFormed_of_parse`: every tree that the parser gives is well-formed, with collapsed keys.
-/

namespace TypeSchema

namespace TypeExpr

/-! ## Trees -/

/-- The name is a list of identifiers with dots between them. -/
def IsDotted (name : String) : Prop :=
  ∃ (first : List Char) (parts : List (List Char)), Identifier.isIdentifier first = true ∧
    (∀ part ∈ parts, Identifier.isIdentifier part = true) ∧ name.toList = first ++ parts.flatMap ('.' :: ·)

/-- The trees without a question mark that texts can have, with keys of `p`. -/
inductive Inner (p : String → Prop) : TypeExpr → Prop
  | primitive (q : Primitive) : Inner p (.primitive q)
  | literal {value : String} {quote : Char} : quote = '"' ∨ quote = '\'' → Lexeme.QuotedText quote value.toList →
      Inner p (.literal ⟨value, quote⟩)
  | reference {name : String} : IsDotted name → Primitive.ofKeyword? name = none → Inner p (.reference name)
  | array {e : TypeExpr} : Inner p e → Inner p (.array e)
  | record {key : String} {e : TypeExpr} : p key → Inner p e → Inner p (.record key e)
  | anyRecord : Inner p .anyRecord
  | generic {name : String} {es : List TypeExpr} : IsDotted name → name ≠ "Record" →
      (name = "Array" → es.length ≠ 1) → es ≠ [] → (∀ e ∈ es, Inner p e) → Inner p (.generic name es)
  | union {es : List TypeExpr} : 2 ≤ es.length → (∀ e ∈ es, Inner p e) → Inner p (.union es)

/-- The trees that texts can have, with keys of `p`. -/
inductive WellFormed (p : String → Prop) : TypeExpr → Prop
  | bare {e : TypeExpr} : Inner p e → WellFormed p e
  | optional {e : TypeExpr} : Inner p e → WellFormed p (.optional e)

mutual

/-- The keys of the records in an expression, from left to right. -/
def keys : TypeExpr → List String
  | array e | optional e => e.keys
  | record key e => key :: e.keys
  | generic _ es | union es => keysAll es
  | primitive _ | literal _ | reference _ | anyRecord => []

/-- The keys in a list of expressions. -/
def keysAll : List TypeExpr → List String
  | [] => []
  | e :: es => e.keys ++ keysAll es

end

theorem mem_keysAll {key : String} {es : List TypeExpr} : key ∈ keysAll es ↔ ∃ e ∈ es, key ∈ e.keys := by
  induction es with
  | nil => simp [keysAll]
  | cons e es ih => simp [keysAll, ih]

theorem Inner.keys {p : String → Prop} {e : TypeExpr} (h : Inner p e) : ∀ key ∈ e.keys, p key := by
  induction h with
  | primitive | literal | reference | anyRecord => simp [TypeExpr.keys]
  | array _ ih => exact ih
  | record hk _ ih =>
    intro key hm
    rcases List.mem_cons.1 hm with rfl | hm
    · exact hk
    · exact ih key hm
  | generic _ _ _ _ _ ih | union _ _ ih =>
    intro key hm
    obtain ⟨e, he, hm⟩ := mem_keysAll.1 hm
    exact ih e he key hm

theorem Inner.mono {p q : String → Prop} {e : TypeExpr} (h : Inner p e) (hq : ∀ key ∈ e.keys, p key → q key) :
    Inner q e := by
  induction h with
  | primitive q => exact .primitive q
  | literal hl hb => exact .literal hl hb
  | reference hd hk => exact .reference hd hk
  | anyRecord => exact .anyRecord
  | array _ ih => exact .array (ih hq)
  | record hk _ ih =>
    exact .record (hq _ List.mem_cons_self hk) (ih fun key hm => hq key (List.mem_cons_of_mem _ hm))
  | generic hd hn ha hne _ ih =>
    exact .generic hd hn ha hne fun e he => ih e he fun key hm => hq key (mem_keysAll.2 ⟨e, he, hm⟩)
  | union hl _ ih =>
    exact .union hl fun e he => ih e he fun key hm => hq key (mem_keysAll.2 ⟨e, he, hm⟩)

theorem Inner.of_union {p : String → Prop} {es : List TypeExpr} (h : Inner p (.union es)) :
    2 ≤ es.length ∧ ∀ e ∈ es, Inner p e := by
  cases h with
  | union hlen hes => exact ⟨hlen, hes⟩

theorem WellFormed.keys {p : String → Prop} {e : TypeExpr} (h : WellFormed p e) : ∀ key ∈ e.keys, p key := by
  cases h with
  | bare h => exact h.keys
  | optional h => exact h.keys

theorem WellFormed.mono {p q : String → Prop} {e : TypeExpr} (h : WellFormed p e)
    (hq : ∀ key ∈ e.keys, p key → q key) : WellFormed q e := by
  cases h with
  | bare h => exact .bare (h.mono hq)
  | optional h => exact .optional (h.mono hq)

end TypeExpr

/-! ## Derived trees -/

namespace Parser

open TypeExpr (IsDotted Inner WellFormed)

/-- Every token is open or is spelled as its kind asks. -/
def Spelled (ts : List Token) : Prop := ∀ t ∈ ts, t.IsSpelled

theorem isDotted_of_nameTail {name full : String} {ts : List Token} (hs : Spelled ts) (h : NameTail name ts full)
    (hn : IsDotted name) : IsDotted full := by
  induction h with
  | done => exact hn
  | @part name part full dot t ts _ ht _ ih =>
    refine ih (fun u hu => hs u (by simp [hu])) ?_
    have hpart := (hs t (by simp)).isIdentifier ht
    obtain ⟨first, parts, hfirst, hparts, he⟩ := hn
    refine ⟨first, parts ++ [part.toList], hfirst, ?_, by simp [he]⟩
    intro p hp
    rcases List.mem_append.1 hp with hp | hp
    · exact hparts p hp
    · rw [List.mem_singleton.1 hp]
      exact hpart

theorem isDotted_of_names {ts : List Token} {name : String} (hs : Spelled ts) (h : Names ts name) : IsDotted name := by
  obtain ⟨t, us, first, rfl, ht, htail⟩ := h
  refine isDotted_of_nameTail (fun u hu => hs u (by simp [hu])) htail ?_
  exact ⟨first.toList, [], (hs t (by simp)).isIdentifier ht, by simp, by simp⟩

section Trees

variable {p : String → Prop}

theorem inner_plain {name : String} (h : IsDotted name) : Inner p (plain name) := by
  unfold plain
  split
  · exact .primitive _
  · rename_i hk
    exact .reference h hk

theorem inner_applied {name : String} {es : List TypeExpr} (h : IsDotted name) (hn : name ≠ "Record") (hne : es ≠ [])
    (hes : ∀ e ∈ es, Inner p e) : Inner p (applied name es) := by
  unfold applied
  split
  · split
    · exact .array (hes _ (by simp))
    · rename_i ha
      exact .generic h hn (fun h => absurd h ha) hne hes
  · rename_i hsingle
    refine .generic h hn (fun _ hlen => ?_) hne hes
    obtain ⟨e, rfl⟩ := List.length_eq_one_iff.1 hlen
    exact hsingle e rfl

theorem inner_joined {es : List TypeExpr} (hne : es ≠ []) (hes : ∀ e ∈ es, Inner p e) : Inner p (joined es) := by
  unfold joined
  split
  · exact hes _ (by simp)
  · rename_i hsingle
    refine .union ?_ hes
    cases es with
    | nil => exact absurd rfl hne
    | cons e es =>
      cases es with
      | nil => exact absurd rfl (hsingle e)
      | cons f fs => simp

theorem inner_arrayed {e : TypeExpr} (h : Inner p e) (n : Nat) : Inner p (arrayed n e) := by
  induction n generalizing e with
  | zero => exact h
  | succ n ih => exact ih (.array h)

end Trees

theorem Derives.ne_nil {source : String} {widens : List Token → Prop} {c : Category} {level top : Nat}
    {ts : List Token} {es : List TypeExpr} (h : Derives source widens c level ts es top) : es ≠ [] := by
  cases h <;> simp

/-- **Whatever is derived from tokens of a text is a well-formed tree**, with keys of `p` if all keys among the tokens
are of `p`. -/
theorem inner_of_derives {source : String} {widens : List Token → Prop} {p : String → Prop} {whole : List Token}
    (hs : Spelled whole)
    (hp : ∀ before key comma after text, whole = before ++ key ++ comma :: after → isKey 0 key = true →
      keyText? source key = some text → p text)
    {c : Category} {level top : Nat} {ts : List Token} {es : List TypeExpr}
    (h : Derives source widens c level ts es top) :
    ∀ before after, whole = before ++ ts ++ after → ∀ e ∈ es, Inner p e := by
  have hpart {before ts after : List Token} (hw : whole = before ++ ts ++ after) : Spelled ts :=
    fun t ht => hs t (by simp [hw, ht])
  induction h with
  | union h ih =>
    rintro before after hw e he
    rw [List.mem_singleton.1 he]
    exact inner_joined h.ne_nil (ih before after hw)
  | @barred level top bar ts es _ h ih =>
    rintro before after hw e he
    rw [List.mem_singleton.1 he]
    exact inner_joined h.ne_nil (ih (before ++ [bar]) after (by simp [hw]))
  | @suffixed level top n ts us e _ _ ih =>
    rintro before after hw f hf
    rw [List.mem_singleton.1 hf]
    exact inner_arrayed (ih before (us ++ after) (by simp [hw]) e (by simp)) n
  | @group level top opening closing ts e _ _ _ ih =>
    intro before after hw
    exact ih (before ++ [opening]) (closing :: after) (by simp [hw])
  | @literal level t value quote ht =>
    rintro before after hw e he
    rw [List.mem_singleton.1 he]
    obtain ⟨hq, hb⟩ := (hpart hw t (by simp)).quotedText ht
    exact .literal hq hb
  | plain hn =>
    rintro before after hw e he
    rw [List.mem_singleton.1 he]
    exact inner_plain (isDotted_of_names (hpart hw) hn)
  | @applied level top ts us name opening closing es hn hne _ h _ ih =>
    rintro before after hw e he
    rw [List.mem_singleton.1 he]
    have hnames : whole = before ++ ts ++ (opening :: (us ++ [closing]) ++ after) := by simp [hw]
    refine inner_applied (isDotted_of_names (hpart hnames) hn) hne h.ne_nil ?_
    exact ih (before ++ ts ++ [opening]) (closing :: after) (by simp [hw])
  | @record level top ts us key text opening comma closing e hn _ hkey hk _ _ _ ih =>
    rintro before after hw f hf
    rw [List.mem_singleton.1 hf]
    refine .record (hp (before ++ ts ++ [opening]) key comma (us ++ closing :: after) text (by simp [hw]) hkey hk) ?_
    exact ih (before ++ ts ++ opening :: (key ++ [comma])) (closing :: after) (by simp [hw]) e (by simp)
  | anyRecord =>
    rintro before after hw e he
    rw [List.mem_singleton.1 he]
    exact .anyRecord
  | one _ ih => exact ih
  | @more c level top top' ts us sep e es _ _ _ ih ih' =>
    rintro before after hw f hf
    rcases List.mem_cons.1 hf with rfl | hf
    · exact ih before (sep :: us ++ after) (by simp [hw]) f (by simp)
    · exact ih' (before ++ ts ++ [sep]) after (by simp [hw]) f hf

end Parser

namespace TypeExpr

open TypeSchema.Parser (keyText? isKey ofText)

/-- A tree that the parser gives is well-formed, with keys of `p` if all keys among the tokens are of `p`. -/
theorem wellFormed_of_keys {source : String} {e : TypeExpr} (h : parse source = .ok e) {p : String → Prop}
    (hp : ∀ before key comma after text, (ofText source).rest = before ++ key ++ comma :: after → isKey 0 key = true →
      keyText? source key = some text → p text) : WellFormed p e := by
  obtain ⟨top, hder, -⟩ := derives_of_parse h
  have hs : Parser.Spelled (ofText source).rest := fun t ht =>
    (Lexer.reads_tokenize source).spells t (List.mem_filter.1 ht).1
  generalize hrest : (ofText source).rest = ts at hder hp hs
  cases hder with
  | bare hder => exact .bare (Parser.inner_of_derives hs hp hder [] [] (by simp) _ (by simp))
  | @optional ts question e top hder _ =>
    exact .optional (Parser.inner_of_derives hs hp hder [] [question] (by simp) _ (by simp))

/-- The key is the text of some run of tokens. -/
def IsKeyText (key : String) : Prop := Text.collapse key = key ∧ key ≠ ""

theorem isKeyText_of_keyText? {source text : String} {key : List Token} (h : keyText? source key = some text) :
    IsKeyText text := by
  unfold Parser.keyText? at h
  split at h
  · dsimp only at h
    split at h
    · cases h
    · rename_i hne
      obtain rfl := Option.some.inj h
      exact ⟨Text.collapse_collapse _, fun he => hne (by rw [he]; rfl)⟩
  · cases h

/-- **Every tree that the parser gives is well-formed**, with collapsed keys. -/
theorem wellFormed_of_parse {source : String} {e : TypeExpr} (h : parse source = .ok e) : WellFormed IsKeyText e :=
  wellFormed_of_keys h fun _ _ _ _ _ _ _ hk => isKeyText_of_keyText? hk

/-- The keys of a text without line feeds are stable. -/
theorem isStableKey_of_parse {source : String} {e : TypeExpr} (h : parse source = .ok e)
    (hn : '\n' ∉ source.toList) : ∀ key ∈ e.keys, Parser.isStableKey key = true :=
  (wellFormed_of_keys (p := (Parser.isStableKey · = true)) h fun _ _ _ _ _ hs hkey hk =>
    Parser.isStableKey_of_keyText? hn hs hkey hk).keys

end TypeExpr

end TypeSchema
