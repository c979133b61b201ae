import TypeSchema.Proofs.Lexing.Escapes
import TypeSchema.Proofs.Lexing.Run
import TypeSchema.Validator.Accept

/-!
# Emitted strings stand for what values are compared with

The code of a validator holds strings in double quotes: values of enums and names of fields as they were written between
quotes of any sort, and free text.  Each is spelled as one token (`spells_requote`, `spells_propertyKey`,
`spells_quoteText`), and what the token stands for is what a value is compared with, or the free text itself without
line breaks (`unescape_requoteBody`, `unescape_quoteBody`).
-/

namespace TypeSchema

namespace Text

/-- What stands between the quotes of a requoted text. -/
def requoteBody (raw : String) : String := String.ofList (requoteChars raw.toList)

/-- What stands between the quotes of a quoted free text. -/
def quoteBody (text : String) : String := String.ofList (text.toList.flatMap quoteChar)

theorem requote_eq (raw : String) : requote raw = "\"" ++ requoteBody raw ++ "\"" := rfl

theorem quoteText_eq (text : String) : quoteText text = "\"" ++ quoteBody text ++ "\"" := rfl

/-! ## What escaped texts stand for -/

theorem unescapeChars_cons {c : Char} (h : c ≠ '\\') (cs : List Char) :
    unescapeChars (c :: cs) = c :: unescapeChars cs := by
  rw [unescapeChars]
  · exact fun hc _ => h hc
  · exact fun _ _ hc _ => h hc

theorem requoteChars_cons {c : Char} (h : c ≠ '\\') (hq : c ≠ '"') (cs : List Char) :
    requoteChars (c :: cs) = c :: requoteChars cs := by
  rw [requoteChars]
  · exact fun hc _ => h hc
  · exact fun _ _ hc _ => h hc
  · exact hq

/-- A character that is not escaped by requoting is no backslash. -/
theorem ne_backslash {c : Char} {cs : List Char} (hlast : c = '\\' → cs = [] → False)
    (hpair : ∀ d ds, c = '\\' → cs = d :: ds → False) : c ≠ '\\' := by
  intro hc
  cases cs with
  | nil => exact hlast hc rfl
  | cons d ds => exact hpair d ds hc rfl

/-- **A requoted text stands for the same.** -/
theorem unescapeChars_requoteChars (cs : List Char) : unescapeChars (requoteChars cs) = unescapeChars cs := by
  fun_induction requoteChars cs with
  | case1 => rfl
  | case2 => rfl
  | case3 c cs ih => rw [unescapeChars, unescapeChars, ih]
  | case4 cs ih => rw [unescapeChars, unescapeChars_cons (by decide), ih]; rfl
  | case5 c cs hlast hpair hquote ih =>
    have hc : c ≠ '\\' := ne_backslash hlast hpair
    rw [unescapeChars_cons hc, unescapeChars_cons hc, ih]

/-- **Requoting again changes nothing.** -/
theorem requoteChars_requoteChars (cs : List Char) : requoteChars (requoteChars cs) = requoteChars cs := by
  fun_induction requoteChars cs with
  | case1 => rfl
  | case2 => rfl
  | case3 c cs ih => rw [requoteChars, ih]
  | case4 cs ih => rw [requoteChars, ih]
  | case5 c cs hlast hpair hquote ih => rw [requoteChars_cons (ne_backslash hlast hpair) hquote, ih]

/-- The character that is left of `c` in a quoted free text: line breaks become spaces. -/
def unbroken (c : Char) : Char := if c = '\n' ∨ c = '\r' then ' ' else c

theorem unescapeChars_quoteChar (c : Char) (cs : List Char) :
    unescapeChars (quoteChar c ++ cs) = unbroken c :: unescapeChars cs := by
  unfold quoteChar
  split
  · rfl
  · rfl
  · exact unescapeChars_cons (by decide) cs
  · exact unescapeChars_cons (by decide) cs
  · rename_i hbackslash _ hfeed hreturn
    have hc : unbroken c = c := if_neg fun h => h.elim hfeed hreturn
    rw [hc]
    exact unescapeChars_cons hbackslash cs

/-- **A quoted free text stands for itself**, without line breaks. -/
theorem unescapeChars_flatMap_quoteChar (cs : List Char) : unescapeChars (cs.flatMap quoteChar) = cs.map unbroken := by
  induction cs with
  | nil => rfl
  | cons c cs ih => rw [List.flatMap_cons, unescapeChars_quoteChar, ih, List.map_cons]

theorem unescape_requoteBody (raw : String) : unescape (requoteBody raw) = unescape raw := by
  rw [unescape, requoteBody, String.toList_ofList, unescapeChars_requoteChars, unescape]

theorem requoteBody_requoteBody (raw : String) : requoteBody (requoteBody raw) = requoteBody raw := by
  rw [requoteBody, requoteBody, String.toList_ofList, requoteChars_requoteChars]

theorem unescape_quoteBody (text : String) : unescape (quoteBody text) = text.map unbroken := by
  rw [unescape, quoteBody, String.toList_ofList, unescapeChars_flatMap_quoteChar, ← String.toList_inj,
    String.toList_ofList, String.toList_map]

/-! ## How they are read -/

section Reading

open Lexeme (Spells QuotedText)

theorem spells_quoted {body : String} (h : QuotedText '"' body.toList) :
    Spells (.str body '"') ("\"" ++ body ++ "\"").toList := by
  have hspells := Spells.str (.inl rfl) h
  rw [String.ofList_toList] at hspells
  simpa using hspells

theorem spells_requote {raw : String} (h : '\n' ∉ raw.toList) :
    Spells (.str (requoteBody raw) '"') (requote raw).toList := by
  rw [requote_eq]
  refine spells_quoted ?_
  rw [requoteBody, String.toList_ofList]
  exact Lexeme.quotedText_requote h

theorem spells_quoteText (text : String) : Spells (.str (quoteBody text) '"') (quoteText text).toList := by
  rw [quoteText_eq]
  refine spells_quoted ?_
  rw [quoteBody, String.toList_ofList]
  exact Lexeme.quotedText_quoteText text.toList

/-- The token of a name that is the key of an object: the name itself if it is an identifier, else a string. -/
def keyKind (name : String) : TokenKind :=
  if Identifier.isIdentifier name.toList then .ident name else .str (requoteBody name) '"'

theorem spells_propertyKey {name : String} (h : '\n' ∉ name.toList) :
    Spells (keyKind name) (propertyKey name).toList := by
  unfold keyKind propertyKey
  split
  · rename_i hident
    have hspells := Spells.ident hident
    rwa [String.ofList_toList] at hspells
  · exact spells_requote h

end Reading

end Text

open Text

/-- A text that is one lexeme is read as one token and the end of input. -/
theorem kinds_of_spells {kind : TokenKind} {w : String} (h : Lexeme.Spells kind w.toList) :
    (tokenize w).toList.map Token.kind = [kind, .eof] := by
  have htokens := Lexer.tokenize_of_reads (Lexer.reads_spelled h (Lexeme.stops_nil kind) .origin)
  rw [String.ofList_toList] at htokens
  rw [Tokens.toList, htokens]
  rfl

namespace Validator

/-- What a field asks of an object, wherever it stands: the member under its unescaped name passes. -/
theorem acceptsWithin_field (schemas : Schemas) (budget : Nat) (bases : List String)
    (before after : List (String × Validator)) (name : String) (v : Validator) (members : List (String × Json)) :
    acceptsWithin schemas (budget + 1) (.object bases (before ++ (name, v) :: after)) (some (.object members)) =
      (acceptsWithin schemas (budget + 1) (.object bases (before ++ after)) (some (.object members)) &&
        acceptsWithin schemas budget v (Json.member? members (unescape name))) := by
  simp only [acceptsWithin, List.all_append, List.all_cons]
  ac_rfl

/-- **Emitted strings stand for what values are compared with.** -/
theorem emitted_strings_stand :
    (∀ raw : String, unescape (requoteBody raw) = unescape raw ∧ requoteBody (requoteBody raw) = requoteBody raw ∧
      ('\n' ∉ raw.toList → (tokenize (requote raw)).toList.map Token.kind = [.str (requoteBody raw) '"', .eof])) ∧
    (∀ name : String, '\n' ∉ name.toList → ∃ key kind,
      (tokenize (propertyKey name)).toList.map Token.kind = [kind, .eof] ∧ (kind = .ident key ∨ kind = .str key '"') ∧
      unescape key = unescape name ∧
      ∀ (schemas : Schemas) (budget : Nat) (bases : List String) (before after : List (String × Validator))
        (v : Validator) (members : List (String × Json)),
        acceptsWithin schemas (budget + 1) (.object bases (before ++ (name, v) :: after)) (some (.object members)) =
          (acceptsWithin schemas (budget + 1) (.object bases (before ++ after)) (some (.object members)) &&
            acceptsWithin schemas budget v (Json.member? members (unescape key)))) ∧
    ∀ text : String, (tokenize (quoteText text)).toList.map Token.kind = [.str (quoteBody text) '"', .eof] ∧
      unescape (quoteBody text) = text.map fun c => if c = '\n' ∨ c = '\r' then ' ' else c := by
  refine ⟨fun raw => ?_, fun name h => ?_, fun text => ?_⟩
  · refine ⟨unescape_requoteBody raw, requoteBody_requoteBody raw, fun h => ?_⟩
    exact kinds_of_spells (spells_requote h)
  · obtain ⟨key, hkind, hkey⟩ : ∃ key, (keyKind name = .ident key ∨ keyKind name = .str key '"') ∧
        unescape key = unescape name := by
      unfold keyKind
      split
      · exact ⟨name, .inl rfl, rfl⟩
      · exact ⟨requoteBody name, .inr rfl, unescape_requoteBody name⟩
    refine ⟨key, keyKind name, kinds_of_spells (spells_propertyKey h), hkind, hkey, ?_⟩
    intro schemas budget bases before after v members
    rw [hkey]
    exact acceptsWithin_field schemas budget bases before after name v members
  · exact ⟨kinds_of_spells (spells_quoteText text), unescape_quoteBody text⟩

/-- A backslash before a quote of its own, a bare quote and a backslash at the end. -/
theorem emitted_strings_stand_backslash :
    '\n' ∉ "p\\\"q\"\\".toList ∧
    (tokenize (requote "p\\\"q\"\\")).toList.map Token.kind = [.str "p\\\"q\\\"\\\\" '"', .eof] ∧
    (∃ key kind, (tokenize (propertyKey "p\\\"q\"\\")).toList.map Token.kind = [kind, .eof] ∧
      (kind = .ident key ∨ kind = .str key '"') ∧ unescape key = "p\"q\"\\") ∧
    unescape (quoteBody "a\r\n\"\\") = "a  \"\\" := by
  obtain ⟨hraw, hname, htext⟩ := emitted_strings_stand
  have hline : '\n' ∉ "p\\\"q\"\\".toList := by decide
  have hbody : requoteBody "p\\\"q\"\\" = "p\\\"q\\\"\\\\" := by cbv
  obtain ⟨key, kind, htokens, hkind, hkey, -⟩ := hname _ hline
  refine ⟨hline, ?_, ⟨key, kind, htokens, hkind, hkey.trans (by cbv)⟩, (htext _).2.trans (by cbv)⟩
  rw [(hraw _).2.2 hline, hbody]

end Validator

end TypeSchema
