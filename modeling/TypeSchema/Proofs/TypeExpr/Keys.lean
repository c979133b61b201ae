import TypeSchema.Proofs.Lexing.Squeeze
import TypeSchema.Proofs.TypeExpr.Grammar

/-!
# Keys of records

A key is kept as its text with blanks collapsed.  It is read back as the same key iff it is *stable*: read as a text of
its own, it has no open lexeme, does not start or end with a comment, and its tokens are those of a key.

* `exists_key_of_stable`: a stable key before a comma is read as a key of that text;
* `isStableKey_of_keyText?`: in a text without line feeds, every key has a stable text.
-/

namespace TypeSchema

/-! ## Shapes -/

namespace TokenKind

theorem isComment_shape (kind : TokenKind) : kind.shape.isComment = kind.isComment := by cases kind <;> rfl

theorem isError_shape (kind : TokenKind) : kind.shape.isError = kind.isError := by cases kind <;> rfl

theorem isOpen_shape (kind : TokenKind) : kind.shape.isOpen = kind.isOpen := by cases kind <;> rfl

theorem isClose_shape (kind : TokenKind) : kind.shape.isClose = kind.isClose := by cases kind <;> rfl

theorem shape_eq_punct_iff {kind : TokenKind} {p : Punct} : kind.shape = .punct p ↔ kind = .punct p := by
  cases kind with
  | punct q => exact Iff.rfl
  | _ =>
    constructor
    · intro h
      cases h
    · intro h
      cases h

end TokenKind

namespace Parser

/-- The tokens that the parser does not pass over. -/
def significant (ts : List Token) : List Token := ts.filter fun t => !t.kind.isComment

theorem rest_ofText (source : String) : (ofText source).rest = significant (tokenize source).body := rfl

theorem significant_append (ts us : List Token) : significant (ts ++ us) = significant ts ++ significant us :=
  List.filter_append ..

/-- The shapes of a list of tokens. -/
def shapes (ts : List Token) : List TokenKind := ts.map fun t => t.kind.shape

theorem shapes_of_kinds {ts us : List Token} (h : ts.map Token.kind = us.map Token.kind) : shapes ts = shapes us := by
  have hmap := congrArg (List.map TokenKind.shape) h
  rwa [List.map_map, List.map_map] at hmap

theorem shapes_significant (ts : List Token) :
    shapes (significant ts) = (shapes ts).filter fun kind => !kind.isComment := by
  simp only [shapes, significant, List.filter_map]
  congr 1
  refine List.filter_congr fun t _ => ?_
  simp [TokenKind.isComment_shape]

/-- Whether tokens are a key depends on their shapes only. -/
theorem isKey_congr {ts us : List Token} (h : shapes ts = shapes us) (depth : Nat) :
    isKey depth ts = isKey depth us := by
  induction ts generalizing us depth with
  | nil =>
    cases us with
    | nil => rfl
    | cons u us => cases h
  | cons t ts ih =>
    cases us with
    | nil => cases h
    | cons u us =>
      obtain ⟨hk, hs⟩ := List.cons.inj h
      change t.kind.shape = u.kind.shape at hk
      have hcomma : t.isPunct .comma = u.isPunct .comma := by
        rw [Bool.eq_iff_iff, Token.isPunct, Token.isPunct, beq_iff_eq, beq_iff_eq, ← TokenKind.shape_eq_punct_iff, hk,
          TokenKind.shape_eq_punct_iff]
      have hclose : t.kind.isClose = u.kind.isClose := by
        rw [← TokenKind.isClose_shape, hk, TokenKind.isClose_shape]
      have hopen : t.kind.isOpen = u.kind.isOpen := by
        rw [← TokenKind.isOpen_shape, hk, TokenKind.isOpen_shape]
      rw [isKey, isKey, TokenKind.nesting, TokenKind.nesting, hcomma, hclose, hopen, ih hs]

/-! ## Stable keys -/

/-- Whether the text of a key, read on its own, is closed, starts and ends with no comment, and is a key. -/
def isStableKey (key : String) : Bool :=
  let ts := (tokenize key).body
  ts.all (fun t => !t.kind.isError) && ts.head?.any (fun t => !t.kind.isComment) &&
    ts.getLast?.any (fun t => !t.kind.isComment) && isKey 0 (significant ts)

/-- The same of the shapes of its tokens. -/
structure IsStable (ts : List Token) : Prop where
  closed : ∀ t ∈ ts, t.kind.isError = false
  first : ∃ t, ts.head? = some t ∧ t.kind.isComment = false
  last : ∃ t, ts.getLast? = some t ∧ t.kind.isComment = false
  key : isKey 0 (significant ts) = true

theorem isStableKey_iff {key : String} : isStableKey key = true ↔ IsStable (tokenize key).body := by
  simp only [isStableKey, Bool.and_eq_true, List.all_eq_true, Bool.not_eq_true', Option.any_eq_true]
  constructor
  · rintro ⟨⟨⟨h₁, h₂⟩, h₃⟩, h₄⟩
    exact ⟨h₁, h₂, h₃, h₄⟩
  · rintro ⟨h₁, h₂, h₃, h₄⟩
    exact ⟨⟨⟨h₁, h₂⟩, h₃⟩, h₄⟩

theorem IsStable.congr {ts us : List Token} (h : IsStable ts) (hs : shapes us = shapes ts) : IsStable us := by
  have hmem {t u : Token} (hk : u.kind.shape = t.kind.shape) : u.kind.isComment = t.kind.isComment := by
    rw [← TokenKind.isComment_shape, hk, TokenKind.isComment_shape]
  constructor
  · intro u hu
    have hshape : u.kind.shape ∈ shapes ts := hs ▸ List.mem_map_of_mem hu
    obtain ⟨t, ht, hk⟩ := List.mem_map.1 hshape
    rw [← TokenKind.isError_shape, ← hk, TokenKind.isError_shape]
    exact h.closed t ht
  · obtain ⟨t, ht, hc⟩ := h.first
    have hhead := congrArg List.head? hs
    rw [shapes, shapes, List.head?_map, List.head?_map, ht] at hhead
    obtain ⟨u, hu, hk⟩ := Option.map_eq_some_iff.1 hhead
    exact ⟨u, hu, by rw [hmem hk, hc]⟩
  · obtain ⟨t, ht, hc⟩ := h.last
    have hlast := congrArg List.getLast? hs
    rw [shapes, shapes, List.getLast?_map, List.getLast?_map, ht] at hlast
    obtain ⟨u, hu, hk⟩ := Option.map_eq_some_iff.1 hlast
    exact ⟨u, hu, by rw [hmem hk, hc]⟩
  · have hsig : shapes (significant us) = shapes (significant ts) := by
      rw [shapes_significant, hs, shapes_significant]
    rw [isKey_congr hsig]
    exact h.key

/-! ## Keys and their texts -/

theorem head?_significant {ts : List Token} {t : Token} (h : ts.head? = some t) (hc : t.kind.isComment = false) :
    (significant ts).head? = some t := by
  obtain ⟨us, rfl⟩ := List.head?_eq_some_iff.1 h
  simp [significant, hc]

theorem getLast?_significant {ts : List Token} {t : Token} (h : ts.getLast? = some t)
    (hc : t.kind.isComment = false) : (significant ts).getLast? = some t := by
  obtain ⟨us, rfl⟩ := List.getLast?_eq_some_iff.1 h
  simp [significant, hc]

/-- The text of a key is that from its first to its last token. -/
theorem keyText?_eq {source : String} {key : List Token} {first last : Token} (hf : key.head? = some first)
    (hl : key.getLast? = some last) :
    keyText? source key =
      let text := Text.collapse ((first.span.upTo last.span).text source)
      if text.isEmpty then none else some text := by
  rw [keyText?, hf, hl]

/-- No lexeme reaches into a comma, unless it is a comment. -/
theorem stops_comma {kind : TokenKind} (hk : kind.isComment = false) {rest : List Char}
    (hr : rest.head? = some ',') : Lexeme.Stops kind rest := by
  unfold Lexeme.Stops
  rw [hr]
  split
  · decide
  · intro c hc
    obtain rfl := Option.some.inj hc
    decide
  · intro c hc
    obtain rfl := Option.some.inj hc
    decide
  · cases hk
  · decide
  · trivial

/-- **A stable key is read back**: before a comma, its tokens are those of a key with this text. -/
theorem exists_key_of_stable {key : String} (h : isStableKey key = true) (hk : Text.collapse key = key)
    {rest : List Char} (hr : rest.head? = some ',') (p : Position) :
    ∃ ts, Lexer.Reads rest p key.toList ts ∧ isKey 0 (significant ts) = true ∧
      ∀ before source, source.toList = before ++ key.toList ++ rest → p = Position.origin.advance before →
        keyText? source (significant ts) = some key := by
  have hstable := isStableKey_iff.1 h
  have hlast : ∀ t ∈ (tokenize key).body.getLast?, Lexeme.Stops t.kind rest := by
    intro t ht
    obtain ⟨u, hu, hc⟩ := hstable.last
    obtain rfl : u = t := by rw [hu] at ht; exact Option.some.inj ht
    exact stops_comma hc hr
  obtain ⟨ts, hreads, hkinds⟩ := (Lexer.reads_tokenize key).replace hstable.closed hlast p
  have hts := hstable.congr (shapes_of_kinds hkinds)
  obtain ⟨first, hf, hfc⟩ := hts.first
  obtain ⟨last, hl, hlc⟩ := hts.last
  refine ⟨ts, hreads, hts.key, fun before source hs hp => ?_⟩
  obtain ⟨b, v, b', hw, hb, hb', -, -, -, hslice⟩ := hreads.exists_slice hf hl
  -- the slice is the whole key, which has no blanks at its ends
  have hchars : Text.collapseChars key.toList = key.toList := by
    have hlist := congrArg String.toList hk
    rwa [Text.collapse, String.toList_ofList] at hlist
  have hne : key.toList ≠ [] := by
    intro hnil
    rw [hnil] at hreads
    rw [hreads.eq_nil] at hf
    cases hf
  obtain ⟨rfl, rfl⟩ : b = [] ∧ b' = [] := by
    rw [hw] at hchars
    exact Text.eq_nil_of_collapsed hchars (hw ▸ hne) hb hb'
  rw [List.nil_append, List.append_nil] at hw
  rw [keyText?_eq (head?_significant hf hfc) (getLast?_significant hl hlc), hslice before source hs hp, ← hw,
    String.ofList_toList, hk]
  have hempty : key.isEmpty = false := by
    rw [Bool.eq_false_iff, Ne, String.isEmpty_iff]
    rintro rfl
    exact hne rfl
  exact if_neg (by rw [hempty]; exact Bool.false_ne_true)

/-! ## Keys of a text -/

/-- Tokens that are picked from a list stand in a stretch of it that starts and ends with one of them. -/
theorem exists_stretch {p : Token → Bool} {ts key : List Token} (h : ts.filter p = key) {first last : Token}
    (hf : key.head? = some first) (hl : key.getLast? = some last) :
    ∃ us vs ws, ts = us ++ vs ++ ws ∧ vs.filter p = key ∧ vs.head? = some first ∧ vs.getLast? = some last := by
  obtain ⟨init, rfl⟩ := List.getLast?_eq_some_iff.1 hl
  obtain ⟨xs, ys, rfl, hxs, hys⟩ := List.filter_eq_append_iff.1 h
  obtain ⟨ys₁, ys₂, rfl, hys₁, hlast, -⟩ := List.filter_eq_cons_iff.1 hys
  have hmid : (xs ++ ys₁ ++ [last]).filter p = init ++ [last] := by
    have hnone : ys₁.filter p = [] := List.filter_eq_nil_iff.2 hys₁
    simp [hxs, hnone, hlast]
  obtain ⟨key', hkey⟩ := List.head?_eq_some_iff.1 hf
  rw [hkey] at hmid
  obtain ⟨zs₁, zs₂, hz, hzs₁, hfirst, hzs₂⟩ := List.filter_eq_cons_iff.1 hmid
  refine ⟨zs₁, first :: zs₂, ys₂, ?_, ?_, rfl, ?_⟩
  · rw [← hz]
    simp
  · rw [hkey, List.filter_cons_of_pos hfirst, hzs₂]
  · have hzl : (zs₁ ++ first :: zs₂).getLast? = some last := by simp [← hz]
    simpa [List.getLast?_append, List.getLast?_cons] using hzl

/-- **In a text without line feeds every key has a stable text.** -/
theorem isStableKey_of_keyText? {source : String} (hn : '\n' ∉ source.toList) {before key after : List Token}
    {comma : Token} (hs : (ofText source).rest = before ++ key ++ comma :: after) (hkey : isKey 0 key = true)
    {text : String} (hk : keyText? source key = some text) : isStableKey text = true := by
  obtain ⟨first, last, hf, hl⟩ : ∃ first last, key.head? = some first ∧ key.getLast? = some last := by
    cases key with
    | nil => cases hk
    | cons t ts => exact ⟨t, _, rfl, List.getLast?_eq_some_getLast (by simp)⟩
  -- the stretch of tokens from the first to the last of the key, comments included
  rw [rest_ofText, significant, List.append_assoc] at hs
  obtain ⟨xs, ys, hbody, -, hys⟩ := List.filter_eq_append_iff.1 hs
  obtain ⟨ks, cs, rfl, hks, hcs⟩ := List.filter_eq_append_iff.1 hys
  obtain ⟨us, vs, ws, rfl, hvs, hvf, hvl⟩ := exists_stretch hks hf hl
  have hcs' : cs ≠ [] := by
    rintro rfl
    cases hcs
  -- the text of the stretch
  have hreads := Lexer.reads_tokenize source
  rw [hbody, show xs ++ (us ++ vs ++ ws ++ cs) = xs ++ us ++ (vs ++ (ws ++ cs)) by simp] at hreads
  obtain ⟨w₁, w₂₃, hsource, -, hreads⟩ := hreads.split
  obtain ⟨w₂, w₃, rfl, hreads, hreads'⟩ := hreads.split
  rw [List.append_nil] at hreads
  have hw₃ : w₃ ≠ [] := by
    rintro rfl
    have := hreads'.eq_nil
    simp [hcs'] at this
  obtain ⟨b, v, b', rfl, -, -, hv, hstart, hsuffix, hslice⟩ := hreads.exists_slice hvf hvl
  have hsource' : source.toList = w₁ ++ (b ++ v ++ b') ++ w₃ := by simp [hsource]
  have hn' : '\n' ∉ v ++ (b' ++ w₃) := by
    intro hm
    have hcut : source.toList = w₁ ++ b ++ (v ++ (b' ++ w₃)) := by simp [hsource]
    rw [hcut] at hn
    exact hn (List.mem_append_right _ hm)
  obtain ⟨hclosed, hsqueeze⟩ := hv.squeeze (by simp [hw₃]) hn'
  obtain ⟨ts, hts, hshapes⟩ := hsqueeze .origin
  -- its collapsed text is its squeezed text
  have hend : Text.endsWord v = true := by
    obtain ⟨u, rfl⟩ := hsuffix
    exact Text.endsWord_append (hclosed last (List.mem_of_getLast? hvl)).2 u
  have hcollapse : Text.collapseChars v = Text.squeeze v := Text.collapseChars_of_startsWord hstart hend
  have htext : text = String.ofList (Text.squeeze v) := by
    rw [keyText?_eq hf hl, hslice w₁ source hsource' rfl] at hk
    dsimp only at hk
    split at hk
    · cases hk
    · rw [← Option.some.inj hk, Text.collapse, String.toList_ofList, hcollapse]
  rw [htext, isStableKey_iff, Lexer.tokenize_of_reads hts]
  have hstable : IsStable vs := by
    have hcomment {t : Token} (ht : t ∈ key) : t.kind.isComment = false := by
      rw [← hvs] at ht
      simpa using (List.mem_filter.1 ht).2
    exact ⟨fun t ht => (hclosed t ht).1, ⟨first, hvf, hcomment (List.mem_of_head? hf)⟩,
      ⟨last, hvl, hcomment (List.mem_of_getLast? hl)⟩, by rw [significant, hvs]; exact hkey⟩
  exact hstable.congr hshapes

end Parser

end TypeSchema
