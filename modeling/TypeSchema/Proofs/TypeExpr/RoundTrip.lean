import Mathlib
import TypeSchema.Proofs.TypeExpr.Printing

/-!
# Printing and reading back

When is the canonical text of an accepted expression read back as the same tree?  Exactly when its keys are stable and
its text has no more levels than are allowed (`parse_render_iff`).  Both can fail:

* a line feed ends a comment inside a key, and the collapsed key has none (`not_parse_render_comment`);
* `Array<T>` is printed with a suffix, and a run of suffixes counts every one of them.

The keys of an expression that was written on one line are stable (`parse_render_iff_of_line`).  Of the trees that need
not come from a text, all those are read back that are well-formed and have plain keys, within the levels
(`parse_render_iff_of_wellFormed`).
-/

namespace TypeSchema

namespace TypeExpr

open TypeSchema.Parser (isStableKey IsCanonicalKey)

/-! ## Printed expressions stand on one line -/

theorem newline_not_mem_of_isDotted {name : String} (h : IsDotted name) : '\n' ∉ name.toList := by
  obtain ⟨first, parts, hfirst, hparts, hname⟩ := h
  rw [hname, List.mem_append, List.mem_flatMap]
  rintro (hm | ⟨part, hpart, hm⟩)
  · exact Identifier.newline_not_mem_of_isIdentifier hfirst hm
  · rcases List.mem_cons.1 hm with hm | hm
    · exact absurd hm (by decide)
    · exact Identifier.newline_not_mem_of_isIdentifier (hparts part hpart) hm

theorem newline_not_mem_of_isKeyText {key : String} (h : IsKeyText key) : '\n' ∉ key.toList := by
  rw [← h.1, Text.collapse, String.toList_ofList]
  exact Text.newline_not_mem_collapseChars _

theorem newline_not_mem_intercalate {sep : List Char} (hsep : '\n' ∉ sep) {ws : List (List Char)}
    (h : ∀ w ∈ ws, '\n' ∉ w) : '\n' ∉ sep.intercalate ws := by
  induction ws with
  | nil => simp
  | cons w ws ih =>
    have hw := h w List.mem_cons_self
    have hws := ih fun v hv => h v (List.mem_cons_of_mem _ hv)
    cases ws with
    | nil => simpa using hw
    | cons v ws =>
      rw [List.intercalate_cons_cons]
      simp [hw, hsep, hws]

theorem newline_not_mem_renderTight {e : TypeExpr} (h : '\n' ∉ e.render.toList) : '\n' ∉ (renderTight e).toList := by
  unfold renderTight
  split
  · simpa using h
  · exact h

theorem newline_not_mem_of_inner {e : TypeExpr} (h : Inner IsKeyText e) : '\n' ∉ e.render.toList := by
  induction h with
  | primitive q => cases q <;> decide
  | @literal value quote hq hb =>
    have hv := Lexeme.newline_not_mem_quotedText hb
    rcases hq with rfl | rfl
    · simpa [render, StringLiteral.render] using hv
    · simpa [render, StringLiteral.render] using hv
  | reference hd _ => exact newline_not_mem_of_isDotted hd
  | array _ ih =>
    rw [Parser.render_array]
    simpa using newline_not_mem_renderTight ih
  | record hkey _ ih =>
    have hk := newline_not_mem_of_isKeyText hkey
    simp [render, hk, ih]
  | anyRecord => decide
  | @generic name es hd _ _ _ _ ih =>
    have hn := newline_not_mem_of_isDotted hd
    have hes : '\n' ∉ [',', ' '].intercalate (es.map fun e => e.render.toList) := by
      apply newline_not_mem_intercalate (by decide)
      intro w hw
      obtain ⟨e, he, rfl⟩ := List.mem_map.1 hw
      exact ih e he
    simp [render, renderAll_eq_map, Function.comp_def, hn, hes]
  | @union es _ _ ih =>
    have hes : '\n' ∉ [' ', '|', ' '].intercalate (es.map fun e => (renderTight e).toList) := by
      apply newline_not_mem_intercalate (by decide)
      intro w hw
      obtain ⟨e, he, rfl⟩ := List.mem_map.1 hw
      exact newline_not_mem_renderTight (ih e he)
    simp [render, renderBranches_eq_map, Function.comp_def, hes]

theorem newline_not_mem_render {e : TypeExpr} (h : WellFormed IsKeyText e) : '\n' ∉ e.render.toList := by
  cases h with
  | bare h => exact newline_not_mem_of_inner h
  | optional h => simpa [render] using newline_not_mem_of_inner h

/-! ## Round trips -/

/-- With stable keys, only the levels matter. -/
theorem parse_render_iff_levels {source : String} {e : TypeExpr} (h : parse source = .ok e)
    (hkeys : ∀ key ∈ e.keys, isStableKey key = true) : parse e.render = .ok e ↔ e.printedLevels ≤ maxNesting := by
  have hcanonical : WellFormed IsCanonicalKey e :=
    (wellFormed_of_parse h).mono fun key hm hk => ⟨hkeys key hm, hk.1⟩
  exact parse_eq_ok_iff_of_derives (Parser.derivesType_render hcanonical)

/-- **The canonical text of an accepted expression is read back as the same tree iff its keys are stable and its levels
are within the limit.** -/
theorem parse_render_iff {source : String} {e : TypeExpr} (h : parse source = .ok e) :
    parse e.render = .ok e ↔ (∀ key ∈ e.keys, isStableKey key = true) ∧ e.printedLevels ≤ maxNesting := by
  constructor
  · intro hback
    have hkeys := isStableKey_of_parse hback (newline_not_mem_render (wellFormed_of_parse h))
    exact ⟨hkeys, (parse_render_iff_levels h hkeys).1 hback⟩
  · rintro ⟨hkeys, hlevels⟩
    exact (parse_render_iff_levels h hkeys).2 hlevels

/-- A text with a key, a union and a question mark. -/
theorem parse_render_iff_union :
    parse "Record<K ,A|B>?" = .ok (.optional (.record "K" (.union [.reference "A", .reference "B"]))) ∧
    parse "Record<K, A | B>?" = .ok (.optional (.record "K" (.union [.reference "A", .reference "B"]))) := by
  have h : parse "Record<K ,A|B>?" =
      .ok (.optional (.record "K" (.union [.reference "A", .reference "B"]))) := by cbv
  refine ⟨h, (parse_render_iff h).2 ⟨?_, by decide⟩⟩
  intro key hkey
  obtain rfl := List.mem_singleton.1 hkey
  cbv

/-- In the collapsed key the comment goes on to the end of the text. -/
theorem not_parse_render_comment :
    parse "Record<a // c\n b, V>" = .ok (.record "a // c b" (.reference "V")) ∧
    (TypeExpr.record "a // c b" (.reference "V")).render = "Record<a // c b, V>" ∧
    parse "Record<a // c b, V>" ≠ .ok (.record "a // c b" (.reference "V")) := by
  refine ⟨by cbv, by decide, fun h => ?_⟩
  have hstable : isStableKey "a // c b" = true := isStableKey_of_parse h (by decide) _ List.mem_cons_self
  have hcomment : isStableKey "a // c b" = false := by cbv
  rw [hcomment] at hstable
  cases hstable

/-- On one line, only the levels matter. -/
theorem parse_render_iff_of_line {source : String} {e : TypeExpr} (h : parse source = .ok e)
    (hline : '\n' ∉ source.toList) : parse e.render = .ok e ↔ e.printedLevels ≤ maxNesting :=
  parse_render_iff_levels h (isStableKey_of_parse h hline)

/-! ## Trees of any origin -/

/-- The key has its blanks collapsed, and its tokens are those of a key, with no comment and no open lexeme among
them. -/
structure IsPlainKey (key : String) : Prop where
  collapsed : Text.collapse key = key
  ne_nil : (tokenize key).body ≠ []
  comments : ∀ t ∈ (tokenize key).body, t.kind.isComment = false
  closed : ∀ t ∈ (tokenize key).body, t.kind.isError = false
  key : Parser.isKey 0 (tokenize key).body = true

/-- A plain key is stable: no token of it is passed over. -/
theorem IsPlainKey.isCanonicalKey {key : String} (h : IsPlainKey key) : IsCanonicalKey key := by
  refine ⟨Parser.isStableKey_iff.2 ⟨h.closed, ?_, ?_, ?_⟩, h.collapsed⟩
  · obtain ⟨t, ts, hts⟩ := List.exists_cons_of_ne_nil h.ne_nil
    exact ⟨t, by rw [hts, List.head?_cons], h.comments t (by simp [hts])⟩
  · have hlast := List.getLast?_eq_some_getLast h.ne_nil
    exact ⟨_, hlast, h.comments _ (List.mem_of_getLast? hlast)⟩
  · have hall : Parser.significant (tokenize key).body = (tokenize key).body :=
      List.filter_eq_self.2 fun t ht => by simp [h.comments t ht]
    rw [hall]
    exact h.key

/-- **Printing is undone by reading**: the canonical text of any well-formed tree with plain keys is read back as the
tree iff its levels are within the limit. -/
theorem parse_render_iff_of_wellFormed {e : TypeExpr} (h : WellFormed IsPlainKey e) :
    parse e.render = .ok e ↔ e.printedLevels ≤ maxNesting := by
  have hcanonical : WellFormed IsCanonicalKey e := h.mono fun _ _ hk => hk.isCanonicalKey
  exact parse_eq_ok_iff_of_derives (Parser.derivesType_render hcanonical)

/-- A key with a comma in angles, a group before a suffix, an escaped quote and a record of anything. -/
theorem parse_render_iff_of_wellFormed_record :
    let e : TypeExpr := .optional (.union [.record "keyof F<A, B>" (.array (.union [.literal ⟨"it\\'s", '\''⟩,
      .primitive .null])), .generic "Array" [.reference "Api.User", .anyRecord]])
    WellFormed IsPlainKey e ∧ e.render = "Record<keyof F<A, B>, ('it\\'s' | null)[]> | Array<Api.User, Record<...>>?" ∧
      parse e.render = .ok e := by
  intro e
  have hclean : (tokenize "keyof F<A, B>").body.all (fun t => !t.kind.isComment && !t.kind.isError) = true := by cbv
  simp only [List.all_eq_true, Bool.and_eq_true, Bool.not_eq_true'] at hclean
  have hkey : IsPlainKey "keyof F<A, B>" := ⟨by cbv, of_decide_eq_true (by cbv), fun t ht => (hclean t ht).1,
    fun t ht => (hclean t ht).2, by cbv⟩
  have hquoted : Lexeme.QuotedText '\'' "it\\'s".toList :=
    .char (by decide) (by decide) (by decide) (.char (by decide) (by decide) (by decide) (.pair (by decide)
      (.char (by decide) (by decide) (by decide) .nil)))
  have huser : IsDotted "Api.User" := ⟨"Api".toList, ["User".toList], by decide, by decide, by decide⟩
  have hloose : Inner IsPlainKey (.union [.literal ⟨"it\\'s", '\''⟩, .primitive .null]) :=
    .union (by decide) (List.forall_mem_cons.2 ⟨.literal (.inr rfl) hquoted,
      List.forall_mem_singleton.2 (.primitive .null)⟩)
  have hpair : Inner IsPlainKey (.generic "Array" [.reference "Api.User", .anyRecord]) :=
    .generic (Parser.isDotted_of_isIdentifier (by decide)) (by decide) (by decide) (by simp)
      (List.forall_mem_cons.2 ⟨.reference huser (by decide), List.forall_mem_singleton.2 .anyRecord⟩)
  have h : WellFormed IsPlainKey e := .optional (.union (by decide) (List.forall_mem_cons.2
    ⟨.record hkey (.array hloose), List.forall_mem_singleton.2 hpair⟩))
  exact ⟨h, by decide, (parse_render_iff_of_wellFormed h).2 (by decide)⟩

end TypeExpr

end TypeSchema
