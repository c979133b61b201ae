import Mathlib
import TypeSchema.Proofs.TypeExpr.Agreement
import TypeSchema.Validator.Convert

/-!
# Spacing and comments leave no trace in validators

Two validators that are the same up to the texts of their unresolved expressions `Resemble` each other.  Expressions
that match are converted to such validators (`resembles_convert`): keys are not converted, and they only show in the
texts of generics.  Since reading a type depends on kinds of tokens only, texts that have the same tokens apart from
comments are read the same and have validators that resemble each other (`resembles_ofText`).
-/

namespace TypeSchema

namespace Validator

mutual

/-- The validator with its unresolved expressions taken out. -/
def withoutExpressions : Validator → Validator
  | primitive p => primitive p
  | literal l => literal l
  | array v => array v.withoutExpressions
  | record v => record v.withoutExpressions
  | union vs => union (withoutExpressionsAll vs)
  | enum values => enum values
  | object bases fields => object bases (withoutExpressionsFields fields)
  | reference name => reference name
  | unresolved _ => unresolved ""
  | optional v => optional v.withoutExpressions
  | described v text => described v.withoutExpressions text

/-- The branches with their unresolved expressions taken out. -/
def withoutExpressionsAll : List Validator → List Validator
  | [] => []
  | v :: vs => v.withoutExpressions :: withoutExpressionsAll vs

/-- The fields with their unresolved expressions taken out. -/
def withoutExpressionsFields : List (String × Validator) → List (String × Validator)
  | [] => []
  | (name, v) :: fields => (name, v.withoutExpressions) :: withoutExpressionsFields fields

end

theorem withoutExpressionsAll_eq_map (vs : List Validator) : withoutExpressionsAll vs = vs.map withoutExpressions := by
  induction vs with
  | nil => rfl
  | cons v vs ih => rw [withoutExpressionsAll, ih, List.map_cons]

theorem withoutExpressionsFields_eq_map (fields : List (String × Validator)) :
    withoutExpressionsFields fields = fields.map fun f => (f.1, f.2.withoutExpressions) := by
  induction fields with
  | nil => rfl
  | cons f fields ih => rw [withoutExpressionsFields, ih, List.map_cons]

/-- The two validators are the same up to the texts of their unresolved expressions. -/
def Resembles (v w : Validator) : Prop := v.withoutExpressions = w.withoutExpressions

theorem isOptional_withoutExpressions (v : Validator) : v.withoutExpressions.isOptional = v.isOptional := by
  cases v with
  | described v text => exact isOptional_withoutExpressions v
  | _ => rfl

section Absence

variable (v : Validator)

theorem withoutExpressions_orAbsent : v.orAbsent.withoutExpressions = v.withoutExpressions.orAbsent := by
  unfold orAbsent
  rw [isOptional_withoutExpressions]
  split <;> rfl

theorem withoutExpressions_orAbsentIf (absent : Bool) :
    (v.orAbsentIf absent).withoutExpressions = v.withoutExpressions.orAbsentIf absent := by
  cases absent with
  | false => rfl
  | true => exact v.withoutExpressions_orAbsent

end Absence

end Validator

/-! ## Keys are not converted -/

namespace TypeExpr

theorem isAbsent_withoutKeys (e : TypeExpr) : e.withoutKeys.isAbsent = e.isAbsent := by cases e <;> rfl

theorem withoutKeysAll_eq_map (es : List TypeExpr) : withoutKeysAll es = es.map withoutKeys := by
  induction es with
  | nil => rfl
  | cons e es ih => rw [withoutKeysAll, ih, List.map_cons]

theorem isOptional_withoutKeys (e : TypeExpr) : e.withoutKeys.isOptional = e.isOptional := by
  have habsent : isAbsent ∘ withoutKeys = isAbsent := funext isAbsent_withoutKeys
  cases e with
  | union es => rw [withoutKeys, withoutKeysAll_eq_map, isOptional, isOptional, List.any_map, List.all_map, habsent]
  | _ => rfl

end TypeExpr

namespace Validator

open TypeExpr (withoutKeysAll Matches)

section Conversion

variable (known : String → Bool)

theorem presentBranches_withoutKeysAll (es : List TypeExpr) :
    presentBranches (withoutKeysAll es) = presentBranches es := by
  rw [TypeExpr.withoutKeysAll_eq_map, presentBranches, List.countP_map]
  exact List.countP_congr fun e _ => by rw [Function.comp_apply, TypeExpr.isAbsent_withoutKeys]

mutual

theorem withoutExpressions_lower (strip : Bool) : ∀ e : TypeExpr,
    (lower known strip e.withoutKeys).withoutExpressions = (lower known strip e).withoutExpressions
  | .primitive _ => rfl
  | .literal _ => rfl
  | .reference _ => rfl
  | .anyRecord => rfl
  | .generic _ _ => rfl
  | .array e => by
    simp only [TypeExpr.withoutKeys, lower, withoutExpressions, withoutExpressions_orAbsentIf,
      TypeExpr.isOptional_withoutKeys, withoutExpressions_lower true e]
  | .record _ e => by
    simp only [TypeExpr.withoutKeys, lower, withoutExpressions, withoutExpressions_orAbsentIf,
      TypeExpr.isOptional_withoutKeys, withoutExpressions_lower true e]
  | .optional e => by
    rw [TypeExpr.withoutKeys, lower, lower]
    split
    · exact withoutExpressions_lower true e
    · rw [withoutExpressions_orAbsent, withoutExpressions_lower true e, withoutExpressions_orAbsent]
  | .union es => by
    rw [TypeExpr.withoutKeys, lower, lower, presentBranches_withoutKeysAll]
    split
    · split
      · exact congrArg union (withoutExpressions_lowerAll es)
      · exact withoutExpressions_lowerSole es
      · exact congrArg union (withoutExpressions_lowerPresent es)
    · exact congrArg union (withoutExpressions_lowerAll es)

theorem withoutExpressions_lowerAll : ∀ es : List TypeExpr,
    withoutExpressionsAll (lowerAll known (withoutKeysAll es)) = withoutExpressionsAll (lowerAll known es)
  | [] => rfl
  | e :: es => by
    simp only [withoutKeysAll, lowerAll, withoutExpressionsAll, withoutExpressions_orAbsentIf,
      TypeExpr.isOptional_withoutKeys, withoutExpressions_lower true e, withoutExpressions_lowerAll es]

theorem withoutExpressions_lowerPresent : ∀ es : List TypeExpr,
    withoutExpressionsAll (lowerPresent known (withoutKeysAll es)) = withoutExpressionsAll (lowerPresent known es)
  | [] => rfl
  | e :: es => by
    rw [withoutKeysAll, lowerPresent, lowerPresent, TypeExpr.isAbsent_withoutKeys]
    split
    · exact withoutExpressions_lowerPresent es
    · simp only [withoutExpressionsAll, withoutExpressions_orAbsentIf, TypeExpr.isOptional_withoutKeys,
        withoutExpressions_lower true e, withoutExpressions_lowerPresent es]

theorem withoutExpressions_lowerSole : ∀ es : List TypeExpr,
    (lowerSole known (withoutKeysAll es)).withoutExpressions = (lowerSole known es).withoutExpressions
  | [] => rfl
  | e :: es => by
    rw [withoutKeysAll, lowerSole, lowerSole, TypeExpr.isAbsent_withoutKeys]
    split
    · exact withoutExpressions_lowerSole es
    · exact withoutExpressions_lower false e

end

theorem withoutExpressions_convert (e : TypeExpr) (optional : Bool) :
    (convert known e.withoutKeys optional).withoutExpressions = (convert known e optional).withoutExpressions := by
  rw [convert, convert, TypeExpr.isOptional_withoutKeys, withoutExpressions_orAbsentIf, withoutExpressions_lower,
    withoutExpressions_orAbsentIf]

/-- **Expressions that match have validators that resemble each other.** -/
theorem resembles_convert {e f : TypeExpr} (h : Matches e f) (optional : Bool) :
    Resembles (convert known e optional) (convert known f optional) := by
  rw [Resembles, ← withoutExpressions_convert, h, withoutExpressions_convert]

end Conversion

/-- Texts that are read the same have validators that resemble each other. -/
theorem resembles_ofText {s t : String} (h : TypeExpr.SameReading (TypeExpr.parse s) (TypeExpr.parse t)) (r : Registry)
    (optional : Bool) : Resembles (ofText r s optional) (ofText r t optional) := by
  unfold ofText
  cases hs : TypeExpr.parse s with
  | ok e =>
    cases ht : TypeExpr.parse t with
    | ok f =>
      rw [hs, ht] at h
      exact resembles_convert r.contains h optional
    | error => rw [hs, ht] at h; exact h.elim
  | error =>
    cases ht : TypeExpr.parse t with
    | ok => rw [hs, ht] at h; exact h.elim
    | error =>
      dsimp only
      rw [Resembles, withoutExpressions_orAbsentIf, withoutExpressions_orAbsentIf]
      rfl

end Validator

/-! ## Texts with the same tokens -/

/-- The kinds of the tokens of a text, the end of input included, without comments of either sort. -/
def significantKinds (text : String) : List TokenKind :=
  ((tokenize text).without TokenKind.isComment).toList.map Token.kind

/-- Parsers of texts with the same tokens, comments aside, are alike. -/
theorem Parser.alike_ofText {s t : String} (h : significantKinds s = significantKinds t) :
    Alike (s, t) (.ofText s) (.ofText t) := by
  simp only [significantKinds, Tokens.toList, List.map_append] at h
  exact ⟨List.append_cancel_right h, rfl, rfl, rfl, hasTexts_of_sublist List.filter_sublist,
    hasTexts_of_sublist List.filter_sublist⟩

/-- **Spacing and comments do not matter to types.**  Two texts with the same tokens, comments aside, are both read as
the same tree up to the keys of records, or both rejected with the same message; and their validators are the same up to
the texts of unresolved expressions. -/
theorem Validator.ofText_of_kinds {s t : String} (h : significantKinds s = significantKinds t) :
    TypeExpr.SameReading (TypeExpr.parse s) (TypeExpr.parse t) ∧
      ∀ (r : Registry) (optional : Bool), Resembles (ofText r s optional) (ofText r t optional) := by
  have hreading := Parser.sameReading_run (Parser.alike_ofText h)
  exact ⟨hreading, fun r optional => resembles_ofText hreading r optional⟩

namespace Validator

/-- A type without blanks. -/
def tightText : String := "P<Record<a.b,E>>|'x'"

/-- The same type with blanks, and with comments of both sorts, one of them in the key of the record. -/
def looseText : String := "P<Record /** d */ < a /* , */ .\nb , E>> |\t'x' // end"

theorem ofText_of_kinds_commented :
    TypeExpr.parse tightText =
      .ok (.union [.generic "P" [.record "a.b" (.reference "E")], .literal ⟨"x", '\''⟩]) ∧
    TypeExpr.parse looseText =
      .ok (.union [.generic "P" [.record "a /* , */ . b" (.reference "E")], .literal ⟨"x", '\''⟩]) ∧
    TypeExpr.SameReading (TypeExpr.parse tightText) (TypeExpr.parse looseText) ∧
    Resembles (ofText {} tightText true) (ofText {} looseText true) := by
  have hkinds : significantKinds tightText = significantKinds looseText := by cbv
  obtain ⟨hreading, hvalidators⟩ := ofText_of_kinds hkinds
  exact ⟨by cbv, by cbv, hreading, hvalidators {} true⟩

end Validator

end TypeSchema
