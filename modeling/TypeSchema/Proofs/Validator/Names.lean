import Mathlib
import TypeSchema.Proofs.Validator.Conversion
import TypeSchema.Proofs.Validator.Unresolved

/-!
# Conversion keeps the names

`outerNodes` lists what stands in an expression, from left to right, the arguments of generics left out.  Its names and
generics are what conversion looks up.  What they are converted to are all the references and all the unresolved
expressions of the converted validator, in the same order (`named_convert`): stripping absence, leaving out branches and
letting a sole branch stand for its union neither lose nor move any of them.

* `references_convert`: the references are the declared names;
* `unresolvedExpressions_convert`: the unresolved expressions are the texts of the generics and of the other names.
-/

namespace TypeSchema

namespace TypeExpr

mutual

/-- The expression and what stands in it, parents before their children, from left to right.  What stands in the
arguments of a generic is left out. -/
def outerNodes : TypeExpr → List TypeExpr
  | primitive p => [primitive p]
  | literal l => [literal l]
  | reference name => [reference name]
  | array e => array e :: e.outerNodes
  | record key e => record key e :: e.outerNodes
  | anyRecord => [anyRecord]
  | generic name es => [generic name es]
  | union es => union es :: outerNodesAll es
  | optional e => optional e :: e.outerNodes

/-- What stands in a list of expressions. -/
def outerNodesAll : List TypeExpr → List TypeExpr
  | [] => []
  | e :: es => e.outerNodes ++ outerNodesAll es

end

/-- The name, if the expression is one. -/
def name? : TypeExpr → Option String
  | reference name => some name
  | _ => none

/-- Whether the expression has no validator: it is a generic, or a name that is not known. -/
def isUnresolved (known : String → Bool) : TypeExpr → Bool
  | reference name => !known name
  | generic _ _ => true
  | _ => false

/-- Whether the expression is a name or a generic. -/
def isNamed : TypeExpr → Bool
  | reference _ | generic _ _ => true
  | _ => false

/-- The names and generics of an expression that stand in no other generic. -/
def named (e : TypeExpr) : List TypeExpr := e.outerNodes.filter isNamed

theorem outerNodesAll_eq_flatMap (es : List TypeExpr) : outerNodesAll es = es.flatMap outerNodes := by
  induction es with
  | nil => rfl
  | cons e es ih => rw [outerNodesAll, ih, List.flatMap_cons]

theorem named_union (es : List TypeExpr) : (union es).named = es.flatMap named := by
  rw [named, outerNodes, List.filter_cons_of_neg (by simp [isNamed]), outerNodesAll_eq_flatMap, List.filter_flatMap]
  rfl

/-- Branches for absence hold no names. -/
theorem flatMap_named_present (es : List TypeExpr) : (present es).flatMap named = es.flatMap named := by
  induction es with
  | nil => rfl
  | cons e es ih =>
    by_cases he : e.isAbsent
    · have hnone : e.named = [] := by
        cases e with
        | primitive p => rfl
        | _ => cases he
      rw [present, List.filter_cons_of_neg (by simp [he]), List.flatMap_cons, hnone, List.nil_append]
      exact ih
    · rw [present, List.filter_cons_of_pos (by simp [he]), List.flatMap_cons, List.flatMap_cons]
      exact congrArg (e.named ++ ·) ih

end TypeExpr

namespace Validator

open TypeExpr (present)

/-! ## The names of a validator -/

/-- Whether the validator itself refers to declarations, or stands for an unresolved expression. -/
def isNamed : Validator → Bool
  | reference _ | object _ _ | unresolved _ => true
  | _ => false

/-- What in a validator refers to declarations or is unresolved, parents before their children, from left to right. -/
def named (v : Validator) : List Validator := v.walk.filter isNamed

section Parts

variable (v : Validator)

theorem named_of_not_isNamed {v : Validator} (h : v.isNamed = false) : v.named = v.parts.flatMap named := by
  rw [named, walk_eq, List.filter_cons_of_neg (by simp [h]), List.filter_flatMap]
  rfl

theorem named_array : (array v).named = v.named := by
  rw [named_of_not_isNamed rfl, parts, List.flatMap_singleton]

theorem named_record : (record v).named = v.named := by
  rw [named_of_not_isNamed rfl, parts, List.flatMap_singleton]

theorem named_optional : (optional v).named = v.named := by
  rw [named_of_not_isNamed rfl, parts, List.flatMap_singleton]

theorem named_union (vs : List Validator) : (union vs).named = vs.flatMap named := named_of_not_isNamed rfl

theorem named_orAbsent : v.orAbsent.named = v.named := by
  unfold orAbsent
  split
  · rfl
  · exact v.named_optional

theorem named_orAbsentIf (absent : Bool) : (v.orAbsentIf absent).named = v.named := by
  cases absent with
  | false => rfl
  | true => exact v.named_orAbsent

/-- The references of a validator are those of what is named in it. -/
theorem references_eq_named : v.references = (v.named.flatMap ownReferences).eraseDups := by
  have hnone (w : Validator) (h : w.isNamed = false) : w.ownReferences = [] := by
    cases w with
    | reference | object => cases h
    | _ => rfl
  rw [references, named]
  congr 1
  induction v.walk with
  | nil => rfl
  | cons w ws ih =>
    cases hw : w.isNamed with
    | true => rw [List.filter_cons_of_pos hw, List.flatMap_cons, List.flatMap_cons, ih]
    | false => rw [List.filter_cons_of_neg (by simp [hw]), List.flatMap_cons, hnone w hw, List.nil_append, ih]

/-- The unresolved expressions of a validator are those of what is named in it. -/
theorem unresolvedExpressions_eq_named : v.unresolvedExpressions = v.named.filterMap ownUnresolved? := by
  rw [unresolvedExpressions, named, List.filterMap_filter]
  refine List.filterMap_congr fun w _ => ?_
  cases w <;> rfl

end Parts

/-! ## The names of a converted expression -/

section Conversion

variable (known : String → Bool)

/-- A name is looked up once, and a generic never. -/
theorem named_convert_of_isNamed {e : TypeExpr} (h : e.isNamed = true) :
    (convert known e false).named = [convert known e false] := by
  cases e with
  | reference name =>
    rw [convert_reference]
    split <;> rfl
  | generic => rfl
  | _ => cases h

/-- **Conversion keeps names and generics**, in their order: what refers to declarations or is unresolved in a
converted expression is what its names and generics are converted to. -/
theorem named_convert (e : TypeExpr) :
    (convert known e false).named = e.named.map (convert known · false) := by
  cases e with
  | primitive | literal | anyRecord => rfl
  | reference | generic => exact named_convert_of_isNamed known rfl
  | array e =>
    rw [convert_array, named_array, named_convert e]
    rfl
  | record key e =>
    rw [convert_record, named_record, named_convert e]
    rfl
  | optional e =>
    rw [convert_optional, named_orAbsent, named_convert e]
    rfl
  | union es =>
    have hbranches {ks : List TypeExpr} (hks : ∀ k ∈ ks, sizeOf k < sizeOf es) :
        (union (ks.map (convert known · false))).named = (ks.flatMap TypeExpr.named).map (convert known · false) := by
      rw [named_union, List.flatMap_map, List.map_flatMap]
      exact List.flatMap_congr fun k hk => have := hks k hk; named_convert k
    have hsize {k : TypeExpr} (hk : k ∈ present es) : sizeOf k < sizeOf es :=
      List.sizeOf_lt_of_mem (TypeExpr.mem_present.1 hk).1
    rw [TypeExpr.named_union, ← TypeExpr.flatMap_named_present]
    match hes : present es with
    | [] =>
      rw [convert_union_absent known hes, hbranches fun k hk => List.sizeOf_lt_of_mem hk,
        ← TypeExpr.flatMap_named_present, hes]
    | [k] =>
      have hk : sizeOf k < sizeOf es := hsize (hes ▸ List.mem_singleton.2 rfl)
      rw [convert_union_sole known hes, named_orAbsentIf, List.flatMap_singleton]
      -- a sole branch that is a union itself has all its branches converted
      cases hunion : k.isUnion with
      | false => rw [lower_of_not_union known hunion, named_convert k]
      | true =>
        obtain ⟨ks, rfl⟩ := TypeExpr.exists_of_isUnion hunion
        have hks {k : TypeExpr} (hk' : k ∈ ks) : sizeOf k < sizeOf es := by
          have := List.sizeOf_lt_of_mem hk'
          simp only [TypeExpr.union.sizeOf_spec] at hk
          omega
        rw [lower_union, hbranches fun k hk => hks hk, TypeExpr.named_union]
    | k :: k' :: ks =>
      rw [convert_union_several known (by rw [hes]; simp), named_orAbsentIf, hbranches fun k hk => hsize hk, hes]
termination_by sizeOf e
decreasing_by all_goals simp_wf <;> omega

/-! ## References and unresolved expressions -/

/-- The names of an expression are among what is named in it. -/
theorem filterMap_name?_eq_named (e : TypeExpr) :
    e.outerNodes.filterMap TypeExpr.name? = e.named.filterMap TypeExpr.name? := by
  rw [TypeExpr.named, List.filterMap_filter]
  refine List.filterMap_congr fun n _ => ?_
  cases n <;> rfl

theorem filter_isUnresolved_eq_named (e : TypeExpr) :
    e.outerNodes.filter (TypeExpr.isUnresolved known) = e.named.filter (TypeExpr.isUnresolved known) := by
  rw [TypeExpr.named, List.filter_filter]
  refine List.filter_congr fun n _ => ?_
  cases n <;> simp [TypeExpr.isUnresolved, TypeExpr.isNamed]

/-- **The references of a converted expression** are its declared names outside of generics, each once, in order. -/
theorem references_convert (e : TypeExpr) (optional : Bool) :
    (convert known e optional).references = ((e.outerNodes.filterMap TypeExpr.name?).filter known).eraseDups := by
  have hown (n : TypeExpr) (hn : n ∈ e.named) :
      (convert known n false).ownReferences = (n.name?.filter known).toList := by
    cases n with
    | reference name =>
      rw [convert_reference]
      cases hk : known name <;> simp [ownReferences, TypeExpr.name?, Option.filter, hk]
    | generic => rfl
    | _ => cases (List.mem_filter.1 hn).2
  rw [convert_eq_orAbsentIf, references_eq_named, named_orAbsentIf, named_convert, List.flatMap_map,
    List.flatMap_congr hown, filterMap_name?_eq_named, List.filter_filterMap, List.filterMap_eq_flatMap_toList]

/-- **The unresolved expressions of a converted expression** are the texts of its generics and of its other names, from
left to right. -/
theorem unresolvedExpressions_convert (e : TypeExpr) (optional : Bool) :
    (convert known e optional).unresolvedExpressions =
      (e.outerNodes.filter (TypeExpr.isUnresolved known)).map TypeExpr.render := by
  have hown (n : TypeExpr) (hn : n ∈ e.named) : (convert known n false).ownUnresolved? =
      if n.isUnresolved known then some n.render else none := by
    cases n with
    | reference name =>
      rw [convert_reference]
      cases hk : known name <;> simp [ownUnresolved?, TypeExpr.isUnresolved, TypeExpr.render, hk]
    | generic => rfl
    | _ => cases (List.mem_filter.1 hn).2
  rw [convert_eq_orAbsentIf, unresolvedExpressions_eq_named, named_orAbsentIf, named_convert, List.filterMap_map,
    filter_isUnresolved_eq_named, ← List.filterMap_eq_map, List.filterMap_filter]
  exact List.filterMap_congr hown

end Conversion

/-- **Conversion loses and invents no name.**  A converted expression refers to its declared names outside of generics,
each once, and its unresolved expressions are its outermost generics and undeclared names as they are printed, both from
left to right.  A text that is no expression refers to nothing, and is unresolved as a whole. -/
theorem convert_keeps_names (r : Registry) (optional : Bool) :
    (∀ e : TypeExpr,
      (convert r.contains e optional).references =
        ((e.outerNodes.filterMap TypeExpr.name?).filter r.contains).eraseDups ∧
      (convert r.contains e optional).unresolvedExpressions =
        (e.outerNodes.filter (TypeExpr.isUnresolved r.contains)).map TypeExpr.render) ∧
    ∀ text error, TypeExpr.parse text = .error error →
      (ofText r text optional).references = [] ∧
        (ofText r text optional).unresolvedExpressions = [Text.collapse text] := by
  refine ⟨fun e => ⟨references_convert r.contains e optional, unresolvedExpressions_convert r.contains e optional⟩, ?_⟩
  intro text error he
  have hwhole : ofText r text optional = (unresolved (Text.collapse text)).orAbsentIf optional := by rw [ofText, he]
  rw [hwhole, references_eq_named, unresolvedExpressions_eq_named, named_orAbsentIf]
  exact ⟨rfl, rfl⟩

/-- An alias and an enum. -/
def aliasAndEnum : Registry := ({} : Registry).addAll [
  .typeAlias { name := "A", type := "string" }, .enum { name := "E", values := ["x"] }]

/-- `(E | P<A> | null)[] | undefined | Record<K, N.C> | A | E` -/
def mixedNames : TypeExpr := .union [
  .array (.union [.reference "E", .generic "P" [.reference "A"], .primitive .null]), .primitive .undefined,
  .record "K" (.reference "N.C"), .reference "A", .reference "E"]

theorem convert_keeps_names_mixed :
    (convert aliasAndEnum.contains mixedNames false).references = ["E", "A"] ∧
    (convert aliasAndEnum.contains mixedNames false).unresolvedExpressions = ["P<A>", "N.C"] ∧
    (ofText aliasAndEnum "A  &\n E" false).references = [] ∧
    (ofText aliasAndEnum "A  &\n E" false).unresolvedExpressions = ["A & E"] := by
  obtain ⟨htree, htext⟩ := convert_keeps_names aliasAndEnum false
  obtain ⟨error, he⟩ : ∃ error, TypeExpr.parse "A  &\n E" = .error error := ⟨_, by cbv⟩
  obtain ⟨hreferences, hunresolved⟩ := htree mixedNames
  obtain ⟨hnone, hwhole⟩ := htext _ error he
  have hcollapse : Text.collapse "A  &\n E" = "A & E" := by cbv
  rw [hreferences, hunresolved, hnone, hwhole, hcollapse]
  refine ⟨by decide +kernel, by decide +kernel, rfl, rfl⟩

end Validator

end TypeSchema
