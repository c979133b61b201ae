import Mathlib
import TypeSchema.Program.Compile
import TypeSchema.Proofs.Validator.Unresolved

/-!
# What happens to types without a validator

Whether types without a validator are allowed does not change a program; it only decides whether there is one
(`ofRegistry_lenient`, `ofRegistry_strict_of_ok`).  `ofRegistry_policy` says when there is none, and with which error.
-/

namespace TypeSchema

namespace Program

/-- The error about the first expression without a validator in a schema. -/
def errorAbout (s : Schema) (expression : String) : Error where
  cause := .unresolved s.name expression
  context := some { declaration := some s.name, position := some (s.span.line, s.span.column) }

/-- The first of the schemas in which an expression lacks a validator, and the first such expression in it. -/
def FirstUnresolved (schemas : List Schema) (s : Schema) (expression : String) : Prop :=
  ∃ before after, schemas = before ++ s :: after ∧ (∀ t ∈ before, t.validator.Resolved) ∧
    s.validator.FirstUnresolved expression

theorem unresolvedError?_eq_none_iff {s : Schema} : unresolvedError? s = none ↔ s.validator.Resolved := by
  rw [unresolvedError?, Option.map_eq_none_iff, List.head?_eq_none_iff, Validator.unresolvedExpressions_eq_nil_iff]

theorem exists_of_unresolvedError? {s : Schema} {e : Error} (h : unresolvedError? s = some e) :
    ∃ expression, s.validator.FirstUnresolved expression ∧ e = errorAbout s expression := by
  obtain ⟨expression, hhead, rfl⟩ := Option.map_eq_some_iff.1 h
  exact ⟨expression, Validator.firstUnresolved_of_head? hhead, rfl⟩

theorem findSome?_unresolvedError?_eq_none_iff {schemas : List Schema} :
    schemas.findSome? unresolvedError? = none ↔ ∀ s ∈ schemas, s.validator.Resolved := by
  rw [List.findSome?_eq_none_iff]
  exact forall₂_congr fun s _ => unresolvedError?_eq_none_iff

theorem exists_of_findSome? {schemas : List Schema} {e : Error} (h : schemas.findSome? unresolvedError? = some e) :
    ∃ s expression, FirstUnresolved schemas s expression ∧ e = errorAbout s expression := by
  obtain ⟨before, s, after, hs, he, hbefore⟩ := List.findSome?_eq_some_iff.1 h
  obtain ⟨expression, hfirst, rfl⟩ := exists_of_unresolvedError? he
  exact ⟨s, expression, ⟨before, after, hs, fun t ht => unresolvedError?_eq_none_iff.1 (hbefore t ht), hfirst⟩, rfl⟩

section Policies

variable (c : Config) {r : Registry}

/-- If types without a validator are allowed, the program is the arranged one. -/
theorem ofRegistry_lenient : ofRegistry { c with unresolved := .lenient } r = arrange r c.order := by
  unfold ofRegistry
  cases arrange r c.order with
  | error e => rfl
  | ok p => rfl

theorem ofRegistry_strict_of_error {e : Error} (h : arrange r c.order = .error e) :
    ofRegistry { c with unresolved := .strict } r = .error e := by
  unfold ofRegistry
  rw [h]
  rfl

/-- If they are not allowed, it is the arranged one too, unless a schema has an error. -/
theorem ofRegistry_strict_of_ok {p : Program} (h : arrange r c.order = .ok p) :
    ofRegistry { c with unresolved := .strict } r =
      match p.schemas.findSome? unresolvedError? with
      | some e => .error e
      | none => .ok p := by
  unfold ofRegistry
  rw [h]
  simp only [bind, Except.bind]
  cases p.schemas.findSome? unresolvedError? <;> rfl

end Policies

/-- **The strict policy fails exactly on types without a validator, and changes nothing else.**  Where the lenient
policy fails, the strict one fails with the same error.  Where the lenient policy gives a program, the strict one gives
the same if and only if everything in it is resolved, and otherwise fails with the first expression without a validator
in the first schema that has one, at the place of its declaration. -/
theorem ofRegistry_policy (c : Config) (r : Registry) :
    (∀ e, ofRegistry { c with unresolved := .lenient } r = .error e →
      ofRegistry { c with unresolved := .strict } r = .error e) ∧
    ∀ p, ofRegistry { c with unresolved := .lenient } r = .ok p →
      (ofRegistry { c with unresolved := .strict } r = .ok p ↔ ∀ s ∈ p.schemas, s.validator.Resolved) ∧
      ((¬ ∀ s ∈ p.schemas, s.validator.Resolved) → ∃ s expression, FirstUnresolved p.schemas s expression ∧
        ofRegistry { c with unresolved := .strict } r = .error
          { cause := .unresolved s.name expression,
            context := some { declaration := some s.name, position := some (s.span.line, s.span.column) } }) := by
  rw [ofRegistry_lenient]
  refine ⟨fun e => ofRegistry_strict_of_error c, fun p hp => ?_⟩
  rw [ofRegistry_strict_of_ok c hp, ← findSome?_unresolvedError?_eq_none_iff]
  cases hf : p.schemas.findSome? unresolvedError? with
  | none => exact ⟨iff_of_true rfl rfl, fun h => absurd rfl h⟩
  | some e =>
    obtain ⟨s, expression, hfirst, rfl⟩ := exists_of_findSome? hf
    refine ⟨iff_of_false (fun h => by cases h) (fun h => by cases h), fun _ => ?_⟩
    exact ⟨s, expression, hfirst, rfl⟩

/-- Both interfaces have fields without a validator.  The second one comes first, as a base, and in it such an
expression stands deep inside a field, with another one behind it. -/
def deepFallback : Registry := ({} : Registry).addAll [
  .interface { name := "A", bases := ["B"], fields := [{ name := "x", type := "Promise<B>" }] },
  .interface
    { name := "B", bases := [],
      fields := [{ name := "y", type := "Record<string, (number | Missing[])[] | null>", description := some "d" },
        { name := "z", type := "Map<string, number>" }],
      span := ⟨30, 39, 2, 1⟩ }]

theorem ofRegistry_policy_deepFallback :
    ∃ p s, ofRegistry { order := .topological } deepFallback = .ok p ∧ FirstUnresolved p.schemas s "Missing" ∧
      ofRegistry { order := .topological, unresolved := .strict } deepFallback = .error
        { cause := .unresolved "B" "Missing",
          context := some { declaration := some "B", position := some (2, 1) } } := by
  obtain ⟨p, hp⟩ : ∃ p, ofRegistry { order := .topological } deepFallback = .ok p := ⟨⟨_, _⟩, by cbv⟩
  have hstrict : ofRegistry { order := .topological, unresolved := .strict } deepFallback = .error
      { cause := .unresolved "B" "Missing",
        context := some { declaration := some "B", position := some (2, 1) } } := by cbv
  obtain ⟨hiff, hfirst⟩ := (ofRegistry_policy { order := .topological } deepFallback).2 p hp
  obtain ⟨s, expression, hs, he⟩ := hfirst fun hall => by
    cases hstrict.symm.trans (hiff.2 hall)
  have hcause := congrArg Error.cause (Except.error.inj (hstrict.symm.trans he))
  obtain ⟨-, rfl⟩ := Cause.unresolved.inj hcause
  exact ⟨p, s, hp, hs, hstrict⟩

end Program

end TypeSchema
