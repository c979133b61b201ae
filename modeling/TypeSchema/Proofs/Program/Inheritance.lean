import Mathlib.Data.Fintype.Card
import Mathlib.Data.Set.Finite.List
import Mathlib.Logic.Relation
import TypeSchema.Proofs.Program.Edits
import TypeSchema.Proofs.Validator.Passing

/-!
# Inheritance flattens

An interface extends those of its bases that are interfaces themselves (`Registry.Extends`).  In a program it refers to
their schemas by name.

* `rule_interface_iff`: what one interface asks of a value is that it is an object, that it passes in the bases, and that
  its members pass in the own fields;
* `acc_of_acceptsWithin`, `passes_of_acc`: something passes only if the bases come to an end, and then own and inherited
  fields are all that counts;
* `not_reachesCircle_of_acc`, `acc_of_not_reachesCircle`: since there are finitely many interfaces, the bases come to an
  end exactly if they reach no circle;
* `passes_interface`: what passes in an interface, both without a circle and with one.
-/

namespace TypeSchema

namespace Registry

/-- The interface of a name extends another interface. -/
def Extends (r : Registry) (name base : String) : Prop :=
  ∃ i, r.interfaces.get? name = some i ∧ base ∈ i.bases ∧ base ∈ r.interfaces.names

theorem Extends.mem_names {r : Registry} {name base : String} (h : r.Extends name base) : base ∈ r.interfaces.names := by
  obtain ⟨-, -, -, hb⟩ := h
  exact hb

theorem Extends.exists_base {r : Registry} {name base : String} (h : r.Extends name base) :
    ∃ j, r.interfaces.get? base = some j := Table.mem_names_iff_get?.1 h.mem_names

/-- The field belongs to the interface of a name or to one that it extends, directly or not. -/
def Inherits (r : Registry) (name : String) (f : Field) : Prop :=
  ∃ base i, Relation.ReflTransGen r.Extends name base ∧ r.interfaces.get? base = some i ∧ f ∈ i.fields

/-- The interface of a name, or one that it extends, directly or not, extends itself. -/
def ReachesCircle (r : Registry) (name : String) : Prop :=
  ∃ base, Relation.ReflTransGen r.Extends name base ∧ Relation.TransGen r.Extends base base

end Registry

namespace Program

open Validator (Passes ofInterface ofField acceptsWithin)

variable {r : Registry} {name : String} {i : Interface} {x : Option Json}

/-! ## The schema of an interface -/

/-- The name of an interface stands for it, whatever else is declared under this name. -/
theorem validator?_interface (h : r.interfaces.get? name = some i) :
    (assemble r).validator? name = some (ofInterface r i) := by
  have hkind := Registry.kindOf?_eq_interface_iff.2 (Table.mem_names_iff_get?.2 ⟨i, h⟩)
  simp [validator?, get?_assemble, Registry.declared?, hkind, h, schema?]

/-- **One level of inheritance.**  What an interface asks of a value, if `P` says what passes below. -/
theorem rule_interface_iff {P : Validator → Option Json → Prop} (h : r.interfaces.get? name = some i) :
    Validator.Rule (assemble r).validator? P (ofInterface r i) x ↔
      ∃ members, x = some (.object members) ∧
        (∀ base, r.Extends name base → ∃ j, r.interfaces.get? base = some j ∧ P (ofInterface r j) x) ∧
        ∀ f ∈ i.fields, P (ofField r f) (Json.member? members (Text.unescape f.name)) := by
  have hbase (base : String) : r.Extends name base ↔ base ∈ i.bases.filter r.interfaces.contains := by
    rw [List.mem_filter, Table.contains_iff, Registry.Extends, h]
    simp
  rw [ofInterface, Validator.Rule]
  refine exists_congr fun members => and_congr_right fun _ => and_congr ?_ ?_
  · refine forall_congr' fun base => ?_
    rw [hbase]
    refine forall_congr' fun hb => ?_
    obtain ⟨j, hj⟩ := ((hbase base).2 hb).exists_base
    simp [validator?_interface hj, hj]
  · simp

/-! ## Bases that come to an end -/

/-- Only an interface whose bases come to an end lets anything pass. -/
theorem acc_of_acceptsWithin {n : Nat} (h : r.interfaces.get? name = some i)
    (hx : acceptsWithin (assemble r).validator? n (ofInterface r i) x = true) : Acc (Function.swap r.Extends) name := by
  induction n generalizing name i with
  | zero => cases hx
  | succ n ih =>
    rw [Validator.acceptsWithin_succ_iff, rule_interface_iff h] at hx
    obtain ⟨members, -, hbases, -⟩ := hx
    refine Acc.intro name fun base hb => ?_
    obtain ⟨j, hj, hx⟩ := hbases base hb
    exact ih hj hx

/-- If the bases come to an end, an object whose members pass in all own and inherited fields passes. -/
theorem passes_of_acc {members : List (String × Json)} (hacc : Acc (Function.swap r.Extends) name)
    (h : r.interfaces.get? name = some i)
    (hfields : ∀ f, r.Inherits name f →
      (ofField r f).Passes (assemble r).validator? (Json.member? members (Text.unescape f.name))) :
    (ofInterface r i).Passes (assemble r).validator? (some (.object members)) := by
  induction hacc generalizing i with
  | intro name _ ih =>
    rw [Validator.passes_iff, rule_interface_iff h]
    refine ⟨members, rfl, fun base hb => ?_, fun f hf => hfields f ⟨name, i, .refl, h, hf⟩⟩
    obtain ⟨j, hj⟩ := hb.exists_base
    refine ⟨j, hj, ih base hb hj fun f hf => ?_⟩
    obtain ⟨origin, k, hreach, hk, hf⟩ := hf
    exact hfields f ⟨origin, k, .head hb hreach, hk, hf⟩

/-- What passes in an interface passes in those that it extends, directly or not. -/
theorem passes_base {base : String} (hreach : Relation.ReflTransGen r.Extends name base)
    (h : r.interfaces.get? name = some i) (hx : (ofInterface r i).Passes (assemble r).validator? x) :
    ∃ j, r.interfaces.get? base = some j ∧ (ofInterface r j).Passes (assemble r).validator? x := by
  induction hreach with
  | refl => exact ⟨i, h, hx⟩
  | tail _ hb ih =>
    obtain ⟨j, hj, hx⟩ := ih
    rw [Validator.passes_iff, rule_interface_iff hj] at hx
    obtain ⟨members, -, hbases, -⟩ := hx
    exact hbases _ hb

theorem not_reachesCircle_of_acc (h : Acc (Function.swap r.Extends) name) : ¬r.ReachesCircle name := by
  induction h with
  | intro name _ ih =>
    rintro ⟨base, hreach, hcircle⟩
    rcases hreach.cases_head with rfl | ⟨next, hnext, hreach⟩
    · -- the circle goes on from the first base on it
      obtain ⟨next, hnext, hback⟩ := Relation.TransGen.head'_iff.1 hcircle
      exact ih next hnext ⟨next, .refl, .tail' hback hnext⟩
    · exact ih next hnext ⟨base, hreach, hcircle⟩

/-- There are finitely many interfaces, so bases that reach no circle come to an end. -/
theorem acc_of_not_reachesCircle (h : ¬r.ReachesCircle name) : Acc (Function.swap r.Extends) name := by
  let Reached := { base // Relation.ReflTransGen r.Extends name base }
  have hsubset : { base | Relation.ReflTransGen r.Extends name base } ⊆ { base | base ∈ name :: r.interfaces.names } := by
    intro base hreach
    rcases hreach.cases_tail with rfl | ⟨_, -, hb⟩
    · exact List.mem_cons_self
    · exact List.mem_cons_of_mem name hb.mem_names
  have : Finite Reached := (List.finite_toSet (name :: r.interfaces.names)).subset hsubset
  let Below (b a : Reached) : Prop := Relation.TransGen r.Extends a.1 b.1
  have : IsTrans Reached Below := ⟨fun _ _ _ hba hcb => hcb.trans hba⟩
  have : Std.Irrefl Below := ⟨fun a ha => h ⟨a.1, a.2, ha⟩⟩
  have hacc (a : Reached) : Acc (Function.swap r.Extends) a.1 := by
    induction (Finite.wellFounded_of_trans_of_irrefl Below).apply a with
    | intro a _ ih => exact Acc.intro a.1 fun base hb => ih ⟨base, a.2.tail hb⟩ (.single hb)
  exact hacc ⟨name, .refl⟩

/-! ## Own and inherited fields -/

/-- Without a circle, what passes in an interface are the objects whose members pass in all own and inherited fields. -/
theorem passes_flat_iff (hcircle : ¬r.ReachesCircle name) (h : r.interfaces.get? name = some i) (x : Option Json) :
    (ofInterface r i).Passes (assemble r).validator? x ↔ ∃ members, x = some (.object members) ∧
      ∀ f, r.Inherits name f →
        (ofField r f).Passes (assemble r).validator? (Json.member? members (Text.unescape f.name)) := by
  constructor
  · intro hx
    obtain ⟨members, rfl, -, -⟩ := (rule_interface_iff h).1 (Validator.passes_iff.1 hx)
    refine ⟨members, rfl, ?_⟩
    rintro f ⟨base, k, hreach, hk, hf⟩
    obtain ⟨j, hj, hx⟩ := passes_base hreach h hx
    obtain rfl : j = k := Option.some.inj (hj.symm.trans hk)
    obtain ⟨_, heq, -, hfields⟩ := (rule_interface_iff hj).1 (Validator.passes_iff.1 hx)
    cases heq
    exact hfields f hf
  · rintro ⟨members, rfl, hfields⟩
    exact passes_of_acc (acc_of_not_reachesCircle hcircle) h hfields

/-- **Inheritance flattens.**  A program holds the validator of an interface under its name.  If its bases reach no circle,
it lets those objects pass whose members pass in all own and inherited fields; a field looks at the member under its
name, or at its absence, so other members never matter.  If the bases reach a circle, nothing passes. -/
theorem passes_interface {r : Registry} {name : String} {i : Interface} (h : r.interfaces.get? name = some i) :
    ∃ v, (assemble r).validator? name = some v ∧
      (¬r.ReachesCircle name →
        (∀ x, v.Passes (assemble r).validator? x ↔ ∃ members, x = some (.object members) ∧
          ∀ f, r.Inherits name f →
            (ofField r f).Passes (assemble r).validator? (Json.member? members (Text.unescape f.name))) ∧
        ∀ members others, (∀ f, r.Inherits name f →
            Json.member? members (Text.unescape f.name) = Json.member? others (Text.unescape f.name)) →
          (v.Passes (assemble r).validator? (some (.object members)) ↔
            v.Passes (assemble r).validator? (some (.object others)))) ∧
      (r.ReachesCircle name → ∀ x, ¬v.Passes (assemble r).validator? x ∧
        v.accepts (assemble r).validator? x = false) := by
  refine ⟨ofInterface r i, validator?_interface h, fun hcircle => ?_, fun hcircle x => ?_⟩
  · have hflat (x : Option Json) := passes_flat_iff hcircle h x
    refine ⟨hflat, fun members others hsame => ?_⟩
    simp only [hflat, Option.some.injEq, Json.object.injEq, exists_eq_left']
    exact forall₂_congr fun f hf => by rw [hsame f hf]
  · have hnone : ¬(ofInterface r i).Passes (assemble r).validator? x := fun ⟨_, hx⟩ =>
      not_reachesCircle_of_acc (acc_of_acceptsWithin h hx) hcircle
    exact ⟨hnone, Bool.eq_false_iff.2 fun hx => hnone ⟨_, hx⟩⟩

/-- A field whose name is written with a backslash. -/
def quotedField : Field := { name := "it\\'s", type := "string", optional := false }

/-- An interface inherits from one on two ways, beside a base that is not declared; another one leads to an interface that
extends itself. -/
def family : Registry := ({} : Registry).addAll [
  .enum { name := "Base", values := ["on"] },
  .interface { name := "Base", bases := [], fields := [quotedField] },
  .interface { name := "Left", bases := ["Base"], fields := [] },
  .interface
    { name := "Right", bases := ["Base", "Missing"], fields := [{ name := "size", type := "number", optional := true }] },
  .interface { name := "Both", bases := ["Left", "Right"], fields := [] },
  .interface { name := "Loop", bases := ["Loop"], fields := [] },
  .interface { name := "Inner", bases := ["Base", "Loop"], fields := [] }]

theorem passes_interface_family :
    (∃ both, (assemble family).validator? "Both" = some both ∧
      both.Passes (assemble family).validator? (some (.object [("it's", .string "a"), ("other", .null)])) ∧
      ¬both.Passes (assemble family).validator? (some (.object [("it's", .null), ("other", .null)]))) ∧
    ∃ inner, (assemble family).validator? "Inner" = some inner ∧
      ∀ x, ¬inner.Passes (assemble family).validator? x := by
  have hbase : family.interfaces.get? "Base" = some { name := "Base", bases := [], fields := [quotedField] } := by
    decide +kernel
  have hleft : family.interfaces.get? "Left" = some { name := "Left", bases := ["Base"], fields := [] } := by
    decide +kernel
  have hboth : family.interfaces.get? "Both" = some { name := "Both", bases := ["Left", "Right"], fields := [] } := by
    decide +kernel
  have hinner : family.interfaces.get? "Inner" = some { name := "Inner", bases := ["Base", "Loop"], fields := [] } := by
    decide +kernel
  have hloop : family.interfaces.get? "Loop" = some { name := "Loop", bases := ["Loop"], fields := [] } := by
    decide +kernel
  constructor
  · obtain ⟨both, hv, hflat, -⟩ := passes_interface hboth
    obtain rfl := Option.some.inj ((validator?_interface hboth).symm.trans hv)
    have hpass : acceptsWithin (assemble family).validator? 5
        (ofInterface family { name := "Both", bases := ["Left", "Right"], fields := [] })
        (some (.object [("it's", .string "a"), ("other", .null)])) = true := by decide +kernel
    have hcircle := not_reachesCircle_of_acc (acc_of_acceptsWithin hboth hpass)
    refine ⟨_, hv, ⟨5, hpass⟩, fun hx => ?_⟩
    have hfield : family.Inherits "Both" quotedField :=
      ⟨"Base", _, .tail (.single ⟨_, hboth, by simp, by decide +kernel⟩) ⟨_, hleft, by simp, by decide +kernel⟩, hbase,
        List.mem_cons_self⟩
    obtain ⟨members, heq, hfields⟩ := ((hflat hcircle).1 _).1 hx
    cases heq
    have hstring : ofField family quotedField = .primitive .string := by cbv
    have hmember : Json.member? [("it's", .null), ("other", .null)] (Text.unescape quotedField.name) = some .null := by
      cbv
    have hnull := hfields quotedField hfield
    rw [hstring, hmember, Validator.passes_iff] at hnull
    cases hnull
  · obtain ⟨inner, hv, -, hcircle⟩ := passes_interface hinner
    have hname : "Loop" ∈ family.interfaces.names := by decide +kernel
    refine ⟨inner, hv, fun x => (hcircle ⟨"Loop", .single ?_, .single ?_⟩ x).1⟩
    · exact ⟨_, hinner, by simp, hname⟩
    · exact ⟨_, hloop, by simp, hname⟩

end Program

end TypeSchema
