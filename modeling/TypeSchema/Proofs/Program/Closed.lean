import Mathlib
import TypeSchema.Program.Compile
import TypeSchema.Proofs.Program.Order
import TypeSchema.Proofs.Registry.Names
import TypeSchema.Proofs.Validator.References

/-!
# Programs are closed and define before use

The schemas of a registry have distinct names, exactly those of its tables, and refer to each other only
(`nodup_schemasOf`, `mem_schemasOf_iff`, `refersOnly_schemasOf`).  A compiled program holds these schemas in some order
(`ofRegistry_perm`); `ofRegistry_closed` puts this together with the promises of the two orders.
-/

namespace TypeSchema

/-- Whether the warning is about a reference to a schema that does not come earlier. -/
def Warning.isOrder : Warning → Bool
  | selfReference _ | forwardReference _ _ => true
  | _ => false

namespace Program

variable {r : Registry}

/-! ## The schemas of a registry -/

theorem names_schemasOf (r : Registry) : (schemasOf r).map Schema.name =
    r.enums.names.filter (fun name => r.kindOf? name = some .enum) ++
      r.aliases.names.filter (fun name => r.kindOf? name = some .typeAlias) ++ r.interfaces.names := by
  simp only [schemasOf, Table.names, List.map_append, List.map_map, List.filter_map]
  rfl

theorem mem_names_schemasOf {name : String} : name ∈ (schemasOf r).map Schema.name ↔ r.contains name = true := by
  simp only [names_schemasOf, List.mem_append, List.mem_filter, decide_eq_true_eq, Registry.kindOf?_eq_enum_iff,
    Registry.kindOf?_eq_typeAlias_iff, Registry.contains_iff]
  tauto

/-- A name of two tables has one schema, since only one table has the kind that it stands for. -/
theorem nodup_schemasOf (h : r.Distinct) : ((schemasOf r).map Schema.name).Nodup := by
  rw [names_schemasOf]
  refine List.nodup_append.2 ⟨List.nodup_append.2 ⟨h.enums.filter _, h.aliases.filter _, ?_⟩, h.interfaces, ?_⟩
  · rintro x hx y hy rfl
    simp only [List.mem_filter, decide_eq_true_eq] at hx hy
    rw [hx.2] at hy
    cases hy.2
  · rintro x hx y hy rfl
    simp only [List.mem_append, List.mem_filter, decide_eq_true_eq, Registry.kindOf?_eq_enum_iff,
      Registry.kindOf?_eq_typeAlias_iff] at hx
    tauto

theorem kind_schemasOf {s : Schema} (h : s ∈ schemasOf r) : r.kindOf? s.name = some s.kind := by
  simp only [schemasOf, List.mem_append, List.mem_map, List.mem_filter, decide_eq_true_eq] at h
  rcases h with (⟨e, ⟨-, he⟩, rfl⟩ | ⟨a, ⟨-, ha⟩, rfl⟩) | ⟨i, hi, rfl⟩
  · exact he
  · exact ha
  · exact Registry.kindOf?_eq_interface_iff.2 (List.mem_map_of_mem hi)

theorem refersOnly_schemasOf {s : Schema} (h : s ∈ schemasOf r) : s.validator.RefersOnly (r.contains · = true) := by
  simp only [schemasOf, List.mem_append, List.mem_map] at h
  rcases h with (⟨e, -, rfl⟩ | ⟨a, -, rfl⟩) | ⟨i, -, rfl⟩
  · exact Validator.refersOnly_ofEnum r e
  · exact Validator.refersOnly_ofAlias r a
  · exact Validator.refersOnly_ofInterface r i

/-! ## Compiled programs -/

section Compiled

variable {c : Config} {p : Program}

/-- A compiled program is an arranged one; the policy only decides whether there is a program at all. -/
theorem arrange_of_ofRegistry (h : ofRegistry c r = .ok p) : arrange r c.order = .ok p := by
  unfold ofRegistry at h
  cases ha : arrange r c.order with
  | error e => rw [ha] at h; cases h
  | ok q =>
    simp only [ha, bind, Except.bind] at h
    split at h
    · cases h
    · cases h
      rfl

theorem arrange_fixed (h : arrange r .fixed = .ok p) : p = assemble r := by
  cases h
  rfl

theorem arrange_topological (h : arrange r .topological = .ok p) :
    Order.topologicalOrder (schemasOf r) = .ok p.schemas := by
  unfold arrange at h
  cases ho : Order.topologicalOrder (schemasOf r) with
  | error e => simp only [ho] at h; cases h
  | ok schemas =>
    simp only [ho] at h
    cases h
    rfl

/-- A compiled program holds the schemas of its registry. -/
theorem ofRegistry_perm (h : ofRegistry c r = .ok p) : p.schemas.Perm (schemasOf r) := by
  have ha := arrange_of_ofRegistry h
  cases ho : c.order with
  | fixed =>
    rw [ho] at ha
    rw [arrange_fixed ha]
    exact List.Perm.refl _
  | topological =>
    rw [ho] at ha
    exact Order.topologicalOrder_perm (arrange_topological ha)

theorem nodup_ofRegistry (hr : r.Built) (h : ofRegistry c r = .ok p) : (p.schemas.map Schema.name).Nodup :=
  ((ofRegistry_perm h).map Schema.name).nodup_iff.2 (nodup_schemasOf hr.distinct)

theorem mem_names_ofRegistry (h : ofRegistry c r = .ok p) {name : String} :
    name ∈ p.schemas.map Schema.name ↔ r.contains name = true := by
  rw [((ofRegistry_perm h).map Schema.name).mem_iff]
  exact mem_names_schemasOf

theorem references_ofRegistry (h : ofRegistry c r = .ok p) {s : Schema} (hs : s ∈ p.schemas) {name : String}
    (hn : name ∈ s.validator.references) : name ∈ p.schemas.map Schema.name :=
  (mem_names_ofRegistry h).2 (refersOnly_schemasOf ((ofRegistry_perm h).mem_iff.1 hs) name hn)

theorem definesBeforeUse_of_topological (h : ofRegistry c r = .ok p) (ho : c.order = .topological) :
    Order.DefinesBeforeUse p.schemas := by
  have ha := arrange_of_ofRegistry h
  rw [ho] at ha
  refine Order.topologicalOrder_definesBeforeUse (arrange_topological ha) ?_
  intro s hs name hn
  exact mem_names_schemasOf.2 (refersOnly_schemasOf hs name hn)

/-- In the fixed order every reference to the same or a later schema has its warning. -/
theorem order_warnings_of_fixed (hr : r.Built) (h : ofRegistry c r = .ok p) (ho : c.order = .fixed)
    {before after : List Schema} {s : Schema} (he : p.schemas = before ++ s :: after) {name : String}
    (hn : name ∈ s.validator.references) :
    (name = s.name → ⟨s.span, .selfReference name⟩ ∈ p.diagnostics) ∧
      (name ∈ after.map Schema.name → ⟨s.span, .forwardReference s.name name⟩ ∈ p.diagnostics) := by
  have hd := nodup_ofRegistry hr h
  have ha := arrange_of_ofRegistry h
  rw [ho] at ha
  obtain rfl := arrange_fixed ha
  constructor
  · rintro rfl
    exact List.mem_append_right _ (Order.selfReference_mem hd he hn)
  · intro hafter
    exact List.mem_append_right _ (Order.forwardReference_mem hd he hn hafter)

/-- Without such warnings the fixed order defines before use as well. -/
theorem definesBeforeUse_of_fixed (hr : r.Built) (h : ofRegistry c r = .ok p) (ho : c.order = .fixed)
    (hw : ∀ d ∈ p.diagnostics, d.warning.isOrder = false) : Order.DefinesBeforeUse p.schemas := by
  intro before s after he name hn
  obtain ⟨hself, hforward⟩ := order_warnings_of_fixed hr h ho he hn
  have hs : s ∈ p.schemas := he ▸ List.mem_append_right _ List.mem_cons_self
  have hmem := references_ofRegistry h hs hn
  rw [he, List.map_append, List.map_cons, List.mem_append, List.mem_cons] at hmem
  rcases hmem with hb | hb | hb
  · exact hb
  · cases hw _ (hself hb)
  · cases hw _ (hforward hb)

end Compiled

/-- **Programs are closed, free of duplicates and define before use.**  The schemas of a compiled program have
distinct names, exactly those of the registry's tables, and the kinds that the names stand for; they refer to each
other only; ordered by dependency they refer to earlier ones only; in the fixed order every other reference has its
warning. -/
theorem ofRegistry_closed {r : Registry} {c : Config} {p : Program} (hr : r.Built) (h : ofRegistry c r = .ok p) :
    (p.schemas.map Schema.name).Nodup ∧
    (∀ name, name ∈ p.schemas.map Schema.name ↔
      name ∈ r.interfaces.names ∨ name ∈ r.aliases.names ∨ name ∈ r.enums.names) ∧
    (∀ s ∈ p.schemas, r.kindOf? s.name = some s.kind) ∧
    (∀ s ∈ p.schemas, ∀ name ∈ s.validator.references, name ∈ p.schemas.map Schema.name) ∧
    (c.order = .topological → Order.DefinesBeforeUse p.schemas) ∧
    (c.order = .fixed →
      (∀ before s after, p.schemas = before ++ s :: after → ∀ name ∈ s.validator.references,
        (name = s.name → ⟨s.span, .selfReference name⟩ ∈ p.diagnostics) ∧
        (name ∈ after.map Schema.name → ⟨s.span, .forwardReference s.name name⟩ ∈ p.diagnostics)) ∧
      ((∀ d ∈ p.diagnostics, d.warning.isOrder = false) → Order.DefinesBeforeUse p.schemas)) := by
  refine ⟨nodup_ofRegistry hr h, fun name => ?_, fun s hs => ?_, fun s hs name hn => ?_, ?_, fun ho => ⟨?_, ?_⟩⟩
  · rw [mem_names_ofRegistry h, Registry.contains_iff]
  · exact kind_schemasOf ((ofRegistry_perm h).mem_iff.1 hs)
  · exact references_ofRegistry h hs hn
  · exact definesBeforeUse_of_topological h
  · intro before s after he name hn
    exact order_warnings_of_fixed hr h ho he hn
  · exact definesBeforeUse_of_fixed hr h ho

/-- An interface extends a later one, which shadows an enum and refers to an alias that is not known yet. -/
def shadowing : Registry := ({} : Registry).addAll [
  .interface { name := "A", bases := ["B"], fields := [] },
  .enum { name := "B", values := ["on"] },
  .interface { name := "B", bases := [], fields := [{ name := "x", type := "Id", optional := true }] },
  .typeAlias { name := "Id", type := "Missing" }]

theorem ofRegistry_closed_shadowing :
    ∃ p, ofRegistry { order := .topological } shadowing = .ok p ∧ p.schemas.map Schema.name = ["Id", "B", "A"] ∧
      Order.DefinesBeforeUse p.schemas := by
  obtain ⟨p, hp, hnames⟩ : ∃ p, ofRegistry { order := .topological } shadowing = .ok p ∧
      p.schemas.map Schema.name = ["Id", "B", "A"] := ⟨⟨_, _⟩, by cbv, by cbv⟩
  exact ⟨p, hp, hnames, (ofRegistry_closed ⟨_, rfl⟩ hp).2.2.2.2.1 rfl⟩

end Program

end TypeSchema
