import TypeSchema.Program.Compile
import TypeSchema.Proofs.Lexing.Comments
import TypeSchema.Proofs.Registry.Relocation

/-!
# Comments leave no trace

The written file does not depend on the places of the declarations (`render_assemble_mapSpans`), and hiding the plain
comments of a source changes nothing but places.  So no comment shows in the registry of a source or in its file
(`convertFile_hideComments`).
-/

namespace TypeSchema

/-! ## Converting without places -/

section Spans

variable (f : Span → Span) (r : Registry)

theorem Registry.contains_mapSpans : (r.mapSpans f).contains = r.contains :=
  funext fun name => congrArg Option.isSome (r.kindOf?_mapSpans f name)

theorem Registry.interfaces_contains_mapSpans : (r.mapSpans f).interfaces.contains = r.interfaces.contains :=
  funext fun name => Table.contains_map (f := Interface.mapSpans f) (fun _ => rfl) r.interfaces name

namespace Validator

theorem ofText_mapSpans : ofText (r.mapSpans f) = ofText r := by
  funext text optional
  simp only [ofText, Registry.contains_mapSpans]

theorem ofField_mapSpans (d : Field) : ofField (r.mapSpans f) (d.mapSpan f) = ofField r d := by
  simp only [ofField, ofText_mapSpans]
  rfl

theorem ofInterface_mapSpans (i : Interface) : ofInterface (r.mapSpans f) (i.mapSpans f) = ofInterface r i := by
  simp only [ofInterface, Registry.interfaces_contains_mapSpans, Interface.mapSpans, List.map_map, object.injEq,
    true_and]
  refine List.map_congr_left fun d _ => ?_
  rw [Function.comp_apply, ofField_mapSpans]
  rfl

theorem ofAlias_mapSpans (a : Alias) : ofAlias (r.mapSpans f) (a.mapSpan f) = ofAlias r a := by
  rw [ofAlias, ofText_mapSpans]
  rfl

end Validator

/-- The schema with its span changed. -/
def Schema.mapSpan (s : Schema) : Schema := { s with span := f s.span }

namespace Program

theorem schemasOf_mapSpans : schemasOf (r.mapSpans f) = (schemasOf r).map (Schema.mapSpan f) := by
  simp only [schemasOf, Registry.kindOf?_mapSpans, List.map_append, List.map_map]
  simp only [Registry.mapSpans, Table.map, List.filter_map, List.map_map]
  congr 1
  · congr 1
    refine List.map_congr_left fun a _ => ?_
    simp only [Function.comp_apply, Schema.mapSpan]
    exact congrArg (Schema.mk a.name .typeAlias · (f a.span)) (Validator.ofAlias_mapSpans f r a)
  · refine List.map_congr_left fun i _ => ?_
    simp only [Function.comp_apply, Schema.mapSpan]
    exact congrArg (Schema.mk i.name .interface · (f i.span)) (Validator.ofInterface_mapSpans f r i)

/-- **Places do not show in the file.** -/
theorem render_assemble_mapSpans (c : Config) : (assemble (r.mapSpans f)).render c = (assemble r).render c := by
  simp only [render, assemble, schemasOf_mapSpans, List.flatMap_map]
  rfl

end Program

end Spans

/-! ## Comments -/

/-- Hiding the comments of a source changes the places of what is found, and nothing else. -/
theorem Extract.findings_hideComments (source : String) :
    ∃ f, findings source = (findings (hideComments source)).map (Finding.mapSpans f) := by
  obtain ⟨r, hr⟩ := tokens_hideComments source
  refine ⟨r.span, ?_⟩
  simp only [findings, hr]
  exact scan_map r _ _ _

/-- **Plain comments leave no trace.**  With their characters replaced by spaces, a source has the same file, the same
declarations and the same warnings in order, places aside. -/
theorem Program.convertFile_hideComments (source : String) :
    convertFile (hideComments source) = convertFile source ∧
      (Registry.extract (hideComments source)).bare = (Registry.extract source).bare := by
  obtain ⟨f, hf⟩ := Extract.findings_hideComments source
  have hextract : Registry.extract source = (Registry.extract (hideComments source)).mapSpans f := by
    rw [Registry.extract, hf, Registry.extract, Registry.mapSpans_addAll]
    rfl
  refine ⟨?_, ?_⟩
  · rw [convertFile, convertFile, hextract, render_assemble_mapSpans]
  · refine Registry.bare_addAll_congr _ ?_
    rw [hf, List.map_map]
    exact List.map_congr_left fun x _ => (Finding.bare_mapSpans f x).symm

end TypeSchema
