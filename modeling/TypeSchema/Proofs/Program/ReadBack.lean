import TypeSchema.Program.Compile
import TypeSchema.Proofs.Program.Closed
import TypeSchema.Proofs.Validator.Rendering

/-!
# Generated files read back

The file of a program, read as a source, holds one alias for each schema and nothing else.

* `codes_schema`: the code of a schema holds the type that is inferred from it;
* `addAll_aliases`: aliases with distinct names are added in order and without a warning;
* `extract_convertFile`: the registry of a generated file.
-/

namespace TypeSchema

/-- The schema is spelled so that its code can be read. -/
structure Schema.IsSpelled (s : Schema) : Prop where
  name : Identifier.isIdentifier s.name.toList = true
  validator : s.validator.IsSpelled

namespace Program

open Extract
open Lexer (Reads Follow Anywhere Apart reads_cons reads_spelled reads_blank follow_cons follow_punct)

/-! ## Schemas -/

/-- The name of a schema and the type inferred from it. -/
def bindingOf (s : Schema) : String × String := (s.name, "z.infer<typeof " ++ s.name ++ "Schema>")

theorem codes_word (word : String) (h : Identifier.isIdentifier word.toList = true)
    (hk : startsDeclaration (.ident word) = false) : Codes Anywhere (word ++ " ") [] :=
  (codes_ident h hk).apart (codes_of_isCode (by cbv)) ⟨' ', _, rfl, by decide⟩

theorem stops_equals (rest : List Char) : Lexeme.Stops (.punct .equals) (' ' :: rest) := by simp [Lexeme.Stops]

theorem codes_equals : Codes Anywhere " = " [] := by
  intro rest p _
  have hspace (q : Position) : Reads rest q [' '] [] := reads_blank (by decide) rest q
  have hequals (q : Position) : Reads rest q ['=', ' '] _ := reads_cons (.punct .equals) (stops_equals rest) (hspace _)
  exact ⟨_, .blank (by decide) (hequals _), finds_of_passes rfl⟩

/-- The type that is inferred from a schema. -/
theorem codes_binding {name : String} (h : Identifier.isIdentifier name.toList = true) :
    Codes Anywhere ("type " ++ (name ++ (" = z.infer<typeof " ++ (schemaName name ++ ">;"))))
      [(name, "z.infer<typeof " ++ name ++ "Schema>")] := by
  have hschema := isIdentifier_schemaName h
  intro rest p _
  obtain ⟨tail, htail⟩ : ∃ tail, tail = "z.infer<typeof ".toList ++ (schemaName name).toList ++ ['>'] ++ [';'] :=
    ⟨_, rfl⟩
  have hw : ("type " ++ (name ++ (" = z.infer<typeof " ++ (schemaName name ++ ">;")))).toList =
      "type".toList ++ ' ' :: (name.toList ++ ' ' :: '=' :: ' ' :: tail) := by
    simp [htail]
  -- from the last token to the first
  have hend (q : Position) : Reads rest q [';'] _ := reads_spelled (.punct .semicolon) trivial q
  have htype (q : Position) := (reads_inferred hschema ([';'] ++ rest) q).trans (hend _)
  rw [← htail] at htype
  have hequals (q : Position) : Reads rest q ('=' :: ' ' :: tail) _ :=
    reads_cons (.punct .equals) (stops_equals _) (.blank (by decide) (htype _))
  have hname (q : Position) : Reads rest q (name.toList ++ ' ' :: '=' :: ' ' :: tail) _ :=
    reads_cons (.ident h) (follow_cons (by decide) _) (.blank (by decide) (hequals _))
  have hkeyword : Reads rest p ("type".toList ++ ' ' :: (name.toList ++ ' ' :: '=' :: ' ' :: tail)) _ :=
    reads_cons (.ident (by decide)) (follow_cons (by decide) _) (.blank (by decide) (hname _))
  have htypeText : "z.infer<typeof " ++ name ++ "Schema>" =
      "z.infer<typeof " ++ String.ofList (schemaName name).toList ++ ">" := by
    simp [schemaName, ← String.toList_inj]
  refine ⟨_, by rw [hw]; exact hkeyword, ?_⟩
  rw [htypeText]
  refine finds_binding rfl ?_ rfl ?_ hschema rfl
  · simp
  · exact (Position.line_advance (w := ['=', ' ']) (by decide) _).symm

/-- **The code of a schema holds the type that is inferred from it**, and no other declaration. -/
theorem codes_schema {s : Schema} (h : s.IsSpelled) : Codes Anywhere (s.render {}) [bindingOf s] := by
  have hexport : Codes Anywhere "export " [] := codes_word "export" (by decide) (by decide)
  have hconst : Codes Anywhere "const " [] := codes_word "const" (by decide) (by decide)
  have hend : Codes Anywhere ";\n\n" [] := codes_of_isCode (by cbv)
  have hname : Codes Follow s.constant [] := codes_schemaName h.name
  have hvalue : Codes Follow s.validator.render [] := Validator.codes_renderAt h.validator 0
  have hhead : Codes Anywhere ("export " ++ "const " ++ s.constant ++ " = " ++ s.validator.render ++ ";\n\n") [] :=
    ((((hexport.append hconst).append hname).apart codes_equals ⟨' ', _, rfl, by decide⟩).append hvalue).apart hend
      ⟨';', _, rfl, by decide⟩
  have hall := hhead.append (hexport.append (codes_binding h.name))
  have hrender : s.render {} = "export " ++ "const " ++ s.constant ++ " = " ++ s.validator.render ++ ";\n\n" ++
      ("export " ++ ("type " ++ (s.name ++ (" = z.infer<typeof " ++ (schemaName s.name ++ ">;"))))) := by
    simp only [Schema.render, String.append_assoc]
    rfl
  rw [hrender]
  exact hall

/-! ## Files -/

/-- The text of a file: its head, and the code of every schema between line feeds. -/
theorem intercalate_blocks {α : Type} (text : α → String) (xs : List α) {head : List String} (h : head ≠ []) :
    "\n".intercalate (head ++ xs.flatMap fun x => [text x, ""]) =
      "\n".intercalate head ++ String.join (xs.map fun x => "\n" ++ text x ++ "\n") := by
  induction xs generalizing head with
  | nil => simp
  | cons x xs ih =>
    have hhead : "\n".intercalate (head ++ [text x, ""]) = "\n".intercalate head ++ ("\n" ++ text x ++ "\n") := by
      rw [String.intercalate_append_of_ne_nil h (by simp), String.intercalate_cons_cons, String.intercalate_singleton,
        String.append_empty, String.append_assoc, String.append_assoc]
    rw [List.flatMap_cons, ← List.append_assoc, ih (by simp), hhead, List.map_cons, String.join_cons,
      String.append_assoc]

/-- The head of a file. -/
def headLines : List String := ["import \x7b z \x7d from 'zod';", "", "// Auto-generated Zod schemas", ""]

theorem render_eq (p : Program) : p.render {} =
    "\n".intercalate headLines ++ String.join (p.schemas.map fun s => "\n" ++ s.render {} ++ "\n") := by
  have hne : headLines ≠ [] := List.cons_ne_nil _ _
  rw [← intercalate_blocks (fun s : Schema => s.render {}) p.schemas hne]
  rfl

theorem codes_banner : Codes (fun rest => rest.head? = some '\n') "// Auto-generated Zod schemas" [] := by
  have hspells : Lexeme.Spells (.comment "// Auto-generated Zod schemas") "// Auto-generated Zod schemas".toList :=
    .lineComment (by decide)
  refine codes_of_spells hspells (fun rest hrest _ c hc => ?_) rfl
  rw [hrest] at hc
  exact (Option.some.inj hc).symm

theorem codes_head : Codes Anywhere ("\n".intercalate headLines) [] := by
  have himport : Codes Anywhere "import \x7b z \x7d from 'zod';" [] := codes_of_isCode (by cbv)
  have hfeed : Codes Anywhere "\n" [] := codes_of_isCode (by cbv)
  have hbanner : Codes Anywhere ("// Auto-generated Zod schemas" ++ "\n") [] := codes_banner.before hfeed fun _ _ => rfl
  rw [headLines, String.intercalate_cons_cons, String.intercalate_cons_cons, String.intercalate_cons_cons,
    String.intercalate_singleton, String.empty_append, String.append_empty]
  exact (himport.append hfeed).append (hfeed.append hbanner)

/-- **The file of a program with spelled schemas** holds the types that are inferred from them. -/
theorem codes_render {p : Program} (h : ∀ s ∈ p.schemas, s.IsSpelled) :
    Codes Anywhere (p.render {}) (p.schemas.map bindingOf) := by
  have hfeed : Codes Anywhere "\n" [] := codes_of_isCode (by cbv)
  have hschemas : Codes Anywhere (String.join (p.schemas.map fun s => "\n" ++ s.render {} ++ "\n"))
      (p.schemas.flatMap fun s => [bindingOf s]) :=
    codes_joinAll fun s hs => (hfeed.append (codes_schema (h s hs))).append hfeed
  have hfound : p.schemas.map bindingOf = p.schemas.flatMap fun s => [bindingOf s] := List.map_eq_flatMap
  rw [render_eq, hfound]
  exact codes_head.append hschemas

/-! ## Registries of aliases -/

theorem addAlias_new {as : List Alias} {a : Alias} (h : a.name ∉ as.map Alias.name) :
    Registry.addAlias { aliases := ⟨as⟩ } a = { aliases := ⟨as ++ [a]⟩ } := by
  have hcontains : (Table.mk as).contains a.name = false := by
    rw [Bool.eq_false_iff, Ne, Table.contains_iff]
    exact h
  have hinsert : (Table.mk as).insert a = ⟨as ++ [a]⟩ := by
    unfold Table.insert
    rw [show Named.nameOf a = a.name from rfl, hcontains]
    rfl
  have hkind : Registry.kindOf? { aliases := ⟨as⟩ } a.name = none := by
    simp only [Registry.kindOf?, hcontains]
    rfl
  simp only [Registry.addAlias, Registry.checkCollision, hkind, hinsert, hcontains]
  rfl

/-- **Aliases with distinct names are added in order and without a warning.** -/
theorem addAll_aliases {as bs : List Alias} (h : ((bs ++ as).map Alias.name).Nodup) :
    Registry.addAll { aliases := ⟨bs⟩ } (as.map .typeAlias) = { aliases := ⟨bs ++ as⟩ } := by
  induction as generalizing bs with
  | nil => simp [Registry.addAll]
  | cons a as ih =>
    have hnew : a.name ∉ bs.map Alias.name := by
      rw [List.map_append, List.nodup_append] at h
      intro hm
      exact h.2.2 a.name hm a.name (by simp) rfl
    have hstep : Registry.addAll { aliases := ⟨bs⟩ } ((a :: as).map .typeAlias) =
        Registry.addAll (Registry.addAlias { aliases := ⟨bs⟩ } a) (as.map .typeAlias) := rfl
    rw [hstep, addAlias_new hnew, ih (by simpa using h)]
    simp

/-! ## Generated files -/

/-- The registry of a text in which a walk finds aliases with distinct names. -/
theorem extract_of_codes {text : String} {found : List (String × String)} (h : Codes Anywhere text found)
    (hd : (found.map Prod.fst).Nodup) :
    ∃ as : List Alias, as.map (fun a => (a.name, a.type)) = found ∧
      Registry.extract text = { aliases := ⟨as⟩ } := by
  obtain ⟨ts, hts, hf⟩ := h [] .origin trivial
  have htokens := Lexer.tokenize_of_reads hts
  rw [String.ofList_toList] at htokens
  obtain ⟨as, has, hscan⟩ := hf (tokenizeSignificant text).stop []
  refine ⟨as, has, ?_⟩
  have hfindings : findings text = as.map .typeAlias := by
    rw [List.append_nil] at hscan
    have hend : scan (tokenizeSignificant text).stop false [] = [] := by rw [scan]
    rw [hend, List.append_nil] at hscan
    rw [findings, ← hscan, ← htokens]
    rfl
  have hnames : as.map Alias.name = found.map Prod.fst := by
    rw [← has, List.map_map]
    rfl
  have hdistinct : (([] ++ as).map Alias.name).Nodup := by
    rw [List.nil_append, hnames]
    exact hd
  rw [Registry.extract, hfindings]
  exact addAll_aliases hdistinct

/-- The schemas of a spelled registry are spelled. -/
theorem isSpelled_of_mem_schemasOf {r : Registry} (hr : r.IsSpelled) : ∀ s ∈ schemasOf r, s.IsSpelled := by
  intro s hs
  rcases List.mem_append.1 hs with hs | hs
  · rcases List.mem_append.1 hs with hs | hs
    · obtain ⟨e, he, rfl⟩ := List.mem_map.1 hs
      have he := hr.enums e (List.mem_filter.1 he).1
      exact ⟨he.name, Validator.isSpelled_ofEnum he⟩
    · obtain ⟨a, ha, rfl⟩ := List.mem_map.1 hs
      exact ⟨hr.aliases a (List.mem_filter.1 ha).1, Validator.isSpelled_ofText hr a.type false⟩
  · obtain ⟨i, hi, rfl⟩ := List.mem_map.1 hs
    have hi := hr.interfaces i hi
    exact ⟨hi.name, Validator.isSpelled_ofInterface hr hi⟩

/-- **A generated file reads back as the types of its schemas**, in order, whatever the source was. -/
theorem extract_convertFile (source : String) :
    (Registry.extract (convertFile source)).enums.entries = [] ∧
    (Registry.extract (convertFile source)).interfaces.entries = [] ∧
    (Registry.extract (convertFile source)).diagnostics = [] ∧
    (Registry.extract (convertFile source)).aliases.entries.map (fun a => (a.name, a.type)) =
      (assemble (.extract source)).schemas.map fun s => (s.name, "z.infer<typeof " ++ s.name ++ "Schema>") := by
  have hr := Registry.isSpelled_extract source
  have hcodes : Codes Anywhere (convertFile source) ((assemble (.extract source)).schemas.map bindingOf) :=
    codes_render (isSpelled_of_mem_schemasOf hr)
  have hd : (((assemble (.extract source)).schemas.map bindingOf).map Prod.fst).Nodup := by
    rw [List.map_map]
    exact nodup_schemasOf (Registry.built_extract source).distinct
  obtain ⟨as, has, hextract⟩ := extract_of_codes hcodes hd
  rw [hextract]
  exact ⟨rfl, rfl, rfl, has⟩

end Program

end TypeSchema
