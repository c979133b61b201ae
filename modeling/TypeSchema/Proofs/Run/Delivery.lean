import TypeSchema.Run

/-!
# What a run leaves behind

A run reads first, compiles next and writes last, so it either fails and changes no file, or delivers what it has
compiled.  The files can be those of any store that keeps the few laws of `LawfulFileStore`; a file tree keeps them.

* `Invocation.Fails` says for which error a run stops, by what the store answers; `Invocation.Delivers` says what a
  run that does not stop has printed and written.
* Each stage of a run is described once: `readSource_spec`, `settings_spec`, `writeOutput_spec` and `deliver_spec` say
  what the stage gives and what it leaves.  `run_spec` joins them, and `perform_leaves` adds that a run prints at its
  end: every run fails without a trace or delivers.
-/

namespace TypeSchema

/-! ## Stores -/

/-- A store of files whose state is `σ`, with what is relied on: asking changes nothing, making a folder changes no
file, a write that fails changes no file, and one that works changes the file that the path leads to and no other. -/
class LawfulFileStore (σ : Type) extends FileStore (StateM σ) where
  present : σ → String → Bool
  text? : σ → String → Option String
  /-- What tells files apart.  Several paths can lead to one place. -/
  Place : Type
  place? : σ → String → Option Place
  content? : σ → Place → Option ByteArray
  isPresent_eq (path : String) (t : σ) : isPresent path t = (present t path, t)
  readText?_eq (path : String) (t : σ) : readText? path t = (text? t path, t)
  makeFolder_keeps (path : String) (t : σ) : content? (makeFolder path t).2 = content? t
  writeText_failed (path text : String) (t : σ) :
    (writeText path text t).1 = false → content? (writeText path text t).2 = content? t
  writeText_worked (path text : String) (t : σ) :
    (writeText path text t).1 = true →
      ∃ place, place? (writeText path text t).2 path = some place ∧
        content? (writeText path text t).2 place = some text.toUTF8 ∧
        ∀ other, other ≠ place → content? (writeText path text t).2 other = content? t other

namespace FileTree

/-- A file that is put somewhere closes no folder. -/
theorem isFolder_put {t : FileTree} {q : List String} (place : List String) (content : ByteArray)
    (h : t.isFolder q = true) : (t.put place content).isFolder q = true := by
  simp only [isFolder, put, Bool.or_eq_true, List.any_eq_true, List.mem_append, List.mem_map] at h ⊢
  obtain h | ⟨f, ⟨e, he, rfl⟩ | hf, hq⟩ := h
  · exact .inl h
  · by_cases hp : e.1 = place
    · exact .inr ⟨e.1, .inl ⟨(place, content), by simp, hp.symm⟩, hq⟩
    · exact .inr ⟨e.1, .inl ⟨e, by simp [he, hp], rfl⟩, hq⟩
  · exact .inr ⟨f, .inr hf, hq⟩

theorem walk?_put {t : FileTree} {parts start q : List String} (place : List String) (content : ByteArray)
    (h : t.walk? start parts = some q) : (t.put place content).walk? start parts = some q := by
  induction parts generalizing start with
  | nil => exact h
  | cons part parts ih =>
    rw [walk?] at h ⊢
    split at h
    · next hs => rw [if_pos (isFolder_put place content hs), ih h]
    · cases h

/-- A path still leads to its place after something is put somewhere. -/
theorem locate?_put {t : FileTree} {path : String} {q : List String} (place : List String) (content : ByteArray)
    (h : t.locate? path = some q) : (t.put place content).locate? path = some q := by
  rw [locate?] at h ⊢
  split at h
  · next hu =>
    rw [if_pos hu]
    exact walk?_put place content h
  · cases h

theorem file?_makeFolder? {t u : FileTree} {path : String} (h : t.makeFolder? path = some u) : u.file? = t.file? := by
  rw [makeFolder?] at h
  split at h
  · funext place
    rw [file?, file?, files_makeFolders? h]
  · cases h

theorem writeText?_eq_some {t u : FileTree} {path text : String} (h : t.writeText? path text = some u) :
    ∃ place, t.locate? path = some place ∧ u = t.put place text.toUTF8 := by
  simp only [writeText?, Option.bind_eq_bind, Option.bind_eq_some_iff] at h
  obtain ⟨place, hplace, h⟩ := h
  split at h
  · cases h
  · exact ⟨place, hplace, (Option.some.inj h).symm⟩

instance : LawfulFileStore FileTree where
  present := isPresent
  text? := readText?
  Place := List String
  place? := locate?
  content? := file?
  isPresent_eq _ _ := rfl
  readText?_eq _ _ := rfl
  makeFolder_keeps path t := by
    show file? (update (·.makeFolder? path) t).2 = file? t
    rw [update]
    split
    · next hu => exact file?_makeFolder? hu
    · rfl
  writeText_failed path text t := by
    show (update (·.writeText? path text) t).1 = false → file? (update (·.writeText? path text) t).2 = file? t
    rw [update]
    split
    · simp
    · exact fun _ => rfl
  writeText_worked path text t h := by
    cases hu : t.writeText? path text with
    | none =>
      have : (update (·.writeText? path text) t).1 = true := h
      simp [update, hu] at this
    | some u =>
      have hw : (FileStore.writeText path text : StateM FileTree Bool) t = (true, u) := by
        show update (·.writeText? path text) t = (true, u)
        simp only [update, hu]
      obtain ⟨place, hplace, rfl⟩ := writeText?_eq_some hu
      rw [hw]
      refine ⟨place, locate?_put place _ hplace, ?_, fun other hother => ?_⟩
      · rw [file?_put, if_pos rfl]
      · rw [file?_put, if_neg hother]

end FileTree

/-! ## What a run can end in -/

/-- Whether a run fails when it writes the generated file. -/
def RunError.isOfOutput : RunError → Bool
  | folderNotCreated _ | outputNotWritten _ => true
  | _ => false

variable {σ : Type} [LawfulFileStore σ]

namespace LawfulFileStore

/-- Whether the folder under a path can be made, and the store afterwards. -/
def withFolder (t : σ) (path : String) : Bool × σ := (FileStore.makeFolder path : StateM σ Bool) t

/-- Whether a text can be put into the file under a path, and the store afterwards. -/
def withText (t : σ) (path text : String) : Bool × σ := (FileStore.writeText path text : StateM σ Bool) t

/-- Between two stores, the file under a path has got this text and all other files are the same. -/
def Replaces (t u : σ) (path text : String) : Prop :=
  ∃ place, place? u path = some place ∧ content? u place = some text.toUTF8 ∧
    ∀ other, other ≠ place → content? u other = content? t other

/-- The store after the folder for the file under a path is made, if the path names one. -/
inductive FolderReady (path : String) (t : σ) : σ → Prop
  | unnamed : (Path.parent path).isEmpty = true → FolderReady path t t
  | made {u : σ} : (Path.parent path).isEmpty = false → withFolder t (Path.parent path) = (true, u) →
    FolderReady path t u

theorem FolderReady.content? {path : String} {t u : σ} (h : FolderReady path t u) : content? u = content? t := by
  cases h with
  | unnamed => rfl
  | made _ hu =>
    have hkeeps : LawfulFileStore.content? (withFolder t (Path.parent path)).2 = LawfulFileStore.content? t :=
      makeFolder_keeps (Path.parent path) t
    rwa [hu] at hkeeps

end LawfulFileStore

namespace Invocation

open LawfulFileStore

/-- This is the source of an invocation, under this name in messages. -/
inductive HasSource (i : Invocation) (t : σ) : String → String → Prop
  | text {source : String} : i.input = .text source → HasSource i t source "<input-string>"
  | file {path source : String} : i.input = .file path → present t path = true → text? t path = some source →
    HasSource i t source path

/-- The settings `d` are `c` with the flags of an invocation on top: what a flag is about is set, all else is kept. -/
structure Overrides (i : Invocation) (c d : Config) : Prop where
  order : ∀ order, i.order = some order → d.order = order
  order_kept : i.order = none → d.order = c.order
  unresolved : i.strict = true → d.unresolved = .strict
  unresolved_kept : i.strict = false → d.unresolved = c.unresolved
  banner : i.noBanner = true → d.banner = none
  banner_kept : i.noBanner = false → d.banner = c.banner
  importLine_kept : d.importLine = c.importLine
  exported_kept : d.exported = c.exported

theorem overrides_adjust (i : Invocation) (c : Config) : i.Overrides c (i.adjust c) := by
  constructor <;> simp +contextual [adjust]

/-- These are the settings of an invocation: the defaults or those of its settings file, with the flags on top. -/
inductive HasSettings (i : Invocation) (t : σ) : Config → Prop
  | default {d : Config} : i.config = none → i.Overrides {} d → HasSettings i t d
  | file {path text : String} {c d : Config} : i.config = some path → text? t path = some text →
    Config.ofText? text = some c → i.Overrides c d → HasSettings i t d

/-- The invocation asks for the file that a source gives under some settings, and this is what compiling it gives. -/
inductive Compiles (i : Invocation) (t : σ) (name : String) : Except Error String → Prop
  | intro {source : String} {c : Config} : i.dumpRegistry = false → i.HasSource t source name → i.HasSettings t c →
    Compiles i t name (Program.compileFile c source)

/-- Why an invocation has to fail on a store. -/
inductive Fails (i : Invocation) (t : σ) : RunError → Prop
  | inputNotFound {path : String} : i.input = .file path → present t path = false → Fails i t (.inputNotFound path)
  | inputUnreadable {path : String} : i.input = .file path → present t path = true → text? t path = none →
    Fails i t (.inputUnreadable path)
  | configUnreadable {source name path : String} : i.dumpRegistry = false → i.HasSource t source name →
    i.config = some path → text? t path = none → Fails i t (.configUnreadable path)
  | configInvalid {source name path text : String} : i.dumpRegistry = false → i.HasSource t source name →
    i.config = some path → text? t path = some text → Config.ofText? text = none → Fails i t (.configInvalid path)
  | compilation {name : String} {e : Error} : i.Compiles t name (.error e) → Fails i t (.compilation (e.inSource name))
  | folderNotCreated {name code path : String} : i.Compiles t name (.ok code) → i.output = some path →
    (Path.parent path).isEmpty = false → (withFolder t (Path.parent path)).1 = false →
    Fails i t (.folderNotCreated (Path.parent path))
  | outputNotWritten {name code path : String} {u : σ} : i.Compiles t name (.ok code) → i.output = some path →
    FolderReady path t u → (withText u path code).1 = false → Fails i t (.outputNotWritten path)

/-- What a run that works has printed and written: the declarations found; or else the file that the source gives,
as all that is printed, or as all that the file under the output path holds. -/
inductive Delivers (i : Invocation) (s : Session σ) : Session σ → Prop
  | dumped {source name : String} : i.dumpRegistry = true → i.HasSource s.files source name →
    Delivers i s { s with printed := s.printed ++ ((Registry.extract source).toJson.render ++ "\n") }
  | printed {name code : String} : i.Compiles s.files name (.ok code) → i.output = none →
    Delivers i s { s with printed := s.printed ++ code }
  | written {name code path : String} {u : σ} : i.Compiles s.files name (.ok code) → i.output = some path →
    Replaces s.files u path code →
    Delivers i s ⟨u, s.printed ++ ("Generated Zod schemas written to: " ++ path ++ "\n")⟩

/-- How a run ends, and in which session: it has delivered what it was asked for; or it has failed with reason, has
printed nothing and changed no file, and left everything as it was if the failure came before the file is written. -/
inductive Leaves (i : Invocation) (s : Session σ) : Except RunError Unit × Session σ → Prop
  | delivered {s' : Session σ} : i.Delivers s s' → Leaves i s (.ok (), s')
  | failed {e : RunError} {s' : Session σ} : i.Fails s.files e → s'.printed = s.printed →
    content? s'.files = content? s.files → (e.isOfOutput = false → s' = s) → Leaves i s (.error e, s')

end Invocation

/-! ## Actions in a session -/

namespace Session

variable {τ α β : Type} {x : ExceptT RunError (StateM (Session τ)) α}
  {f : α → ExceptT RunError (StateM (Session τ)) β} {s s' : Session τ}

/-- How an action ends in a session, and the session afterwards. -/
def after (s : Session τ) (x : ExceptT RunError (StateM (Session τ)) α) : Except RunError α × Session τ := x.run s

theorem after_bind_ok {a : α} (h : s.after x = (.ok a, s')) : s.after (x >>= f) = s'.after (f a) := by
  show (match s.after x with | (r, s') => (ExceptT.bindCont f r) s') = _
  rw [h]
  rfl

theorem after_bind_error {e : RunError} (h : s.after x = (.error e, s')) : s.after (x >>= f) = (.error e, s') := by
  show (match s.after x with | (r, s') => (ExceptT.bindCont f r) s') = _
  rw [h]
  rfl

theorem after_print (text : String) (s : Session τ) :
    s.after (liftM (Console.print text : StateM (Session τ) Unit)) =
      (.ok (), { s with printed := s.printed ++ text }) :=
  rfl

end Session

namespace LawfulFileStore

/-- A question to the store of a session leaves the session as it is. -/
theorem after_isPresent (path : String) (s : Session σ) :
    s.after (liftM (FileStore.isPresent path : StateM (Session σ) Bool)) = (.ok (present s.files path), s) := by
  show (match (FileStore.isPresent path : StateM σ Bool) s.files with
    | (a, files) => (Except.ok a, { s with files })) = _
  rw [isPresent_eq]

theorem after_readText? (path : String) (s : Session σ) :
    s.after (liftM (FileStore.readText? path : StateM (Session σ) (Option String))) =
      (.ok (text? s.files path), s) := by
  show (match (FileStore.readText? path : StateM σ (Option String)) s.files with
    | (a, files) => (Except.ok a, { s with files })) = _
  rw [readText?_eq]

theorem after_makeFolder (path : String) (s : Session σ) :
    s.after (liftM (FileStore.makeFolder path : StateM (Session σ) Bool)) =
      (.ok (withFolder s.files path).1, { s with files := (withFolder s.files path).2 }) :=
  rfl

theorem after_writeText (path text : String) (s : Session σ) :
    s.after (liftM (FileStore.writeText path text : StateM (Session σ) Bool)) =
      (.ok (withText s.files path text).1, { s with files := (withText s.files path text).2 }) :=
  rfl

end LawfulFileStore

/-! ## The stages of a run -/

namespace Invocation

open LawfulFileStore

/-- Reading the source leaves everything as it is. -/
theorem readSource_spec (i : Invocation) (s : Session σ) :
    ∃ r, s.after i.readSource = (r, s) ∧
      match r with
      | .ok (source, name) => i.HasSource s.files source name
      | .error e => i.Fails s.files e := by
  cases hi : i.input with
  | text source => exact ⟨.ok (source, "<input-string>"), by simp only [readSource, hi]; rfl, .text hi⟩
  | file path =>
    simp only [readSource, hi]
    rw [Session.after_bind_ok (after_isPresent path s)]
    cases hp : present s.files path with
    | false => exact ⟨.error (.inputNotFound path), rfl, .inputNotFound hi hp⟩
    | true =>
      rw [if_neg (by simp), Session.after_bind_ok (after_readText? path s)]
      cases ht : text? s.files path with
      | none => exact ⟨.error (.inputUnreadable path), rfl, .inputUnreadable hi hp ht⟩
      | some source => exact ⟨.ok (source, path), rfl, .file hi hp ht⟩

/-- So does reading the settings. -/
theorem settings_spec {i : Invocation} {s : Session σ} {source name : String} (hd : i.dumpRegistry = false)
    (hsource : i.HasSource s.files source name) :
    ∃ r, s.after i.settings = (r, s) ∧
      match r with
      | .ok c => i.HasSettings s.files c
      | .error e => i.Fails s.files e := by
  cases hc : i.config with
  | none => exact ⟨.ok (i.adjust {}), by simp only [settings, hc]; rfl, .default hc (i.overrides_adjust {})⟩
  | some path =>
    simp only [settings, hc]
    rw [Session.after_bind_ok (after_readText? path s)]
    cases ht : text? s.files path with
    | none => exact ⟨.error (.configUnreadable path), rfl, .configUnreadable hd hsource hc ht⟩
    | some text =>
      cases ho : Config.ofText? text with
      | none => exact ⟨.error (.configInvalid path), by simp only [ho]; rfl, .configInvalid hd hsource hc ht ho⟩
      | some c => exact ⟨.ok (i.adjust c), by simp only [ho]; rfl, .file hc ht ho (i.overrides_adjust c)⟩

/-- A text that is put under the output path replaces one file, or none. -/
theorem writeText_spec {i : Invocation} {s : Session σ} {name code path : String} {t : σ}
    (hc : i.Compiles s.files name (.ok code)) (ho : i.output = some path) (ht : FolderReady path s.files t) :
    ∃ r u, Session.after { s with files := t } (do
        if !(← (FileStore.writeText path code : StateM (Session σ) Bool)) then throw (.outputNotWritten path)) =
        (r, { s with files := u }) ∧
      match r with
      | .ok () => Replaces s.files u path code
      | .error e => i.Fails s.files e ∧ e.isOfOutput = true ∧ content? u = content? s.files := by
  rw [Session.after_bind_ok (after_writeText path code _)]
  cases hw : (withText t path code).1 with
  | false =>
    refine ⟨.error (.outputNotWritten path), (withText t path code).2, rfl, .outputNotWritten hc ho ht hw, rfl, ?_⟩
    rw [← ht.content?]
    exact writeText_failed path code t hw
  | true =>
    refine ⟨.ok (), (withText t path code).2, rfl, ?_⟩
    obtain ⟨place, hplace, hcontent, hothers⟩ := writeText_worked path code t hw
    exact ⟨place, hplace, hcontent, fun other hother => by rw [← ht.content?]; exact hothers other hother⟩

/-- Writing the output fails and changes no file, or replaces the one under its path. -/
theorem writeOutput_spec {i : Invocation} {s : Session σ} {name code path : String}
    (hc : i.Compiles s.files name (.ok code)) (ho : i.output = some path) :
    ∃ r u, s.after (writeOutput path code) = (r, { s with files := u }) ∧
      match r with
      | .ok () => Replaces s.files u path code
      | .error e => i.Fails s.files e ∧ e.isOfOutput = true ∧ content? u = content? s.files := by
  simp only [writeOutput]
  cases he : (Path.parent path).isEmpty with
  | true => exact writeText_spec hc ho (.unnamed he)
  | false =>
    rw [if_pos (by simp), Session.after_bind_ok (after_makeFolder _ s)]
    cases hm : (withFolder s.files (Path.parent path)).1 with
    | false =>
      exact ⟨.error (.folderNotCreated (Path.parent path)), (withFolder s.files (Path.parent path)).2, rfl,
        .folderNotCreated hc ho he hm, rfl, makeFolder_keeps (Path.parent path) s.files⟩
    | true => exact writeText_spec hc ho (.made he (Prod.ext hm rfl))

/-- A generated file is given back, or replaces the file under the output path. -/
theorem deliver_spec {i : Invocation} {s : Session σ} {name code : String}
    (hc : i.Compiles s.files name (.ok code)) :
    ∃ r u, s.after (i.deliver code) = (r, { s with files := u }) ∧
      match r with
      | .ok text => i.Delivers s ⟨u, s.printed ++ text⟩
      | .error e => i.Fails s.files e ∧ e.isOfOutput = true ∧ content? u = content? s.files := by
  cases ho : i.output with
  | none => exact ⟨.ok code, s.files, by simp only [deliver, ho]; rfl, .printed hc ho⟩
  | some path =>
    obtain ⟨r, u, hr, hwritten⟩ := writeOutput_spec hc ho
    simp only [deliver, ho]
    cases r with
    | error e => exact ⟨.error e, u, Session.after_bind_error hr, hwritten⟩
    | ok => exact ⟨.ok _, u, Session.after_bind_ok hr, .written hc ho hwritten⟩

/-- What a run gives back is what it has to print, and no file has changed but the one under the output path. -/
theorem run_spec (i : Invocation) (s : Session σ) :
    ∃ r u, s.after i.run = (r, { s with files := u }) ∧
      match r with
      | .ok text => i.Delivers s ⟨u, s.printed ++ text⟩
      | .error e => i.Fails s.files e ∧ content? u = content? s.files ∧ (e.isOfOutput = false → u = s.files) := by
  obtain ⟨r, hr, hsource⟩ := i.readSource_spec s
  simp only [run]
  cases r with
  | error e => exact ⟨.error e, s.files, Session.after_bind_error hr, hsource, rfl, fun _ => rfl⟩
  | ok read =>
    obtain ⟨source, name⟩ := read
    rw [Session.after_bind_ok hr]
    cases hd : i.dumpRegistry with
    | true => exact ⟨.ok _, s.files, rfl, .dumped hd hsource⟩
    | false =>
      obtain ⟨r, hr, hsettings⟩ := settings_spec hd hsource
      rw [if_neg (by simp)]
      cases r with
      | error e => exact ⟨.error e, s.files, Session.after_bind_error hr, hsettings, rfl, fun _ => rfl⟩
      | ok c =>
        rw [Session.after_bind_ok hr]
        have hcompiles : i.Compiles s.files name (Program.compileFile c source) := .intro hd hsource hsettings
        cases hcode : Program.compileFile c source with
        | error e =>
          rw [hcode] at hcompiles
          exact ⟨.error (.compilation (e.inSource name)), s.files, rfl, .compilation hcompiles, rfl, fun _ => rfl⟩
        | ok code =>
          rw [hcode] at hcompiles
          obtain ⟨r, u, hr, hdelivered⟩ := deliver_spec hcompiles
          cases r with
          | error e =>
            obtain ⟨he, hlate, hsame⟩ := hdelivered
            refine ⟨.error e, u, hr, he, hsame, fun h => ?_⟩
            rw [hlate] at h
            cases h
          | ok text => exact ⟨.ok text, u, hr, hdelivered⟩

/-- The settings file is not looked at when the declarations found are asked for. -/
theorem perform_dump_config (i : Invocation) (config : Option String) (s : Session σ) :
    s.after ({ i with dumpRegistry := true, config } : Invocation).perform =
      s.after ({ i with dumpRegistry := true } : Invocation).perform := by
  simp only [perform, run, readSource, if_true]

/-- A run delivers what it is asked for, or fails and leaves no trace in print or in a file.  With the declarations
found as what is asked for, the settings file does not matter. -/
theorem perform_leaves (i : Invocation) (s : Session σ) :
    i.Leaves s (s.after i.perform) ∧
    ∀ config, s.after ({ i with dumpRegistry := true, config } : Invocation).perform =
      s.after ({ i with dumpRegistry := true } : Invocation).perform := by
  refine ⟨?_, fun config => i.perform_dump_config config s⟩
  obtain ⟨r, u, hr, hrun⟩ := i.run_spec s
  simp only [perform]
  cases r with
  | error e =>
    obtain ⟨he, hsame, hearly⟩ := hrun
    rw [Session.after_bind_error hr]
    exact .failed he rfl hsame fun h => by rw [hearly h]
  | ok text =>
    rw [Session.after_bind_ok hr, Session.after_print]
    exact .delivered hrun

/-- The output can be the file that the source comes from. -/
theorem perform_leaves_in_place :
    let s : Session FileTree := { files := { files := [(["in.ts"], "enum E \x7b A \x7d".toUTF8)] } }
    let i : Invocation := { input := .file "in.ts", output := some "in.ts", noBanner := true }
    i.Leaves s (s.after i.perform) ∧
    ∀ config, s.after ({ i with dumpRegistry := true, config } : Invocation).perform =
      s.after ({ i with dumpRegistry := true } : Invocation).perform := by
  intro s i
  exact perform_leaves i s

end Invocation

end TypeSchema
