import TypeSchema.Path

/-!
# Files

`FileStore` is what a run needs of the world outside; `FileTree` is a tree of files and folders in
memory that can stand for it.  A path that starts with a slash is followed from the root of the
tree, any other from its current folder.  Writing changes one file (`file?_put`), and making folders
changes none (`files_makeFolders?`).
-/

namespace TypeSchema

/-- A place where texts are stored under paths. -/
class FileStore (m : Type → Type) where
  /-- Whether there is a file or folder. -/
  isPresent : String → m Bool
  /-- The text of a file, if it is one and holds a text. -/
  readText? : String → m (Option String)
  /-- Creates a folder and the folders it stands in, and says whether it is there now. -/
  makeFolder : String → m Bool
  /-- Puts a text into a file, and says whether that worked. -/
  writeText : String → String → m Bool

/-- Files and folders below a root.  A place is the list of names that leads to it from the root. -/
structure FileTree where
  files : List (List String × ByteArray) := []
  folders : List (List String) := []
  /-- Places of files that can be neither read nor written. -/
  locked : List (List String) := []
  /-- The place of the current folder. -/
  current : List String := []

namespace FileTree

/-- A tree with the usual folders and an empty current folder. -/
def host : FileTree where
  files := [(["dev", "null"], .empty)]
  folders := [["bin"], ["boot"], ["etc"], ["home"], ["lib"], ["media"], ["mnt"], ["opt"], ["proc"],
    ["root"], ["run"], ["sbin"], ["srv"], ["sys"], ["usr", "bin"], ["usr", "lib"],
    ["usr", "local"], ["usr", "share"], ["var", "tmp"]]
  locked := [["dev", "full"]]
  current := ["tmp", "work"]

/-- The content of the file at a place. -/
def file? (t : FileTree) (place : List String) : Option ByteArray := t.files.lookup place

/-- Whether there is a folder at a place: the root, the current folder or one that it stands in, a
folder by itself, or one with content. -/
def isFolder (t : FileTree) (place : List String) : Bool :=
  place.isPrefixOf t.current || t.folders.any (place.isPrefixOf ·)
    || (t.files.map (·.1) ++ t.locked).any fun f => place.isPrefixOf f && f != place

/-- Whether there is something else than a folder at a place. -/
def isFile (t : FileTree) (place : List String) : Bool :=
  (t.file? place).isSome || t.locked.contains place

/-- The place that a part of a path leads to from a folder.  Above the root is the root. -/
def step (place : List String) (part : String) : List String :=
  if part = "" ∨ part = "." then place
  else if part = ".." then place.dropLast
  else place ++ [part]

/-- The place that is reached from `place` along the parts of a path.  Every part has to start at a
folder. -/
def walk? (t : FileTree) (place : List String) : List String → Option (List String)
  | [] => some place
  | part :: parts => if t.isFolder place then t.walk? (step place part) parts else none

/-- The place at which a path starts. -/
def start (t : FileTree) (path : String) : List String :=
  if Path.isAbsolute path then [] else t.current

/-- The place of a path. -/
def locate? (t : FileTree) (path : String) : Option (List String) :=
  if Path.isUsable path then t.walk? (t.start path) (Path.parts path) else none

/-- Whether there is a file or folder under a path. -/
def isPresent (t : FileTree) (path : String) : Bool :=
  match t.locate? path with
  | some place => t.isFolder place || t.isFile place
  | none => false

/-- The text of the file under a path. -/
def readText? (t : FileTree) (path : String) : Option String := do
  let place ← t.locate? path
  if t.locked.contains place then none else String.fromUTF8? (← t.file? place)

/-- The tree with this content in the file at a place. -/
def put (t : FileTree) (place : List String) (content : ByteArray) : FileTree :=
  { t with files := (place, content) :: t.files.filter fun f => f.1 != place }

/-- Entries of another place do not matter for a look-up. -/
theorem lookup_filter_ne {place q : List String} (h : q ≠ place) :
    ∀ l : List (List String × ByteArray), (l.filter fun f => f.1 != place).lookup q = l.lookup q
  | [] => rfl
  | (p, content) :: l => by
    have ih := lookup_filter_ne h l
    by_cases hp : p = place
    · have : (q == place) = false := beq_false_of_ne h
      simp [hp, ih, List.lookup_cons, this]
    · simp [hp, ih, List.lookup_cons]

theorem file?_put (t : FileTree) (place q : List String) (content : ByteArray) :
    (t.put place content).file? q = if q = place then some content else t.file? q := by
  by_cases h : q = place
  · simp [put, file?, h]
  · have : (q == place) = false := beq_false_of_ne h
    simp [put, file?, h, List.lookup_cons, this, lookup_filter_ne h]

/-- The tree with this content in the file, or with the folder, under a path of names from the
current folder.  The path of a folder ends with a slash. -/
def add (t : FileTree) (path : String) (content : ByteArray) : FileTree :=
  let place := t.current ++ (Path.parts path).filter fun name => !name.isEmpty
  if path.endsWith "/" then { t with folders := place :: t.folders } else t.put place content

/-- The tree with a text in the file under a path. -/
def writeText? (t : FileTree) (path text : String) : Option FileTree := do
  let place ← t.locate? path
  if t.isFolder place || t.locked.contains place then none else return t.put place text.toUTF8

/-- The tree with the folders along the parts of a path, from `place` on. -/
def makeFolders? (t : FileTree) (place : List String) : List String → Option FileTree
  | [] => some t
  | part :: parts =>
    let next := step place part
    if t.isFile next then none
    else { t with folders := next :: t.folders }.makeFolders? next parts

theorem files_makeFolders? {t u : FileTree} {place parts : List String}
    (h : t.makeFolders? place parts = some u) : u.files = t.files := by
  induction parts generalizing t place with
  | nil => simp_all [makeFolders?]
  | cons part parts ih =>
    rw [makeFolders?] at h
    split at h
    · cases h
    · simpa using ih h

/-- The tree with the folder under a path. -/
def makeFolder? (t : FileTree) (path : String) : Option FileTree :=
  if Path.isUsable path then t.makeFolders? (t.start path) (Path.parts path) else none

/-- The path of a place from the current folder, if it is below. -/
def relative? (t : FileTree) (place : List String) : Option String :=
  if t.current.isPrefixOf place then
    some ("/".intercalate (place.drop t.current.length))
  else none

/-- The files below the current folder that are not the same in an older tree, by their paths. -/
def changesSince (t old : FileTree) : List (String × ByteArray) :=
  (t.files.filter fun f => old.file? f.1 != some f.2).filterMap fun f =>
    (t.relative? f.1).map fun path => (path, f.2)

/-- Replaces the tree if there is a new one, and says whether there is. -/
def update (next? : FileTree → Option FileTree) : StateM FileTree Bool := fun t =>
  match next? t with
  | some u => (true, u)
  | none => (false, t)

instance : FileStore (StateM FileTree) where
  isPresent path := fun t => (t.isPresent path, t)
  readText? path := fun t => (t.readText? path, t)
  makeFolder path := update fun t => t.makeFolder? path
  writeText path text := update fun t => t.writeText? path text

end FileTree

end TypeSchema
