namespace Breadboard

/-- Why a path cannot be read or written. -/
inductive FileError where
  | missing
  | denied
  | notFolder
  | isFolder
  | nameTooLong
  | other (text : String)
  deriving DecidableEq, Repr, Inhabited

/-- The text of the error, with the number that the system gives it. -/
def FileError.message : FileError → String
  | .missing => "No such file or directory (os error 2)"
  | .denied => "Permission denied (os error 13)"
  | .notFolder => "Not a directory (os error 20)"
  | .isFolder => "Is a directory (os error 21)"
  | .nameTooLong => "File name too long (os error 36)"
  | .other text => text

/-- The names that lead from the root to a place. -/
abbrev Location := List String

/-- What stands at a location. -/
inductive Place where
  | folder
  | file (content : ByteArray)

/-- The places in use, of two at one location the first, and the folder where paths start. -/
structure Disk where
  places : List (Location × Place)
  working : Location := []

namespace Disk

def place? (d : Disk) (l : Location) : Option Place := (d.places.find? (·.1 == l)).map (·.2)

/-- The disk after a file was put at a location. -/
def put (d : Disk) (l : Location) (content : ByteArray) : Disk :=
  { d with places := (l, .file content) :: d.places }

theorem place?_put_self (d : Disk) (l : Location) (content : ByteArray) :
    (d.put l content).place? l = some (.file content) := by
  simp [place?, put]

theorem place?_put_of_ne (d : Disk) {l k : Location} (content : ByteArray) (h : l ≠ k) :
    (d.put l content).place? k = d.place? k := by
  simp [place?, put, h]

/-- The content of the file at a location. -/
def content? (d : Disk) (l : Location) : Option ByteArray :=
  match d.place? l with
  | some (.file content) => some content
  | _ => none

/-- One name further from a location, which has to be a folder. Nothing need stand there. -/
def enter (d : Disk) (here : Location) (name : String) : Except FileError Location :=
  match d.place? here with
  | none => .error .missing
  | some (.file _) => .error .notFolder
  | some .folder =>
    if name = "." then .ok here
    else if name = ".." then .ok here.dropLast
    else if 255 < name.utf8ByteSize then .error .nameTooLong
    else .ok (here ++ [name])

/-- Name after name from a location. -/
def walk (d : Disk) : Location → List String → Except FileError Location
  | here, [] => .ok here
  | here, name :: names => (d.enter here name).bind (d.walk · names)

/-- Only a folder has a place for a name. -/
theorem folder_of_enter (d : Disk) {here l : Location} {name : String}
    (h : d.enter here name = .ok l) : d.place? here = some .folder := by
  unfold enter at h
  split at h <;> simp_all

/-- A file does not stand in the way of a walk that ends at it. -/
theorem walk_put (d : Disk) (content : ByteArray) {l : Location}
    (hl : d.place? l ≠ some .folder) (here : Location) (names : List String)
    (h : d.walk here names = .ok l) : (d.put l content).walk here names = .ok l := by
  induction names generalizing here with
  | nil => exact h
  | cons name names ih =>
    unfold walk at h ⊢
    cases he : d.enter here name with
    | error e => rw [he] at h; simp [Except.bind] at h
    | ok next =>
      have hne : l ≠ here := fun e => hl (e ▸ d.folder_of_enter he)
      have hput : (d.put l content).enter here name = .ok next := by
        rw [← he]
        simp only [enter, d.place?_put_of_ne content hne]
      rw [he] at h
      rw [hput]
      exact ih next h

/-- A walk whose last name is the dot ends at a folder. -/
theorem folder_of_walk_dot (d : Disk) {l : Location} (here : Location) (names : List String)
    (h : d.walk here (names ++ ["."]) = .ok l) : d.place? l = some .folder := by
  induction names generalizing here with
  | nil =>
    cases he : d.enter here "." with
    | error e => simp [walk, he, Except.bind] at h
    | ok next =>
      have hf := d.folder_of_enter he
      have hn : here = next := by simpa [enter, hf] using he
      have hl : next = l := by simpa [walk, he, Except.bind] using h
      rw [← hl, ← hn, hf]
  | cons name names ih =>
    cases he : d.enter here name with
    | error e => simp [walk, he, Except.bind] at h
    | ok next => exact ih next (by simpa [walk, he, Except.bind] using h)

def start (d : Disk) (path : String) : Location := if path.startsWith "/" then [] else d.working

def names (path : String) : List String := (path.splitOn "/").filter (· ≠ "")

/-- The location that names lead to, if the path has an admissible length. -/
def locate (d : Disk) (path : String) (names : List String) : Except FileError Location :=
  if path = "" then .error .missing
  else if 4096 ≤ path.utf8ByteSize then .error .nameTooLong
  else d.walk (d.start path) names

/-- The content of what a path leads to; a slash at the end asks for a folder. A folder can be
opened as well and has no content. -/
def read (d : Disk) (path : String) : Except FileError ByteArray :=
  (d.locate path (if path.endsWith "/" then names path ++ ["."] else names path)).bind fun l =>
    match d.place? l with
    | none => .error .missing
    | some .folder => .ok ByteArray.empty
    | some (.file content) => .ok content

/-- The location of the file that a path names for writing. A slash at the end names no file, and
this is noticed before the name in front of it is looked up. -/
def target (d : Disk) (path : String) : Except FileError Location :=
  (d.locate path
    (if path.endsWith "/" then (names path).dropLast ++ ["."] else names path)).bind fun l =>
      match d.place? l with
      | some .folder => .error .isFolder
      | _ => .ok l

/-- Write a file, which is made if it is not there. -/
def write (d : Disk) (path : String) (content : ByteArray) : Except FileError Disk :=
  (d.target path).map (d.put · content)

theorem locate_put (d : Disk) (content : ByteArray) {l : Location}
    (hl : d.place? l ≠ some .folder) (path : String) (names : List String)
    (h : d.locate path names = .ok l) : (d.put l content).locate path names = .ok l := by
  unfold locate at h ⊢
  split at h
  · simp at h
  · split at h
    · simp at h
    · simp_all only [if_false]
      exact d.walk_put content hl _ _ h

/-- A location to write to was walked to without a slash at the end, and is no folder. -/
theorem target_eq_ok (d : Disk) {path : String} {l : Location} (h : d.target path = .ok l) :
    d.locate path (names path) = .ok l ∧ d.place? l ≠ some .folder ∧
      path.endsWith "/" = false := by
  unfold target at h
  generalize hn : (if path.endsWith "/" then _ else _ : List String) = ns at h
  cases hw : d.locate path ns with
  | error e => simp [hw, Except.bind] at h
  | ok k =>
    rw [hw] at h
    have hk : d.place? k ≠ some .folder := by
      intro hf
      simp [Except.bind, hf] at h
    have hkl : k = l := by
      simp only [Except.bind] at h
      exact Except.ok.inj h
    subst hkl
    by_cases hs : path.endsWith "/" = true
    · exfalso
      rw [if_pos hs] at hn
      subst hn
      unfold locate at hw
      split at hw
      · simp at hw
      · split at hw
        · simp at hw
        · exact hk (d.folder_of_walk_dot _ _ hw)
    · rw [if_neg hs] at hn
      subst hn
      exact ⟨hw, hk, by simpa using hs⟩

/-- What was written to a path is read from it. -/
theorem read_of_write (d d' : Disk) (path : String) (content : ByteArray)
    (h : d.write path content = .ok d') : d'.read path = .ok content := by
  unfold write at h
  cases ht : d.target path with
  | error e => simp [ht, Except.map] at h
  | ok l =>
    obtain ⟨hw, hl, hs⟩ := d.target_eq_ok ht
    have hd : d.put l content = d' := by simpa [ht, Except.map] using h
    rw [← hd]
    simp [read, hs, d.locate_put content hl path _ hw, Except.bind, place?_put_self]

end Disk

end Breadboard
