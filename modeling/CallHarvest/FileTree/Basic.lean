import CallHarvest.FileTree.Disk

/-!
# File trees

A file tree holds directories, files and symbolic links.  Places in it are lists of names from the
root on; no name occurs twice in a directory.  A file is at one place only: there are no two names
for one file but those that lead to its place.

* `Node` — what can be at a place.
* `Node.WellFormed` — the names in each directory differ.
* `FileTree` — a root directory that is well formed, and the disk that it is on.
* `FileTree.get?`, `FileTree.put` — what is at a place, and a tree with something else there.
-/

namespace CallHarvest

/-- What can be at a place of a file tree. -/
inductive Node
  | file (content : ByteArray)
  | link (target : String)
  | dir (entries : List (String × Node))

/-- A place in a file tree: names from the root on. -/
abbrev Place : Type := List String

namespace Node

instance : Inhabited Node := ⟨.dir []⟩

/-! ### Well-formed trees -/

mutual

/-- Whether the names in the directory and in all directories below it differ. -/
def WellFormed : Node → Prop
  | .dir entries => (entries.map Prod.fst).Nodup ∧ AllWellFormed entries
  | .file _ => True
  | .link _ => True

/-- Whether all entries are well formed. -/
def AllWellFormed : List (String × Node) → Prop
  | [] => True
  | (_, n) :: entries => n.WellFormed ∧ AllWellFormed entries

end

theorem wellFormed_file (content : ByteArray) : (file content).WellFormed := trivial

theorem wellFormed_link (target : String) : (link target).WellFormed := trivial

theorem wellFormed_empty : (dir []).WellFormed := ⟨List.nodup_nil, trivial⟩

/-! ### Entries of a directory -/

/-- The entry of a name. -/
def child? (entries : List (String × Node)) (name : String) : Option Node :=
  entries.lookup name

/-- Entries with that of a name replaced, or added at the end. -/
def putEntry (name : String) (n : Node) : List (String × Node) → List (String × Node)
  | [] => [(name, n)]
  | (other, old) :: entries =>
    if other = name then (other, n) :: entries else (other, old) :: putEntry name n entries

theorem child?_putEntry {name other : String} {n : Node} {entries : List (String × Node)} :
    child? (putEntry name n entries) other =
      if other = name then some n else child? entries other := by
  induction entries with
  | nil =>
    by_cases h : other = name
    · simp [putEntry, child?, h]
    · have hb : (other == name) = false := by simpa using h
      simp [putEntry, child?, List.lookup_cons, h, hb]
  | cons e entries ih =>
    obtain ⟨key, old⟩ := e
    rw [child?, child?] at ih
    by_cases hk : key = name
    · rw [putEntry, if_pos hk, hk, child?, child?, List.lookup_cons, List.lookup_cons]
      by_cases h : other = name
      · simp [h]
      · have hb : (other == name) = false := by simpa using h
        simp [h, hb]
    · rw [putEntry, if_neg hk, child?, child?, List.lookup_cons, List.lookup_cons, ih]
      by_cases ho : other = key
      · simp [ho, hk]
      · have hb : (other == key) = false := by simpa using ho
        simp [hb]

theorem mem_names_putEntry {name other : String} {n : Node} {entries : List (String × Node)} :
    other ∈ (putEntry name n entries).map Prod.fst ↔
      other = name ∨ other ∈ entries.map Prod.fst := by
  induction entries with
  | nil => simp [putEntry]
  | cons e entries ih =>
    obtain ⟨key, old⟩ := e
    by_cases h : key = name
    · simp [putEntry, h]
    · rw [putEntry, if_neg h, List.map_cons, List.mem_cons, ih, List.map_cons, List.mem_cons]
      exact or_left_comm

theorem nodup_putEntry {name : String} {n : Node} {entries : List (String × Node)}
    (h : (entries.map Prod.fst).Nodup) : ((putEntry name n entries).map Prod.fst).Nodup := by
  induction entries with
  | nil => simp [putEntry]
  | cons e entries ih =>
    obtain ⟨key, old⟩ := e
    rw [List.map_cons, List.nodup_cons] at h
    by_cases hk : key = name
    · rw [putEntry, if_pos hk, List.map_cons, List.nodup_cons]
      exact h
    · rw [putEntry, if_neg hk, List.map_cons, List.nodup_cons, mem_names_putEntry]
      exact ⟨fun hm => hm.elim hk h.1, ih h.2⟩

theorem allWellFormed_putEntry {name : String} {n : Node} {entries : List (String × Node)}
    (hn : n.WellFormed) (h : AllWellFormed entries) : AllWellFormed (putEntry name n entries) := by
  induction entries with
  | nil => exact ⟨hn, trivial⟩
  | cons e entries ih =>
    obtain ⟨key, old⟩ := e
    by_cases hk : key = name
    · rw [putEntry, if_pos hk]
      exact ⟨hn, h.2⟩
    · rw [putEntry, if_neg hk]
      exact ⟨h.1, ih h.2⟩

theorem wellFormed_of_child? {name : String} {n : Node} {entries : List (String × Node)}
    (h : AllWellFormed entries) (hn : child? entries name = some n) : n.WellFormed := by
  induction entries with
  | nil => exact nomatch hn
  | cons e entries ih =>
    obtain ⟨key, old⟩ := e
    rw [child?, List.lookup_cons] at hn
    split at hn
    · obtain rfl := Option.some.inj hn
      exact h.1
    · exact ih h.2 hn

/-! ### Places -/

/-- What is at a place below a node. -/
def get? : Node → Place → Option Node
  | n, [] => some n
  | .dir entries, name :: place => (child? entries name).bind fun n => n.get? place
  | _, _ :: _ => none

/-- A node with another one at a place below it.  Directories on the way are made; below a file or
a link there is no place, and nothing changes. -/
def put (new : Node) : Place → Node → Node
  | [], _ => new
  | name :: place, .dir entries =>
    .dir (putEntry name (put new place ((child? entries name).getD (.dir []))) entries)
  | _ :: _, n => n

theorem wellFormed_put {new n : Node} {place : Place} (hnew : new.WellFormed)
    (hn : n.WellFormed) : (put new place n).WellFormed := by
  induction place generalizing n with
  | nil => exact hnew
  | cons name place ih =>
    cases n with
    | file content => exact hn
    | link target => exact hn
    | dir entries =>
      rw [put]
      have hchild : ((child? entries name).getD (.dir [])).WellFormed := by
        cases he : child? entries name with
        | none => exact wellFormed_empty
        | some child => exact wellFormed_of_child? hn.2 he
      exact ⟨nodup_putEntry hn.1, allWellFormed_putEntry (ih hchild) hn.2⟩

end Node

/-! ### File trees -/

/-- A file tree: the entries of its root directory, and the disk that it is on. -/
structure FileTree where
  entries : List (String × Node)
  wellFormed : (Node.dir entries).WellFormed
  disk : Disk := []

namespace FileTree

/-- The tree with an empty root directory, on a disk that does all that it is asked. -/
def empty : FileTree := { entries := [], wellFormed := Node.wellFormed_empty }

instance : Inhabited FileTree := ⟨empty⟩

/-- The root directory. -/
def root (t : FileTree) : Node := .dir t.entries

/-- What is at a place. -/
def get? (t : FileTree) (place : Place) : Option Node := t.root.get? place

/-- The tree with something else at a place.  At the place of the root nothing changes. -/
def put (t : FileTree) (place : Place) (new : Node) (h : new.WellFormed) : FileTree :=
  match hn : Node.put new place t.root, place with
  | .dir entries, _ :: _ =>
    { t with entries, wellFormed := hn ▸ Node.wellFormed_put h t.wellFormed }
  | _, _ => t

/-- The tree with a file at a place. -/
def putFile (t : FileTree) (place : Place) (content : ByteArray) : FileTree :=
  t.put place (.file content) (Node.wellFormed_file content)

/-- The tree with a link at a place. -/
def putLink (t : FileTree) (place : Place) (target : String) : FileTree :=
  t.put place (.link target) (Node.wellFormed_link target)

/-- The tree with an empty directory at a place. -/
def putDir (t : FileTree) (place : Place) : FileTree :=
  t.put place (.dir []) Node.wellFormed_empty

/-- The same entries on another disk. -/
def onDisk (t : FileTree) (disk : Disk) : FileTree :=
  { t with disk }

theorem disk_put (t : FileTree) (place : Place) {new : Node} (h : new.WellFormed) :
    (t.put place new h).disk = t.disk := by
  unfold put
  split <;> rfl

end FileTree

end CallHarvest
