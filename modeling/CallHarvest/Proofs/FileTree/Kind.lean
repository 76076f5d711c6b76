import CallHarvest.FileTree.Basic
import Mathlib.Data.List.Basic

/-!
# What can be seen at the places of a tree

Two trees may hold the same things at the same places and still differ, in the order of the entries
of their directories.  What can be seen of a tree is what is at each of its places, without what is
below.

* `Kind`, `FileTree.kind?` — what is at a place, without what is below it.
* `Node.get?_append` — a place below a place.
* `FileTree.kind?_eq_dir_of_append` — above something there are only directories.
* `FileTree.kind?_putFile`, `FileTree.kind?_putDir` — a new file or directory is seen at its own
  place, and nowhere else.
* `FileTree.SameLook` — trees with the same at every place.
* `FileTree.make`, `FileTree.sameLook_make` — trees in which the same entries were made, in any
  order, are such trees.
-/

namespace CallHarvest

/-- What is at a place, without what is below it. -/
inductive Kind
  | file (content : ByteArray)
  | link (target : String)
  | dir

instance : DecidableEq Kind
  | .file a, .file b =>
    decidable_of_iff (a.data = b.data) (by rw [Kind.file.injEq, ByteArray.ext_iff])
  | .link a, .link b => decidable_of_iff (a = b) (by rw [Kind.link.injEq])
  | .dir, .dir => isTrue rfl
  | .file _, .link _ | .file _, .dir | .link _, .file _ | .link _, .dir | .dir, .file _
  | .dir, .link _ => isFalse nofun

/-- What a node is, without what is below it. -/
def Node.kind : Node → Kind
  | .file content => .file content
  | .link target => .link target
  | .dir _ => .dir

/-- A node that nothing is below. -/
def Node.IsBare (n : Node) : Prop :=
  ∀ place, place ≠ [] → n.get? place = none

namespace Kind

/-- A node that is of a kind, with nothing below it. -/
def node : Kind → Node
  | .file content => .file content
  | .link target => .link target
  | .dir => .dir []

theorem kind_node (k : Kind) : k.node.kind = k := by
  cases k <;> rfl

theorem wellFormed_node (k : Kind) : k.node.WellFormed := by
  cases k with
  | file content => exact Node.wellFormed_file content
  | link target => exact Node.wellFormed_link target
  | dir => exact Node.wellFormed_empty

theorem isBare_node (k : Kind) : k.node.IsBare := by
  intro place h
  cases place with
  | nil => exact absurd rfl h
  | cons name place => cases k <;> rfl

end Kind

namespace Node

variable {n m new : Node} {place q r : Place}

theorem get?_nil (n : Node) : n.get? [] = some n := by
  cases n <;> rfl

theorem get?_dir_cons (entries : List (String × Node)) (name : String) (place : Place) :
    (dir entries).get? (name :: place) = (child? entries name).bind fun n => n.get? place := rfl

/-- What is below a node is below a directory. -/
theorem exists_of_get?_cons {name : String} (h : n.get? (name :: place) = some m) :
    ∃ entries child, n = .dir entries ∧ child? entries name = some child ∧
      child.get? place = some m := by
  cases n with
  | file content => exact nomatch h
  | link target => exact nomatch h
  | dir entries =>
    rw [get?_dir_cons] at h
    obtain ⟨child, hchild, hm⟩ := Option.bind_eq_some_iff.1 h
    exact ⟨entries, child, rfl, hchild, hm⟩

/-- A place below a place. -/
theorem get?_append (n : Node) (q r : Place) :
    n.get? (q ++ r) = (n.get? q).bind fun m => m.get? r := by
  induction q generalizing n with
  | nil => rw [List.nil_append, get?_nil, Option.bind_some]
  | cons name q ih =>
    cases n with
    | file content => rfl
    | link target => rfl
    | dir entries =>
      rw [List.cons_append, get?_dir_cons, get?_dir_cons]
      cases child? entries name with
      | none => rfl
      | some child => exact ih child

/-- On the way to the new node the old ones stay, with the new one below them. -/
theorem get?_put_append (h : n.get? q = some m) :
    (put new (q ++ r) n).get? q = some (put new r m) := by
  induction q generalizing n with
  | nil =>
    rw [get?_nil] at h
    obtain rfl := Option.some.inj h
    rw [List.nil_append, get?_nil]
  | cons name q ih =>
    obtain ⟨entries, child, rfl, hchild, hm⟩ := exists_of_get?_cons h
    rw [List.cons_append, put, get?_dir_cons, child?_putEntry, if_pos rfl, hchild]
    exact ih hm

/-- At places that are not on the way to the new node, nor below it, nothing changes. -/
theorem get?_put_of_apart (hplace : ¬ place <+: q) (hq : ¬ q <+: place) :
    (put new place n).get? q = n.get? q := by
  induction place generalizing n q with
  | nil => exact absurd List.nil_prefix hplace
  | cons name place ih =>
    cases q with
    | nil => exact absurd List.nil_prefix hq
    | cons other q =>
      cases n with
      | file content => rfl
      | link target => rfl
      | dir entries =>
        rw [put, get?_dir_cons, get?_dir_cons, child?_putEntry]
        by_cases h : other = name
        · subst h
          rw [List.prefix_cons_inj] at hplace hq
          rw [if_pos rfl, Option.bind_some, ih hplace hq]
          cases child? entries other with
          | none =>
            have hne : q ≠ [] := by
              rintro rfl
              exact hq List.nil_prefix
            exact Kind.dir.isBare_node q hne
          | some child => rfl
        · rw [if_neg h]

end Node

namespace FileTree

variable {t : FileTree} {place here q r : Place} {name : String} {new : Node}

/-- What is at a place, without what is below it. -/
def kind? (t : FileTree) (place : Place) : Option Kind :=
  (t.get? place).map Node.kind

theorem kind?_eq_none_iff : t.kind? place = none ↔ t.get? place = none :=
  Option.map_eq_none_iff

theorem kind?_eq_dir_iff :
    t.kind? place = some .dir ↔ ∃ entries, t.get? place = some (.dir entries) := by
  rw [kind?]
  cases t.get? place with
  | none => simp
  | some n => cases n <;> simp [Node.kind]

theorem kind?_eq_file_iff {content : ByteArray} :
    t.kind? place = some (.file content) ↔ t.get? place = some (.file content) := by
  rw [kind?]
  cases t.get? place with
  | none => simp
  | some n => cases n <;> simp [Node.kind]

theorem kind?_eq_link_iff {target : String} :
    t.kind? place = some (.link target) ↔ t.get? place = some (.link target) := by
  rw [kind?]
  cases t.get? place with
  | none => simp
  | some n => cases n <;> simp [Node.kind]

theorem get?_append (t : FileTree) (q r : Place) :
    t.get? (q ++ r) = (t.get? q).bind fun n => n.get? r :=
  Node.get?_append t.root q r

theorem kind?_nil (t : FileTree) : t.kind? [] = some .dir := rfl

@[simp] theorem kind?_onDisk (t : FileTree) (disk : Disk) (place : Place) :
    (t.onDisk disk).kind? place = t.kind? place := rfl

/-- Above something there are only directories. -/
theorem kind?_eq_dir_of_append (h : t.kind? (q ++ r) ≠ none) (hr : r ≠ []) :
    t.kind? q = some .dir := by
  rw [Ne, kind?_eq_none_iff, get?_append] at h
  cases hq : t.get? q with
  | none =>
    rw [hq] at h
    exact absurd rfl h
  | some n =>
    rw [hq, Option.bind_some] at h
    cases n with
    | file content => exact absurd ((Kind.file content).isBare_node r hr) h
    | link target => exact absurd ((Kind.link target).isBare_node r hr) h
    | dir entries => exact kind?_eq_dir_iff.2 ⟨entries, hq⟩

/-- On the way to something there are only directories. -/
theorem kind?_eq_dir_of_above (h : t.kind? (here ++ q) ≠ none) (hr : r <+: q) (hne : r ≠ q) :
    t.kind? (here ++ r) = some .dir := by
  obtain ⟨s, rfl⟩ := hr
  rw [← List.append_assoc] at h
  refine kind?_eq_dir_of_append h ?_
  rintro rfl
  exact hne (List.append_nil r).symm

/-- Below what is no directory there is nothing. -/
theorem kind?_append_eq_none (h : t.kind? q ≠ some .dir) (hr : r ≠ []) :
    t.kind? (q ++ r) = none := by
  by_contra hne
  exact h (kind?_eq_dir_of_append hne hr)

theorem kind?_eq_dir_of_prefix (h : t.kind? r = some .dir) (hq : q <+: r) :
    t.kind? q = some .dir := by
  obtain ⟨s, rfl⟩ := hq
  cases s with
  | nil => rwa [List.append_nil] at h
  | cons name s =>
    have hne : t.kind? (q ++ name :: s) ≠ none := by
      rw [h]
      exact Option.some_ne_none _
    exact kind?_eq_dir_of_append hne (List.cons_ne_nil name s)

/-- The directory above a directory is one. -/
theorem kind?_dropLast (h : t.kind? place = some .dir) : t.kind? place.dropLast = some .dir :=
  kind?_eq_dir_of_prefix h (List.dropLast_prefix place)

theorem root_put {hnew : new.WellFormed} (h : place ≠ []) :
    (t.put place new hnew).root = Node.put new place t.root := by
  cases place with
  | nil => exact absurd rfl h
  | cons name place =>
    unfold put
    split
    · rename_i entries hput _
      exact hput.symm
    · rename_i hnone
      exact absurd rfl (hnone _ name place rfl)

/-- A new node that nothing is below is seen at its own place, and nowhere else. -/
theorem kind?_put {hnew : new.WellFormed} (hbare : new.IsBare) (hdir : t.kind? here = some .dir)
    (hold : t.kind? (here ++ [name]) ≠ some .dir) :
    (t.put (here ++ [name]) new hnew).kind? q =
      if q = here ++ [name] then some new.kind else t.kind? q := by
  have hroot : (t.put (here ++ [name]) new hnew).root = Node.put new (here ++ [name]) t.root :=
    root_put (List.concat_ne_nil name here)
  have hself : (Node.put new (here ++ [name]) t.root).get? (here ++ [name]) = some new := by
    obtain ⟨entries, hentries⟩ := kind?_eq_dir_iff.1 hdir
    rw [Node.get?_append, Node.get?_put_append hentries, Option.bind_some, Node.put,
      Node.get?_dir_cons, Node.child?_putEntry, if_pos rfl, Option.bind_some, Node.get?_nil]
    rfl
  rw [kind?, get?, hroot]
  by_cases hbelow : here ++ [name] <+: q
  · obtain ⟨rest, rfl⟩ := hbelow
    cases rest with
    | nil => rw [List.append_nil, hself, if_pos rfl, Option.map_some]
    | cons other rest =>
      -- nothing is below the new node, and nothing was below the old one
      have hne : other :: rest ≠ [] := List.cons_ne_nil other rest
      have hq : here ++ [name] ++ other :: rest ≠ here ++ [name] := by simp
      rw [if_neg hq, kind?_append_eq_none hold hne, Node.get?_append, hself, Option.bind_some,
        hbare _ hne, Option.map_none]
  · have hq : q ≠ here ++ [name] := by
      rintro rfl
      exact hbelow List.prefix_rfl
    rw [if_neg hq]
    by_cases habove : q <+: here ++ [name]
    · -- above the new node there were directories, and they are still there
      obtain ⟨r, rfl⟩ := (List.prefix_concat_iff.1 habove).resolve_left hq
      have hqdir : t.kind? q = some .dir := kind?_eq_dir_of_prefix hdir (List.prefix_append q r)
      obtain ⟨entries, hentries⟩ := kind?_eq_dir_iff.1 hqdir
      rw [hqdir, List.append_assoc, Node.get?_put_append hentries, Option.map_some]
      cases r <;> rfl
    · rw [Node.get?_put_of_apart hbelow habove]
      rfl

/-- **A new file is seen at its own place, and nowhere else.** -/
theorem kind?_putFile {content : ByteArray} (hdir : t.kind? here = some .dir)
    (hold : t.kind? (here ++ [name]) ≠ some .dir) :
    (t.putFile (here ++ [name]) content).kind? q =
      if q = here ++ [name] then some (.file content) else t.kind? q :=
  kind?_put (Kind.file content).isBare_node hdir hold

/-- **A new directory is seen at its own place, and nowhere else.** -/
theorem kind?_putDir (hdir : t.kind? here = some .dir)
    (hold : t.kind? (here ++ [name]) ≠ some .dir) :
    (t.putDir (here ++ [name])).kind? q =
      if q = here ++ [name] then some .dir else t.kind? q :=
  kind?_put Kind.dir.isBare_node hdir hold

/-! ### Trees that look the same -/

/-- Whether two trees have the same at every place. -/
def SameLook (t t' : FileTree) : Prop :=
  ∀ place, t'.kind? place = t.kind? place

theorem SameLook.symm {t t' : FileTree} (h : SameLook t t') : SameLook t' t :=
  fun place => (h place).symm

/-- The tree with entries made in it, one after the other. -/
def make (t : FileTree) (entries : List (Place × Kind)) : FileTree :=
  entries.foldl (fun t e => t.put e.1 e.2.node e.2.wellFormed_node) t

/-- Whether entries can be made one after the other: each in a directory that is there by then, and
where nothing is yet. -/
def CanMake : FileTree → List (Place × Kind) → Prop
  | _, [] => True
  | t, (place, k) :: entries =>
    t.kind? place.dropLast = some .dir ∧ t.kind? place = none ∧
      (t.put place k.node k.wellFormed_node).CanMake entries

instance decidableCanMake : (t : FileTree) → (entries : List (Place × Kind)) →
    Decidable (t.CanMake entries)
  | _, [] => isTrue trivial
  | t, (place, k) :: entries =>
    have := decidableCanMake (t.put place k.node k.wellFormed_node) entries
    inferInstanceAs (Decidable (_ ∧ _ ∧ _))

/-- What is seen after entries were made: what was there before, and the entries. -/
theorem kind?_make_eq_some_iff {entries : List (Place × Kind)} {k : Kind}
    (h : t.CanMake entries) :
    (t.make entries).kind? q = some k ↔ t.kind? q = some k ∨ (q, k) ∈ entries := by
  induction entries generalizing t with
  | nil => simp [make]
  | cons e entries ih =>
    obtain ⟨place, new⟩ := e
    obtain ⟨hdir, hnone, hrest⟩ := h
    obtain ⟨here, name, rfl⟩ : ∃ here name, place = here ++ [name] := by
      rcases List.eq_nil_or_concat place with rfl | ⟨here, name, rfl⟩
      · exact nomatch hnone
      · exact ⟨here, name, List.concat_eq_append⟩
    rw [List.dropLast_concat] at hdir
    have hold : t.kind? (here ++ [name]) ≠ some .dir := by
      rw [hnone]
      exact nofun
    rw [make, List.foldl_cons]
    show ((t.put (here ++ [name]) new.node new.wellFormed_node).make entries).kind? q = some k ↔ _
    rw [ih hrest, kind?_put new.isBare_node hdir hold, new.kind_node, List.mem_cons, Prod.mk.injEq]
    by_cases hq : q = here ++ [name]
    · rw [if_pos hq, hq, hnone]
      simp [eq_comm]
    · rw [if_neg hq]
      simp [hq]

/-- **Trees look the same if the same entries were made in them, in whatever order.** -/
theorem sameLook_make {entries entries' : List (Place × Kind)} (h : t.CanMake entries)
    (h' : t.CanMake entries') (hperm : entries.Perm entries') :
    SameLook (t.make entries) (t.make entries') := by
  intro place
  refine Option.ext fun k => ?_
  rw [kind?_make_eq_some_iff h, kind?_make_eq_some_iff h', hperm.mem_iff]

end FileTree

end CallHarvest
