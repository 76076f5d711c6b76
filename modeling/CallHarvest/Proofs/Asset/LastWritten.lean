import CallHarvest.Proofs.Asset.Emission
import CallHarvest.Proofs.Path.Spelling

/-!
# What is read of an asset later

Names are compared as texts, but different names may lead to one file.  In a tree without links the
file is told by the parts of the path alone, so that what the last asset left there, under any of
its names, is what is read: its text, or a part of it if the disk failed.  Plain names lead to
different files if they are different.

* `emitEach`, `takenOf` — assets emitted one after the other, and those of them that are taken.
* `namedPlace` — the place that a name stands for in an output directory.
* `namedPlace_inj` — plain names stand for different places.
* `leftAt` — what assets leave at a place; `textsFor` — the texts of those that are taken for it.
* `readText_emitEach` — what is read of an asset after further ones.
* `not_forall_readText_emitEach` — it need not be the asset's own text.
-/

namespace CallHarvest

open CallHarvest.FileTree (Keeps LinkFree Wrote endOf endOf_append endOf_dot endOf_names)
open CallHarvest.Path (splitOn_append_separator)

/-! ### Places that names stand for -/

/-- The place that a name stands for in an output directory, if there is no link: the parts of the
path are followed, a dot stays and two dots lead up. -/
def namedPlace (directory name : String) : Place :=
  endOf [] (partsOf (Path.join directory name))

/-- Whether a name is made of names with separators between them: it is not empty, not absolute, and
has no empty parts and no dots among its parts. -/
def IsPlain (name : String) : Prop :=
  ∀ part ∈ name.toList.splitOn '/', part ≠ [] ∧ part ≠ ['.'] ∧ part ≠ ['.', '.']

/-- A plain name is not absolute: an absolute one has an empty part before its first separator. -/
theorem IsPlain.not_isAbsolute {name : String} (h : IsPlain name) :
    Path.isAbsolute name = false := by
  rw [Path.isAbsolute, Path.split, beq_eq_false_iff_ne]
  intro hroot
  obtain ⟨cs, hcs⟩ : ∃ cs, name.toList = '/' :: cs := by
    unfold Path.lead at hroot
    split at hroot
    · exact ⟨_, ‹_›⟩
    · exact nomatch hroot
    · exact nomatch hroot
    · exact nomatch hroot
  have hempty : [] ∈ name.toList.splitOn '/' := by
    rw [hcs, show '/' :: cs = [] ++ '/' :: cs from rfl, splitOn_append_separator]
    exact List.mem_append_left _ List.mem_cons_self
  exact (h [] hempty).1 rfl

/-- The parts of a plain name are its names. -/
theorem IsPlain.partsOf_eq {name : String} (h : IsPlain name) :
    partsOf name = (name.toList.splitOn '/').map String.ofList := by
  rw [partsOf, List.filter_eq_self.2]
  intro part hpart
  exact bne_iff_ne.2 (h part hpart).1

/-- The parts of a path below a directory. -/
theorem partsOf_join {directory name : String} (h : Path.isAbsolute name = false) :
    partsOf (Path.join directory name) = partsOf directory ++ partsOf name := by
  rw [Path.join, h, Bool.false_or]
  by_cases hempty : directory = ""
  · subst hempty
    rfl
  · rw [if_neg (by simpa using hempty)]
    by_cases hslash : directory.toList.getLast? = some '/'
    · rw [if_pos hslash]
      obtain ⟨cs, hcs⟩ := List.getLast?_eq_some_iff.1 hslash
      rw [partsOf, partsOf, partsOf, String.toList_append, hcs, List.append_assoc,
        List.singleton_append, splitOn_append_separator, splitOn_append_separator]
      simp
    · rw [if_neg hslash, partsOf, partsOf, partsOf, String.toList_append, String.toList_append,
        List.append_assoc, show "/".toList = ['/'] from rfl, List.singleton_append,
        splitOn_append_separator, List.filter_append, List.map_append]

theorem IsPlain.namedPlace_eq {directory name : String} (h : IsPlain name) :
    namedPlace directory name =
      endOf [] (partsOf directory) ++ (name.toList.splitOn '/').map String.ofList := by
  rw [namedPlace, partsOf_join h.not_isAbsolute, endOf_append, h.partsOf_eq, endOf_names]
  intro part hpart
  obtain ⟨cs, hcs, rfl⟩ := List.mem_map.1 hpart
  obtain ⟨-, hdot, hup⟩ := h cs hcs
  exact ⟨fun he => hdot (String.ofList_injective he), fun he => hup (String.ofList_injective he)⟩

/-- **Plain names stand for different places.** -/
theorem namedPlace_inj {directory name other : String} (hname : IsPlain name)
    (hother : IsPlain other) (h : namedPlace directory name = namedPlace directory other) :
    name = other := by
  rw [hname.namedPlace_eq, hother.namedPlace_eq] at h
  have hparts : name.toList.splitOn '/' = other.toList.splitOn '/' :=
    List.map_injective_iff.2 (fun _ _ => String.ofList_injective) (List.append_cancel_left h)
  have htexts : name.toList = other.toList := by
    have hjoin := congrArg (List.intercalate ['/']) hparts
    rwa [List.intercalate_splitOn, List.intercalate_splitOn] at hjoin
  exact String.toList_inj.1 htexts

/-! ### Paths in trees without links -/

theorem eq_ofText_of_ofPath {path : String} {route : Route} (h : Route.ofPath path = .ok route) :
    route = Route.ofText path := by
  rw [Route.ofPath] at h
  split at h
  · exact nomatch h
  · split at h
    · exact nomatch h
    · split at h
      · exact nomatch h
      · exact (Except.ok.inj h).symm

/-- **Without links a path leads to the place that its name stands for.** -/
theorem eq_namedPlace_of_find {t : FileTree} {directory name : String} {place : Place} {n : Node}
    (hfree : t.LinkFree) (h : t.find (Path.join directory name) = .ok (place, n)) :
    place = namedPlace directory name := by
  obtain ⟨-, route, hroute, hleads⟩ := FileTree.find_eq_ok_iff.1 h
  obtain rfl := eq_ofText_of_ofPath hroute
  have hparts : (Route.ofText (Path.join directory name)).parts =
      partsOf (Path.join directory name) := rfl
  rw [hleads.eq_endOf hfree, Route.steps, endOf_append, hparts, namedPlace]
  -- a separator at the end adds a dot, which stays where it is
  split
  · exact endOf_dot _
  · exact List.foldl_nil

/-! ### Assets emitted one after the other -/

/-- An output directory and a tree after assets were emitted one after the other, whether they were
taken or not. -/
def emitEach (s : OutputDir × FileTree) (assets : List Asset) : OutputDir × FileTree :=
  assets.foldl (fun s a => (s.1.emit s.2 a).2) s

/-- Those of the assets that are taken. -/
def takenOf : OutputDir × FileTree → List Asset → List Asset
  | _, [] => []
  | s, a :: assets =>
    match s.1.emit s.2 a with
    | (.ok (), s') => a :: takenOf s' assets
    | (.error _, s') => takenOf s' assets

/-- The texts of the assets that are taken under a name for a place, in their order. -/
def textsFor (s : OutputDir × FileTree) (place : Place) (assets : List Asset) : List String :=
  ((takenOf s assets).filter fun a => namedPlace s.1.path a.name = place).map Asset.source

/-- What assets that are emitted one after the other leave in the file at a place: what each of them
leaves there whose name stands for the place, in their order. -/
def leftAt : OutputDir × FileTree → Place → List Asset → List ByteArray
  | _, _, [] => []
  | s, place, a :: assets =>
    (if namedPlace s.1.path a.name = place then (s.1.left? s.2 a).toList else []) ++
      leftAt (s.1.emit s.2 a).2 place assets

section

variable {d : OutputDir} {t : FileTree} {place : Place} {content : ByteArray}
  {assets : List Asset}

/-- An emission keeps the directories and links of the tree, and the path of the output
directory. -/
theorem keeps_emit (d : OutputDir) (t : FileTree) (a : Asset) :
    Keeps t (d.emit t a).2.2 ∧ (d.emit t a).2.2.disk <:+ t.disk ∧
      (d.emit t a).2.1.path = d.path := by
  rcases d.emit_cases t a with ⟨-, hemit, -⟩ | ⟨-, t', failed, fault, hemit, -, hmore⟩ |
    ⟨-, t', fault, bytes, hemit, -, -, -, hwrote⟩ | ⟨-, t', hemit, -, hwrote⟩
  · rw [hemit]
    exact ⟨Keeps.refl t, List.suffix_rfl, rfl⟩
  · rw [hemit]
    exact ⟨hmore.keeps, hmore.disk, rfl⟩
  · rw [hemit]
    exact ⟨hwrote.keeps, hwrote.disk, rfl⟩
  · rw [hemit]
    exact ⟨hwrote.keeps, hwrote.disk, rfl⟩

theorem emitEach_cons (a : Asset) :
    emitEach (d, t) (a :: assets) = emitEach (d.emit t a).2 assets := rfl

/-- So do emissions one after the other. -/
theorem keeps_emitEach (d : OutputDir) (t : FileTree) (assets : List Asset) :
    Keeps t (emitEach (d, t) assets).2 ∧ (emitEach (d, t) assets).2.disk <:+ t.disk ∧
      (emitEach (d, t) assets).1.path = d.path := by
  induction assets generalizing d t with
  | nil => exact ⟨Keeps.refl t, List.suffix_rfl, rfl⟩
  | cons a assets ih =>
    obtain ⟨hkeep, hdisk, hpath⟩ := keeps_emit d t a
    obtain ⟨hkeeps, hdisks, hpaths⟩ := ih (d.emit t a).2.1 (d.emit t a).2.2
    exact ⟨hkeep.trans hkeeps, hdisks.trans hdisk, hpaths.trans hpath⟩

/-- What is written under a name is at the place that the name stands for. -/
theorem kind?_of_wrote {t' : FileTree} {directory name : String} {new : ByteArray}
    (hfree : t.LinkFree) (h : Wrote t t' (Path.join directory name) new)
    (hfile : t.kind? place = some (.file content)) :
    t'.kind? place = some (.file (if namedPlace directory name = place then new else content)) := by
  obtain ⟨target, hfind, hstored, -⟩ := id h
  have htarget := eq_namedPlace_of_find (hfree.keep hstored.keeps) hfind
  subst htarget
  by_cases hplace : namedPlace directory name = place
  · rw [if_pos hplace, ← hplace, hstored.file]
  · rw [if_neg hplace]
    exact (hstored.others place (Ne.symm hplace)).eq_some hfile

/-- What an emission that succeeds leaves. -/
theorem exists_of_emit_ok {a : Asset} (h : (d.emit t a).1 = .ok ()) :
    ∃ t', d.emit t a = (.ok (), ({ d with written := a.name :: d.written }, t')) ∧
      Wrote t t' (d.file a.name) a.source.toUTF8 := by
  rcases d.emit_cases t a with ⟨-, hemit, -⟩ | ⟨-, t', failed, fault, hemit, -⟩ |
    ⟨-, t', fault, bytes, hemit, -⟩ | ⟨-, t', hemit, -, hwrote⟩
  · exact nomatch (congrArg Prod.fst hemit).symm.trans h
  · exact nomatch (congrArg Prod.fst hemit).symm.trans h
  · exact nomatch (congrArg Prod.fst hemit).symm.trans h
  · exact ⟨t', hemit, hwrote⟩

/-- **An emission changes a file if the name of the asset stands for its place,** to what it leaves
there. -/
theorem kind?_emit (a : Asset) (hfree : t.LinkFree)
    (hfile : t.kind? place = some (.file content)) :
    (d.emit t a).2.2.kind? place = some (.file
      (if namedPlace d.path a.name = place then (d.left? t a).getD content else content)) := by
  rcases d.emit_cases t a with ⟨-, hemit, hleft⟩ | ⟨-, t', failed, fault, hemit, hleft, hmore⟩ |
    ⟨-, t', fault, bytes, hemit, hleft, -, -, hwrote⟩ | ⟨-, t', hemit, hleft, hwrote⟩
  · rw [hemit, hleft, Option.getD_none, ite_self]
    exact hfile
  · rw [hemit, hleft, Option.getD_none, ite_self]
    exact (hmore.places place).eq_some hfile
  · rw [hemit, hleft, Option.getD_some]
    exact kind?_of_wrote hfree hwrote hfile
  · rw [hemit, hleft, Option.getD_some]
    exact kind?_of_wrote hfree hwrote hfile

/-- **A file holds what was left there last.** -/
theorem kind?_emitEach (assets : List Asset) (hfree : t.LinkFree)
    (hfile : t.kind? place = some (.file content)) :
    (emitEach (d, t) assets).2.kind? place =
      some (.file ((leftAt (d, t) place assets).getLastD content)) := by
  induction assets generalizing d t content with
  | nil => exact hfile
  | cons a assets ih =>
    have hstep := kind?_emit (d := d) a hfree hfile
    rw [emitEach_cons, ih (hfree.keep (keeps_emit d t a).1) hstep, leftAt]
    split
    · cases d.left? t a with
      | none => rfl
      | some left =>
        rw [Option.toList_some, List.singleton_append, List.getLastD_cons]
        rfl
    · rfl

/-- **What is left at a place** was left there by one of the assets, when its turn came. -/
theorem exists_of_mem_leftAt (h : content ∈ leftAt (d, t) place assets) :
    ∃ xs b ys, assets = xs ++ b :: ys ∧ namedPlace d.path b.name = place ∧
      (emitEach (d, t) xs).1.Leaves (emitEach (d, t) xs).2 b content := by
  induction assets generalizing d t with
  | nil => exact absurd h List.not_mem_nil
  | cons a assets ih =>
    rw [leftAt, List.mem_append] at h
    rcases h with h | h
    · rw [List.mem_ite_nil_right, Option.mem_toList] at h
      exact ⟨[], a, assets, rfl, h.1, OutputDir.leaves_of_left? h.2⟩
    · obtain ⟨xs, b, ys, rfl, hplace, hleaves⟩ := ih h
      rw [(keeps_emit d t a).2.2] at hplace
      exact ⟨a :: xs, b, ys, rfl, hplace, hleaves⟩

theorem takenOf_cons (a : Asset) :
    takenOf (d, t) (a :: assets) =
      (if (d.emit t a).1 = .ok () then [a] else []) ++ takenOf (d.emit t a).2 assets := by
  rw [takenOf]
  obtain ⟨result, s, hemit⟩ : ∃ result s, d.emit t a = (result, s) := ⟨_, _, rfl⟩
  rw [hemit]
  cases result with
  | ok _ => rfl
  | error e => rfl

theorem textsFor_cons (a : Asset) :
    textsFor (d, t) place (a :: assets) =
      (if (d.emit t a).1 = .ok () ∧ namedPlace d.path a.name = place then [a.source] else []) ++
        textsFor (d.emit t a).2 place assets := by
  rw [textsFor, textsFor, takenOf_cons, (keeps_emit d t a).2.2, List.filter_append,
    List.map_append]
  by_cases hok : (d.emit t a).1 = .ok ()
  · by_cases hplace : namedPlace d.path a.name = place <;> simp [hok, hplace]
  · simp [hok]

/-- On a disk that does not fail, texts are left as a whole. -/
theorem leftAt_eq_map (assets : List Asset) (hsound : t.disk.IsSound) :
    leftAt (d, t) place assets = (textsFor (d, t) place assets).map String.toUTF8 := by
  induction assets generalizing d t with
  | nil => rfl
  | cons a assets ih =>
    have hrest : leftAt (d.emit t a).2 place assets =
        (textsFor (d.emit t a).2 place assets).map String.toUTF8 :=
      ih (hsound.of_suffix (keeps_emit d t a).2.1)
    rw [leftAt, hrest, OutputDir.left?_of_isSound hsound, textsFor_cons, List.map_append]
    by_cases hok : (d.emit t a).1 = .ok ()
    · by_cases hplace : namedPlace d.path a.name = place <;> simp [hok, hplace]
    · simp [hok]

/-- Nothing is left at the place of a plain name that is remembered, if all names are plain. -/
theorem leftAt_eq_nil {name : String} (hname : name ∈ d.written) (hplain : IsPlain name)
    (hplains : ∀ b ∈ assets, IsPlain b.name) :
    leftAt (d, t) (namedPlace d.path name) assets = [] := by
  induction assets generalizing d t with
  | nil => rfl
  | cons a assets ih =>
    have hrest := ih (d := (d.emit t a).2.1) (t := (d.emit t a).2.2)
      (OutputDir.mem_written_emit.2 (Or.inl hname))
      (fun b hb => hplains b (List.mem_cons_of_mem a hb))
    rw [(keeps_emit d t a).2.2] at hrest
    rw [leftAt, hrest, List.append_nil]
    split
    · -- the asset has the same name, and is refused
      rename_i hplace
      obtain rfl : a.name = name := namedPlace_inj (hplains a List.mem_cons_self) hplain hplace
      rw [OutputDir.left?, if_pos hname]
      rfl
    · rfl

end

/-! ### Reading an asset -/

theorem linkFree_empty : FileTree.empty.LinkFree := by
  intro place target h
  cases place with
  | nil => exact nomatch h
  | cons name place => exact nomatch h

/-- **What is read of an asset is what was left in its file last.**  Let assets be emitted one after
the other into an output directory that is new, in a tree without links, and let one of them be
taken.  At every later point its path leads to the place that its name stands for, and there is what
the last of the assets left, from this one on, whose name stands for that place and whose file was
opened:

* it is the text of an asset that is taken, or, if the disk fails, a part of one;
* it is the text of the last asset that is taken for the place, if the disk does not fail;
* it is the asset's own text if all names are plain, whether the disk fails or not. -/
theorem readText_emitEach {path : String} {t : FileTree} (hfree : t.LinkFree)
    {before : List Asset} {d : OutputDir} {now : FileTree}
    (hnow : emitEach ({ path }, t) before = (d, now)) {a : Asset}
    (hok : (d.emit now a).1 = .ok ()) (later : List Asset) :
    (emitEach (d.emit now a).2 later).2.find (d.file a.name) =
        .ok (namedPlace path a.name, .file
          ((leftAt (d.emit now a).2 (namedPlace path a.name) later).getLastD a.source.toUTF8)) ∧
      (∀ content ∈ leftAt (d.emit now a).2 (namedPlace path a.name) later,
        ∃ xs b ys, later = xs ++ b :: ys ∧ namedPlace path b.name = namedPlace path a.name ∧
          (emitEach (d.emit now a).2 xs).1.Leaves (emitEach (d.emit now a).2 xs).2 b content) ∧
      (t.disk.IsSound →
        (emitEach (d.emit now a).2 later).2.readText (d.file a.name) =
          .ok ((textsFor (d.emit now a).2 (namedPlace path a.name) later).getLastD a.source)) ∧
      (IsPlain a.name → (∀ b ∈ later, IsPlain b.name) →
        (emitEach (d.emit now a).2 later).2.readText (d.file a.name) = .ok a.source) := by
  obtain ⟨hkeep, hdisk, hpath⟩ := keeps_emitEach { path } t before
  rw [hnow] at hkeep hdisk hpath
  obtain rfl : d.path = path := hpath
  obtain ⟨t', hemit, place, hfind, hstored, -⟩ := exists_of_emit_ok hok
  rw [hemit]
  have hfree' : t'.LinkFree := (hfree.keep hkeep).keep hstored.keeps
  have hplace : place = namedPlace d.path a.name := eq_namedPlace_of_find hfree' hfind
  subst hplace
  have hlater := (keeps_emitEach { d with written := a.name :: d.written } t' later).1
  have hfile := kind?_emitEach (d := { d with written := a.name :: d.written }) later hfree'
    hstored.file
  have hfound := FileTree.find_of_keeps hlater hfind (FileTree.kind?_eq_file_iff.1 hfile)
  refine ⟨hfound, fun content => exists_of_mem_leftAt, ?_, ?_⟩
  · intro hsound
    rw [leftAt_eq_map later (hsound.of_suffix (hstored.disk.trans hdisk)),
      List.getLastD_map] at hfound
    exact FileTree.readText_of_find hfound
  · intro hplain hplains
    have hnone := leftAt_eq_nil (d := { d with written := a.name :: d.written }) (t := t')
      List.mem_cons_self hplain hplains
    rw [hnone] at hfound
    exact FileTree.readText_of_find hfound

/-- An asset whose name leads through another directory to the same file is the last one taken
there; the first name is refused when it comes again, and one below the file cannot be written. -/
theorem readText_second_name :
    FileTree.empty.LinkFree ∧
      emitEach ({ path := "out" }, .empty) [] = ({ path := "out" }, .empty) ∧
      (OutputDir.emit { path := "out" } .empty ⟨"a", "1"⟩).1 = .ok () ∧
      (emitEach (OutputDir.emit { path := "out" } .empty ⟨"a", "1"⟩).2
        [⟨"b/../a", "2"⟩, ⟨"a", "3"⟩, ⟨"a/x", "4"⟩]).2.readText "out/a" = .ok "2" := by
  have hnow : emitEach ({ path := "out" }, .empty) [] = ({ path := "out" }, .empty) := rfl
  have hok : (OutputDir.emit { path := "out" } .empty ⟨"a", "1"⟩).1 = .ok () := by
    decide +kernel
  have htexts : textsFor (OutputDir.emit { path := "out" } .empty ⟨"a", "1"⟩).2
      (namedPlace "out" "a") [⟨"b/../a", "2"⟩, ⟨"a", "3"⟩, ⟨"a/x", "4"⟩] = ["2"] := by
    decide +kernel
  have hread := (readText_emitEach linkFree_empty hnow hok
    [⟨"b/../a", "2"⟩, ⟨"a", "3"⟩, ⟨"a/x", "4"⟩]).2.2.1 Disk.isSound_nil
  rw [htexts] at hread
  exact ⟨linkFree_empty, hnow, hok, hread⟩

/-- **What is read of an asset need not be its own text.**  The two names below are different, and
both are taken, but they stand for one file. -/
theorem not_forall_readText_emitEach :
    ¬ ∀ (path : String) (t : FileTree) (before : List Asset) (d : OutputDir) (now : FileTree)
      (a : Asset) (later : List Asset), t.LinkFree →
      emitEach ({ path }, t) before = (d, now) → (d.emit now a).1 = .ok () →
      (emitEach (d.emit now a).2 later).2.readText (d.file a.name) = .ok a.source := by
  intro h
  have hread := h "dist" .empty [] { path := "dist" } .empty ⟨"a", "1"⟩ [⟨"./a", "2"⟩]
    linkFree_empty rfl (by decide +kernel)
  have hother : (emitEach (OutputDir.emit { path := "dist" } .empty ⟨"a", "1"⟩).2
      [⟨"./a", "2"⟩]).2.readText (OutputDir.file { path := "dist" } "a") = .ok "2" := by
    decide +kernel
  rw [hother] at hread
  exact absurd hread (by decide)

end CallHarvest
