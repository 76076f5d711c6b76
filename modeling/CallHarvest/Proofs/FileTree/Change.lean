import CallHarvest.Proofs.FileTree.Route

/-!
# What writing changes

Making directories adds directories where nothing was, whether it succeeds or fails on the way.
Writing a file changes what is at one place; if the disk fails, it may leave a part of the file
there.  After either, paths lead where they led before.

* `Grows` — what may become of a place where nothing is written.
* `MoreDirs` — a later tree with further directories; `moreDirs_makeDirectories`.
* `Stored` — a later tree with a file at a place, and further directories.
* `find_of_keeps` — paths lead to the same places.
* `Wrote` — a later tree in which a path leads to a new content; `writeText_cases`.
-/

namespace CallHarvest.FileTree

variable {t t' t'' : FileTree} {place : Place} {path text : String} {content : ByteArray}

/-! ### Further directories -/

/-- What may become of a place where nothing is written: it stays as it is, or nothing becomes a
directory. -/
def Grows (k k' : Option Kind) : Prop :=
  k' = k ∨ k = none ∧ k' = some .dir

namespace Grows

variable {k k' k'' : Option Kind}

theorem refl (k : Option Kind) : Grows k k :=
  Or.inl rfl

theorem trans (h : Grows k k') (h' : Grows k' k'') : Grows k k'' := by
  rcases h' with rfl | ⟨hnone, hdir⟩
  · exact h
  · rcases h with rfl | ⟨-, hdir'⟩
    · exact Or.inr ⟨hnone, hdir⟩
    · exact nomatch hdir'.symm.trans hnone

/-- What is there stays. -/
theorem eq_some {x : Kind} (h : Grows k k') (hk : k = some x) : k' = some x := by
  rcases h with rfl | ⟨hnone, -⟩
  · exact hk
  · exact nomatch hk.symm.trans hnone

/-- What is no directory was there before. -/
theorem eq_of_ne (h : Grows k k') (hne : k' ≠ some .dir) : k' = k := by
  rcases h with heq | ⟨-, hdir⟩
  · exact heq
  · exact absurd hdir hne

/-- Links are neither added nor taken away. -/
theorem link_iff {target : String} (h : Grows k k') :
    k' = some (.link target) ↔ k = some (.link target) := by
  refine ⟨fun hlink => ?_, h.eq_some⟩
  rw [← h.eq_of_ne (by simp [hlink]), hlink]

end Grows

/-- Whether a later tree has the same at every place, but for directories where nothing was. -/
structure MoreDirs (t t' : FileTree) : Prop where
  places : ∀ place, Grows (t.kind? place) (t'.kind? place)
  disk : t'.disk <:+ t.disk

theorem MoreDirs.onDisk (t : FileTree) {disk : Disk} (h : disk <:+ t.disk) :
    MoreDirs t (t.onDisk disk) :=
  ⟨fun place => Or.inl (t.kind?_onDisk disk place), h⟩

theorem MoreDirs.refl (t : FileTree) : MoreDirs t t :=
  ⟨fun place => Grows.refl (t.kind? place), List.suffix_rfl⟩

theorem MoreDirs.trans (h : MoreDirs t t') (h' : MoreDirs t' t'') : MoreDirs t t'' :=
  ⟨fun place => (h.places place).trans (h'.places place), h'.disk.trans h.disk⟩

theorem MoreDirs.keeps (h : MoreDirs t t') : Keeps t t' where
  dir place := (h.places place).eq_some
  file place content hfile := ⟨content, (h.places place).eq_some hfile⟩
  link place _ := (h.places place).link_iff

theorem moreDirs_putDir {directory : Place} {name : String} (hdir : t.kind? directory = some .dir)
    (hnone : t.kind? (directory ++ [name]) = none) :
    MoreDirs t (t.putDir (directory ++ [name])) := by
  have hold : t.kind? (directory ++ [name]) ≠ some .dir := by
    rw [hnone]
    exact (Option.some_ne_none _).symm
  refine ⟨fun place => ?_, (t.disk_put _ _).symm ▸ List.suffix_rfl⟩
  rw [kind?_putDir hdir hold]
  by_cases hplace : place = directory ++ [name]
  · rw [if_pos hplace, hplace]
    exact Or.inr ⟨hnone, rfl⟩
  · rw [if_neg hplace]
    exact Or.inl rfl

theorem moreDirs_makeDirectory (t : FileTree) (path : String) :
    MoreDirs t (t.makeDirectory path).1 := by
  rw [makeDirectory]
  cases hplace : t.freePlace path with
  | error fault => exact MoreDirs.refl t
  | ok place =>
    obtain ⟨directory, name, rfl, hdir, hnone⟩ := exists_of_freePlace hplace
    have hdisk := MoreDirs.onDisk t t.disk.ask_suffix
    cases hask : t.disk.ask with
    | mk disk result =>
      rw [hask] at hdisk
      cases result with
      | error fault => exact hdisk
      | ok _ => exact hdisk.trans (moreDirs_putDir hdir hnone)

theorem moreDirs_makeAll (t : FileTree) (paths : List String) :
    MoreDirs t (t.makeAll paths).1 := by
  induction paths generalizing t with
  | nil => exact MoreDirs.refl t
  | cons path paths ih =>
    have hmore := moreDirs_makeDirectory t path
    rw [makeAll]
    cases hmake : t.makeDirectory path with
    | mk t' result =>
      rw [hmake] at hmore
      cases result with
      | ok _ => exact hmore.trans (ih t')
      | error fault =>
        dsimp only
        split
        · exact hmore.trans (ih t')
        · exact hmore

theorem moreDirs_makeUpwards (t : FileTree) (missing paths : List String) :
    MoreDirs t (t.makeUpwards missing paths).1 := by
  induction paths generalizing t missing with
  | nil => exact moreDirs_makeAll t missing
  | cons path paths ih =>
    have hmore := moreDirs_makeDirectory t path
    rw [makeUpwards]
    cases hmake : t.makeDirectory path with
    | mk t' result =>
      rw [hmake] at hmore
      cases result with
      | ok _ => exact hmore.trans (moreDirs_makeAll t' missing)
      | error fault =>
        dsimp only
        split
        · exact hmore.trans (ih t' (path :: missing))
        · split
          · exact hmore.trans (moreDirs_makeAll t' missing)
          · exact hmore

/-- **Making directories adds directories where nothing was,** whether it succeeds or not. -/
theorem moreDirs_makeDirectories (t : FileTree) (path : String) :
    MoreDirs t (t.makeDirectories path).1 :=
  moreDirs_makeUpwards t [] (Path.ancestors path)

/-! ### A file -/

/-- Whether a file can be written at a place: there is one, or nothing. -/
def IsWritable (k : Option Kind) : Prop :=
  k = none ∨ ∃ old, k = some (.file old)

theorem IsWritable.ne_dir {k : Option Kind} (h : IsWritable k) : k ≠ some .dir := by
  rcases h with rfl | ⟨old, rfl⟩
  · exact nofun
  · exact nofun

theorem IsWritable.ne_link {k : Option Kind} (h : IsWritable k) (target : String) :
    k ≠ some (.link target) := by
  rcases h with rfl | ⟨old, rfl⟩
  · exact nofun
  · exact nofun

/-- Whether a later tree has a content at a place where there was a file or nothing, and the same
at every other place, but for directories where nothing was. -/
structure Stored (t t' : FileTree) (place : Place) (content : ByteArray) : Prop where
  file : t'.kind? place = some (.file content)
  before : IsWritable (t.kind? place)
  others : ∀ other, other ≠ place → Grows (t.kind? other) (t'.kind? other)
  disk : t'.disk <:+ t.disk

theorem Stored.keeps (h : Stored t t' place content) : Keeps t t' := by
  refine ⟨?_, ?_, ?_⟩
  · intro other hdir
    have hplace : other ≠ place := by
      rintro rfl
      exact h.before.ne_dir hdir
    exact (h.others other hplace).eq_some hdir
  · intro other old hfile
    by_cases hplace : other = place
    · exact ⟨content, hplace ▸ h.file⟩
    · exact ⟨old, (h.others other hplace).eq_some hfile⟩
  · intro other target
    by_cases hplace : other = place
    · subst hplace
      exact iff_of_false (fun hlink => nomatch hlink.symm.trans h.file) (h.before.ne_link target)
    · exact (h.others other hplace).link_iff

/-- What is stored after directories were made. -/
theorem MoreDirs.stored (h : MoreDirs t t') (hs : Stored t' t'' place content) :
    Stored t t'' place content := by
  refine ⟨hs.file, ?_, ?_, hs.disk.trans h.disk⟩
  · rw [← (h.places place).eq_of_ne hs.before.ne_dir]
    exact hs.before
  · intro other hne
    exact (h.places other).trans (hs.others other hne)

/-- What is stored at a place where something was stored before. -/
theorem Stored.again {old : ByteArray} (h : Stored t t' place old)
    (h' : Stored t' t'' place content) : Stored t t'' place content := by
  refine ⟨h'.file, h.before, ?_, h'.disk.trans h.disk⟩
  intro other hne
  exact (h.others other hne).trans (h'.others other hne)

theorem stored_putFile {directory : Place} {name : String} (content : ByteArray)
    (hdir : t.kind? directory = some .dir)
    (hbefore : IsWritable (t.kind? (directory ++ [name]))) :
    Stored t (t.putFile (directory ++ [name]) content) (directory ++ [name]) content := by
  refine ⟨?_, hbefore, ?_, (t.disk_put _ _).symm ▸ List.suffix_rfl⟩
  · rw [kind?_putFile hdir hbefore.ne_dir, if_pos rfl]
  · intro other hne
    rw [kind?_putFile hdir hbefore.ne_dir, if_neg hne]
    exact Grows.refl (t.kind? other)

/-! ### Reading later -/

/-- **In a later tree a path leads to the same place.** -/
theorem find_of_keeps {n n' : Node} (hkeep : Keeps t t') (h : t.find path = .ok (place, n))
    (hn' : t'.get? place = some n') : t'.find path = .ok (place, n') := by
  obtain ⟨-, route, hroute, hleads⟩ := find_eq_ok_iff.1 h
  exact find_eq_ok_iff.2 ⟨hn', route, hroute, hleads.keep hkeep⟩

theorem find_of_moreDirs (h : MoreDirs t t') (hfind : t.find path = .ok (place, .file content)) :
    t'.find path = .ok (place, .file content) := by
  have hfile : t.kind? place = some (.file content) :=
    kind?_eq_file_iff.2 (find_eq_ok_iff.1 hfind).1
  exact find_of_keeps h.keeps hfind (kind?_eq_file_iff.1 ((h.places place).eq_some hfile))

theorem find_of_stored {other : Place} {old : ByteArray} (h : Stored t t' place content)
    (hfind : t.find path = .ok (other, .file old)) :
    t'.find path = .ok (other, .file (if other = place then content else old)) := by
  refine find_of_keeps h.keeps hfind (kind?_eq_file_iff.1 ?_)
  by_cases hplace : other = place
  · rw [if_pos hplace, hplace, h.file]
  · have hfile : t.kind? other = some (.file old) :=
      kind?_eq_file_iff.2 (find_eq_ok_iff.1 hfind).1
    rw [if_neg hplace]
    exact (h.others other hplace).eq_some hfile

/-- A text is read back from its bytes. -/
theorem textOf_toUTF8 (text : String) : textOf text.toUTF8 = .ok text := by
  have htext : String.fromUTF8? text.toUTF8 = some text := dif_pos text.isValidUTF8
  rw [textOf, htext]

/-- The text of a file that holds a text. -/
theorem readText_of_find (h : t.find path = .ok (place, .file text.toUTF8)) :
    t.readText path = .ok text := by
  rw [readText, readFile_eq_ok_iff.2 ⟨place, h⟩]
  exact textOf_toUTF8 text

/-! ### Writing a text -/

/-- Whether a later tree has a content in the file that a path leads to, and the same at every other
place, but for directories where nothing was.  Paths to other files still lead to them. -/
def Wrote (t t' : FileTree) (path : String) (content : ByteArray) : Prop :=
  ∃ place, t'.find path = .ok (place, .file content) ∧ Stored t t' place content ∧
    ∀ path' other old, other ≠ place → t.find path' = .ok (other, .file old) →
      t'.find path' = .ok (other, .file old)

theorem wrote_of_stored {route : Route} (hstored : Stored t t' place content)
    (hroute : Route.ofPath path = .ok route)
    (hleads : t.Leads true linkLimit [] route.steps place) : Wrote t t' path content := by
  refine ⟨place, ?_, hstored, ?_⟩
  · exact find_eq_ok_iff.2
      ⟨kind?_eq_file_iff.1 hstored.file, route, hroute, hleads.keep hstored.keeps⟩
  · intro path' other old hne hother
    have hlater := find_of_stored hstored hother
    rwa [if_neg hne] at hlater

theorem Wrote.keeps (h : Wrote t t' path content) : Keeps t t' := by
  obtain ⟨place, -, hstored, -⟩ := h
  exact hstored.keeps

theorem Wrote.disk (h : Wrote t t' path content) : t'.disk <:+ t.disk := by
  obtain ⟨place, -, hstored, -⟩ := h
  exact hstored.disk

/-- What is written after directories were made. -/
theorem MoreDirs.wrote (h : MoreDirs t t') (hw : Wrote t' t'' path content) :
    Wrote t t'' path content := by
  obtain ⟨place, hfind, hstored, hothers⟩ := hw
  refine ⟨place, hfind, h.stored hstored, ?_⟩
  intro path' other old hne hother
  exact hothers path' other old hne (find_of_moreDirs h hother)

/-- What is left in the file of a text that is written, if the file can be opened. -/
def left? (t : FileTree) (path text : String) : Option ByteArray :=
  match t.emptyFile path with
  | (_, .error _) => none
  | (t', .ok _) => some (text.toUTF8.extract 0 (t'.disk.write text.toUTF8.size).bytes)

/-- A file that cannot be opened stays as it is; one that is opened is empty then. -/
theorem emptyFile_cases (t : FileTree) (path : String) :
    (∃ t' fault, t.emptyFile path = (t', .error fault) ∧ MoreDirs t t') ∨
    ∃ t' directory name, t.emptyFile path = (t', .ok (directory ++ [name])) ∧
      Stored t t' (directory ++ [name]) .empty ∧ t'.kind? directory = some .dir ∧
      ∃ route, Route.ofPath path = .ok route ∧
        t.Leads true linkLimit [] route.steps (directory ++ [name]) := by
  rw [emptyFile]
  cases hplace : t.filePlace path with
  | error fault => exact Or.inl ⟨t, fault, rfl, MoreDirs.refl t⟩
  | ok place =>
    obtain ⟨hleads, hbefore, directory, name, rfl, hdir⟩ := leads_of_filePlace hplace
    have hdisk := MoreDirs.onDisk t t.disk.ask_suffix
    dsimp only
    cases hask : t.disk.ask with
    | mk disk result =>
      rw [hask] at hdisk
      cases result with
      | error fault => exact Or.inl ⟨_, fault, rfl, hdisk⟩
      | ok _ =>
        have hstored := hdisk.stored (stored_putFile .empty hdir hbefore)
        exact Or.inr ⟨_, directory, name, rfl, hstored, hstored.keeps.dir _ hdir, hleads⟩

/-- What is written into an open file. -/
theorem stored_fillFile {directory : Place} {name : String} {old : ByteArray}
    (hdir : t.kind? directory = some .dir)
    (hfile : t.kind? (directory ++ [name]) = some (.file old)) (content : ByteArray) :
    Stored t (t.fillFile (directory ++ [name]) content).1 (directory ++ [name])
      (content.extract 0 (t.disk.write content.size).bytes) :=
  (MoreDirs.onDisk t (t.disk.write_spec content.size).2).stored
    (stored_putFile _ hdir (Or.inr ⟨old, hfile⟩))

/-- **How writing a text ends.**  The file is not opened, and no place changes; or the disk fails,
and a part of the text is in the file; or all of it is. -/
theorem writeText_cases (t : FileTree) (path text : String) :
    (∃ t' fault, t.writeText path text = (t', .error fault) ∧ t.left? path text = none ∧
      MoreDirs t t') ∨
    (∃ t' fault bytes, t.writeText path text = (t', .error fault) ∧
      t.left? path text = some (text.toUTF8.extract 0 bytes) ∧ bytes < text.utf8ByteSize ∧
      t.disk.MayFail fault ∧ Wrote t t' path (text.toUTF8.extract 0 bytes)) ∨
    ∃ t', t.writeText path text = (t', .ok ()) ∧ t.left? path text = some text.toUTF8 ∧
      Wrote t t' path text.toUTF8 := by
  rcases t.emptyFile_cases path with ⟨t', fault, hopen, hmore⟩ |
    ⟨opened, directory, name, hopen, hempty, hdir, route, hroute, hleads⟩
  · refine Or.inl ⟨t', fault, ?_, ?_, hmore⟩
    · rw [writeText, hopen]
    · rw [left?, hopen]
  · have htext : t.writeText path text =
        opened.fillFile (directory ++ [name]) text.toUTF8 := by rw [writeText, hopen]
    have hleft : t.left? path text =
        some (text.toUTF8.extract 0 (opened.disk.write text.toUTF8.size).bytes) := by
      rw [left?, hopen]
    have hwrote := wrote_of_stored (hempty.again (stored_fillFile hdir hempty.file text.toUTF8))
      hroute hleads
    rw [htext, hleft]
    refine Or.inr ?_
    rcases (opened.disk.write_spec text.toUTF8.size).1 with ⟨hok, hall⟩ |
      ⟨fault, herror, hpart, hfail⟩
    · -- the disk takes the whole text
      rw [hall, ByteArray.extract_zero_size] at hwrote ⊢
      exact Or.inr ⟨_, Prod.ext rfl hok, rfl, hwrote⟩
    · exact Or.inl ⟨_, fault, _, Prod.ext rfl herror, rfl, hpart,
        hfail.of_suffix hempty.disk, hwrote⟩

end CallHarvest.FileTree
