import CallHarvest.Asset.OutputDir
import CallHarvest.Proofs.FileTree.Change

/-!
# What the emission of an asset leaves

An asset that an output directory takes is in its file, and no other file is touched.  One that it
does not take leaves all files as they were, but for one case: if the disk fails while the file is
written, a part of the asset is in it, and what it held before is lost.  Which names an output
directory has taken is what it remembers, through any number of emissions on changing trees, and
through copies of its state.

* `OutputDir.left?` — what an emission leaves in the file of its asset.
* `OutputDir.emit_cases` — the four ways in which an emission ends; in two of them it leaves
  something in the file (`OutputDir.Leaves`).
* `SinkEvent`, `sinksAfter`, `Took` — output directories in use, and the names they took.
* `mem_written_iff` — what is remembered are the names that were taken.
* `OutputDir.emit_spec` — what an emission changes.
* `not_forall_readFile_emit` — one that fails need not leave all files as they were.
-/

namespace CallHarvest

open CallHarvest.FileTree (MoreDirs Wrote)

/-! ### One emission -/

/-- Making the directory above a path adds directories, whether it succeeds or not. -/
theorem makeParent_cases (t : FileTree) (path : String) :
    (∃ t' failed fault, makeParent t path = (t', .error (.unwritable failed fault)) ∧
      MoreDirs t t') ∨
    ∃ t', makeParent t path = (t', .ok ()) ∧ MoreDirs t t' := by
  rw [makeParent]
  cases Path.parent? path with
  | none => exact Or.inr ⟨t, rfl, MoreDirs.refl t⟩
  | some parent =>
    have hmore := FileTree.moreDirs_makeDirectories t parent
    dsimp only
    cases hmake : t.makeDirectories parent with
    | mk t' result =>
      rw [hmake] at hmore
      cases result with
      | ok _ => exact Or.inr ⟨t', rfl, hmore⟩
      | error fault => exact Or.inl ⟨t', parent, fault, rfl, hmore⟩

namespace OutputDir

/-- What an emission leaves in the file of its asset, if it comes to open the file. -/
def left? (d : OutputDir) (t : FileTree) (a : Asset) : Option ByteArray :=
  if a.name ∈ d.written then none
  else
    match makeParent t (d.file a.name) with
    | (_, .error _) => none
    | (t', .ok ()) => t'.left? (d.file a.name) a.source

/-- **The four ways in which an emission ends.**  The name was taken before, and nothing changes; or
the file cannot be opened, and at most directories are made; or the disk fails, and a part of the
asset is in its file; or all of it is, and its name is remembered. -/
theorem emit_cases (d : OutputDir) (t : FileTree) (a : Asset) :
    (a.name ∈ d.written ∧ d.emit t a = (.error (.duplicate a.name), (d, t)) ∧
      d.left? t a = none) ∨
    (a.name ∉ d.written ∧ ∃ t' failed fault,
      d.emit t a = (.error (.unwritable failed fault), (d, t')) ∧ d.left? t a = none ∧
      MoreDirs t t') ∨
    (a.name ∉ d.written ∧ ∃ t' fault bytes,
      d.emit t a = (.error (.unwritable (d.file a.name) fault), (d, t')) ∧
      d.left? t a = some (a.source.toUTF8.extract 0 bytes) ∧ bytes < a.source.utf8ByteSize ∧
      t.disk.MayFail fault ∧ Wrote t t' (d.file a.name) (a.source.toUTF8.extract 0 bytes)) ∨
    (a.name ∉ d.written ∧ ∃ t',
      d.emit t a = (.ok (), ({ d with written := a.name :: d.written }, t')) ∧
      d.left? t a = some a.source.toUTF8 ∧ Wrote t t' (d.file a.name) a.source.toUTF8) := by
  rw [emit, left?]
  by_cases hname : a.name ∈ d.written
  · rw [if_pos hname, if_pos hname]
    exact Or.inl ⟨hname, rfl, rfl⟩
  rw [if_neg hname, if_neg hname]
  refine Or.inr ?_
  rcases makeParent_cases t (d.file a.name) with ⟨t', failed, fault, hmake, hmore⟩ |
    ⟨made, hmake, hmore⟩
  · rw [place, hmake]
    exact Or.inl ⟨hname, t', failed, fault, rfl, rfl, hmore⟩
  rw [place, hmake]
  dsimp only
  rw [writeAsset]
  rcases made.writeText_cases (d.file a.name) a.source with ⟨t', fault, htext, hleft, hmore'⟩ |
    ⟨t', fault, bytes, htext, hleft, hpart, hfail, hwrote⟩ | ⟨t', htext, hleft, hwrote⟩
  · rw [htext, hleft]
    exact Or.inl ⟨hname, t', _, fault, rfl, rfl, hmore.trans hmore'⟩
  · rw [htext, hleft]
    exact Or.inr (Or.inl ⟨hname, t', fault, bytes, rfl, rfl, hpart, hfail.of_suffix hmore.disk,
      hmore.wrote hwrote⟩)
  · rw [htext, hleft]
    exact Or.inr (Or.inr ⟨hname, t', rfl, rfl, hmore.wrote hwrote⟩)

/-- Whether the emission of an asset leaves a content in its file: the text if it is taken, or a
part of the text if the disk fails. -/
def Leaves (d : OutputDir) (t : FileTree) (a : Asset) (content : ByteArray) : Prop :=
  (d.emit t a).1 = .ok () ∧ content = a.source.toUTF8 ∨
    (∃ fault, (d.emit t a).1 = .error (.unwritable (d.file a.name) fault) ∧
      t.disk.MayFail fault) ∧
    ∃ bytes < a.source.utf8ByteSize, content = a.source.toUTF8.extract 0 bytes

theorem leaves_of_left? {d : OutputDir} {t : FileTree} {a : Asset} {content : ByteArray}
    (h : d.left? t a = some content) : d.Leaves t a content := by
  rcases d.emit_cases t a with ⟨-, -, hnone⟩ | ⟨-, t', failed, fault, -, hnone, -⟩ |
    ⟨-, t', fault, bytes, hemit, hpart, hbytes, hfail, -⟩ | ⟨-, t', hemit, hwhole, -⟩
  · exact nomatch hnone.symm.trans h
  · exact nomatch hnone.symm.trans h
  · refine Or.inr ⟨⟨fault, ?_, hfail⟩, bytes, hbytes, Option.some.inj (h.symm.trans hpart)⟩
    rw [hemit]
  · refine Or.inl ⟨?_, Option.some.inj (h.symm.trans hwhole)⟩
    rw [hemit]

/-- On a disk that does not fail, an emission leaves the whole text or nothing. -/
theorem left?_of_isSound {d : OutputDir} {t : FileTree} {a : Asset} (hsound : t.disk.IsSound) :
    d.left? t a = if (d.emit t a).1 = .ok () then some a.source.toUTF8 else none := by
  rcases d.emit_cases t a with ⟨-, hemit, hleft⟩ | ⟨-, t', failed, fault, hemit, hleft, -⟩ |
    ⟨-, t', fault, bytes, -, -, -, hfail, -⟩ | ⟨-, t', hemit, hleft, -⟩
  · rw [hleft, hemit]
    rfl
  · rw [hleft, hemit]
    rfl
  · exact absurd hfail (hsound fault)
  · rw [hleft, hemit]
    rfl

/-- A name is refused exactly if it is remembered. -/
theorem emit_eq_duplicate_iff {d : OutputDir} {t : FileTree} {a : Asset} :
    (d.emit t a).1 = .error (.duplicate a.name) ↔ a.name ∈ d.written := by
  rcases d.emit_cases t a with ⟨hname, hemit, -⟩ | ⟨hname, t', failed, fault, hemit, -⟩ |
    ⟨hname, t', fault, bytes, hemit, -⟩ | ⟨hname, t', hemit, -⟩
  · rw [hemit]
    exact iff_of_true rfl hname
  all_goals
    rw [hemit]
    exact iff_of_false (fun h => nomatch h) hname

/-- The names remembered after an emission. -/
theorem mem_written_emit {d : OutputDir} {t : FileTree} {a : Asset} {name : String} :
    name ∈ (d.emit t a).2.1.written ↔
      name ∈ d.written ∨ (d.emit t a).1 = .ok () ∧ a.name = name := by
  rcases d.emit_cases t a with ⟨-, hemit, -⟩ | ⟨-, t', failed, fault, hemit, -⟩ |
    ⟨-, t', fault, bytes, hemit, -⟩ | ⟨-, t', hemit, -⟩
  · simp [hemit]
  · simp [hemit]
  · simp [hemit]
  · simp [hemit, eq_comm, or_comm]

end OutputDir

/-! ### Output directories in use -/

/-- What happens to output directories.  They are numbered in the order in which they come into
use; the file tree at an emission is any, since it may have changed since the last one. -/
inductive SinkEvent
  /-- One for a path comes into use. -/
  | opened (path : String)
  /-- An asset is emitted into one. -/
  | emitted (sink : Nat) (t : FileTree) (a : Asset)
  /-- A copy of one comes into use. -/
  | copied (sink : Nat)

/-- The output directories in use after events, of which the last comes first. -/
def sinksAfter : List SinkEvent → List OutputDir
  | [] => []
  | .opened path :: past => sinksAfter past ++ [{ path }]
  | .emitted i t a :: past => (sinksAfter past).modify i fun d => (d.emit t a).2.1
  | .copied i :: past => sinksAfter past ++ (sinksAfter past)[i]?.toList

/-- Whether an emission of a name into an output directory succeeded in the course of events, or one
into the output directory that it is a copy of, before it was copied. -/
inductive Took (name : String) : List SinkEvent → Nat → Prop
  | now {past : List SinkEvent} {i : Nat} {d : OutputDir} {t : FileTree} {a : Asset} :
      (sinksAfter past)[i]? = some d → (d.emit t a).1 = .ok () → a.name = name →
      Took name (.emitted i t a :: past) i
  | before {past : List SinkEvent} {i : Nat} {e : SinkEvent} :
      Took name past i → Took name (e :: past) i
  | original {past : List SinkEvent} {i : Nat} :
      Took name past i → Took name (.copied i :: past) (sinksAfter past).length

theorem Took.lt_length {name : String} {past : List SinkEvent} {i : Nat} (h : Took name past i) :
    i < (sinksAfter past).length := by
  induction h with
  | now hd _ _ =>
    rw [sinksAfter, List.length_modify]
    exact (List.getElem?_eq_some_iff.1 hd).1
  | @before past i e _ ih =>
    cases e with
    | opened path =>
      rw [sinksAfter, List.length_append]
      exact Nat.lt_add_right _ ih
    | emitted j t a =>
      rw [sinksAfter, List.length_modify]
      exact ih
    | copied j =>
      rw [sinksAfter, List.length_append]
      exact Nat.lt_add_right _ ih
  | @original past i _ ih =>
    rw [sinksAfter, List.length_append, List.getElem?_eq_getElem ih]
    exact Nat.lt_succ_self _

/-- **What an output directory remembers are the names that it took.** -/
theorem mem_written_iff {past : List SinkEvent} {i : Nat} {d : OutputDir} {name : String}
    (hd : (sinksAfter past)[i]? = some d) : name ∈ d.written ↔ Took name past i := by
  induction past generalizing i d with
  | nil => exact nomatch hd
  | cons e past ih =>
    cases e with
    | opened path =>
      rw [sinksAfter] at hd
      have hbefore : Took name (.opened path :: past) i ↔ Took name past i :=
        ⟨fun h => by cases h with | before h => exact h, .before⟩
      rw [hbefore]
      rcases Nat.lt_or_ge i (sinksAfter past).length with hlt | hge
      · rw [List.getElem?_append_left hlt] at hd
        exact ih hd
      · -- the new one remembers nothing
        rw [List.getElem?_append_right hge] at hd
        obtain rfl := List.mem_singleton.1 (List.mem_of_getElem? hd)
        refine iff_of_false List.not_mem_nil ?_
        intro h
        exact absurd h.lt_length (Nat.not_lt.2 hge)
    | emitted j t a =>
      rw [sinksAfter, List.getElem?_modify] at hd
      by_cases hj : j = i
      · subst hj
        obtain ⟨old, hold, rfl⟩ : ∃ old, (sinksAfter past)[j]? = some old ∧
            (old.emit t a).2.1 = d := by simpa using hd
        rw [OutputDir.mem_written_emit, ih hold]
        constructor
        · rintro (h | ⟨hok, hname⟩)
          · exact .before h
          · exact .now hold hok hname
        · intro h
          cases h with
          | now hsame hok hname =>
            obtain rfl := Option.some.inj (hold.symm.trans hsame)
            exact Or.inr ⟨hok, hname⟩
          | before h => exact Or.inl h
      · have hold : (sinksAfter past)[i]? = some d := by simpa [hj] using hd
        rw [ih hold]
        refine ⟨.before, ?_⟩
        intro h
        cases h with
        | now _ _ _ => exact absurd rfl hj
        | before h => exact h
    | copied j =>
      rw [sinksAfter] at hd
      rcases Nat.lt_or_ge i (sinksAfter past).length with hlt | hge
      · rw [List.getElem?_append_left hlt] at hd
        rw [ih hd]
        refine ⟨.before, ?_⟩
        intro h
        cases h with
        | before h => exact h
        | original _ => exact absurd hlt (Nat.lt_irrefl _)
      · -- the new one remembers what its original does
        rw [List.getElem?_append_right hge] at hd
        have hcopy : (sinksAfter past)[j]? = some d :=
          Option.mem_toList.1 (List.mem_of_getElem? hd)
        have hone : i - (sinksAfter past).length < 1 := by
          have hlt := (List.getElem?_eq_some_iff.1 hd).1
          rwa [hcopy, Option.toList_some] at hlt
        obtain rfl : i = (sinksAfter past).length := by omega
        rw [ih hcopy]
        refine ⟨.original, ?_⟩
        intro h
        cases h with
        | before h => exact absurd h.lt_length (Nat.lt_irrefl _)
        | original h => exact h

/-- **What an emission changes.**  For an output directory in use, on any tree and any disk:

* a name is refused as a duplicate exactly if it was taken before, and then nothing changes;
* if something cannot be written, the name can be tried again.  Either all places are as they were
  but for new directories, and every file is read as before; or the disk failed when the file was
  open, and its path leads to a file with a part of the text, while every other place is as it was
  but for new directories;
* if the asset is taken, its name is remembered, its path leads to a file with its text, and every
  other place is as it was but for new directories, also where other paths lead to it. -/
theorem OutputDir.emit_spec {past : List SinkEvent} {i : Nat} {d : OutputDir}
    (hd : (sinksAfter past)[i]? = some d) (t : FileTree) (a : Asset) :
    ((d.emit t a).1 = .error (.duplicate a.name) ↔ Took a.name past i) ∧
      (∀ name, (d.emit t a).1 = .error (.duplicate name) →
        name = a.name ∧ (d.emit t a).2 = (d, t)) ∧
      (∀ failed fault, (d.emit t a).1 = .error (.unwritable failed fault) →
        (d.emit t a).2.1 = d ∧
          (∀ later, (d.emit later a).1 ≠ .error (.duplicate a.name)) ∧
          ((MoreDirs t (d.emit t a).2.2 ∧
              ∀ path content, t.readFile path = .ok content →
                (d.emit t a).2.2.readFile path = .ok content) ∨
            failed = d.file a.name ∧ t.disk.MayFail fault ∧
              ∃ bytes < a.source.utf8ByteSize,
                Wrote t (d.emit t a).2.2 (d.file a.name) (a.source.toUTF8.extract 0 bytes))) ∧
      ((d.emit t a).1 = .ok () →
        (d.emit t a).2.1 = { d with written := a.name :: d.written } ∧
          (d.emit t a).2.2.readText (d.file a.name) = .ok a.source ∧
          Wrote t (d.emit t a).2.2 (d.file a.name) a.source.toUTF8) := by
  have hdup : (d.emit t a).1 = .error (.duplicate a.name) ↔ Took a.name past i := by
    rw [emit_eq_duplicate_iff, mem_written_iff hd]
  have hretry : a.name ∉ d.written →
      ∀ later, (d.emit later a).1 ≠ .error (.duplicate a.name) := by
    intro hname later hlater
    exact hname (emit_eq_duplicate_iff.1 hlater)
  refine ⟨hdup, ?_⟩
  rcases d.emit_cases t a with ⟨-, hemit, -⟩ | ⟨hname, t', failed, fault, hemit, -, hmore⟩ |
    ⟨hname, t', fault, bytes, hemit, -, hpart, hfail, hwrote⟩ | ⟨-, t', hemit, -, hwrote⟩
  · -- the name was taken before
    rw [hemit]
    refine ⟨?_, (fun _ _ h => nomatch h), (fun h => nomatch h)⟩
    intro name h
    cases h
    exact ⟨rfl, rfl⟩
  · -- the file cannot be opened
    rw [hemit]
    refine ⟨(fun _ h => nomatch h), ?_, (fun h => nomatch h)⟩
    intro _ _ _
    refine ⟨rfl, hretry hname, Or.inl ⟨hmore, ?_⟩⟩
    intro path content hread
    obtain ⟨place, hplace⟩ := FileTree.readFile_eq_ok_iff.1 hread
    exact FileTree.readFile_eq_ok_iff.2 ⟨place, FileTree.find_of_moreDirs hmore hplace⟩
  · -- the disk fails
    rw [hemit]
    refine ⟨(fun _ h => nomatch h), ?_, (fun h => nomatch h)⟩
    intro _ _ h
    cases h
    exact ⟨rfl, hretry hname, Or.inr ⟨rfl, hfail, bytes, hpart, hwrote⟩⟩
  · -- the asset is in its file
    rw [hemit]
    refine ⟨(fun _ h => nomatch h), (fun _ _ h => nomatch h), ?_⟩
    intro _
    obtain ⟨place, hfind, -⟩ := id hwrote
    exact ⟨rfl, FileTree.readText_of_find hfind, hwrote⟩

/-- A copy of an output directory refuses the name that its original took before it was copied. -/
theorem emit_copy_refused :
    (sinksAfter [.copied 0, .emitted 0 .empty ⟨"a.js", "1"⟩, .opened "out"])[1]? =
        some ⟨"out", ["a.js"]⟩ ∧
      (OutputDir.emit ⟨"out", ["a.js"]⟩ .empty ⟨"a.js", "2"⟩).1 = .error (.duplicate "a.js") := by
  have hsinks : (sinksAfter [.copied 0, .emitted 0 .empty ⟨"a.js", "1"⟩, .opened "out"])[1]? =
      some ⟨"out", ["a.js"]⟩ := by decide +kernel
  have hfirst : (OutputDir.emit ⟨"out", []⟩ .empty ⟨"a.js", "1"⟩).1 = .ok () := by decide +kernel
  have htook : Took "a.js" [.emitted 0 .empty ⟨"a.js", "1"⟩, .opened "out"] 0 :=
    .now rfl hfirst rfl
  have hcopy : Took "a.js" [.copied 0, .emitted 0 .empty ⟨"a.js", "1"⟩, .opened "out"] 1 :=
    .original htook
  exact ⟨hsinks, (OutputDir.emit_spec hsinks .empty ⟨"a.js", "2"⟩).1.2 hcopy⟩

/-- **An emission that fails need not leave all files as they were.**  If the disk is full when the
file is open, what the file held is lost.  And a file may be read where none was, on any disk: a
link through a missing directory leads on once the directory is made. -/
theorem not_forall_readFile_emit :
    (¬ ∀ (past : List SinkEvent) (i : Nat) (d : OutputDir) (t : FileTree) (a : Asset)
        (failed : String) (fault : Fault), (sinksAfter past)[i]? = some d →
        (d.emit t a).1 = .error (.unwritable failed fault) →
        ∀ path content, t.readFile path = .ok content →
          (d.emit t a).2.2.readFile path = .ok content) ∧
      ¬ ∀ (past : List SinkEvent) (i : Nat) (d : OutputDir) (t : FileTree) (a : Asset)
        (failed : String) (fault : Fault), (sinksAfter past)[i]? = some d → t.disk = [] →
        (d.emit t a).1 = .error (.unwritable failed fault) →
        ∀ path content, (d.emit t a).2.2.readFile path = .ok content →
          t.readFile path = .ok content := by
  constructor
  · intro h
    have hlost := h [.opened "/"] 0 { path := "/" }
      ((FileTree.empty.putFile ["a"] "old".toUTF8).onDisk [.done 0, .done 1, .failed .noSpace])
      ⟨"a", "new"⟩ "/a" .noSpace rfl (by decide +kernel) "/a" "old".toUTF8 (by decide +kernel)
    exact absurd hlost (by decide +kernel)
  · intro h
    have hfound := h [.opened "/"] 0 { path := "/" }
      ((FileTree.empty.putFile ["x"] "1".toUTF8).putLink ["l"] "d/../x") ⟨"d/e/", ""⟩ "/d/e/"
      .isDirectory rfl rfl (by decide +kernel) "/l" "1".toUTF8 (by decide +kernel)
    exact absurd hfound (by decide +kernel)

end CallHarvest
