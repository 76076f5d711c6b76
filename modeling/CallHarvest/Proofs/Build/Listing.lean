import CallHarvest.Build.Walk
import CallHarvest.Proofs.Ignore.SameLook
import CallHarvest.Proofs.Text.ByteOrder
import Mathlib.Data.List.Infix
import Mathlib.Data.List.Lex

/-!
# What a walk lists

A walk sorts the entries of each directory by their names, and so the whole list is in the order of
the paths, compared name by name.  The list holds each file that can be reached without links and
without what is ignored, and holds it once; in what order a directory keeps its entries is of no
account.

* `mem_inNameOrder`, `pairwise_inNameOrder` — blocks that are put in the order of their names.
* `Node.mem_sourceFiles`, `Node.pairwise_sourceFiles` — the files at or below a node.
* `FileTree.IsSource` — the files that a walk is to list.
* `FileTree.sourceFiles_eq_iff` — the list is told by these files and their order.
* `FileTree.sourceFiles_listing` — all that is said of the list.
-/

namespace CallHarvest

open CallHarvest.Text (ByteLt byteLe byteLe_trans byteLe_total byteLt_of_byteLe)

/-! ### Blocks in the order of their names -/

section Blocks

variable {α : Type} {blocks : List (String × List α)}

theorem mem_inNameOrder {x : α} : x ∈ inNameOrder blocks ↔ ∃ b ∈ blocks, x ∈ b.2 := by
  simp [inNameOrder, List.mem_mergeSort]

/-- Sorting blocks with different names puts them in the strict order of the names. -/
theorem pairwise_mergeSort_names (h : (blocks.map Prod.fst).Nodup) :
    (blocks.mergeSort fun a b => byteLe a.1 b.1).Pairwise fun a b => ByteLt a.1 b.1 := by
  have hsorted : (blocks.mergeSort fun a b => byteLe a.1 b.1).Pairwise
      fun a b => byteLe a.1 b.1 = true := by
    apply List.pairwise_mergeSort
    · intro a b c
      exact byteLe_trans a.1 b.1 c.1
    · intro a b
      exact byteLe_total a.1 b.1
  have hnodup : (blocks.mergeSort fun a b => byteLe a.1 b.1).Pairwise fun a b => a.1 ≠ b.1 := by
    have hperm := (List.mergeSort_perm blocks fun a b => byteLe a.1 b.1).map Prod.fst
    exact List.pairwise_map.1 (hperm.nodup_iff.2 h)
  exact hsorted.imp₂ (fun _ _ => byteLt_of_byteLe) hnodup

/-- The members of sorted blocks are in an order, if those of each block are, and those of different
blocks are in the order of the names. -/
theorem pairwise_inNameOrder {R : α → α → Prop} (h : (blocks.map Prod.fst).Nodup)
    (hin : ∀ b ∈ blocks, b.2.Pairwise R)
    (hout : ∀ b ∈ blocks, ∀ c ∈ blocks, ByteLt b.1 c.1 → ∀ x ∈ b.2, ∀ y ∈ c.2, R x y) :
    (inNameOrder blocks).Pairwise R := by
  rw [inNameOrder, List.pairwise_flatMap]
  constructor
  · intro b hb
    exact hin b (List.mem_mergeSort.1 hb)
  · refine (pairwise_mergeSort_names h).imp_of_mem ?_
    intro b c hb hc hlt
    exact hout b (List.mem_mergeSort.1 hb) c (List.mem_mergeSort.1 hc) hlt

end Blocks

/-! ### The files at or below a node -/

namespace Node

variable {entries : List (String × Node)} {n child : Node} {name : String} {place rest : Place}
  {content : ByteArray} {ignored : List String → Bool → Bool} {names : List String}
  {file : SourceFile}

mutual

/-- What holds of files and links, and of a directory if it holds of its entries, holds of every
node. -/
theorem induction {P : Node → Prop} (hfile : ∀ content, P (.file content))
    (hlink : ∀ target, P (.link target))
    (hdir : ∀ entries, (∀ e ∈ entries, P e.2) → P (.dir entries)) : ∀ n, P n
  | .file content => hfile content
  | .link target => hlink target
  | .dir entries => hdir entries (induction_entries hfile hlink hdir entries)

theorem induction_entries {P : Node → Prop} (hfile : ∀ content, P (.file content))
    (hlink : ∀ target, P (.link target))
    (hdir : ∀ entries, (∀ e ∈ entries, P e.2) → P (.dir entries)) :
    ∀ entries : List (String × Node), ∀ e ∈ entries, P e.2
  | [], _, he => absurd he List.not_mem_nil
  | (_, n) :: entries, e, he => by
    rcases List.mem_cons.1 he with rfl | he
    · exact induction hfile hlink hdir n
    · exact induction_entries hfile hlink hdir entries e he

end

/-- In a directory whose names differ, the entry of a name is the one that stands there. -/
theorem child?_eq_some_iff (h : (entries.map Prod.fst).Nodup) :
    child? entries name = some child ↔ (name, child) ∈ entries := by
  induction entries with
  | nil => simp [child?]
  | cons e entries ih =>
    obtain ⟨key, old⟩ := e
    rw [List.map_cons, List.nodup_cons] at h
    rw [child?, List.lookup_cons, List.mem_cons, Prod.mk.injEq]
    by_cases hname : name = key
    · subst hname
      have hnot : (name, child) ∉ entries :=
        fun hmem => h.1 (List.mem_map.2 ⟨(name, child), hmem, rfl⟩)
      simp [hnot, eq_comm]
    · have hbeq : (name == key) = false := beq_eq_false_iff_ne.2 hname
      have hrest : entries.lookup name = some child ↔ (name, child) ∈ entries := ih h.2
      simp [hbeq, hname, hrest]

theorem wellFormed_of_get? (h : n.WellFormed) (hchild : n.get? place = some child) :
    child.WellFormed := by
  induction place generalizing n with
  | nil =>
    rw [get?_nil] at hchild
    obtain rfl := Option.some.inj hchild
    exact h
  | cons name place ih =>
    obtain ⟨entries, m, rfl, hm, hplace⟩ := exists_of_get?_cons hchild
    exact ih (wellFormed_of_child? h.2 hm) hplace

theorem sourceBlocks_eq_map (ignored : List String → Bool → Bool) (names : List String)
    (entries : List (String × Node)) :
    sourceBlocks ignored names entries = entries.map fun e => (e.1,
      if ignored (names ++ [e.1]) e.2.isDir then []
      else e.2.sourceFiles ignored (names ++ [e.1])) := by
  induction entries with
  | nil => rfl
  | cons e entries ih => rw [sourceBlocks, ih, List.map_cons]

/-- The node on the way to a file is a directory, unless the file is the node. -/
theorem isDir_of_get?_file (h : n.get? rest = some (.file content)) :
    n.isDir = decide (rest ≠ []) := by
  cases rest with
  | nil =>
    rw [get?_nil] at h
    obtain rfl := Option.some.inj h
    rfl
  | cons name rest =>
    obtain ⟨entries, child, rfl, -⟩ := exists_of_get?_cons h
    rfl

/-- Whether nothing is ignored on the way along further names.  All but the last of them lead to
directories. -/
def IsKept (ignored : List String → Bool → Bool) (names rest : List String) : Prop :=
  ∀ mid, mid ≠ [] → mid <+: rest → ignored (names ++ mid) (decide (mid ≠ rest)) = false

theorem isKept_nil : IsKept ignored names [] := by
  intro mid hne hmid
  exact absurd (List.prefix_nil.1 hmid) hne

theorem isKept_cons : IsKept ignored names (name :: rest) ↔
    ignored (names ++ [name]) (decide (rest ≠ [])) = false ∧
      IsKept ignored (names ++ [name]) rest := by
  have hfirst : decide ([name] ≠ name :: rest) = decide (rest ≠ []) := by
    cases rest <;> simp
  constructor
  · intro h
    constructor
    · have hname := h [name] (List.cons_ne_nil name []) ⟨rest, rfl⟩
      rwa [hfirst] at hname
    · intro mid _ hmid
      have hlonger := h (name :: mid) (List.cons_ne_nil name mid)
        ((List.prefix_cons_inj name).2 hmid)
      simpa using hlonger
  · rintro ⟨hname, hrest⟩ mid hne hmid
    rcases List.prefix_cons_iff.1 hmid with rfl | ⟨tail, rfl, htail⟩
    · exact absurd rfl hne
    · by_cases hempty : tail = []
      · rwa [hempty, hfirst]
      · simpa using hrest tail hempty htail

/-- The files below a directory, told by its entries. -/
theorem mem_sourceFiles_dir :
    file ∈ (dir entries).sourceFiles ignored names ↔
      ∃ e ∈ entries, ignored (names ++ [e.1]) e.2.isDir = false ∧
        file ∈ e.2.sourceFiles ignored (names ++ [e.1]) := by
  rw [sourceFiles, mem_inNameOrder, sourceBlocks_eq_map]
  simp only [List.mem_map, exists_exists_and_eq_and]
  refine exists_congr fun e => and_congr_right fun _ => ?_
  cases ignored (names ++ [e.1]) e.2.isDir <;> simp

/-- **The files at or below a node** are those that nothing ignored is on the way to. -/
theorem mem_sourceFiles (h : n.WellFormed) :
    file ∈ n.sourceFiles ignored names ↔ ∃ rest, file.names = names ++ rest ∧
      n.get? rest = some (.file file.content) ∧ IsKept ignored names rest := by
  induction n using induction generalizing names with
  | hfile content =>
    constructor
    · intro hfile
      obtain rfl := List.mem_singleton.1 hfile
      exact ⟨[], (List.append_nil names).symm, get?_nil _, isKept_nil⟩
    · rintro ⟨rest, hnames, hget, -⟩
      cases rest with
      | nil =>
        obtain rfl : content = file.content := by injection Option.some.inj hget
        rw [sourceFiles, List.mem_singleton]
        rw [List.append_nil] at hnames
        rw [← hnames]
      | cons name rest => exact nomatch hget
  | hlink target =>
    constructor
    · intro hfile
      exact absurd hfile List.not_mem_nil
    · rintro ⟨rest, -, hget, -⟩
      cases rest with
      | nil => exact nomatch hget
      | cons name rest => exact nomatch hget
  | hdir entries ih =>
    rw [mem_sourceFiles_dir]
    constructor
    · rintro ⟨⟨name, child⟩, hmem, hentry, hfile⟩
      have hchild := (child?_eq_some_iff h.1).2 hmem
      obtain ⟨rest, hnames, hget, hkept⟩ :=
        (ih _ hmem (wellFormed_of_child? h.2 hchild)).1 hfile
      refine ⟨name :: rest, by rw [hnames, List.append_assoc, List.singleton_append], ?_, ?_⟩
      · rw [get?_dir_cons, hchild]
        exact hget
      · rw [isKept_cons, ← isDir_of_get?_file hget]
        exact ⟨hentry, hkept⟩
    · rintro ⟨rest, hnames, hget, hkept⟩
      cases rest with
      | nil => exact nomatch hget
      | cons name rest =>
        obtain ⟨_, child, heq, hchild, hget⟩ := exists_of_get?_cons hget
        obtain rfl := Node.dir.inj heq
        have hmem := (child?_eq_some_iff h.1).1 hchild
        rw [isKept_cons, ← isDir_of_get?_file hget] at hkept
        refine ⟨(name, child), hmem, hkept.1, ?_⟩
        rw [ih _ hmem (wellFormed_of_child? h.2 hchild)]
        exact ⟨rest, by rw [hnames, List.append_assoc, List.singleton_append], hget, hkept.2⟩

/-- **The files at or below a node are in the order of their names.** -/
theorem pairwise_sourceFiles (h : n.WellFormed) :
    (n.sourceFiles ignored names).Pairwise fun a b => List.Lex ByteLt a.names b.names := by
  induction n using induction generalizing names with
  | hfile content => exact List.pairwise_singleton _ _
  | hlink target => exact List.Pairwise.nil
  | hdir entries ih =>
    have hentry : ∀ e ∈ entries, e.2.WellFormed :=
      fun e he => wellFormed_of_child? h.2 ((child?_eq_some_iff h.1).2 he)
    -- the files in a block have the name of its entry after those that lead to the directory
    have hblock : ∀ b ∈ sourceBlocks ignored names entries, ∀ file ∈ b.2,
        ∃ rest, file.names = names ++ b.1 :: rest := by
      rw [sourceBlocks_eq_map]
      intro b hb file hfile
      obtain ⟨e, he, rfl⟩ := List.mem_map.1 hb
      dsimp only at hfile
      split at hfile
      · exact absurd hfile List.not_mem_nil
      · obtain ⟨rest, hnames, -⟩ := (mem_sourceFiles (hentry e he)).1 hfile
        exact ⟨rest, by rw [hnames, List.append_assoc, List.singleton_append]⟩
    rw [sourceFiles]
    refine pairwise_inNameOrder ?_ ?_ ?_
    · rw [sourceBlocks_eq_map, List.map_map]
      exact h.1
    · rw [sourceBlocks_eq_map]
      intro b hb
      obtain ⟨e, he, rfl⟩ := List.mem_map.1 hb
      dsimp only
      split
      · exact List.Pairwise.nil
      · exact ih e he (hentry e he)
    · intro b hb c hc hlt x hx y hy
      obtain ⟨xs, hxs⟩ := hblock b hb x hx
      obtain ⟨ys, hys⟩ := hblock c hc y hy
      rw [hxs, hys]
      exact List.Lex.append_left ByteLt (List.Lex.rel hlt) names

end Node

/-! ### The files below a directory -/

/-- Whether the path to a file comes before that to another one: the paths are compared name by
name, and the names by their bytes. -/
def SourceFile.Earlier (a b : SourceFile) : Prop :=
  List.Lex ByteLt a.names b.names

instance : Std.Asymm ByteLt where
  asymm _ _ := List.lt_asymm

instance : Std.Asymm SourceFile.Earlier where
  asymm a b := Std.Asymm.asymm (r := List.Lex ByteLt) a.names b.names

namespace FileTree

variable {t t' : FileTree} {place : Place} {file : SourceFile} {files : List SourceFile}

/-- Whether a file can be reached from a directory: through directories, and with nothing on the way
that is ignored, the file itself not either. -/
structure IsSource (t : FileTree) (place : Place) (file : SourceFile) : Prop where
  isFile : t.kind? (place ++ file.names) = some (.file file.content)
  isBelow : ∀ names, names <+: file.names → names ≠ file.names →
    t.kind? (place ++ names) = some .dir
  isKept : ∀ names, names ≠ [] → names <+: file.names →
    t.isIgnored (place ++ names) (decide (names ≠ file.names)) = false

instance : Decidable (t.IsSource place file) :=
  decidable_of_iff
    (t.kind? (place ++ file.names) = some (.file file.content) ∧
      (∀ names ∈ file.names.inits, names ≠ file.names → t.kind? (place ++ names) = some .dir) ∧
      ∀ names ∈ file.names.inits, names ≠ [] →
        t.isIgnored (place ++ names) (decide (names ≠ file.names)) = false)
    (by
      simp only [List.mem_inits]
      exact ⟨fun ⟨hfile, hbelow, hkept⟩ => ⟨hfile, hbelow, fun names hne h => hkept names h hne⟩,
        fun ⟨hfile, hbelow, hkept⟩ => ⟨hfile, hbelow, fun names h hne => hkept names hne h⟩⟩)

/-- **The files that a walk lists.** -/
theorem mem_sourceFiles_iff : file ∈ t.sourceFiles place ↔ t.IsSource place file := by
  rw [sourceFiles]
  cases hn : t.get? place with
  | none =>
    constructor
    · intro hfile
      exact absurd hfile List.not_mem_nil
    · rintro ⟨hfile, -, -⟩
      rw [kind?_eq_file_iff, get?_append, hn] at hfile
      exact nomatch hfile
  | some n =>
    have hwell : n.WellFormed := Node.wellFormed_of_get? t.wellFormed hn
    have hget : t.kind? (place ++ file.names) = some (.file file.content) ↔
        n.get? file.names = some (.file file.content) := by
      rw [kind?_eq_file_iff, get?_append, hn, Option.bind_some]
    dsimp only
    rw [Node.mem_sourceFiles hwell]
    constructor
    · rintro ⟨rest, hnames, hfile, hkept⟩
      rw [List.nil_append] at hnames
      subst hnames
      have hsome : t.kind? (place ++ file.names) ≠ none := by
        rw [hget.2 hfile]
        exact Option.some_ne_none _
      exact ⟨hget.2 hfile, fun names => kind?_eq_dir_of_above hsome, hkept⟩
    · rintro ⟨hfile, -, hkept⟩
      exact ⟨file.names, rfl, hget.1 hfile, hkept⟩

/-- **A walk lists files in the order of their paths.** -/
theorem pairwise_sourceFiles (t : FileTree) (place : Place) :
    (t.sourceFiles place).Pairwise SourceFile.Earlier := by
  rw [sourceFiles]
  cases hn : t.get? place with
  | none => exact List.Pairwise.nil
  | some n => exact Node.pairwise_sourceFiles (Node.wellFormed_of_get? t.wellFormed hn)

/-- The list is the only one that holds these files in this order. -/
theorem sourceFiles_eq_iff : t.sourceFiles place = files ↔
    files.Pairwise SourceFile.Earlier ∧ ∀ file, file ∈ files ↔ t.IsSource place file := by
  constructor
  · rintro rfl
    exact ⟨t.pairwise_sourceFiles place, fun _ => mem_sourceFiles_iff⟩
  · rintro ⟨hearlier, hmem⟩
    refine List.Pairwise.eq_of_mem_iff (t.pairwise_sourceFiles place) hearlier fun file => ?_
    rw [mem_sourceFiles_iff, hmem]

theorem IsSource.of_sameLook (h : SameLook t t') (hfile : t.IsSource place file) :
    t'.IsSource place file where
  isFile := (h _).trans hfile.isFile
  isBelow names hnames hne := (h _).trans (hfile.isBelow names hnames hne)
  isKept names hne hnames := by
    have hsome : t.kind? (place ++ names) ≠ none := by
      by_cases heq : names = file.names
      · rw [heq, hfile.isFile]
        exact Option.some_ne_none _
      · rw [hfile.isBelow names hnames heq]
        exact Option.some_ne_none _
    rw [isIgnored_of_sameLook h hsome]
    exact hfile.isKept names hne hnames

/-- In trees that look the same the same files are listed. -/
theorem sourceFiles_of_sameLook (h : SameLook t t') :
    t'.sourceFiles place = t.sourceFiles place := by
  refine sourceFiles_eq_iff.2 ⟨t.pairwise_sourceFiles place, fun file => ?_⟩
  rw [mem_sourceFiles_iff]
  exact ⟨fun hfile => hfile.of_sameLook h, fun hfile => hfile.of_sameLook h.symm⟩

/-- **What a walk lists.**  The files are those that can be reached through directories with nothing
ignored on the way; each path is listed once, and the paths are in their order, name by name.  The
order in which entries are made has no part in it. -/
theorem sourceFiles_listing (t : FileTree) (place : Place) :
    (∀ file, file ∈ t.sourceFiles place ↔ t.IsSource place file) ∧
      ((t.sourceFiles place).map SourceFile.names).Nodup ∧
      ((t.sourceFiles place).map SourceFile.names).Pairwise (List.Lex ByteLt) ∧
      ∀ entries entries', t.CanMake entries → t.CanMake entries' → entries.Perm entries' →
        (t.make entries').sourceFiles place = (t.make entries).sourceFiles place := by
  have hearlier : ((t.sourceFiles place).map SourceFile.names).Pairwise (List.Lex ByteLt) :=
    List.pairwise_map.2 (t.pairwise_sourceFiles place)
  refine ⟨fun _ => mem_sourceFiles_iff, ?_, hearlier, ?_⟩
  · refine hearlier.imp fun {names names'} hlex he => ?_
    subst he
    exact List.lex_irrefl (fun name => Std.Irrefl.irrefl name) names hlex
  · intro entries entries' h h' hperm
    exact sourceFiles_of_sameLook (sameLook_make h h' hperm)

/-- Entries made in two orders: the lists are the same, with a file below a directory in them, and
without one below an ignored directory. -/
theorem sourceFiles_two_orders :
    ∃ entries entries', FileTree.empty.CanMake entries ∧ FileTree.empty.CanMake entries' ∧
      entries.Perm entries' ∧ entries ≠ entries' ∧
      (FileTree.empty.make entries').sourceFiles [] = (FileTree.empty.make entries).sourceFiles [] ∧
      ⟨["a", "b.js"], "1".toUTF8⟩ ∈ (FileTree.empty.make entries).sourceFiles [] ∧
      ⟨["skip", "c.js"], "2".toUTF8⟩ ∉ (FileTree.empty.make entries).sourceFiles [] := by
  have h : FileTree.empty.CanMake [(["x.js"], .link "a/b.js"), (["a"], .dir),
      (["a", "b.js"], .file "1".toUTF8), ([".ignore"], .file "skip/".toUTF8), (["skip"], .dir),
      (["skip", "c.js"], .file "2".toUTF8)] := by decide +kernel
  have h' : FileTree.empty.CanMake [(["skip"], .dir), (["skip", "c.js"], .file "2".toUTF8),
      ([".ignore"], .file "skip/".toUTF8), (["a"], .dir), (["a", "b.js"], .file "1".toUTF8),
      (["x.js"], .link "a/b.js")] := by decide +kernel
  have hperm : [(["x.js"], Kind.link "a/b.js"), (["a"], .dir),
      (["a", "b.js"], .file "1".toUTF8), ([".ignore"], .file "skip/".toUTF8), (["skip"], .dir),
      (["skip", "c.js"], .file "2".toUTF8)].Perm
      [(["skip"], .dir), (["skip", "c.js"], .file "2".toUTF8),
      ([".ignore"], .file "skip/".toUTF8), (["a"], .dir), (["a", "b.js"], .file "1".toUTF8),
      (["x.js"], .link "a/b.js")] := by decide +kernel
  refine ⟨_, _, h, h', hperm, by decide +kernel,
    (sourceFiles_listing .empty []).2.2.2 _ _ h h' hperm, ?_, ?_⟩
  · rw [(sourceFiles_listing _ []).1]
    decide +kernel
  · rw [(sourceFiles_listing _ []).1]
    decide +kernel

/-- What is in a directory comes before a file whose name goes on after that of the directory. -/
example : List.Lex ByteLt ["a", "z.js"] ["a.js"] := .rel (by decide)

end FileTree

end CallHarvest
