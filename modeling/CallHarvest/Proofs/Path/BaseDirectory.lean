import CallHarvest.PathFilter
import CallHarvest.Proofs.Path.Spelling
import Mathlib.Data.List.Forall2
import Mathlib.Data.List.TakeWhile

/-!
# Ids below the base directory

An id is held against the patterns as a path relative to the base directory, if it lies there.  That
goes by components and not by text: it does not matter how the directory is written in the options
or in the id, and a name that only begins as the directory's last name does is another name.

* `afterNames?_append`, `prefix_of_afterNames?` — which parts are taken for the directory.
* `trimParts_append` — parts that say nothing are cut at both ends.
* `strip?_of_split`, `strip?_eq_none` — a path in the directory, and one that is not.
* `exists_split_of_respelled` — the parts of a path that is written in the directory.
* `PathFilter.SeparatorsWritten` — an id with either kind of separator.
* `PathFilter.shouldScan_of_baseDir` — which ids a filter with a base directory scans.
-/

namespace CallHarvest

namespace Path

/-! ### The parts after the directory -/

theorem named_dropWhile (parts : List (List Char)) :
    named (parts.dropWhile isVoid) = named parts := by
  have hvoid : named (parts.takeWhile isVoid) = [] :=
    named_eq_nil_iff.2 (List.all_eq_true.1 List.all_takeWhile)
  have hparts : named (parts.takeWhile isVoid ++ parts.dropWhile isVoid) = named parts :=
    congrArg named List.takeWhile_append_dropWhile
  rwa [named_append, hvoid, List.nil_append] at hparts

/-- Names are followed through the parts that have them, up to parts that say nothing. -/
theorem afterNames?_append {names front : List (List Char)} (h : named front = names)
    (rest : List (List Char)) :
    ∃ voids, (∀ part ∈ voids, isVoid part) ∧
      afterNames? names (front ++ rest) = some (voids ++ rest) := by
  induction names generalizing front with
  | nil => exact ⟨front, named_eq_nil_iff.1 h, rfl⟩
  | cons name names ih =>
    obtain ⟨voids, more, rfl, hvoids, hname, hmore⟩ := List.filter_eq_cons_iff.1 h
    have hdrop : (voids ++ name :: more ++ rest).dropWhile isVoid = name :: (more ++ rest) := by
      rw [List.append_assoc, List.dropWhile_append_of_pos (by simpa using hvoids),
        List.cons_append, List.dropWhile_cons_of_neg (by simpa using hname)]
    obtain ⟨voids', hvoids', hafter⟩ := ih hmore
    refine ⟨voids', hvoids', ?_⟩
    rw [afterNames?, hdrop]
    simpa using hafter

/-- Names are followed only through parts that begin with them. -/
theorem prefix_of_afterNames? {names parts rest : List (List Char)}
    (h : afterNames? names parts = some rest) : names <+: named parts := by
  induction names generalizing parts with
  | nil => exact List.nil_prefix
  | cons name names ih =>
    rw [afterNames?] at h
    split at h
    · exact nomatch h
    · rename_i part more hdrop
      split at h
      · rename_i hpart
        have hvoid : ¬ isVoid part := by
          have hhead := List.head?_dropWhile_not isVoid parts
          rw [hdrop] at hhead
          simpa using hhead
        rw [← named_dropWhile, hdrop, ← hpart, named, List.filter_cons_of_pos (by simpa using hvoid)]
        exact List.cons_prefix_cons.2 ⟨rfl, ih h⟩
      · exact nomatch h

theorem dropVoidEnd_append {names voids : List (List Char)} (hnames : ∀ n ∈ names, ¬ isVoid n)
    (hvoids : ∀ part ∈ voids, isVoid part) : dropVoidEnd (names ++ voids) = names := by
  have hself : names.reverse.dropWhile isVoid = names.reverse := by
    rw [List.dropWhile_eq_self_iff]
    intro hlen
    exact hnames _ (List.mem_reverse.1 (List.getElem_mem hlen))
  rw [dropVoidEnd, List.reverse_append,
    List.dropWhile_append_of_pos (by simpa using hvoids), hself, List.reverse_reverse]

/-- Parts that say nothing are cut at both ends. -/
theorem trimParts_append {before names after : List (List Char)}
    (hbefore : ∀ part ∈ before, isVoid part) (hnames : ∀ n ∈ names, ¬ isVoid n)
    (hafter : ∀ part ∈ after, isVoid part) : trimParts (before ++ (names ++ after)) = names := by
  rw [trimParts, List.dropWhile_append_of_pos hbefore]
  cases names with
  | nil =>
    rw [List.nil_append, List.dropWhile_eq_nil_iff.2 hafter]
    rfl
  | cons name names =>
    rw [List.cons_append, List.dropWhile_cons_of_neg (hnames name List.mem_cons_self),
      ← List.cons_append]
    exact dropVoidEnd_append hnames hafter

/-! ### Paths in the directory -/

theorem strip?_eq {base : String} (hne : base ≠ "") (path : String) :
    strip? base path =
      if (split base).1 = (split path).1 then
        (afterNames? (named (split base).2) (split path).2).map fun parts =>
          ofParts .bare (trimParts parts)
      else none := by
  have hempty : ¬ ((split base).1 = .bare ∧ named (split base).2 = []) := by
    intro h
    have hnil : components base.toList = (.bare, []) := Prod.ext h.1 h.2
    exact hne (String.toList_eq_nil_iff.1 (eq_nil_of_components_eq hnil))
  exact if_neg hempty

/-- A path in the directory comes down to the names after those of the directory. -/
theorem strip?_of_split {base path : String} {front names voids : List (List Char)}
    (hne : base ≠ "") (hlead : (split path).1 = (split base).1)
    (hparts : (split path).2 = front ++ (names ++ voids))
    (hfront : named front = named (split base).2) (hnames : ∀ n ∈ names, ¬ isVoid n)
    (hvoids : ∀ part ∈ voids, isVoid part) :
    strip? base path = some (String.ofList (joinParts names)) := by
  obtain ⟨before, hbefore, hafter⟩ := afterNames?_append hfront (names ++ voids)
  rw [strip?_eq hne, if_pos hlead.symm, hparts, hafter, Option.map_some,
    trimParts_append hbefore hnames hvoids]
  rfl

/-- Whether the first components of a path are those of a directory: it begins in the same way, and
its first names are the names of the directory. -/
def BeginsWith (base path : String) : Prop :=
  (split base).1 = (split path).1 ∧ names base <+: names path

instance (base path : String) : Decidable (BeginsWith base path) :=
  inferInstanceAs (Decidable (_ ∧ _))

/-- A path that does not begin with the components of the directory is not in it. -/
theorem strip?_eq_none {base path : String} (hne : base ≠ "") (h : ¬ BeginsWith base path) :
    strip? base path = none := by
  rw [strip?_eq hne]
  split_ifs with hlead
  · rw [Option.map_eq_none_iff, Option.eq_none_iff_forall_ne_some]
    intro rest hrest
    exact h ⟨hlead, (prefix_of_afterNames? hrest).map String.ofList⟩
  · rfl

/-! ### Paths that are written in the directory -/

theorem mem_joinParts {parts : List (List Char)} {c : Char} (h : c ∈ joinParts parts) :
    c = '/' ∨ ∃ part ∈ parts, c ∈ part := by
  induction parts with
  | nil => exact absurd h List.not_mem_nil
  | cons part parts ih =>
    by_cases hparts : parts = []
    · subst hparts
      rw [joinParts, List.intercalate_singleton] at h
      exact .inr ⟨part, List.mem_cons_self, h⟩
    · rw [joinParts, List.intercalate_cons_of_ne_nil hparts, List.append_assoc] at h
      rcases List.mem_append.1 h with hc | h
      · exact .inr ⟨part, List.mem_cons_self, hc⟩
      · rcases List.mem_cons.1 h with hc | h
        · exact .inl hc
        · rcases ih h with hc | ⟨other, hother, hc⟩
          · exact .inl hc
          · exact .inr ⟨other, List.mem_cons_of_mem part hother, hc⟩

/-- The parts of a path that is made of a spelling of a directory, a separator, names, and what may
be written after them. -/
theorem exists_split_of_respelled {base dir tail : List Char} {names : List (List Char)}
    (hbase : base ≠ []) (hdir : Respelled base dir)
    (hsep : names = [] ∨ dir.getLast? = some '/') (hnames : ∀ n ∈ names, '/' ∉ n)
    (htail : Trailing tail) :
    ∃ front voids, (lead (dir ++ joinParts names ++ tail)).1 = (lead base).1 ∧
      (lead (dir ++ joinParts names ++ tail)).2.splitOn '/' = front ++ (names ++ voids) ∧
      named front = named ((lead base).2.splitOn '/') ∧ ∀ part ∈ voids, isVoid part := by
  obtain ⟨hlead, hnamed⟩ := Prod.mk.inj hdir.components_eq
  obtain ⟨voids, hvoids, hsplit⟩ := htail.exists_voids
  by_cases hempty : names = []
  · subst hempty
    have hne : dir ≠ [] := by
      rintro rfl
      exact hbase (eq_nil_of_components_eq hdir.components_eq)
    refine ⟨(lead dir).2.splitOn '/', voids, ?_, ?_, hnamed.symm, hvoids⟩
    · rw [show dir ++ joinParts [] = dir from List.append_nil dir, htail.lead_append hne, hlead]
    · rw [show dir ++ joinParts [] = dir from List.append_nil dir, htail.lead_append hne]
      exact hsplit _
  · obtain ⟨dir, rfl⟩ := List.getLast?_eq_some_iff.1 (hsep.resolve_left hempty)
    have hjoin : (joinParts names ++ tail).splitOn '/' = names ++ voids := by
      rw [hsplit, joinParts, List.splitOn_intercalate '/' hnames hempty]
    rw [List.append_assoc, List.append_assoc, List.singleton_append]
    by_cases hroot : dir = []
    · subst hroot
      exact ⟨[], voids, hlead.symm, hjoin, hnamed.symm, hvoids⟩
    · have hdirs : lead (dir ++ ['/']) = ((lead dir).1, (lead dir).2 ++ ['/']) :=
        lead_append_separator hroot []
      rw [hdirs] at hlead hnamed
      refine ⟨(lead dir).2.splitOn '/', voids, ?_, ?_, ?_, hvoids⟩
      · rw [lead_append_separator hroot, hlead]
      · rw [lead_append_separator hroot, splitOn_append_separator, hjoin]
      · rw [hnamed, splitOn_append_separator, named_append]
        simp [named, isVoid]

end Path

/-! ### Ids -/

namespace PathFilter

open CallHarvest.Path (Respelled Trailing joinParts)

/-- Whether a text is a path in which some separators may be written as backslashes. -/
def SeparatorsWritten (path id : List Char) : Prop :=
  List.Forall₂ (fun c d => d = c ∨ c = '/' ∧ d = '\\') path id

theorem SeparatorsWritten.map_eq {path id : List Char} (h : SeparatorsWritten path id)
    (hno : '\\' ∉ path) : id.map (fun c => if c = '\\' then '/' else c) = path := by
  induction h with
  | nil => rfl
  | @cons c d path id hcd _ ih =>
    rw [List.mem_cons, not_or] at hno
    rw [List.map_cons, ih hno.2]
    rcases hcd with rfl | ⟨rfl, rfl⟩
    · rw [if_neg (Ne.symm hno.1)]
    · rfl

theorem SeparatorsWritten.mem {path id : List Char} (h : SeparatorsWritten path id) {c : Char}
    (hc : c ∈ id) : c ∈ path ∨ c = '\\' := by
  induction h with
  | nil => exact absurd hc List.not_mem_nil
  | cons hcd _ ih =>
    rcases List.mem_cons.1 hc with rfl | hc
    · rcases hcd with rfl | ⟨-, rfl⟩
      · exact .inl List.mem_cons_self
      · exact .inr rfl
    · exact (ih hc).imp_left (List.mem_cons_of_mem _)

theorem shouldScan_eq {f : PathFilter} {base id : String} (hbase : f.baseDir = some base)
    (hnul : '\x00' ∉ id.toList) :
    f.shouldScan id = f.accepts ((Path.strip? base (pathOfId id)).getD (pathOfId id)) := by
  rw [shouldScan, if_neg (by simpa using hnul), hbase]
  rfl

/-- **Which ids a filter with a base directory scans.**  An id that spells the directory, a separator
and names, in any way but with the names as they are, is scanned if the path of these names passes;
so is one that spells the directory alone, for the empty path.  An id that does not begin with the
components of the directory is scanned if it passes as a whole. -/
theorem shouldScan_of_baseDir {f : PathFilter} {base : String} (hbase : f.baseDir = some base)
    (hne : base ≠ "") (hslash : '\\' ∉ base.toList) (hnul : '\x00' ∉ base.toList) :
    (∀ (dir tail : List Char) (names : List (List Char)) (id : String),
      Respelled base.toList dir → (names = [] ∨ dir.getLast? = some '/') →
      (∀ n ∈ names, n ≠ [] ∧ n ≠ ['.'] ∧ '/' ∉ n ∧ '\\' ∉ n ∧ '\x00' ∉ n) → Trailing tail →
      SeparatorsWritten (dir ++ joinParts names ++ tail) id.toList →
        f.shouldScan id = f.accepts (String.ofList (joinParts names))) ∧
    ∀ id : String, '\x00' ∉ id.toList → ¬ Path.BeginsWith base (pathOfId id) →
      f.shouldScan id = f.accepts (pathOfId id) := by
  constructor
  · intro dir tail names id hdir hsep hnames htail hid
    have hclean : ∀ c : Char, c ≠ '/' → c ≠ '.' → c ∉ base.toList → (∀ n ∈ names, c ∉ n) →
        c ∉ dir ++ joinParts names ++ tail := by
      intro c hsep hdot hbase hnames hc
      rcases List.mem_append.1 hc with hc | hc
      · rcases List.mem_append.1 hc with hc | hc
        · exact hbase ((hdir.mem_iff hsep hdot).2 hc)
        · obtain hc | ⟨n, hn, hc⟩ := Path.mem_joinParts hc
          · exact hsep hc
          · exact hnames n hn hc
      · exact (htail.mem hc).elim hsep hdot
    have hpath : pathOfId id = String.ofList (dir ++ joinParts names ++ tail) := by
      have hno := hclean '\\' (by decide) (by decide) hslash fun n hn => (hnames n hn).2.2.2.1
      rw [← hid.map_eq hno, pathOfId, ← String.toList_map, String.ofList_toList]
    have hnulid : '\x00' ∉ id.toList := by
      intro hc
      have hno := hclean '\x00' (by decide) (by decide) hnul fun n hn => (hnames n hn).2.2.2.2
      exact (hid.mem hc).elim hno (by decide)
    obtain ⟨front, voids, hlead, hparts, hfront, hvoids⟩ :=
      Path.exists_split_of_respelled (fun h => hne (String.toList_eq_nil_iff.1 h)) hdir hsep
        (fun n hn => (hnames n hn).2.2.1) htail
    have hstrip : Path.strip? base (pathOfId id) = some (String.ofList (joinParts names)) := by
      rw [hpath]
      refine Path.strip?_of_split hne ?_ ?_ hfront ?_ hvoids
      · rw [Path.split, String.toList_ofList, hlead]
        rfl
      · rw [Path.split, String.toList_ofList, hparts]
      · intro n hn
        simp [Path.isVoid, (hnames n hn).1, (hnames n hn).2.1]
    rw [shouldScan_eq hbase hnulid, hstrip, Option.getD_some]
  · intro id hnulid hbegins
    rw [shouldScan_eq hbase hnulid, Path.strip?_eq_none hne hbegins, Option.getD_none]

/-- A filter for the files directly in `src`, with a base directory. -/
def sourceFilter : PathFilter where
  baseDir := some "/srv//app/"
  included := [⟨"src/*", [.literal 's', .literal 'r', .literal 'c', .literal '/', .star]⟩]

/-- An id in another spelling of the base directory is scanned.  Ids are not that only have the base
directory in their text: one in which its last name goes on, and a relative one. -/
theorem shouldScan_sourceFilter :
    sourceFilter.shouldScan "/srv/./app\\/src\\a.js/." = true ∧
      sourceFilter.shouldScan "/srv/apple/src/a.js" = false ∧
      sourceFilter.shouldScan "srv/app/src/a.js" = false := by
  have hbase : sourceFilter.baseDir = some "/srv//app/" := rfl
  have hall := shouldScan_of_baseDir hbase (by decide) (by decide) (by decide)
  have hdir : Respelled "/srv//app/".toList "/srv/./app//".toList :=
    .trans (.symm (.separator "/srv".toList "app/".toList))
      (.trans (.dot "/srv".toList "app/".toList) (.trailing (by decide)))
  have hin := hall.1 "/srv/./app//".toList "/.".toList ["src".toList, "a.js".toList]
    "/srv/./app\\/src\\a.js/." hdir (.inr (by decide)) (by decide) (.dot .nil)
    (by unfold SeparatorsWritten; decide)
  have hlonger := hall.2 "/srv/apple/src/a.js" (by decide) (by decide +kernel)
  have hrelative := hall.2 "srv/app/src/a.js" (by decide) (by decide +kernel)
  rw [hin, hlonger, hrelative]
  decide +kernel

end PathFilter

end CallHarvest
