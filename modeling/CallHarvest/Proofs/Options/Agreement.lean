import CallHarvest.Options.Load
import CallHarvest.Plugin.Harvester
import Mathlib.Tactic.ByContra
import Mathlib.Tactic.SplitIfs

/-!
# The check of options and what is built from them

The patterns of options are read twice: the check tells all that is wrong with them, and the filter
ends at the first pattern that is no glob.  An empty pattern is a glob, but the check does not let
it pass.  So a filter can be made of some options that do not pass, but a harvester only of those
that do, and options that were loaded do.

* `Options.placed` — the patterns of both lists with their places, in their order.
* `Options.Wrong` — what is wrong with options, and the path under which it is told.
* `PatternPlace.Before`, `OptionsError.Before` — the order in which errors are told.
* `Options.pathFilter_ofOptions_eq_error_iff` — the filter fails at the first pattern that is told
  to be no glob.
* `Options.errors_agree` — the check, the filter, the harvester and the loading agree.
-/

namespace CallHarvest

/-! ### Patterns that are no globs -/

/-- The empty pattern is a glob. -/
theorem Glob.parse_empty : Glob.parse "" = .ok ⟨"", []⟩ := by
  simp [Glob.parse, readTokens]

/-- The error about a pattern names that pattern. -/
theorem Glob.pattern_of_parse_eq_error {pattern : String} {e : GlobError}
    (h : Glob.parse pattern = .error e) : e.pattern = pattern := by
  rw [Glob.parse] at h
  split at h
  · exact nomatch h
  · rw [← Except.error.inj h]

/-! ### The patterns with their places -/

/-- The given patterns with their places. -/
def Patterns.placed (l : PatternList) : Patterns → List (PatternPlace × String)
  | .single pattern => [(⟨l, none⟩, pattern)]
  | .list patterns => patterns.mapIdx fun i pattern => (⟨l, some i⟩, pattern)

namespace Options

/-- The patterns of a list with their places. -/
def placedIn (o : Options) (l : PatternList) : List (PatternPlace × String) :=
  ((o.patterns? l).map (Patterns.placed l)).getD []

/-- The patterns of both lists with their places. -/
def placed (o : Options) : List (PatternPlace × String) :=
  o.placedIn .included ++ o.placedIn .excluded

/-- A pattern of the options, its place, and the path of the field: the name of its list, and
unless it stands alone, its index in brackets. -/
inductive HasPattern (o : Options) : PatternPlace → String → String → Prop
  | alone {l : PatternList} {pattern : String} : o.patterns? l = some (.single pattern) →
      o.HasPattern ⟨l, none⟩ l.key pattern
  | listed {l : PatternList} {patterns : List String} {i : Nat} {pattern : String} :
      o.patterns? l = some (.list patterns) → patterns[i]? = some pattern →
      o.HasPattern ⟨l, some i⟩ (l.key ++ "[" ++ Nat.repr i ++ "]") pattern

/-- What is wrong with options, and the path of the field. -/
inductive Wrong (o : Options) : String → OptionsError → Prop
  | emptyPattern {place : PatternPlace} {path : String} : o.HasPattern place path "" →
      o.Wrong path (.emptyPattern place)
  | badPattern {place : PatternPlace} {path pattern : String} {error : GlobError} :
      o.HasPattern place path pattern → Glob.parse pattern = .error error →
      o.Wrong path (.badPattern place error)
  | emptyBaseDir : o.baseDir = some "" → o.Wrong "baseDir" .emptyBaseDir

variable {o : Options} {l : PatternList} {place : PatternPlace} {path pattern : String}

theorem HasPattern.path_eq (h : o.HasPattern place path pattern) : path = place.path := by
  cases h <;> rfl

theorem Wrong.hasPattern {error : GlobError} (h : o.Wrong path (.badPattern place error)) :
    o.HasPattern place path error.pattern := by
  cases h with
  | badPattern hpattern hparse => exact Glob.pattern_of_parse_eq_error hparse ▸ hpattern

theorem mem_placedIn_iff :
    (place, pattern) ∈ o.placedIn l ↔ place.list = l ∧ ∃ path, o.HasPattern place path pattern := by
  constructor
  · intro h
    rw [placedIn] at h
    cases hp : o.patterns? l with
    | none => rw [hp] at h; exact nomatch h
    | some p =>
      rw [hp] at h
      cases p with
      | single alone =>
        obtain ⟨rfl, rfl⟩ := Prod.mk.inj (List.mem_singleton.1 h)
        exact ⟨rfl, _, .alone hp⟩
      | list patterns =>
        obtain ⟨i, hi, heq⟩ := List.mem_mapIdx.1 h
        obtain ⟨rfl, rfl⟩ := Prod.mk.inj heq
        exact ⟨rfl, _, .listed hp (List.getElem?_eq_getElem hi)⟩
  · rintro ⟨rfl, _, h⟩
    rw [placedIn]
    cases h with
    | alone hp => rw [hp]; exact List.mem_singleton.2 rfl
    | listed hp hi =>
      obtain ⟨hlt, rfl⟩ := List.getElem?_eq_some_iff.1 hi
      rw [hp]
      exact List.mem_mapIdx.2 ⟨_, hlt, rfl⟩

theorem mem_placed_iff :
    (place, pattern) ∈ o.placed ↔ ∃ path, o.HasPattern place path pattern := by
  rw [placed, List.mem_append, mem_placedIn_iff, mem_placedIn_iff]
  constructor
  · rintro (⟨_, h⟩ | ⟨_, h⟩) <;> exact h
  · intro h
    cases hl : place.list with
    | included => exact Or.inl ⟨rfl, h⟩
    | excluded => exact Or.inr ⟨rfl, h⟩

/-- Without the places there remain the patterns of the list. -/
theorem map_snd_placedIn (o : Options) (l : PatternList) :
    (o.placedIn l).map Prod.snd = o.patterns l := by
  rw [placedIn, patterns, Patterns.ofOption]
  rcases o.patterns? l with _ | pattern | patterns
  · rfl
  · rfl
  · exact List.ext_getElem (by simp [Patterns.placed, Patterns.toList])
      fun i _ _ => by simp [Patterns.placed, Patterns.toList]

end Options

/-! ### The order of errors -/

/-- Whether a place is told of before another one. -/
inductive PatternPlace.Before : PatternPlace → PatternPlace → Prop
  | lists {i j : Option Nat} : Before ⟨.included, i⟩ ⟨.excluded, j⟩
  | indices {l : PatternList} {i j : Nat} : i < j → Before ⟨l, some i⟩ ⟨l, some j⟩

namespace OptionsError

/-- The place of the pattern that is wrong. -/
def place? : OptionsError → Option PatternPlace
  | .emptyPattern place => some place
  | .badPattern place _ => some place
  | .emptyBaseDir => none

/-- Whether an error is told before another one. -/
inductive Before : OptionsError → OptionsError → Prop
  | places {e e' : OptionsError} {p p' : PatternPlace} :
      e.place? = some p → e'.place? = some p' → p.Before p' → Before e e'
  | baseDir {e : OptionsError} {p : PatternPlace} : e.place? = some p → Before e .emptyBaseDir

theorem path_eq_of_place? {e : OptionsError} {p : PatternPlace} (h : e.place? = some p) :
    e.path = p.path := by
  cases e with
  | emptyPattern place => exact congrArg PatternPlace.path (Option.some.inj h)
  | badPattern place error => exact congrArg PatternPlace.path (Option.some.inj h)
  | emptyBaseDir => exact nomatch h

end OptionsError

/-- The first character of a path tells its field. -/
theorem PatternPlace.head?_path (p : PatternPlace) :
    p.path.toList.head? = p.list.key.toList.head? := by
  rcases p with ⟨_ | _, _ | i⟩ <;> simp [PatternPlace.path, PatternList.key]

theorem PatternPlace.Before.path_ne {p p' : PatternPlace} (h : p.Before p') :
    p.path ≠ p'.path := by
  intro heq
  cases h with
  | lists =>
    have hhead := congrArg (fun s => s.toList.head?) heq
    simp only [PatternPlace.head?_path] at hhead
    exact absurd hhead (by decide)
  | indices hlt =>
    simp only [PatternPlace.path, String.append_left_inj, String.append_right_inj] at heq
    -- an index is read back from its digits
    have hindex := congrArg (fun s => Nat.ofDigitChars 10 s.toList 0) heq
    simp only [Nat.toList_repr, Nat.ofDigitChars_ten_toDigits] at hindex
    omega

/-- Two errors of which one is told before the other have different paths. -/
theorem OptionsError.Before.path_ne {e e' : OptionsError} (h : e.Before e') :
    e.path ≠ e'.path := by
  cases h with
  | places he he' hp =>
    rw [path_eq_of_place? he, path_eq_of_place? he']
    exact hp.path_ne
  | @baseDir p he =>
    intro heq
    rw [path_eq_of_place? he] at heq
    have hhead := congrArg (fun s => s.toList.head?) heq
    simp only [PatternPlace.head?_path] at hhead
    cases hlist : p.list <;> rw [hlist] at hhead <;> exact absurd hhead (by decide)

namespace Options

variable {o : Options} {l : PatternList} {place : PatternPlace} {path pattern : String}

theorem pairwise_placedIn (o : Options) (l : PatternList) :
    (o.placedIn l).Pairwise fun x y => x.1.Before y.1 := by
  rw [placedIn]
  rcases o.patterns? l with _ | pattern | patterns
  · exact List.Pairwise.nil
  · exact List.pairwise_singleton _ _
  · refine List.pairwise_iff_getElem.2 fun i j hi hj hlt => ?_
    simp only [Option.map_some, Option.getD_some, Patterns.placed, List.getElem_mapIdx]
    exact .indices hlt

theorem pairwise_placed (o : Options) : o.placed.Pairwise fun x y => x.1.Before y.1 := by
  refine List.pairwise_append.2 ⟨pairwise_placedIn o _, pairwise_placedIn o _, ?_⟩
  rintro ⟨⟨l, i⟩, pattern⟩ hx ⟨⟨l', j⟩, pattern'⟩ hy
  obtain ⟨rfl, _⟩ := mem_placedIn_iff.1 hx
  obtain ⟨rfl, _⟩ := mem_placedIn_iff.1 hy
  exact .lists

/-! ### The check -/

theorem mem_patternErrors_iff {e : OptionsError} :
    e ∈ patternErrors place pattern ↔
      pattern = "" ∧ e = .emptyPattern place ∨
      ∃ error, Glob.parse pattern = .error error ∧ e = .badPattern place error := by
  rw [patternErrors]
  split_ifs with hempty
  · simp [hempty, Glob.parse_empty]
  · cases hparse : Glob.parse pattern with
    | ok g => simp [hempty]
    | error error => simp [hempty]

theorem pairwise_patternErrors (R : OptionsError → OptionsError → Prop) (place : PatternPlace)
    (pattern : String) : (patternErrors place pattern).Pairwise R := by
  rw [patternErrors]
  split_ifs
  · exact List.pairwise_singleton _ _
  · split
    · exact List.Pairwise.nil
    · exact List.pairwise_singleton _ _

theorem place?_of_mem_patternErrors {e : OptionsError} (h : e ∈ patternErrors place pattern) :
    e.place? = some place := by
  rcases mem_patternErrors_iff.1 h with ⟨_, rfl⟩ | ⟨error, _, rfl⟩ <;> rfl

theorem listErrors_eq (o : Options) (l : PatternList) :
    o.listErrors l = (o.placedIn l).flatMap fun x => patternErrors x.1 x.2 := by
  rw [listErrors, placedIn]
  rcases o.patterns? l with _ | pattern | patterns
  · rfl
  · simp [Patterns.errors, Patterns.placed]
  · simp [Patterns.errors, Patterns.placed, List.flatMap_def, List.mapIdx_eq_zipIdx_map,
      Function.comp_def]

/-- The errors of options are those of their patterns, in the order of these, and that of the base
directory. -/
theorem errors_eq (o : Options) :
    o.errors = (o.placed.flatMap fun x => patternErrors x.1 x.2) ++
      if o.baseDir = some "" then [.emptyBaseDir] else [] := by
  rw [errors, placed, List.flatMap_append, listErrors_eq, listErrors_eq]

/-- What is told is what is wrong, each under its path. -/
theorem mem_errors_iff {e : OptionsError} :
    (e ∈ o.errors ∧ e.path = path) ↔ o.Wrong path e := by
  rw [errors_eq, List.mem_append, List.mem_flatMap]
  constructor
  · rintro ⟨⟨⟨place, pattern⟩, hplaced, he⟩ | he, rfl⟩
    · obtain ⟨path, hpattern⟩ := mem_placed_iff.1 hplaced
      obtain rfl := hpattern.path_eq
      rcases mem_patternErrors_iff.1 he with ⟨rfl, rfl⟩ | ⟨error, herror, rfl⟩
      · exact .emptyPattern hpattern
      · exact .badPattern hpattern herror
    · split_ifs at he with hbase
      · obtain rfl := List.mem_singleton.1 he
        exact .emptyBaseDir hbase
      · exact nomatch he
  · intro h
    cases h with
    | emptyPattern hpattern =>
      exact ⟨Or.inl ⟨_, mem_placed_iff.2 ⟨_, hpattern⟩,
        mem_patternErrors_iff.2 (Or.inl ⟨rfl, rfl⟩)⟩, hpattern.path_eq.symm⟩
    | badPattern hpattern herror =>
      exact ⟨Or.inl ⟨_, mem_placed_iff.2 ⟨_, hpattern⟩,
        mem_patternErrors_iff.2 (Or.inr ⟨_, herror, rfl⟩)⟩, hpattern.path_eq.symm⟩
    | emptyBaseDir hbase => exact ⟨Or.inr (by simp [hbase]), rfl⟩

theorem pairwise_errors (o : Options) : o.errors.Pairwise OptionsError.Before := by
  rw [errors_eq]
  refine List.pairwise_append.2 ⟨List.pairwise_flatMap.2
    ⟨fun x _ => pairwise_patternErrors _ x.1 x.2, ?_⟩, ?_, ?_⟩
  · exact (pairwise_placed o).imp fun hbefore e he e' he' =>
      .places (place?_of_mem_patternErrors he) (place?_of_mem_patternErrors he') hbefore
  · split_ifs
    · exact List.pairwise_singleton _ _
    · exact List.Pairwise.nil
  · intro e he e' he'
    obtain ⟨x, _, he⟩ := List.mem_flatMap.1 he
    split_ifs at he'
    · obtain rfl := List.mem_singleton.1 he'
      exact .baseDir (place?_of_mem_patternErrors he)
    · exact nomatch he'

end Options

/-! ### The filter -/

/-- The error with which a filter ends at a pattern that was told to be no glob. -/
def OptionsError.filterError? : OptionsError → Option FilterError
  | .badPattern place error => some ⟨place.list, error⟩
  | _ => none

theorem OptionsError.filterError?_eq_some_iff {e : OptionsError} {f : FilterError} :
    e.filterError? = some f ↔ ∃ place, e = .badPattern place f.error ∧ place.list = f.list := by
  cases e with
  | badPattern place error =>
    cases f
    simp only [filterError?, Option.some.injEq, FilterError.mk.injEq, badPattern.injEq]
    constructor
    · rintro ⟨rfl, rfl⟩
      exact ⟨place, ⟨rfl, rfl⟩, rfl⟩
    · rintro ⟨_, ⟨rfl, rfl⟩, rfl⟩
      exact ⟨rfl, rfl⟩
  | _ => simp [filterError?]

theorem OptionsError.filterError?_eq_none_iff {e : OptionsError} :
    e.filterError? = none ↔ ∀ place error, e ≠ .badPattern place error := by
  cases e <;> simp [filterError?]

theorem findSome?_patternErrors (place : PatternPlace) (pattern : String) :
    (patternErrors place pattern).findSome? OptionsError.filterError? =
      match Glob.parse pattern with
      | .ok _ => none
      | .error e => some ⟨place.list, e⟩ := by
  rw [patternErrors]
  split_ifs with hempty
  · rw [hempty, Glob.parse_empty]
    rfl
  · cases Glob.parse pattern <;> rfl

theorem readGlobs_cons (l : PatternList) (pattern : String) (patterns : List String) :
    readGlobs l (pattern :: patterns) =
      match Glob.parse pattern with
      | .ok g => (readGlobs l patterns).map (g :: ·)
      | .error e => .error ⟨l, e⟩ := by
  rw [readGlobs, List.mapM_cons]
  cases Glob.parse pattern with
  | error e => rfl
  | ok g =>
    show (readGlobs l patterns >>= fun globs => pure (g :: globs)) = _
    cases readGlobs l patterns <;> rfl

/-- The patterns of a list are read up to the first one that is told to be no glob. -/
theorem readGlobs_eq_error_iff {l : PatternList} {placed : List (PatternPlace × String)}
    (hlist : ∀ x ∈ placed, x.1.list = l) {e : FilterError} :
    readGlobs l (placed.map Prod.snd) = .error e ↔
      (placed.flatMap fun x => patternErrors x.1 x.2).findSome? OptionsError.filterError? =
        some e := by
  induction placed with
  | nil => exact ⟨fun h => (nomatch h), fun h => (nomatch h)⟩
  | cons x placed ih =>
    specialize ih fun y hy => hlist y (List.mem_cons_of_mem x hy)
    rw [List.flatMap_cons, List.findSome?_append, findSome?_patternErrors,
      hlist x List.mem_cons_self, List.map_cons, readGlobs_cons]
    cases Glob.parse x.2 with
    | error error => exact ⟨fun h => congrArg some (Except.error.inj h),
        fun h => congrArg Except.error (Option.some.inj h)⟩
    | ok g =>
      refine Iff.trans ?_ ih
      cases readGlobs l (placed.map Prod.snd) with
      | error f => exact Iff.rfl
      | ok globs => exact ⟨fun h => (nomatch h), fun h => (nomatch h)⟩

namespace Options

variable {o : Options}

theorem readGlobs_patterns_eq_error_iff {l : PatternList} {e : FilterError} :
    readGlobs l (o.patterns l) = .error e ↔
      (o.listErrors l).findSome? OptionsError.filterError? = some e := by
  rw [listErrors_eq, ← map_snd_placedIn]
  exact readGlobs_eq_error_iff fun x hx => (mem_placedIn_iff.1 hx).1

theorem pathFilter_ofOptions_eq_error_iff_findSome? {e : FilterError} :
    PathFilter.ofOptions o = .error e ↔
      o.errors.findSome? OptionsError.filterError? = some e := by
  have hbase : (if o.baseDir = some "" then [OptionsError.emptyBaseDir] else []).findSome?
      OptionsError.filterError? = none := by split_ifs <;> rfl
  rw [errors, List.findSome?_append, List.findSome?_append, hbase, Option.or_none,
    PathFilter.ofOptions]
  cases hinc : readGlobs .included (o.patterns .included) with
  | error f =>
    rw [readGlobs_patterns_eq_error_iff.1 hinc]
    exact ⟨fun h => congrArg some (Except.error.inj h),
      fun h => congrArg Except.error (Option.some.inj h)⟩
  | ok included =>
    have hnone : (o.listErrors .included).findSome? OptionsError.filterError? = none :=
      Option.eq_none_iff_forall_ne_some.2 fun f hf =>
        nomatch hinc.symm.trans (readGlobs_patterns_eq_error_iff.2 hf)
    rw [hnone, Option.none_or, ← readGlobs_patterns_eq_error_iff]
    cases readGlobs .excluded (o.patterns .excluded) with
    | error f => exact ⟨fun h => congrArg Except.error (Except.error.inj h),
        fun h => congrArg Except.error (Except.error.inj h)⟩
    | ok excluded => exact ⟨fun h => (nomatch h), fun h => (nomatch h)⟩

/-- **The filter fails at the first pattern that is told to be no glob.**  Its error names the list
of that pattern, the pattern, and what is wrong with it. -/
theorem pathFilter_ofOptions_eq_error_iff {e : FilterError} :
    PathFilter.ofOptions o = .error e ↔
      ∃ before place path after, o.errors = before ++ .badPattern place e.error :: after ∧
        (∀ place' error, .badPattern place' error ∉ before) ∧ place.list = e.list ∧
        o.HasPattern place path e.error.pattern := by
  rw [pathFilter_ofOptions_eq_error_iff_findSome?, List.findSome?_eq_some_iff]
  constructor
  · rintro ⟨before, error, after, heq, herror, hbefore⟩
    obtain ⟨place, rfl, hlist⟩ := OptionsError.filterError?_eq_some_iff.1 herror
    have hmem : OptionsError.badPattern place e.error ∈ o.errors := by simp [heq]
    exact ⟨before, place, _, after, heq, fun place' error h =>
      OptionsError.filterError?_eq_none_iff.1 (hbefore _ h) place' error rfl, hlist,
      (mem_errors_iff.1 ⟨hmem, rfl⟩).hasPattern⟩
  · rintro ⟨before, place, _, after, heq, hbefore, hlist, _⟩
    refine ⟨before, _, after, heq, OptionsError.filterError?_eq_some_iff.2 ⟨place, rfl, hlist⟩,
      fun x hx => OptionsError.filterError?_eq_none_iff.2 ?_⟩
    rintro place' error rfl
    exact hbefore place' error hx

theorem exists_pathFilter_ofOptions_eq_error_iff :
    (∃ e, PathFilter.ofOptions o = .error e) ↔
      ∃ place error, .badPattern place error ∈ o.errors := by
  simp only [pathFilter_ofOptions_eq_error_iff_findSome?, ← Option.isSome_iff_exists,
    List.findSome?_isSome_iff]
  constructor
  · rintro ⟨e, he, hsome⟩
    obtain ⟨f, hf⟩ := Option.isSome_iff_exists.1 hsome
    obtain ⟨place, rfl, _⟩ := OptionsError.filterError?_eq_some_iff.1 hf
    exact ⟨place, f.error, he⟩
  · rintro ⟨place, error, he⟩
    exact ⟨_, he, rfl⟩

/-! ### The harvester and the loading -/

/-- The harvester fails with all errors of the check, and with no other. -/
theorem harvester_ofOptions_eq_error_iff {e : SetupError} :
    Harvester.ofOptions o = .error e ↔ o.errors ≠ [] ∧ e = .invalid o.errors := by
  rw [Harvester.ofOptions]
  cases herrors : o.errors with
  | nil =>
    have hfilter : ∃ filter, PathFilter.ofOptions o = .ok filter := by
      cases hresult : PathFilter.ofOptions o with
      | ok filter => exact ⟨filter, rfl⟩
      | error f =>
        rw [pathFilter_ofOptions_eq_error_iff_findSome?, herrors] at hresult
        exact nomatch hresult
    obtain ⟨filter, hfilter⟩ := hfilter
    simp [hfilter]
  | cons error errors => simp [eq_comm]

theorem exists_harvester_ofOptions_eq_ok_iff :
    (∃ h, Harvester.ofOptions o = .ok h) ↔ o.errors = [] := by
  constructor
  · rintro ⟨h, hok⟩
    by_contra herrors
    exact nomatch hok.symm.trans (harvester_ofOptions_eq_error_iff.2 ⟨herrors, rfl⟩)
  · intro herrors
    cases hresult : Harvester.ofOptions o with
    | ok h => exact ⟨h, rfl⟩
    | error e => exact absurd herrors (harvester_ofOptions_eq_error_iff.1 hresult).1

theorem checked_eq_ok_iff {o o' : Options} : checked o = .ok o' ↔ o = o' ∧ o.errors = [] := by
  rw [checked]
  cases o.errors <;> simp

/-- The options for a directory are those in its file, if nothing is wrong with them. -/
theorem load_eq_ok_iff {t : FileTree} {directory : String} :
    load t directory = .ok o ↔
      (read? t directory).map (fun found => found.getD {}) = .ok o ∧ o.errors = [] := by
  rw [load]
  cases read? t directory with
  | error e => exact ⟨fun h => (nomatch h), fun h => (nomatch h.1)⟩
  | ok found =>
    show checked (found.getD {}) = .ok o ↔ Except.ok (found.getD {}) = .ok o ∧ _
    rw [checked_eq_ok_iff, Except.ok.injEq]
    constructor <;> rintro ⟨rfl, h⟩ <;> exact ⟨rfl, h⟩

/-- **The check, the harvester, the filter and the loading of options agree.**

The check tells what is wrong with the options, each thing once, in the order of the patterns to
scan, those not to scan and the base directory, and under a path of its own.  There is no harvester
exactly if it tells anything, and then for just these errors.  There is no filter exactly if it
tells a pattern to be no glob, and then for the first of these.  Options are loaded exactly if they
are those of the directory and there is a harvester for them. -/
theorem errors_agree (o : Options) :
    ((∀ path e, (e ∈ o.errors ∧ e.path = path) ↔ o.Wrong path e) ∧
      o.errors.Pairwise OptionsError.Before ∧ (o.errors.map OptionsError.path).Nodup) ∧
    (∀ e, Harvester.ofOptions o = .error e ↔ o.errors ≠ [] ∧ e = .invalid o.errors) ∧
    ((∃ e, PathFilter.ofOptions o = .error e) ↔
      ∃ place error, .badPattern place error ∈ o.errors) ∧
    (∀ e, PathFilter.ofOptions o = .error e ↔
      ∃ before place path after, o.errors = before ++ .badPattern place e.error :: after ∧
        (∀ place' error, .badPattern place' error ∉ before) ∧ place.list = e.list ∧
        o.HasPattern place path e.error.pattern) ∧
    ∀ t directory, Options.load t directory = .ok o ↔
      (Options.read? t directory).map (fun found => found.getD {}) = .ok o ∧
        ∃ h, Harvester.ofOptions o = .ok h := by
  refine ⟨⟨fun path e => mem_errors_iff, pairwise_errors o, ?_⟩,
    fun e => harvester_ofOptions_eq_error_iff, exists_pathFilter_ofOptions_eq_error_iff,
    fun e => pathFilter_ofOptions_eq_error_iff, fun t directory => ?_⟩
  · exact List.pairwise_map.2 ((pairwise_errors o).imp OptionsError.Before.path_ne)
  · rw [load_eq_ok_iff, exists_harvester_ofOptions_eq_ok_iff]

example :
    let o : Options :=
      { included := some (.list ["a", "", "["])
        excluded := some (.single "\x7b")
        baseDir := some "" }
    o.errors.map OptionsError.path = ["include[1]", "include[2]", "exclude", "baseDir"] := by
  cbv

end Options

end CallHarvest
