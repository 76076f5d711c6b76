import CallHarvest.Proofs.Options.Agreement
import CallHarvest.Proofs.Plugin.Harvest

/-!
# More and fewer patterns

Which modules are scanned depends on the set of the patterns in each list, and on nothing else that
the lists say.  One more pattern not to scan takes modules away, and one more pattern to scan adds
modules, as long as there is one already.  The manifest follows: what it loses or gains are lines
between others that stay in their order.

* `Options.Passes` — whether a path passes the patterns of options (`PathFilter.accepts_iff`).
* `IsPattern` — the patterns that the check lets pass (`Options.errors_eq_nil_iff`).
* `Harvester.lines_sublist` — what a harvester writes that scans less than another.
* `Options.Adds`, `Options.SamePatterns` — options with one more pattern, and with the same ones.
* `Options.manifest_of_patterns` — what becomes of the manifest.
-/

namespace CallHarvest

open CallHarvest.Text (Ascending)

/-! ### The patterns that a path matches -/

/-- Whether a path matches one of the patterns. -/
def MatchesSome (patterns : List String) (path : String) : Prop :=
  ∃ p ∈ patterns, ∃ g, Glob.parse p = .ok g ∧ g.accepts path

/-- Patterns are read one by one. -/
theorem forall₂_of_readGlobs {l : PatternList} {patterns : List String} {globs : List Glob}
    (h : readGlobs l patterns = .ok globs) :
    List.Forall₂ (fun p g => Glob.parse p = .ok g) patterns globs := by
  induction patterns generalizing globs with
  | nil =>
    obtain rfl : [] = globs := Except.ok.inj h
    exact .nil
  | cons p patterns ih =>
    rw [readGlobs_cons] at h
    cases hparse : Glob.parse p with
    | error e => exact nomatch (hparse ▸ h)
    | ok g =>
      cases hrest : readGlobs l patterns with
      | error e => exact nomatch (hrest ▸ hparse ▸ h)
      | ok others =>
        rw [hparse, hrest] at h
        obtain rfl : g :: others = globs := Except.ok.inj h
        exact .cons hparse (ih hrest)

theorem any_accepts_iff {patterns : List String} {globs : List Glob}
    (h : List.Forall₂ (fun p g => Glob.parse p = .ok g) patterns globs) (path : String) :
    globs.any (·.accepts path) ↔ MatchesSome patterns path := by
  induction h with
  | nil => simp [MatchesSome]
  | cons hparse _ ih =>
    rw [List.any_cons, Bool.or_eq_true, ih]
    simp [MatchesSome, hparse]

namespace Options

/-- Whether a path passes the patterns of options: it matches one of those to scan, if there are
any, and none of those not to scan. -/
def Passes (o : Options) (path : String) : Prop :=
  (o.patterns .included = [] ∨ MatchesSome (o.patterns .included) path) ∧
    ¬ MatchesSome (o.patterns .excluded) path

end Options

namespace PathFilter

theorem exists_of_ofOptions {o : Options} {f : PathFilter} (h : ofOptions o = .ok f) :
    ∃ included excluded, readGlobs .included (o.patterns .included) = .ok included ∧
      readGlobs .excluded (o.patterns .excluded) = .ok excluded ∧
      f = ⟨o.baseDir, included, excluded⟩ := by
  obtain ⟨included, hinc, hrest⟩ := bind_eq_ok h
  obtain ⟨excluded, hexc, hf⟩ := bind_eq_ok hrest
  exact ⟨included, excluded, hinc, hexc, (Except.ok.inj hf).symm⟩

/-- The filter for options lets pass what passes their patterns. -/
theorem accepts_iff {o : Options} {f : PathFilter} (h : ofOptions o = .ok f) (path : String) :
    f.accepts path ↔ o.Passes path := by
  obtain ⟨included, excluded, hinc, hexc, rfl⟩ := exists_of_ofOptions h
  have hread := forall₂_of_readGlobs hinc
  have hempty : included.isEmpty ↔ o.patterns .included = [] := by
    rw [List.isEmpty_iff, ← List.length_eq_zero_iff, ← hread.length_eq, List.length_eq_zero_iff]
  rw [accepts, Bool.and_eq_true, Bool.or_eq_true, hempty, any_accepts_iff hread,
    Bool.not_eq_true', ← Bool.not_eq_true, any_accepts_iff (forall₂_of_readGlobs hexc)]
  rfl

/-- Of two filters with one base directory, the one that lets more paths pass scans more modules. -/
theorem shouldScan_mono {f f' : PathFilter} (hbase : f.baseDir = f'.baseDir)
    (haccepts : ∀ path, f.accepts path → f'.accepts path) {id : String} (h : f.shouldScan id) :
    f'.shouldScan id := by
  rw [shouldScan] at h ⊢
  split_ifs at h ⊢
  · rw [hbase] at h
    exact haccepts _ h

end PathFilter

/-! ### Patterns that the check lets pass -/

/-- Whether a text is a pattern that may stand in options: it is a glob, and not empty. -/
def IsPattern (p : String) : Prop :=
  p ≠ "" ∧ ∃ g, Glob.parse p = .ok g

theorem patternErrors_eq_nil_iff {place : PatternPlace} {p : String} :
    patternErrors place p = [] ↔ IsPattern p := by
  rw [patternErrors, IsPattern]
  split_ifs with hempty
  · simp [hempty]
  · cases Glob.parse p <;> simp [hempty]

namespace Options

/-- **Nothing is wrong with options** if all that is in their lists are patterns, and the base
directory is not empty. -/
theorem errors_eq_nil_iff {o : Options} :
    o.errors = [] ↔ (∀ l, ∀ p ∈ o.patterns l, IsPattern p) ∧ o.baseDir ≠ some "" := by
  have hlist : ∀ l, o.listErrors l = [] ↔ ∀ p ∈ o.patterns l, IsPattern p := by
    intro l
    rw [listErrors_eq, List.flatMap_eq_nil_iff, ← map_snd_placedIn, List.forall_mem_map]
    simp only [patternErrors_eq_nil_iff]
  have hbase : (if o.baseDir = some "" then [OptionsError.emptyBaseDir] else []) = [] ↔
      o.baseDir ≠ some "" := by
    split_ifs with h <;> simp [h]
  rw [errors, List.append_eq_nil_iff, List.append_eq_nil_iff, hlist, hlist, hbase]
  constructor
  · intro h
    refine ⟨?_, h.2⟩
    intro l
    cases l with
    | included => exact h.1.1
    | excluded => exact h.1.2
  · intro h
    exact ⟨⟨h.1 .included, h.1 .excluded⟩, h.2⟩

end Options

/-! ### Harvesters that scan less -/

namespace Harvester

theorem exists_of_ofOptions {o : Options} {h : Harvester} (ho : ofOptions o = .ok h) :
    ∃ f, PathFilter.ofOptions o = .ok f ∧ h = { filter := f, mode := o.mode } := by
  unfold ofOptions at ho
  split at ho
  · split at ho
    · rename_i f hf
      exact ⟨f, hf, (Except.ok.inj ho).symm⟩
    · exact nomatch ho
  · exact nomatch ho

/-- **A harvester that scans less writes less.**  What it does not write are lines between the
others, which stay in their order. -/
theorem lines_sublist {h h' : Harvester} (hnew : h.IsNew) (hmode : h.mode = h'.mode)
    (hscan : ∀ id, h.filter.shouldScan id → h'.filter.shouldScan id) (ms : List ScriptModule) :
    (transformAll h ms).manifest.lines.Sublist (transformAll h' ms).manifest.lines := by
  have hsub : (transformAll h ms).registry.sorted ⊆ (transformAll h' ms).registry.sorted := by
    intro t ht
    rw [Registry.mem_sorted, mem_registry_transformAll] at ht ⊢
    rcases ht with ht | ⟨m, hm, hid, ht⟩
    · rw [hnew.registry_eq] at ht
      exact absurd ht (Registry.not_mem_empty t)
    · rw [callTexts, hmode] at ht
      exact .inr ⟨m, hm, hscan m.id hid, ht⟩
  have hless := (transformAll h ms).registry.ascending_sorted.sublist_of_subset
    (transformAll h' ms).registry.ascending_sorted hsub
  exact hless.map fun t => "// " ++ normalize t

/-- A harvester writes less if its options are the same but for patterns that let less pass. -/
theorem lines_sublist_of_passes {o o' : Options} {h h' : Harvester} (ho : ofOptions o = .ok h)
    (ho' : ofOptions o' = .ok h') (hmode : o.mode = o'.mode) (hbase : o.baseDir = o'.baseDir)
    (hpasses : ∀ path, o.Passes path → o'.Passes path) (ms : List ScriptModule) :
    (transformAll h ms).manifest.lines.Sublist (transformAll h' ms).manifest.lines := by
  obtain ⟨f, hf, rfl⟩ := exists_of_ofOptions ho
  obtain ⟨f', hf', rfl⟩ := exists_of_ofOptions ho'
  refine lines_sublist (.ofOptions ho) hmode ?_ ms
  intro id hid
  refine PathFilter.shouldScan_mono ?_ ?_ hid
  · obtain ⟨_, _, -, -, rfl⟩ := PathFilter.exists_of_ofOptions hf
    obtain ⟨_, _, -, -, rfl⟩ := PathFilter.exists_of_ofOptions hf'
    exact hbase
  · intro path haccepts
    rw [PathFilter.accepts_iff hf] at haccepts
    rw [PathFilter.accepts_iff hf']
    exact hpasses path haccepts

end Harvester

/-! ### Options with other patterns -/

namespace Options

/-- Whether other options are the same but for one more pattern, anywhere in one of the lists. -/
structure Adds (l : PatternList) (p : String) (o o' : Options) : Prop where
  mode : o.mode = o'.mode
  baseDir : o.baseDir = o'.baseDir
  added : ∃ before after, o.patterns l = before ++ after ∧ o'.patterns l = before ++ p :: after
  others : ∀ l' ≠ l, o.patterns l' = o'.patterns l'

/-- Whether other options are the same but for the order and the number of times in which the
patterns of a list are named, and for how the list is written. -/
structure SamePatterns (o o' : Options) : Prop where
  mode : o.mode = o'.mode
  baseDir : o.baseDir = o'.baseDir
  mem_iff : ∀ l p, p ∈ o.patterns l ↔ p ∈ o'.patterns l

variable {l : PatternList} {p : String} {o o' : Options}

theorem Adds.mem_iff (h : o.Adds l p o') {q : String} :
    q ∈ o'.patterns l ↔ q = p ∨ q ∈ o.patterns l := by
  obtain ⟨before, after, hbefore, hafter⟩ := h.added
  rw [hbefore, hafter]
  simp only [List.mem_append, List.mem_cons]
  tauto

theorem Adds.errors_eq_nil (h : o.Adds l p o') (hp : IsPattern p) (ho : o.errors = []) :
    o'.errors = [] := by
  obtain ⟨hpatterns, hbase⟩ := errors_eq_nil_iff.1 ho
  refine errors_eq_nil_iff.2 ⟨?_, h.baseDir ▸ hbase⟩
  intro l' q hq
  by_cases hl : l' = l
  · subst hl
    rcases h.mem_iff.1 hq with rfl | hq
    · exact hp
    · exact hpatterns l' q hq
  · rw [← h.others l' hl] at hq
    exact hpatterns l' q hq

theorem Adds.matchesSome_iff (h : o.Adds l p o') {path : String} :
    MatchesSome (o'.patterns l) path ↔
      (∃ g, Glob.parse p = .ok g ∧ g.accepts path) ∨ MatchesSome (o.patterns l) path := by
  simp only [MatchesSome, h.mem_iff, or_and_right, exists_or, exists_eq_left]

/-- One more pattern not to scan lets less pass. -/
theorem Adds.passes_of_excluded (h : o.Adds .excluded p o') {path : String}
    (hpasses : o'.Passes path) : o.Passes path := by
  rw [Passes, h.matchesSome_iff, ← h.others .included (by decide)] at hpasses
  exact ⟨hpasses.1, fun hmatch => hpasses.2 (.inr hmatch)⟩

/-- One more pattern to scan lets more pass, unless it is the first one. -/
theorem Adds.passes_of_included (h : o.Adds .included p o') (hne : o.patterns .included ≠ [])
    {path : String} (hpasses : o.Passes path) : o'.Passes path := by
  have hmatch := hpasses.1.resolve_left hne
  rw [Passes, h.matchesSome_iff, ← h.others .excluded (by decide)]
  exact ⟨.inr (.inr hmatch), hpasses.2⟩

theorem SamePatterns.symm (h : o.SamePatterns o') : o'.SamePatterns o :=
  ⟨h.mode.symm, h.baseDir.symm, fun l p => (h.mem_iff l p).symm⟩

theorem SamePatterns.errors_eq_nil (h : o.SamePatterns o') (ho : o.errors = []) :
    o'.errors = [] := by
  obtain ⟨hpatterns, hbase⟩ := errors_eq_nil_iff.1 ho
  refine errors_eq_nil_iff.2 ⟨?_, h.baseDir ▸ hbase⟩
  intro l q hq
  exact hpatterns l q ((h.mem_iff l q).2 hq)

theorem SamePatterns.passes (h : o.SamePatterns o') {path : String} (hpasses : o.Passes path) :
    o'.Passes path := by
  have hmatch : ∀ l, MatchesSome (o'.patterns l) path ↔ MatchesSome (o.patterns l) path := by
    intro l
    simp only [MatchesSome, h.mem_iff]
  have hempty : o'.patterns .included = [] ↔ o.patterns .included = [] := by
    simp only [List.eq_nil_iff_forall_not_mem, h.mem_iff]
  rw [Passes, hmatch, hmatch, hempty]
  exact hpasses

/-- **Patterns and the manifest.**  There is a harvester for options with which nothing is wrong.
If a pattern is added anywhere to those not to scan, there is one for the new options too, and of any
modules it writes the same lines less some.  If it is added to those to scan, and there is one of
these already, it writes the same lines and maybe more.  If the same patterns are named, in whatever
order, number and form, it writes the same manifest. -/
theorem manifest_of_patterns (ho : o.errors = []) :
    ∃ h, Harvester.ofOptions o = .ok h ∧
      (∀ p o', IsPattern p → o.Adds .excluded p o' → ∃ h', Harvester.ofOptions o' = .ok h' ∧
        ∀ ms, (transformAll h' ms).manifest.lines.Sublist (transformAll h ms).manifest.lines) ∧
      (∀ p o', IsPattern p → o.patterns .included ≠ [] → o.Adds .included p o' →
        ∃ h', Harvester.ofOptions o' = .ok h' ∧
          ∀ ms, (transformAll h ms).manifest.lines.Sublist (transformAll h' ms).manifest.lines) ∧
      ∀ o', o.SamePatterns o' → ∃ h', Harvester.ofOptions o' = .ok h' ∧
        ∀ ms, (transformAll h' ms).manifest = (transformAll h ms).manifest := by
  obtain ⟨h, hh⟩ := exists_harvester_ofOptions_eq_ok_iff.2 ho
  refine ⟨h, hh, ?_, ?_, ?_⟩
  · intro p o' hp hadds
    obtain ⟨h', hh'⟩ := exists_harvester_ofOptions_eq_ok_iff.2 (hadds.errors_eq_nil hp ho)
    exact ⟨h', hh', Harvester.lines_sublist_of_passes hh' hh hadds.mode.symm hadds.baseDir.symm
      fun path => hadds.passes_of_excluded⟩
  · intro p o' hp hne hadds
    obtain ⟨h', hh'⟩ := exists_harvester_ofOptions_eq_ok_iff.2 (hadds.errors_eq_nil hp ho)
    exact ⟨h', hh', Harvester.lines_sublist_of_passes hh hh' hadds.mode hadds.baseDir
      fun path => hadds.passes_of_included hne⟩
  · intro o' hsame
    obtain ⟨h', hh'⟩ := exists_harvester_ofOptions_eq_ok_iff.2 (hsame.errors_eq_nil ho)
    refine ⟨h', hh', ?_⟩
    intro ms
    have hless := Harvester.lines_sublist_of_passes hh hh' hsame.mode hsame.baseDir
      (fun path => hsame.passes) ms
    have hmore := Harvester.lines_sublist_of_passes hh' hh hsame.symm.mode hsame.symm.baseDir
      (fun path => hsame.symm.passes) ms
    exact congrArg Manifest.mk (hmore.antisymm hless)

/-- One pattern to scan; with tests taken out, with another pattern in front of it, and written as a
list that names it twice. -/
theorem manifest_of_patterns_scripts :
    ({ included := some (.single "**/*.js") } : Options).errors = [] ∧
      ∃ h h₁ h₂ h₃, Harvester.ofOptions { included := some (.single "**/*.js") } = .ok h ∧
        Harvester.ofOptions
          { included := some (.single "**/*.js"), excluded := some (.single "**/*.test.js") } =
            .ok h₁ ∧
        Harvester.ofOptions { included := some (.list ["**/*.[jt]sx", "**/*.js"]) } = .ok h₂ ∧
        Harvester.ofOptions
          { included := some (.list ["**/*.js", "**/*.js"]), excluded := some (.list []) } =
            .ok h₃ ∧
        ∀ ms, (transformAll h₁ ms).manifest.lines.Sublist (transformAll h ms).manifest.lines ∧
          (transformAll h ms).manifest.lines.Sublist (transformAll h₂ ms).manifest.lines ∧
          (transformAll h₃ ms).manifest = (transformAll h ms).manifest := by
  have ho : ({ included := some (.single "**/*.js") } : Options).errors = [] := by cbv
  have htests : IsPattern "**/*.test.js" :=
    patternErrors_eq_nil_iff.1 (by cbv : patternErrors ⟨.excluded, none⟩ "**/*.test.js" = [])
  have htyped : IsPattern "**/*.[jt]sx" :=
    patternErrors_eq_nil_iff.1 (by cbv : patternErrors ⟨.included, none⟩ "**/*.[jt]sx" = [])
  have hadds : ({ included := some (.single "**/*.js") } : Options).Adds .excluded "**/*.test.js"
      { included := some (.single "**/*.js"), excluded := some (.single "**/*.test.js") } := by
    refine ⟨rfl, rfl, ⟨[], [], rfl, rfl⟩, ?_⟩
    intro l hl
    cases l with
    | included => rfl
    | excluded => exact absurd rfl hl
  have hadds' : ({ included := some (.single "**/*.js") } : Options).Adds .included "**/*.[jt]sx"
      { included := some (.list ["**/*.[jt]sx", "**/*.js"]) } := by
    refine ⟨rfl, rfl, ⟨[], ["**/*.js"], rfl, rfl⟩, ?_⟩
    intro l hl
    cases l with
    | included => exact absurd rfl hl
    | excluded => rfl
  have hsame' : ({ included := some (.single "**/*.js") } : Options).SamePatterns
      { included := some (.list ["**/*.js", "**/*.js"]), excluded := some (.list []) } := by
    refine ⟨rfl, rfl, ?_⟩
    intro l p
    cases l <;> simp [patterns, patterns?, Patterns.ofOption, Patterns.toList]
  obtain ⟨h, hh, hless, hmore, hsame⟩ := manifest_of_patterns ho
  obtain ⟨h₁, hh₁, hlines₁⟩ := hless _ _ htests hadds
  obtain ⟨h₂, hh₂, hlines₂⟩ := hmore _ _ htyped (List.cons_ne_nil _ _) hadds'
  obtain ⟨h₃, hh₃, hlines₃⟩ := hsame _ hsame'
  exact ⟨ho, h, h₁, h₂, h₃, hh, hh₁, hh₂, hh₃,
    fun ms => ⟨hlines₁ ms, hlines₂ ms, hlines₃ ms⟩⟩

end Options

end CallHarvest
