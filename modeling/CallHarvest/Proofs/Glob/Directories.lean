import CallHarvest.Proofs.Glob.Matching
import CallHarvest.Proofs.Glob.Reading
import CallHarvest.Proofs.Plugin.Monotone

/-!
# Directories before and after a pattern

Two stars before a pattern stand for any directories, also for none, and two stars after it for at
least one component.  The pattern between may be any that has no two stars side by side.  Paths that
end in two dots are exceptions on either side, because whether a pattern needs the name of a file is
told from all of its tokens.

* `takesAll_append` — the words of tokens one after the other.
* `needsName_leadingDirs_iff` — when a pattern after directories needs a name.
* `parse_leadingDirs`, `parse_trailingDirs` — how such patterns are read.
* `takesAll_leadingDirs_iff`, `takesAll_trailingDirs_iff` — their words.
* `matches_leadingDirs_iff`, `matches_trailingDirs_iff` — which paths they match.
* `matches_between_dirs` — both, with what the pattern between matches.
-/

namespace CallHarvest

open CallHarvest.Text (bytes)

instance (p : String) : Decidable (IsPattern p) :=
  match hparse : Glob.parse p with
  | .ok _ => decidable_of_iff (p ≠ "") (by simp [IsPattern, hparse])
  | .error _ => .isFalse (by simp [IsPattern, hparse])

/-! ### Words -/

theorem takesAll_append {ts us : List Token} {w : List UInt8} :
    TakesAll (ts ++ us) w ↔ ∃ u v, TakesAll ts u ∧ TakesAll us v ∧ w = u ++ v := by
  induction ts generalizing w with
  | nil => simp [TakesAll]
  | cons t ts ih =>
    simp only [List.cons_append, TakesAll, ih]
    constructor
    · intro h
      obtain ⟨u, _, hu, ⟨v, x, hv, hx, rfl⟩, rfl⟩ := h
      exact ⟨u ++ v, x, ⟨u, v, hu, hv, rfl⟩, hx, by rw [List.append_assoc]⟩
    · intro h
      obtain ⟨_, x, ⟨u, v, hu, hv, rfl⟩, hx, rfl⟩ := h
      exact ⟨u, v ++ x, hu, ⟨v, x, hv, hx, rfl⟩, by rw [List.append_assoc]⟩

/-- Characters that stand for themselves have one word. -/
theorem takesAll_literals (cs : List Char) (w : List UInt8) :
    TakesAll (cs.map .literal) w ↔ w = bytes cs := by
  induction cs generalizing w with
  | nil => rfl
  | cons c cs ih =>
    simp only [List.map_cons, TakesAll, Token.Takes, ih]
    simp [bytes]

theorem exists_of_all_literal {ts : List Token}
    (h : (ts.map Token.literal?).all Option.isSome = true) :
    ∃ cs : List Char, ts = cs.map .literal := by
  induction ts with
  | nil => exact ⟨[], rfl⟩
  | cons t ts ih =>
    rw [List.map_cons, List.all_cons, Bool.and_eq_true] at h
    obtain ⟨cs, rfl⟩ := ih h.2
    cases t with
    | literal c => exact ⟨c :: cs, rfl⟩
    | _ => exact nomatch h.1

/-! ### Names -/

theorem endsInExtension_leadingDirs (ts : List Token) :
    endsInExtension (.leadingDirs :: ts) = endsInExtension ts := by
  have hconcat : ∀ xs : List (Option Char),
      (xs ++ [none]).takeWhile (fun c => c.isSome && c != some '/') =
        xs.takeWhile fun c => c.isSome && c != some '/' := by
    intro xs
    induction xs with
    | nil => rfl
    | cons x xs ih =>
      rw [List.cons_append, List.takeWhile_cons, List.takeWhile_cons, ih]
  rw [endsInExtension, endsInExtension, List.reverse_cons, List.map_append, List.map_singleton]
  exact congrArg (List.contains · (some '.')) (hconcat _)

theorem isText_iff {g : Glob} (hdirs : .leadingDirs ∉ g.tokens) :
    g.isText = (g.tokens.map Token.literal?).all Option.isSome := by
  unfold Glob.isText
  split
  · rename_i h
    rw [h] at hdirs
    exact absurd List.mem_cons_self hdirs
  · rfl

theorem isText_leadingDirs (pattern : String) (ts : List Token) :
    (⟨pattern, .leadingDirs :: ts⟩ : Glob).isText =
      ((ts.map Token.literal?).all Option.isSome && (ts.map Token.literal?).contains (some '/')) :=
  rfl

/-- The tokens of two dots. -/
def parentTokens : List Token := [.literal '.', .literal '.']

/-- Two dots are spelled by their tokens alone. -/
theorem eq_parent_of_takesAll {path : String}
    (h : TakesAll parentTokens (bytes path.toList)) : path = ".." := by
  rw [show parentTokens = ['.', '.'].map Token.literal from rfl, takesAll_literals] at h
  exact Text.bytes_injective h

/-- **After directories a pattern needs a name where it did before**, and also if it is two dots. -/
theorem needsName_leadingDirs_iff {g : Glob} (hdirs : .leadingDirs ∉ g.tokens) (pattern : String)
    {path : String} (htakes : TakesAll g.tokens (bytes path.toList)) :
    ((⟨pattern, .leadingDirs :: g.tokens⟩ : Glob).needsName = true ∧ endsInParent path = true) ↔
      g.tokens = parentTokens ∨ (g.needsName = true ∧ endsInParent path = true) := by
  rw [Glob.needsName, Glob.needsName, endsInExtension_leadingDirs, isText_leadingDirs,
    isText_iff hdirs]
  by_cases htext : (g.tokens.map Token.literal?).all Option.isSome = true
  · rw [htext]
    obtain ⟨cs, hcs⟩ := exists_of_all_literal htext
    have hpath : path.toList = cs := by
      rw [hcs, takesAll_literals] at htakes
      have hof : path = String.ofList cs :=
        Text.bytes_injective (by rw [String.toList_ofList]; exact htakes)
      rw [hof, String.toList_ofList]
    simp only [Bool.true_and, Bool.not_true, Bool.and_false, Bool.false_eq_true, false_and,
      or_false]
    constructor
    · intro h
      obtain ⟨hname, hparent⟩ := h
      have hinner : '/' ∉ path.toList := by
        intro hmem
        have hcontains : (g.tokens.map Token.literal?).contains (some '/') = true := by
          rw [List.contains_iff_mem, hcs, List.map_map]
          exact List.mem_map.2 ⟨'/', hpath ▸ hmem, rfl⟩
        rw [hcontains, Bool.not_true, Bool.and_false] at hname
        exact nomatch hname
      obtain rfl := (endsInParent_iff_of_no_separator hinner).1 hparent
      rw [hcs, ← hpath]
      rfl
    · intro h
      rw [h] at htakes ⊢
      obtain rfl := eq_parent_of_takesAll htakes
      exact ⟨by decide, by decide⟩
  · rw [Bool.not_eq_true] at htext
    rw [htext]
    have hparent : g.tokens ≠ parentTokens := by
      intro h
      rw [h] at htext
      exact absurd htext (by decide)
    simp [hparent]

/-! ### Patterns with directories -/

/-- Whether a pattern is two dots, each written with a backslash or without. -/
def IsParentName (pattern : String) : Prop :=
  ∃ g, Glob.parse pattern = .ok g ∧ g.tokens = parentTokens

theorem parse_eq_ok_iff {pattern : String} {ts : List Token} :
    Glob.parse pattern = .ok ⟨pattern, ts⟩ ↔
      readTokens .strict [] [] none pattern.toList = .ok ts := by
  rw [Glob.parse]
  cases readTokens .strict [] [] none pattern.toList <;> simp

/-- Two dots as a pattern match two dots only. -/
theorem eq_parent_of_matches {pattern path : String} (h : IsParentName pattern)
    (hmatches : Matches pattern path) : path = ".." := by
  obtain ⟨g, hg, htokens⟩ := h
  have hspells := ((matches_iff hg (by rw [htokens]; simp [parentTokens]) path).1 hmatches).1
  rw [spells_iff hg, htokens] at hspells
  exact eq_parent_of_takesAll hspells

theorem reads_of_parse {q : String} {g : Glob} (hstars : ¬ twoStars <:+: q.toList)
    (h : Glob.parse q = .ok g) : Reads [] [] q.toList g.tokens := by
  have hpattern : g.pattern = q := by
    rw [Glob.parse] at h
    split at h
    · rw [← Except.ok.inj h]
    · cases h
  exact reads_of_readTokens hstars (parse_eq_ok_iff.1 (hpattern ▸ h))

/-- Leading directories are one token more. -/
theorem parse_leadingDirs {q : String} {ts : List Token} (h : Reads [] [] q.toList ts) :
    Glob.parse ("**/" ++ q) = .ok ⟨"**/" ++ q, .leadingDirs :: ts⟩ := by
  have hreads : Reads [] [.leadingDirs] q.toList (.leadingDirs :: ts) := h.beneath .top
  have hlist : ("**/" ++ q).toList = '*' :: '*' :: '/' :: q.toList := by simp
  rw [parse_eq_ok_iff, hlist, readTokens, if_pos List.isEmpty_nil]
  exact hreads.readTokens_eq _

/-- What follows a directory is one token more. -/
theorem parse_trailingDirs {q : String} {ts : List Token} (h : Reads [] [] q.toList ts) :
    Glob.parse (q ++ "/**") = .ok ⟨q ++ "/**", ts ++ [.trailingDirs]⟩ := by
  have hlist : (q ++ "/**").toList = q.toList ++ '/' :: ['*', '*'] := by simp
  obtain ⟨next, hnext⟩ := h.readTokens_append none ['*', '*']
  rw [parse_eq_ok_iff, hlist, hnext, readTokens_plain rfl (fun _ => rfl), readTokens]
  · simp [beginsComponent, endsBranch, addDirs, readTokens]
  · simp

/-! ### What they match -/

/-- A text that is the whole of a path, or what follows one of its separators. -/
def IsEnd (path suffix : String) : Prop :=
  path = suffix ∨ ∃ start, path = start ++ "/" ++ suffix

theorem endsInParent_of_isEnd {path suffix : String} (h : IsEnd path suffix) :
    endsInParent path = endsInParent suffix := by
  rcases h with rfl | ⟨start, rfl⟩
  · rfl
  · exact endsInParent_append start suffix

theorem takesAll_leadingDirs_iff {ts : List Token} {path : String} :
    TakesAll (.leadingDirs :: ts) (bytes path.toList) ↔
      ∃ suffix, IsEnd path suffix ∧ TakesAll ts (bytes suffix.toList) := by
  constructor
  · intro h
    obtain ⟨u, v, hdirs, hts, hpath⟩ := h
    rcases hdirs with rfl | ⟨u, rfl⟩
    · exact ⟨path, .inl rfl, hpath ▸ hts⟩
    · rw [List.append_assoc, List.singleton_append] at hpath
      obtain ⟨xs, ys, hlist, -, rfl⟩ := exists_of_bytes_eq hpath
      refine ⟨String.ofList ys, .inr ⟨String.ofList xs, ?_⟩, by rwa [String.toList_ofList]⟩
      rw [← String.toList_inj, hlist]
      simp
  · intro h
    obtain ⟨suffix, hend, hts⟩ := h
    rcases hend with rfl | ⟨start, rfl⟩
    · exact ⟨[], _, .inl rfl, hts, rfl⟩
    · refine ⟨bytes start.toList ++ [separator], _, .inr ⟨_, rfl⟩, hts, ?_⟩
      simp [bytes, utf8EncodeChar_separator]

theorem takesAll_trailingDirs_iff {ts : List Token} {path : String} :
    TakesAll (ts ++ [.trailingDirs]) (bytes path.toList) ↔
      ∃ x y, path = x ++ "/" ++ y ∧ TakesAll ts (bytes x.toList) := by
  rw [takesAll_append]
  constructor
  · intro h
    obtain ⟨u, w, hts, ⟨_, _, ⟨v, rfl⟩, rfl, rfl⟩, hpath⟩ := h
    rw [List.append_nil] at hpath
    obtain ⟨xs, ys, hlist, rfl, -⟩ := exists_of_bytes_eq hpath
    refine ⟨String.ofList xs, String.ofList ys, ?_, by rwa [String.toList_ofList]⟩
    rw [← String.toList_inj, hlist]
    simp
  · intro h
    obtain ⟨x, y, rfl, hts⟩ := h
    refine ⟨_, separator :: bytes y.toList, hts, ⟨_, [], ⟨bytes y.toList, rfl⟩, rfl, by simp⟩, ?_⟩
    simp [bytes, utf8EncodeChar_separator]

section

variable {q : String} {g : Glob} (hg : Glob.parse q = .ok g) (hstars : ¬ twoStars <:+: q.toList)
include hg hstars

theorem leadingDirs_not_mem_of_parse : .leadingDirs ∉ g.tokens :=
  (reads_of_parse hstars hg).leadingDirs_not_mem List.not_mem_nil (List.forall_mem_nil _)

theorem matches_own_iff (path : String) :
    Matches q path ↔ Spells q path ∧ ¬ (NeedsName q ∧ endsInParent path = true) := by
  refine matches_iff hg (fun h => leadingDirs_not_mem_of_parse hg hstars ?_) path
  rw [h]
  exact List.mem_cons_self

/-- **After any directories a pattern matches the ends of paths that it matches alone**, unless it
is two dots. -/
theorem matches_leadingDirs_iff (hne : q ≠ "") (path : String) :
    Matches ("**/" ++ q) path ↔
      ¬ IsParentName q ∧ ∃ suffix, IsEnd path suffix ∧ Matches q suffix := by
  have hreads := reads_of_parse hstars hg
  have hdirs := leadingDirs_not_mem_of_parse hg hstars
  have hsome : g.tokens ≠ [] := by
    refine hreads.ne_nil fun _ _ hnil => hne ?_
    rw [← String.toList_inj, hnil]
    rfl
  have hleading := parse_leadingDirs hreads
  have hparent : IsParentName q ↔ g.tokens = parentTokens := by simp [IsParentName, hg]
  rw [matches_iff hleading (by simpa using hsome), spells_iff hleading, needsName_iff hleading,
    takesAll_leadingDirs_iff, hparent]
  simp only [matches_own_iff hg hstars, spells_iff hg, needsName_iff hg]
  constructor
  · intro h
    obtain ⟨⟨suffix, hend, hts⟩, hname⟩ := h
    rw [endsInParent_of_isEnd hend, needsName_leadingDirs_iff hdirs _ hts, not_or] at hname
    exact ⟨hname.1, suffix, hend, hts, hname.2⟩
  · intro h
    obtain ⟨hno, suffix, hend, hts, hname⟩ := h
    refine ⟨⟨suffix, hend, hts⟩, ?_⟩
    rw [endsInParent_of_isEnd hend, needsName_leadingDirs_iff hdirs _ hts, not_or]
    exact ⟨hno, hname⟩

/-- **Before two stars a pattern matches directories**, and is not decided by their names. -/
theorem matches_trailingDirs_iff (path : String) :
    Matches (q ++ "/**") path ↔ ∃ x y, path = x ++ "/" ++ y ∧ Spells q x := by
  have htrailing := parse_trailingDirs (reads_of_parse hstars hg)
  have hname : ¬ NeedsName (q ++ "/**") := by
    rw [needsName_iff htrailing]
    simp [Glob.needsName, endsInExtension, Token.literal?]
  have hnot : g.tokens ++ [.trailingDirs] ≠ [.leadingDirs] := by
    intro h
    have hlast : some Token.trailingDirs = some .leadingDirs := by
      rw [← List.getLast?_concat (l := g.tokens), h]
      rfl
    exact nomatch hlast
  rw [matches_iff htrailing hnot, spells_iff htrailing, takesAll_trailingDirs_iff]
  simp only [hname, false_and, not_false_eq_true, and_true, spells_iff hg]

end

/-- A pattern matches an end of a path if it matches the path or what follows a separator. -/
theorem exists_isEnd_iff {q path : String} :
    (∃ suffix, IsEnd path suffix ∧ Matches q suffix) ↔
      Matches q path ∨ ∃ x y, path = x ++ "/" ++ y ∧ Matches q y := by
  constructor
  · intro h
    obtain ⟨suffix, rfl | ⟨x, rfl⟩, h⟩ := h
    · exact .inl h
    · exact .inr ⟨x, suffix, rfl, h⟩
  · intro h
    rcases h with h | ⟨x, y, rfl, h⟩
    · exact ⟨path, .inl rfl, h⟩
    · exact ⟨y, .inr ⟨x, rfl⟩, h⟩

/-- **Directories before and after a pattern.**  Before it there may be any number of them, and
after it at least one component follows; a directory before it may be two dots even if the pattern
needs a name. -/
theorem matches_between_dirs {q : String} (hq : IsPattern q) (hstars : ¬ twoStars <:+: q.toList) :
    (∀ path, Matches q path ↔ Spells q path ∧ ¬ (NeedsName q ∧ endsInParent path = true)) ∧
      IsPattern ("**/" ++ q) ∧
      (∀ path, Matches ("**/" ++ q) path ↔
        ¬ IsParentName q ∧ (Matches q path ∨ ∃ x y, path = x ++ "/" ++ y ∧ Matches q y)) ∧
      IsPattern (q ++ "/**") ∧
      ∀ path, Matches (q ++ "/**") path ↔ ∃ x y, path = x ++ "/" ++ y ∧
        (Matches q x ∨ Spells q x ∧ NeedsName q ∧ endsInParent x = true) := by
  obtain ⟨hne, g, hg⟩ := hq
  have hreads := reads_of_parse hstars hg
  have hown := matches_own_iff hg hstars
  refine ⟨hown, ⟨by simp, _, parse_leadingDirs hreads⟩, fun path => ?_,
    ⟨by simp, _, parse_trailingDirs hreads⟩, fun path => ?_⟩
  · rw [matches_leadingDirs_iff hg hstars hne, exists_isEnd_iff]
  · rw [matches_trailingDirs_iff hg hstars]
    refine exists_congr fun x => exists_congr fun y => and_congr_right fun _ => ?_
    rw [hown]
    tauto

/-- Scripts and types in any directory, and below a directory that is named like one. -/
theorem matches_between_dirs_scripts :
    IsPattern "*.[jt]s" ∧ ¬ twoStars <:+: "*.[jt]s".toList ∧
      Matches ("**/" ++ "*.[jt]s") "src/lib/a.ts" ∧ Matches ("*.[jt]s" ++ "/**") "a.ts/b/c" := by
  have hq : IsPattern "*.[jt]s" := by decide +kernel
  have hstars : ¬ twoStars <:+: "*.[jt]s".toList := by decide
  have hown : Matches "*.[jt]s" "a.ts" := by decide +kernel
  have hname : ¬ IsParentName "*.[jt]s" := fun h =>
    absurd (eq_parent_of_matches h hown) (by decide)
  obtain ⟨-, -, hleading, -, htrailing⟩ := matches_between_dirs hq hstars
  refine ⟨hq, hstars, ?_, ?_⟩
  · exact (hleading _).2 ⟨hname, .inr ⟨"src/lib", "a.ts", rfl, hown⟩⟩
  · exact (htrailing _).2 ⟨"a.ts", "b/c", rfl, .inl hown⟩

/-- Two dots are not matched after directories, and a directory of two dots is matched by patterns
that do not match it alone. -/
theorem not_forall_matches_between_dirs :
    (¬ ∀ q, IsPattern q → ¬ twoStars <:+: q.toList → ∀ path, Matches ("**/" ++ q) path ↔
        (Matches q path ∨ ∃ x y, path = x ++ "/" ++ y ∧ Matches q y)) ∧
      ¬ ∀ q, IsPattern q → ¬ twoStars <:+: q.toList → ∀ path, Matches (q ++ "/**") path ↔
        ∃ x y, path = x ++ "/" ++ y ∧ Matches q x := by
  constructor
  · intro h
    have hmatches := (h ".." (by decide +kernel) (by decide) "a/..").2
      (.inr ⟨"a", "..", rfl, by decide +kernel⟩)
    revert hmatches
    decide +kernel
  · intro h
    obtain ⟨x, y, hpath, hmatches⟩ :=
      (h "*." (by decide +kernel) (by decide) "../y").1 (by decide +kernel)
    -- the path has one separator only
    have hx : x = ".." := by
      have hlist : ['.', '.'] ++ '/' :: ['y'] = x.toList ++ '/' :: y.toList := by
        rw [← String.toList_inj] at hpath
        simpa using hpath
      have hstart := ((List.append_cons_inj_of_notMem (by decide) (by decide)).1 hlist).1
      rw [← String.toList_inj, ← hstart]
      rfl
    rw [hx] at hmatches
    revert hmatches
    decide +kernel

end CallHarvest
