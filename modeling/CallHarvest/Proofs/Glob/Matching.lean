import CallHarvest.Glob.Word
import CallHarvest.PathFilter
import CallHarvest.Proofs.Path.Spelling
import CallHarvest.Proofs.Text.Cuts

/-!
# What a filter with one pattern matches

A filter with one pattern to scan matches the words of the pattern, with one exception: a pattern
that is decided by the name of a file does not match a path that ends in two dots.

* `Matches` — the paths that pass such a filter.
* `Spells` — the words of a pattern.
* `NeedsName` — the patterns that are decided by the name of a file.
* `matches_iff` — how the three belong together.
* `exists_of_bytes_eq` — where there is a separator among the bytes of a path, there is one in it.
-/

namespace CallHarvest

open CallHarvest.Path (splitOn_append_separator splitOn_eq_singleton)
open CallHarvest.Text (append_eq_append_cases bytes)

/-! ### Patterns and paths -/

/-- Whether a path passes the filter with one pattern to scan. -/
def Matches (pattern path : String) : Prop :=
  ∃ f, PathFilter.ofOptions { included := some (.single pattern) } = .ok f ∧ f.accepts path

/-- Whether a path is one of the words of a pattern. -/
def Spells (pattern path : String) : Prop :=
  ∃ g, Glob.parse pattern = .ok g ∧ TakesAll g.tokens (bytes path.toList)

/-- Whether a pattern is decided by the name of a file. -/
def NeedsName (pattern : String) : Prop :=
  ∃ g, Glob.parse pattern = .ok g ∧ g.needsName

theorem ofOptions_single (pattern : String) :
    PathFilter.ofOptions { included := some (.single pattern) } =
      match Glob.parse pattern with
      | .ok g => .ok { included := [g] }
      | .error e => .error ⟨.included, e⟩ := by
  simp only [PathFilter.ofOptions, readGlobs, Options.patterns, Options.patterns?,
    Patterns.ofOption, Option.map_some, Option.map_none, Option.getD_some, Option.getD_none,
    Patterns.toList, List.mapM_cons, List.mapM_nil]
  cases Glob.parse pattern <;> rfl

/-- A filter with one pattern is its glob. -/
theorem matches_iff_accepts {pattern path : String} :
    Matches pattern path ↔ ∃ g, Glob.parse pattern = .ok g ∧ g.accepts path := by
  rw [Matches, ofOptions_single]
  cases Glob.parse pattern with
  | error e => simp
  | ok g => simp [PathFilter.accepts]

instance (pattern path : String) : Decidable (Matches pattern path) :=
  match hparse : Glob.parse pattern with
  | .ok g => decidable_of_iff (g.accepts path = true) (by simp [matches_iff_accepts, hparse])
  | .error _ => .isFalse (by simp [matches_iff_accepts, hparse])

theorem spells_iff {pattern : String} {g : Glob} (hparse : Glob.parse pattern = .ok g)
    (path : String) : Spells pattern path ↔ TakesAll g.tokens (bytes path.toList) := by
  simp [Spells, hparse]

theorem needsName_iff {pattern : String} {g : Glob} (hparse : Glob.parse pattern = .ok g) :
    NeedsName pattern ↔ g.needsName = true := by
  simp [NeedsName, hparse]

theorem isUniversal_iff {g : Glob} : g.isUniversal = true ↔ g.tokens = [.leadingDirs] := by
  unfold Glob.isUniversal
  split
  · rename_i h
    exact ⟨fun _ => h, fun _ => rfl⟩
  · rename_i h
    exact ⟨fun he => (nomatch he), fun he => absurd he h⟩

/-- **A pattern matches its words**, but for those that end in two dots if it needs a name. -/
theorem matches_iff {pattern : String} {g : Glob} (hparse : Glob.parse pattern = .ok g)
    (hdirs : g.tokens ≠ [.leadingDirs]) (path : String) :
    Matches pattern path ↔
      Spells pattern path ∧ ¬ (NeedsName pattern ∧ endsInParent path = true) := by
  rw [matches_iff_accepts, spells_iff hparse, needsName_iff hparse]
  have huniversal : ¬ g.isUniversal = true := fun h => hdirs (isUniversal_iff.1 h)
  have haccepts : (∃ g', Glob.parse pattern = .ok g' ∧ g'.accepts path) ↔ g.accepts path := by
    simp [hparse]
  rw [haccepts, Glob.accepts_eq_true_iff, or_iff_right huniversal]
  exact and_comm

/-! ### Separators -/

theorem utf8EncodeChar_separator : String.utf8EncodeChar '/' = [separator] := by
  decide

theorem separator_not_mem_utf8EncodeChar {c : Char} (h : c ≠ '/') :
    separator ∉ String.utf8EncodeChar c := by
  have hne : ∀ n, n % 256 ≠ 47 → separator ≠ UInt8.ofNat n := by
    intro n hn he
    have htoNat := congrArg UInt8.toNat he
    rw [UInt8.toNat_ofNat'] at htoNat
    exact hn htoNat.symm
  have hcode : c.val.toNat ≠ 47 := fun hc => h (Char.toNat_inj.1 hc)
  unfold String.utf8EncodeChar
  dsimp only
  split_ifs <;> simp only [List.mem_cons, List.not_mem_nil, or_false, not_or]
  · exact hne _ (by omega)
  · exact ⟨hne _ (by omega), hne _ (by omega)⟩
  · exact ⟨hne _ (by omega), hne _ (by omega), hne _ (by omega)⟩
  · exact ⟨hne _ (by omega), hne _ (by omega), hne _ (by omega), hne _ (by omega)⟩

/-- **A separator among the bytes of a text is a separator of the text.** -/
theorem exists_of_bytes_eq {cs : List Char} {u v : List UInt8}
    (h : bytes cs = u ++ separator :: v) :
    ∃ xs ys, cs = xs ++ '/' :: ys ∧ bytes xs = u ∧ bytes ys = v := by
  induction cs generalizing u with
  | nil => simp [bytes] at h
  | cons c cs ih =>
    rw [bytes, List.flatMap_cons] at h
    by_cases hc : c = '/'
    · subst hc
      cases u with
      | nil =>
        obtain ⟨-, hv⟩ := List.cons.inj h
        exact ⟨[], cs, rfl, rfl, hv⟩
      | cons b u =>
        obtain ⟨hb, htail⟩ := List.cons.inj h
        obtain ⟨xs, ys, rfl, hx, hy⟩ := ih htail
        exact ⟨'/' :: xs, ys, rfl, by rw [← hx, ← hb]; rfl, hy⟩
    · have hmem := separator_not_mem_utf8EncodeChar hc
      rcases append_eq_append_cases h.symm with ⟨w, rfl, htail⟩ | ⟨w, hne, hw, htail⟩
      · obtain ⟨xs, ys, rfl, hx, hy⟩ := ih htail
        exact ⟨c :: xs, ys, rfl, by rw [← hx]; rfl, hy⟩
      · obtain ⟨b, w, rfl⟩ := List.exists_cons_of_ne_nil hne
        obtain ⟨rfl, -⟩ := List.cons.inj htail
        rw [hw] at hmem
        exact absurd (List.mem_append_right u List.mem_cons_self) hmem

theorem separator_mem_bytes_iff {cs : List Char} : separator ∈ bytes cs ↔ '/' ∈ cs := by
  constructor
  · intro h
    obtain ⟨u, v, huv⟩ := List.append_of_mem h
    obtain ⟨xs, ys, rfl, -, -⟩ := exists_of_bytes_eq huv
    simp
  · intro h
    exact List.mem_flatMap.2 ⟨'/', h, by decide⟩

/-! ### The last component -/

theorem endsInParent_append (x y : String) : endsInParent (x ++ "/" ++ y) = endsInParent y := by
  have hlist : (x ++ "/" ++ y).toList = x.toList ++ '/' :: y.toList := by simp
  obtain ⟨w, parts, hsplit, -⟩ := Path.exists_splitOn_eq_cons y.toList
  rw [endsInParent, endsInParent, hlist, splitOn_append_separator, hsplit,
    List.getLast?_append, List.getLast?_cons, Option.some_or]

theorem endsInParent_iff_of_no_separator {path : String} (h : '/' ∉ path.toList) :
    endsInParent path = true ↔ path = ".." := by
  rw [endsInParent, splitOn_eq_singleton h, List.getLast?_singleton, beq_iff_eq, Option.some.injEq,
    ← String.toList_inj]
  rfl

end CallHarvest
