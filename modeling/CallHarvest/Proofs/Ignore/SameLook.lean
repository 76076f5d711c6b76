import CallHarvest.Ignore.Scope
import CallHarvest.Proofs.FileTree.Route
import Mathlib.Data.List.TakeDrop

/-!
# What is ignored in trees that look the same

Which paths are ignored depends on what is at the places of a tree, and not on the order in which
its directories hold their entries.

* `isControlled_iff`, `rules_of_file`, `rules_eq_nil` — what is asked of a directory above a path.
* `isIgnored_of_sameLook` — the same paths are ignored.
-/

namespace CallHarvest.FileTree

variable {t t' : FileTree} {directory place : Place}

/-! ### What is asked of a directory -/

/-- Routes end in trees that look the same at the same places. -/
theorem SameLook.keeps (h : SameLook t t') : Keeps t t' := by
  refine ⟨?_, ?_, ?_⟩
  · intro place hdir
    rw [h, hdir]
  · intro place content hfile
    exact ⟨content, by rw [h, hfile]⟩
  · intro place target
    rw [h]

/-- A route leads to something. -/
theorem locate_eq_taken_iff {parts : List String} {n : Node}
    (hdir : t.kind? directory = some .dir) :
    t.locate true directory { parts } = .ok (.taken place n) ↔
      t.get? place = some n ∧ t.Leads true linkLimit directory parts place := by
  rw [locate, locateFrom_eq_ok_iff hdir]
  simp [Spot.IsIn, Spot.place, Route.steps]

/-- **A directory is under version control** if one of the names of control data leads to
something. -/
theorem isControlled_iff (hdir : t.kind? directory = some .dir) :
    t.isControlled directory = true ↔ ∃ name ∈ IgnoreFile.controlNames, ∃ place,
      t.kind? place ≠ none ∧ t.Leads true linkLimit directory [name] place := by
  rw [isControlled, List.any_eq_true]
  refine exists_congr fun name => and_congr_right fun _ => ?_
  constructor
  · intro h
    split at h
    · rename_i place n hlocate
      obtain ⟨hn, hleads⟩ := (locate_eq_taken_iff hdir).1 hlocate
      refine ⟨place, ?_, hleads⟩
      rw [Ne, kind?_eq_none_iff, hn]
      exact Option.some_ne_none n
    · exact nomatch h
  · rintro ⟨place, hplace, hleads⟩
    obtain ⟨n, hn⟩ := Option.ne_none_iff_exists'.1 (mt kind?_eq_none_iff.2 hplace)
    rw [(locate_eq_taken_iff hdir).2 ⟨hn, hleads⟩]

/-- The rules of a kind in a directory are those of the file that the names of the kind lead to. -/
theorem rules_of_file {kind : IgnoreFile} {content : ByteArray}
    (hdir : t.kind? directory = some .dir) (hfile : t.kind? place = some (.file content))
    (hleads : t.Leads true linkLimit directory kind.names place) :
    t.rules kind directory = Rule.ofContent content := by
  rw [rules, (locate_eq_taken_iff hdir).2 ⟨kind?_eq_file_iff.1 hfile, hleads⟩]

theorem rules_eq_nil {kind : IgnoreFile} (hdir : t.kind? directory = some .dir)
    (hnone : ∀ place content, t.kind? place = some (.file content) →
      ¬ t.Leads true linkLimit directory kind.names place) :
    t.rules kind directory = [] := by
  rw [rules]
  split
  · rename_i place content hlocate
    obtain ⟨hn, hleads⟩ := (locate_eq_taken_iff hdir).1 hlocate
    exact absurd hleads (hnone place content (kind?_eq_file_iff.2 hn))
  · rfl

theorem isControlled_of_sameLook (h : SameLook t t') (hdir : t.kind? directory = some .dir) :
    t'.isControlled directory = t.isControlled directory := by
  have hdir' : t'.kind? directory = some .dir := (h directory).trans hdir
  rw [Bool.eq_iff_iff, isControlled_iff hdir, isControlled_iff hdir']
  refine exists_congr fun name => and_congr_right fun _ => exists_congr fun place => ?_
  rw [h place]
  exact and_congr_right fun _ => ⟨fun hleads => hleads.keep h.symm.keeps,
    fun hleads => hleads.keep h.keeps⟩

theorem rules_of_sameLook (h : SameLook t t') (kind : IgnoreFile)
    (hdir : t.kind? directory = some .dir) :
    t'.rules kind directory = t.rules kind directory := by
  have hdir' : t'.kind? directory = some .dir := (h directory).trans hdir
  by_cases hfile : ∃ place content, t.kind? place = some (.file content) ∧
      t.Leads true linkLimit directory kind.names place
  · obtain ⟨place, content, hcontent, hleads⟩ := hfile
    rw [rules_of_file hdir hcontent hleads,
      rules_of_file hdir' ((h place).trans hcontent) (hleads.keep h.keeps)]
  · rw [rules_eq_nil hdir, rules_eq_nil hdir']
    · intro place content hcontent hleads
      exact hfile ⟨place, content, (h place).symm.trans hcontent, hleads.keep h.symm.keeps⟩
    · intro place content hcontent hleads
      exact hfile ⟨place, content, hcontent, hleads⟩

/-! ### What is ignored -/

/-- What is split off a list depends on the test of its members only. -/
theorem span_congr {α : Type} {p q : α → Bool} {xs : List α} (h : ∀ x ∈ xs, p x = q x) :
    xs.span p = xs.span q := by
  rw [List.span_eq_takeWhile_dropWhile, List.span_eq_takeWhile_dropWhile]
  induction xs with
  | nil => rfl
  | cons x xs ih =>
    have hx : p x = q x := h x List.mem_cons_self
    have hxs := ih fun y hy => h y (List.mem_cons_of_mem x hy)
    rw [Prod.mk.injEq] at hxs
    rw [List.takeWhile_cons, List.takeWhile_cons, List.dropWhile_cons, List.dropWhile_cons, hx,
      hxs.1, hxs.2]

theorem findSome?_congr {α β : Type} {f g : α → Option β} {xs : List α}
    (h : ∀ x ∈ xs, f x = g x) : xs.findSome? f = xs.findSome? g := by
  induction xs with
  | nil => rfl
  | cons x xs ih =>
    rw [List.findSome?_cons, List.findSome?_cons, h x List.mem_cons_self,
      ih fun y hy => h y (List.mem_cons_of_mem x hy)]

theorem controlled_congr {scopes : List Scope}
    (h : ∀ s ∈ scopes, t'.isControlled s.directory = t.isControlled s.directory) :
    t'.controlled scopes = t.controlled scopes := by
  rw [controlled, controlled, span_congr fun s hs => congrArg (!·) (h s hs)]

/-- The directories above something are directories. -/
theorem kind?_of_mem_scopesOf {s : Scope} (hplace : t.kind? place ≠ none)
    (hs : s ∈ scopesOf place) : t.kind? s.directory = some .dir := by
  obtain ⟨n, hn, rfl⟩ := List.mem_map.1 hs
  rw [List.mem_reverse, List.mem_range] at hn
  refine kind?_eq_dir_of_append (r := place.drop n) ?_ ?_
  · rwa [List.take_append_drop]
  · exact List.drop_eq_nil_iff.not.2 (Nat.not_le.2 hn)

theorem mem_scopes {kind : IgnoreFile} {s : Scope} (hs : s ∈ t.scopes kind place) :
    s ∈ scopesOf place := by
  rw [scopes] at hs
  split at hs
  · rw [controlled, List.span_eq_takeWhile_dropWhile] at hs
    split at hs
    · exact absurd hs List.not_mem_nil
    · rename_i below top above hsplit
      obtain ⟨hbelow, habove⟩ := Prod.mk.inj hsplit
      rw [← List.takeWhile_append_dropWhile (p := fun s => !t.isControlled s.directory)
        (l := scopesOf place), hbelow, habove]
      rw [List.mem_append, List.mem_singleton] at hs
      rcases hs with hs | rfl
      · exact List.mem_append_left _ hs
      · exact List.mem_append_right _ List.mem_cons_self
  · exact hs

/-- **In trees that look the same the same is ignored.** -/
theorem isIgnored_of_sameLook (h : SameLook t t') (hplace : t.kind? place ≠ none) (isDir : Bool) :
    t'.isIgnored place isDir = t.isIgnored place isDir := by
  have hscopes : ∀ kind, t'.scopes kind place = t.scopes kind place := by
    intro kind
    have hcontrolled : t'.controlled (scopesOf place) = t.controlled (scopesOf place) :=
      controlled_congr fun s hs => isControlled_of_sameLook h (kind?_of_mem_scopesOf hplace hs)
    rw [scopes, scopes, hcontrolled]
  have hverdict : t'.verdictOf? place isDir = t.verdictOf? place isDir := by
    funext kind
    rw [verdictOf?, verdictOf?, hscopes]
    refine findSome?_congr fun s hs => ?_
    have hdir := kind?_of_mem_scopesOf hplace (mem_scopes hs)
    rw [rules_of_sameLook h kind hdir]
  rw [isIgnored, isIgnored, hverdict]

end CallHarvest.FileTree
