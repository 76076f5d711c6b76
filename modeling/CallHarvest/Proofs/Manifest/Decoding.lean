import CallHarvest.Proofs.Manifest.Normalize
import Mathlib.InformationTheory.Coding.UniquelyDecodable

/-!
# Reading a manifest back

The lines of a manifest are joined with line breaks, and a call may itself hold a line break, or
even a line break and what a line begins with.  In the balanced reading the lines can be told from
the joined text nevertheless: what is written of a call is a call, and no call begins another.

* `uniquelyDecodable_of_prefix` — words of which none begins another.
* `IsCallLine` — the lines that are written of calls (`isCallLine_of_mem_lines`); none of them
  begins another (`IsCallLine.eq_of_prefix`).
* `newline_cons_toList_render` — a manifest as a sequence of lines, each after a line break.
* `lines_eq_of_render_eq` — **the lines are determined by the file.**
-/

namespace CallHarvest

open CallHarvest.Call
open InformationTheory (UniquelyDecodable)

/-- Words of which none is empty or begins another can be told from their sequence. -/
theorem uniquelyDecodable_of_prefix {α : Type} {S : Set (List α)} (hne : [] ∉ S)
    (hfree : ∀ v ∈ S, ∀ w ∈ S, v <+: w → v = w) : UniquelyDecodable S := by
  have hempty : ∀ vs : List (List α), (∀ v ∈ vs, v ∈ S) → vs.flatten = [] → vs = [] := by
    intro vs hvs h
    rw [List.eq_nil_iff_forall_not_mem]
    intro v hv
    have hnil := List.flatten_eq_nil_iff.1 h v hv
    exact hne (hnil ▸ hvs v hv)
  intro vs ws hvs hws h
  induction vs generalizing ws with
  | nil => exact (hempty ws hws h.symm).symm
  | cons v vs ih =>
    cases ws with
    | nil => exact hempty (v :: vs) hvs h
    | cons w ws =>
      obtain ⟨hv, hvs'⟩ := List.forall_mem_cons.1 hvs
      obtain ⟨hw, hws'⟩ := List.forall_mem_cons.1 hws
      rw [List.flatten_cons, List.flatten_cons] at h
      have hcut : w <+: v ++ vs.flatten := h ▸ List.prefix_append w ws.flatten
      have hvw : v = w := by
        rcases List.prefix_or_prefix_of_prefix (List.prefix_append v vs.flatten) hcut with hp | hp
        · exact hfree v hv w hw hp
        · exact (hfree w hw v hv hp).symm
      subst hvw
      rw [ih ws hvs' hws' (List.append_cancel_left h)]

/-! ### Lines -/

/-- A line for a balanced call: a comment with a call in its bare spelling. -/
def IsCallLine (line : String) : Prop :=
  ∃ shape args, BalancedArguments shape args ∧
    line.toList = Manifest.lineStart.toList ++ (head bareName shape ++ args)

/-- The shape of a call can be told from its head. -/
theorem head_bare_append_inj {s s' : Shape} {x y : List Char}
    (h : head bareName s ++ x = head bareName s' ++ y) : s = s' ∧ x = y := by
  cases s <;> cases s'
  · exact ⟨rfl, List.append_cancel_left h⟩
  · exact absurd h (by simp [head, bareName, Shape.method])
  · exact absurd h (by simp [head, bareName, Shape.method])
  · exact ⟨rfl, List.append_cancel_left h⟩

/-- **No line for a call begins another.** -/
theorem IsCallLine.eq_of_prefix {a b : String} (ha : IsCallLine a) (hb : IsCallLine b)
    (h : a.toList <+: b.toList) : a = b := by
  obtain ⟨s, args, hargs, hline⟩ := ha
  obtain ⟨s', args', hargs', hline'⟩ := hb
  rw [hline, hline', List.prefix_append_right_inj] at h
  obtain ⟨x, hx⟩ := h
  rw [List.append_assoc] at hx
  obtain ⟨rfl, rfl⟩ := head_bare_append_inj hx
  rw [hargs.unique hargs' (List.prefix_append args x) List.prefix_rfl] at hline
  exact String.toList_inj.1 (hline.trans hline'.symm)

/-- **What a harvester writes in the balanced reading** is lines for calls. -/
theorem isCallLine_of_mem_lines {h : Harvester} (hnew : h.IsNew) (hmode : h.mode = .balanced)
    {ms : List ScriptModule} {line : String}
    (hline : line ∈ (transformAll h ms).manifest.lines) : IsCallLine line := by
  obtain ⟨text, htext, rfl⟩ := List.mem_map.1 hline
  rw [Registry.mem_sorted, Harvester.mem_registry_transformAll, hnew.registry_eq] at htext
  obtain ⟨m, -, -, hcall⟩ := htext.resolve_left (Registry.not_mem_empty text)
  obtain ⟨call, hmem, rfl⟩ := List.mem_map.1 hcall
  obtain ⟨shape, -, hfind⟩ := List.mem_flatMap.1 hmem
  rw [hmode] at hfind
  obtain ⟨hd, args, hhd, hargs, hcut⟩ := exists_text_of_mem_find hfind
  have hnot : ¬ EndsWrapped call.text := fun hends =>
    absurd (hends.of_call hhd hargs hcut).1 (by decide)
  obtain ⟨args', hargs', hnormalize⟩ := exists_whole_normalize hhd hargs hcut hnot
  refine ⟨shape, args', (whole_balanced_iff.1 hargs').1, ?_⟩
  rw [String.toList_append, hnormalize]

/-- The words of which a manifest consists: lines for calls, each after a line break. -/
def callWords : Set (List Char) :=
  { w | ∃ line, IsCallLine line ∧ w = '\n' :: line.toList }

theorem uniquelyDecodable_callWords : UniquelyDecodable callWords := by
  apply uniquelyDecodable_of_prefix
  · intro h
    obtain ⟨line, -, hnil⟩ := h
    exact absurd hnil (by simp)
  · intro v hv w hw h
    obtain ⟨a, ha, rfl⟩ := hv
    obtain ⟨b, hb, rfl⟩ := hw
    rw [ha.eq_of_prefix hb (List.cons_prefix_cons.1 h).2]

/-! ### The file -/

namespace Manifest

/-- A manifest as its lines, each after a line break. -/
theorem newline_cons_toList_render {m : Manifest} (h : m.lines ≠ []) :
    '\n' :: m.render.toList = (m.lines.map fun line => '\n' :: line.toList).flatten := by
  rw [render]
  generalize m.lines = lines at h ⊢
  induction lines with
  | nil => exact absurd rfl h
  | cons a lines ih =>
    cases lines with
    | nil => simp
    | cons b lines =>
      rw [List.map_cons, List.flatten_cons, ← ih (List.cons_ne_nil b lines),
        String.intercalate_cons_cons, String.toList_append, String.toList_append]
      simp

theorem render_eq_empty_iff {m : Manifest} (hm : ∀ line ∈ m.lines, IsCallLine line) :
    m.render = "" ↔ m.lines = [] := by
  constructor
  · intro h
    by_contra hne
    have hwords := newline_cons_toList_render hne
    obtain ⟨a, lines, hlines⟩ := List.exists_cons_of_ne_nil hne
    obtain ⟨shape, args, -, ha⟩ := hm a (hlines ▸ List.mem_cons_self)
    rw [h, hlines, List.map_cons, List.flatten_cons, ha] at hwords
    exact absurd hwords (by simp [lineStart])
  · intro h
    rw [render, h, String.intercalate_nil]

/-- Lines for calls are determined by the text that they are joined to. -/
theorem lines_eq_of_callLines {m m' : Manifest} (hm : ∀ line ∈ m.lines, IsCallLine line)
    (hm' : ∀ line ∈ m'.lines, IsCallLine line) (h : m.render = m'.render) : m.lines = m'.lines := by
  have hnil_iff : m.lines = [] ↔ m'.lines = [] := by
    rw [← render_eq_empty_iff hm, ← render_eq_empty_iff hm', h]
  by_cases hnil : m.lines = []
  · rw [hnil, hnil_iff.1 hnil]
  · have hwords : ∀ lines : List String, (∀ line ∈ lines, IsCallLine line) →
        ∀ w ∈ lines.map fun line => '\n' :: line.toList, w ∈ callWords := by
      intro lines hlines w hw
      obtain ⟨line, hline, rfl⟩ := List.mem_map.1 hw
      exact ⟨line, hlines line hline, rfl⟩
    have hflat := newline_cons_toList_render hnil
    rw [h, newline_cons_toList_render (hnil_iff.not.1 hnil)] at hflat
    have hmap := uniquelyDecodable_callWords _ _ (hwords _ hm') (hwords _ hm) hflat
    have hinj : Function.Injective fun line : String => '\n' :: line.toList := by
      intro a b hab
      exact String.toList_inj.1 (List.cons.inj hab).2
    exact (List.map_injective_iff.2 hinj hmap).symm

end Manifest

/-- **The lines are determined by the file.**  If two harvesters in the balanced reading come to the
same file, after any modules, then they have the same lines, whatever line breaks there are in the
calls. -/
theorem lines_eq_of_render_eq {h h' : Harvester} (hnew : h.IsNew) (hnew' : h'.IsNew)
    (hmode : h.mode = .balanced) (hmode' : h'.mode = .balanced) (ms ms' : List ScriptModule)
    (hrender : (transformAll h ms).manifest.render = (transformAll h' ms').manifest.render) :
    (transformAll h ms).manifest.lines = (transformAll h' ms').manifest.lines :=
  Manifest.lines_eq_of_callLines (fun _ => isCallLine_of_mem_lines hnew hmode)
    (fun _ => isCallLine_of_mem_lines hnew' hmode') hrender

/-- A call that holds a line break, what a line begins with and another call is one line, whether
it was found once or in two modules. -/
theorem lines_of_call_in_call :
    Harvester.IsNew { mode := .balanced } ∧
      (transformAll ({ mode := .balanced } : Harvester)
        [⟨"f(Drupal.t('a\n// Drupal.t(`b`)'))", "a.js"⟩]).manifest.render =
        (transformAll ({ mode := .balanced } : Harvester)
          [⟨"Drupal.t('a\n// Drupal.t(`b`)')", "b.js"⟩,
            ⟨"Drupal.t('a\n// Drupal.t(`b`)')", "c.js"⟩]).manifest.render ∧
      (transformAll ({ mode := .balanced } : Harvester)
        [⟨"f(Drupal.t('a\n// Drupal.t(`b`)'))", "a.js"⟩]).manifest.lines =
        (transformAll ({ mode := .balanced } : Harvester)
          [⟨"Drupal.t('a\n// Drupal.t(`b`)')", "b.js"⟩,
            ⟨"Drupal.t('a\n// Drupal.t(`b`)')", "c.js"⟩]).manifest.lines := by
  have hoptions : Harvester.ofOptions { mode := .balanced } = .ok { mode := .balanced } := rfl
  have hnew : Harvester.IsNew { mode := .balanced } := .ofOptions hoptions
  have hrender : (transformAll ({ mode := .balanced } : Harvester)
      [⟨"f(Drupal.t('a\n// Drupal.t(`b`)'))", "a.js"⟩]).manifest.render =
      (transformAll ({ mode := .balanced } : Harvester)
        [⟨"Drupal.t('a\n// Drupal.t(`b`)')", "b.js"⟩,
          ⟨"Drupal.t('a\n// Drupal.t(`b`)')", "c.js"⟩]).manifest.render := by
    decide +kernel
  exact ⟨hnew, hrender, lines_eq_of_render_eq hnew hnew rfl rfl _ _ hrender⟩

end CallHarvest
