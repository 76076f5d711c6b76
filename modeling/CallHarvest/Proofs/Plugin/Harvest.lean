import CallHarvest.Plugin.Harvester
import CallHarvest.Proofs.Build.Offered
import CallHarvest.Proofs.Text.ByteOrder

/-!
# What a harvester keeps

A harvester keeps the texts of the calls in the modules that pass its filter.  Of the order of the
modules, of repetitions and of the order in which the registry gives its texts nothing is left in
the manifest, although different texts may come to the same line.

* `Registry.ascending_sorted`, `Registry.mergeSort_eq_sorted` — there is one way to sort a registry.
* `Harvester.mem_registry_transformAll` — the registry after modules, from what one module adds.
* `Harvester.IsNew` — the harvesters that a build may begin with.
* `IsHarvest` — the texts that belong in the manifest, in their order.
* `Harvester.manifest_transformAll` — the manifest is made of them.
-/

namespace CallHarvest

open CallHarvest.Text (Ascending ascending_mergeSort byteLe)

/-! ### Sorting a registry -/

namespace Registry

theorem ascending_sorted (r : Registry) : Ascending r.sorted :=
  ascending_mergeSort r.nodup

/-- In whatever order the texts are taken from a registry, they are sorted into the same list. -/
theorem mergeSort_eq_sorted {r : Registry} {texts : List String} (h : texts.Perm r.texts) :
    texts.mergeSort byteLe = r.sorted := by
  have hnodup : texts.Nodup := h.nodup_iff.2 r.nodup
  have hmem : ∀ t, t ∈ texts.mergeSort byteLe ↔ t ∈ r.sorted := by
    intro t
    rw [List.mem_mergeSort, mem_sorted, mem_def, h.mem_iff]
  exact (ascending_mergeSort hnodup).eq_of_mem_iff r.ascending_sorted hmem

end Registry

/-! ### The registry after modules -/

namespace Harvester

/-- A harvester as a build may begin with it: one for options, or the default one. -/
inductive IsNew : Harvester → Prop
  | ofOptions {o : Options} {h : Harvester} : Harvester.ofOptions o = .ok h → IsNew h
  | default : IsNew {}

theorem IsNew.registry_eq {h : Harvester} (hnew : h.IsNew) : h.registry = .empty := by
  cases hnew with
  | @ofOptions o _ ho =>
    unfold Harvester.ofOptions at ho
    split at ho
    · split at ho
      · obtain rfl := Except.ok.inj ho
        rfl
      · simp at ho
    · simp at ho
  | default => rfl

theorem transform_eq (h : Harvester) (m : ScriptModule) :
    (Plugin.transform h m.code m.id).2 = h.scan m.code m.id := rfl

@[simp] theorem scan_filter (h : Harvester) (code id : String) :
    (h.scan code id).filter = h.filter := by
  unfold scan
  split <;> rfl

@[simp] theorem scan_mode (h : Harvester) (code id : String) : (h.scan code id).mode = h.mode := by
  unfold scan
  split <;> rfl

/-- What one module adds. -/
theorem mem_registry_scan (h : Harvester) (code id t : String) :
    t ∈ (h.scan code id).registry ↔
      t ∈ h.registry ∨ h.filter.shouldScan id ∧ t ∈ h.callTexts code := by
  unfold scan
  split
  · rename_i hscan
    rw [Registry.mem_insertAll, hscan]
    simp
  · rename_i hscan
    simp [hscan]

/-- **The registry after modules** holds the texts from before and the calls of the modules that
pass the filter. -/
theorem mem_registry_transformAll (h : Harvester) (ms : List ScriptModule) (t : String) :
    t ∈ (transformAll h ms).registry ↔
      t ∈ h.registry ∨ ∃ m ∈ ms, h.filter.shouldScan m.id ∧ t ∈ h.callTexts m.code := by
  induction ms generalizing h with
  | nil => simp
  | cons m ms ih =>
    have htexts : (h.scan m.code m.id).callTexts = h.callTexts := by
      funext code
      rw [callTexts, callTexts, scan_mode]
    rw [transformAll_cons, transform_eq, ih, mem_registry_scan, scan_filter, htexts, or_assoc]
    simp only [List.mem_cons, exists_eq_or_imp]

end Harvester

/-! ### The manifest -/

/-- The texts of the calls in those of the modules that a harvester scans, each once, in the order
of their bytes. -/
def IsHarvest (h : Harvester) (ms : List ScriptModule) (texts : List String) : Prop :=
  Ascending texts ∧ ∀ t, t ∈ texts ↔
    ∃ m ∈ ms, h.filter.shouldScan m.id ∧ t ∈ (Call.findAll h.mode m.code).map Call.Match.text

namespace IsHarvest

variable {h : Harvester} {ms ms' : List ScriptModule} {texts texts' : List String}

theorem sorted (hnew : h.IsNew) (ms : List ScriptModule) :
    IsHarvest h ms (transformAll h ms).registry.sorted := by
  refine ⟨(transformAll h ms).registry.ascending_sorted, ?_⟩
  intro t
  rw [Registry.mem_sorted, Harvester.mem_registry_transformAll, hnew.registry_eq]
  exact or_iff_right (Registry.not_mem_empty t)

theorem unique (ht : IsHarvest h ms texts) (ht' : IsHarvest h ms texts') : texts = texts' :=
  ht.1.eq_of_mem_iff ht'.1 fun t => (ht.2 t).trans (ht'.2 t).symm

/-- Only which modules there are matters. -/
theorem of_mem_iff (ht : IsHarvest h ms texts) (hms : ∀ m, m ∈ ms' ↔ m ∈ ms) :
    IsHarvest h ms' texts := by
  refine ⟨ht.1, ?_⟩
  intro t
  rw [ht.2 t]
  simp only [hms]

theorem lines_eq (hnew : h.IsNew) (ht : IsHarvest h ms texts) :
    (transformAll h ms).manifest.lines = texts.map fun t => "// " ++ normalize t := by
  rw [ht.unique (IsHarvest.sorted hnew ms)]
  rfl

end IsHarvest

/-- **The manifest is determined by the set of modules.**  Its lines are those for the texts of the
calls in the scanned modules, each once, in the order of their bytes.  There is one such list; any
order in which the registry gives its texts is sorted into it, and modules in any other order and
number have the same file.  That file is what is emitted, into any sink, and after a build the
harvester is as the modules left it. -/
theorem manifest_transformAll {h : Harvester} (hnew : h.IsNew) (ms : List ScriptModule) :
    (∃! texts, IsHarvest h ms texts) ∧
      (∀ texts, IsHarvest h ms texts →
        (transformAll h ms).manifest.lines = texts.map fun t => "// " ++ normalize t) ∧
      (∀ order : List String, order.Perm (transformAll h ms).registry.texts →
        IsHarvest h ms (order.mergeSort byteLe)) ∧
      (∀ ms' : List ScriptModule, (∀ m, m ∈ ms' ↔ m ∈ ms) →
        (transformAll h ms').manifest.render = (transformAll h ms).manifest.render) ∧
      (∀ (κ : Type) [Sink κ], (Plugin.finish (transformAll h ms) : Emission κ Unit) =
        Sink.emit ⟨"translations.js", (transformAll h ms).manifest.render⟩) ∧
      ∀ (κ : Type) [Sink κ] (sink : κ) (tree : FileTree) (root : String) (place : Place),
        tree.directory? root = some place →
          ((⟨h, sink, tree⟩ : Host Harvester κ).run root).2.plugin =
            transformAll h (tree.modules root place) := by
  have hsorted := IsHarvest.sorted hnew ms
  have horder : ∀ order : List String, order.Perm (transformAll h ms).registry.texts →
      IsHarvest h ms (order.mergeSort byteLe) := by
    intro order hperm
    rw [Registry.mergeSort_eq_sorted hperm]
    exact hsorted
  have hrender : ∀ ms' : List ScriptModule, (∀ m, m ∈ ms' ↔ m ∈ ms) →
      (transformAll h ms').manifest.render = (transformAll h ms).manifest.render := by
    intro ms' hms
    have hlines : (transformAll h ms').manifest.lines = (transformAll h ms).manifest.lines := by
      rw [hsorted.lines_eq hnew, (hsorted.of_mem_iff hms).lines_eq hnew]
    rw [Manifest.render, Manifest.render, hlines]
  refine ⟨⟨_, hsorted, ?_⟩, ?_, horder, hrender, ?_, ?_⟩
  · intro texts ht
    exact ht.unique hsorted
  · intro texts ht
    exact ht.lines_eq hnew
  · intro κ _
    rfl
  · intro κ _ sink tree root place hroot
    exact Host.run_plugin ⟨h, sink, tree⟩ hroot

/-- Two modules with three calls between them, two of which are the same: the wrapped one comes
first, although its line does not begin with a parenthesis. -/
theorem manifest_two_modules :
    Harvester.IsNew { mode := .balanced } ∧
      (transformAll ({ mode := .balanced } : Harvester)
        [⟨"Drupal.t('b') (Drupal).t('c')", "a.js"⟩, ⟨"Drupal.t('b')", "b.js"⟩]).manifest.lines =
          ["// Drupal.t('c')", "// Drupal.t('b')"] := by
  have hoptions : Harvester.ofOptions { mode := .balanced } = .ok { mode := .balanced } := rfl
  have hnew : Harvester.IsNew { mode := .balanced } := .ofOptions hoptions
  have hfirst : (Call.findAll .balanced "Drupal.t('b') (Drupal).t('c')").map Call.Match.text =
      ["Drupal.t('b')", "(Drupal).t('c')"] := by decide +kernel
  have hsecond : (Call.findAll .balanced "Drupal.t('b')").map Call.Match.text =
      ["Drupal.t('b')"] := by decide +kernel
  have hscan : ({} : PathFilter).shouldScan "a.js" ∧ ({} : PathFilter).shouldScan "b.js" := by
    decide +kernel
  have hharvest : IsHarvest { mode := .balanced } [⟨"Drupal.t('b') (Drupal).t('c')", "a.js"⟩,
      ⟨"Drupal.t('b')", "b.js"⟩] ["(Drupal).t('c')", "Drupal.t('b')"] := by
    refine ⟨by decide +kernel, ?_⟩
    intro t
    simp only [List.mem_cons, List.not_mem_nil, or_false, exists_eq_or_imp, exists_eq_left, hfirst,
      hsecond, hscan.1, hscan.2, true_and]
    grind
  refine ⟨hnew, ?_⟩
  rw [(manifest_transformAll hnew _).2.1 _ hharvest]
  decide +kernel

end CallHarvest
