import CallHarvest.Manifest
import CallHarvest.Proofs.Plugin.Harvest
import CallHarvest.Proofs.Text.CodePoints

/-!
# The order of the manifest

The lines of a manifest are sorted by the bytes of the call texts, and that is the order of their
characters.  As an opening parenthesis comes before the first letter of the namespace, the calls
with a wrapped namespace come first.

* `byteLt_of_names` — a text with the wrapped namespace in front comes before one with the bare one.
* `manifest_by_codePoints` — the order of the lines.
-/

namespace CallHarvest

open CallHarvest.Text (Ascending ByteLt byteLt_iff_codePoints bytes codePoints compare_bytes)

theorem byteLt_of_names {wrapped bare : String}
    (hwrapped : Call.wrappedName.toList <+: wrapped.toList)
    (hbare : Call.bareName.toList <+: bare.toList) : ByteLt wrapped bare := by
  obtain ⟨u, hu⟩ := hwrapped
  obtain ⟨v, hv⟩ := hbare
  rw [ByteLt, ← hu, ← hv]
  exact List.Lex.rel (by decide)

/-- **Bytes and characters give one order.**  Any two texts compare by their bytes as they compare
by the numbers of their characters.  So the lines of a manifest are those for the texts of the
registry, strictly ascending by their characters, which is one list however it is sorted; and a text
with the wrapped namespace in front stands before each with the bare one. -/
theorem manifest_by_codePoints :
    (∀ a b : String,
      compare (bytes a.toList) (bytes b.toList) = compare (codePoints a) (codePoints b)) ∧
      ∀ r : Registry,
        (Manifest.ofRegistry r).lines = r.sorted.map (fun text => "// " ++ normalize text) ∧
        (∀ text, text ∈ r.sorted ↔ text ∈ r) ∧
        r.sorted.Pairwise (fun a b => compare (codePoints a) (codePoints b) = .lt) ∧
        (∀ texts : List String, (∀ text, text ∈ texts ↔ text ∈ r) →
          texts.Pairwise (fun a b => compare (codePoints a) (codePoints b) = .lt) →
            texts = r.sorted) ∧
        ∀ wrapped ∈ r, ∀ bare ∈ r, Call.wrappedName.toList <+: wrapped.toList →
          Call.bareName.toList <+: bare.toList → [wrapped, bare].Sublist r.sorted := by
  refine ⟨fun a b => compare_bytes a.toList b.toList, ?_⟩
  intro r
  have hsorted := r.ascending_sorted
  refine ⟨rfl, fun text => Registry.mem_sorted, Ascending.iff_codePoints.1 hsorted, ?_, ?_⟩
  · intro texts hmem htexts
    refine (Ascending.iff_codePoints.2 htexts).eq_of_mem_iff hsorted ?_
    intro text
    rw [hmem text, Registry.mem_sorted]
  · intro wrapped hw bare hb hwrapped hbare
    exact hsorted.pair_sublist (Registry.mem_sorted.2 hw) (Registry.mem_sorted.2 hb)
      (byteLt_of_names hwrapped hbare)

/-- A character of three bytes comes before one of four, and both after the wrapped namespace. -/
theorem manifest_by_codePoints_wide :
    let r := ((Registry.empty.insert "Drupal.t('😀')").insert "Drupal.t('～')").insert
      "(Drupal).t('b')"
    ["(Drupal).t('b')", "Drupal.t('～')", "Drupal.t('😀')"] = r.sorted ∧
      "(Drupal).t('b')" ∈ r ∧ "Drupal.t('😀')" ∈ r ∧
      ["(Drupal).t('b')", "Drupal.t('😀')"].Sublist r.sorted := by
  intro r
  obtain ⟨-, -, -, hunique, hnames⟩ := manifest_by_codePoints.2 r
  have hmem : ∀ text, text ∈ ["(Drupal).t('b')", "Drupal.t('～')", "Drupal.t('😀')"] ↔
      text ∈ r := by
    intro text
    simp only [r, List.mem_cons, List.not_mem_nil, or_false, Registry.mem_insert,
      Registry.not_mem_empty, false_or]
    tauto
  have hpairs : ["(Drupal).t('b')", "Drupal.t('～')", "Drupal.t('😀')"].Pairwise
      fun a b => compare (codePoints a) (codePoints b) = .lt := by decide +kernel
  have hw : "(Drupal).t('b')" ∈ r := (hmem _).1 (by decide)
  have hb : "Drupal.t('😀')" ∈ r := (hmem _).1 (by decide)
  exact ⟨hunique _ hmem hpairs, hw, hb, hnames _ hw _ hb (by decide) (by decide)⟩

end CallHarvest
