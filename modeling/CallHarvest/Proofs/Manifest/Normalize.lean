import CallHarvest.Manifest
import CallHarvest.Proofs.Call.Unwrapped
import CallHarvest.Proofs.Plugin.Harvest

/-!
# Calls in the manifest

The manifest has one line for each call text, in which the first wrapped namespace is unwrapped,
wherever it is.  This file tells what becomes of a call by that.

* `FirstWrapped` — the place of the first wrapped namespace (`toList_normalize_of_firstWrapped`).
* `EndsWrapped` — the first wrapped namespace is the end of the text, so that its parenthesis is
  also the one that closes the call (`endsWrapped_iff`).
* `exists_whole_normalize`, `EndsWrapped.of_call` — what is written of a call.
* `find_normalize_eq_singleton_iff` — **which lines are calls again**: all but those.
* `lines_of_spellings` — the two spellings of one call and their lines.
-/

namespace CallHarvest

open CallHarvest.Call
open CallHarvest.Text (ByteLt Replaced append_eq_append_cases mem_of_concat_eq_append
  replaceFirst?_eq_none_iff replaceFirst?_eq_some_iff suffix_of_suffix_append)

/-! ### The first wrapped namespace -/

/-- The first wrapped namespace of a text stands between `u` and `v`. -/
def FirstWrapped (cs u v : List Char) : Prop :=
  cs = u ++ (wrappedName.toList ++ v) ∧
    ∀ x y, cs = x ++ (wrappedName.toList ++ y) → u.length ≤ x.length

theorem toList_normalize_of_firstWrapped {text : String} {u v : List Char}
    (h : FirstWrapped text.toList u v) :
    (normalize text).toList = u ++ (bareName.toList ++ v) := by
  have hreplace : Text.replaceFirst? wrappedName.toList bareName.toList text.toList =
      some (u ++ (bareName.toList ++ v)) :=
    replaceFirst?_eq_some_iff.2 ⟨u, v, h.1, rfl, h.2⟩
  rw [normalize, hreplace, String.toList_ofList]

theorem normalize_eq_self {text : String} (h : ¬ wrappedName.toList <:+: text.toList) :
    normalize text = text := by
  rw [normalize, replaceFirst?_eq_none_iff.2 h]

theorem exists_firstWrapped {cs : List Char} (h : wrappedName.toList <:+: cs) :
    ∃ u v, FirstWrapped cs u v := by
  cases hreplace : Text.replaceFirst? wrappedName.toList bareName.toList cs with
  | none => exact absurd h (replaceFirst?_eq_none_iff.1 hreplace)
  | some ds =>
    obtain ⟨u, v, hcs, -, hfirst⟩ := replaceFirst?_eq_some_iff.1 hreplace
    exact ⟨u, v, hcs, hfirst⟩

/-- Whether the first wrapped namespace of a text is the end of it. -/
def EndsWrapped (text : String) : Prop :=
  wrappedName.toList <:+ text.toList ∧ ¬ wrappedName.toList <:+: text.toList.dropLast

instance (text : String) : Decidable (EndsWrapped text) :=
  inferInstanceAs (Decidable (_ ∧ ¬ _))

theorem endsWrapped_iff {text : String} {u v : List Char} (h : FirstWrapped text.toList u v) :
    EndsWrapped text ↔ v = [] := by
  obtain ⟨htext, hfirst⟩ := h
  constructor
  · intro hends
    rcases List.eq_nil_or_concat' v with hv | ⟨v, c, rfl⟩
    · exact hv
    · have hinner : wrappedName.toList <:+: text.toList.dropLast := by
        rw [htext, ← List.append_assoc, ← List.append_assoc, List.dropLast_concat]
        exact ⟨u, v, rfl⟩
      exact absurd hinner hends.2
  · intro hv
    rw [hv, List.append_nil] at htext
    refine ⟨⟨u, htext.symm⟩, ?_⟩
    intro hinner
    obtain ⟨x, y, hxy⟩ := hinner
    have hlast : text.toList = u ++ '(' :: bareName.toList ++ [')'] := by
      rw [htext, List.append_assoc]
      rfl
    rw [hlast, List.dropLast_concat] at hxy
    rw [← hxy, List.append_assoc, List.append_assoc] at hlast
    have hle := hfirst x (y ++ [')']) hlast
    have hlen := congrArg List.length (hlast.symm.trans htext)
    simp only [List.length_append, List.length_singleton] at hlen
    omega

/-! ### The namespace in a call -/

variable {mode : Mode} {shape : Shape} {hd args : List Char}

/-- After a bare head the first wrapped namespace is in the arguments: they do not begin with a
letter. -/
theorem exists_of_bare_append {u v : List Char} (hargs : Whole mode shape args)
    (h : head bareName shape ++ args = u ++ (wrappedName.toList ++ v)) :
    ∃ w, u = head bareName shape ++ w ∧ args = w ++ (wrappedName.toList ++ v) := by
  rcases append_eq_append_cases h with ⟨e, hhead, hcut⟩ | ⟨w, -, hu, hargs'⟩
  · cases e with
    | nil => exact ⟨[], by simpa using hhead.symm, by simpa using hcut.symm⟩
    | cons c e =>
      -- the parenthesis of the namespace would be that of the head
      rw [wrappedName_append, List.cons_append] at hcut
      obtain ⟨rfl, hrest⟩ := List.cons.inj hcut
      have hends : '(' :: e <:+ stem bareName shape ++ ['('] :=
        head_eq_stem_append bareName shape ▸ ⟨u, hhead.symm⟩
      have hlast := suffix_of_suffix_append (paren_not_mem_stem_bare shape) hends
      obtain rfl : e = [] := by simpa using hlast.length_le
      obtain ⟨c, cs, hc, rfl⟩ := hargs.exists_first
      obtain ⟨rfl, -⟩ := List.cons.inj hrest
      exact absurd hc (by decide)
  · exact ⟨w, hu, hargs'⟩

theorem firstWrapped_wrapped_append (args : List Char) :
    FirstWrapped (head wrappedName shape ++ args) []
      ('.' :: shape.method.toList ++ ['('] ++ args) :=
  ⟨by simp [head], fun x _ _ => Nat.zero_le x.length⟩

/-- A call in its wrapped spelling is written in its bare one. -/
theorem toList_normalize_wrapped {text : String}
    (htext : text.toList = head wrappedName shape ++ args) :
    (normalize text).toList = head bareName shape ++ args := by
  rw [toList_normalize_of_firstWrapped (htext ▸ firstWrapped_wrapped_append args)]
  simp [head]

/-- **What is written of a call** is a call with a bare head, unless its end is a namespace. -/
theorem exists_whole_normalize {text : String} (hhd : IsHead shape hd)
    (hargs : Whole mode shape args) (htext : text.toList = hd ++ args)
    (hnot : ¬ EndsWrapped text) :
    ∃ args', Whole mode shape args' ∧ (normalize text).toList = head bareName shape ++ args' := by
  rcases hhd with rfl | rfl
  · by_cases hinfix : wrappedName.toList <:+: text.toList
    · obtain ⟨u, v, hfirst⟩ := exists_firstWrapped hinfix
      have hv : v ≠ [] := fun hv => hnot ((endsWrapped_iff hfirst).2 hv)
      obtain ⟨v, c, rfl⟩ := (List.eq_nil_or_concat' v).resolve_left hv
      obtain ⟨w, rfl, hcut⟩ := exists_of_bare_append hargs (htext.symm.trans hfirst.1)
      obtain ⟨x, rfl⟩ := hargs.exists_paren
      rw [← List.append_assoc, ← List.append_assoc] at hcut
      obtain ⟨hx, hc⟩ := List.append_inj' hcut rfl
      rw [List.append_assoc] at hx
      rw [hx] at hargs
      refine ⟨_, hargs.unwrapped (Replaced.mk w v), ?_⟩
      rw [toList_normalize_of_firstWrapped hfirst, hc]
      simp
    · exact ⟨args, hargs, by rw [normalize_eq_self hinfix, htext]⟩
  · exact ⟨args, hargs, toList_normalize_wrapped htext⟩

namespace EndsWrapped

/-- A text that ends with its first wrapped namespace loses its last parenthesis. -/
theorem bareName_suffix {text : String} (h : EndsWrapped text) :
    bareName.toList <:+ (normalize text).toList := by
  obtain ⟨u, v, hfirst⟩ := exists_firstWrapped h.1.isInfix
  rw [toList_normalize_of_firstWrapped hfirst, (endsWrapped_iff hfirst).1 h, List.append_nil]
  exact List.suffix_append u _

/-- Only a call in the lazy reading ends with its first wrapped namespace, and its head is bare. -/
theorem of_call {text : String} (h : EndsWrapped text) (hhd : IsHead shape hd)
    (hargs : Whole mode shape args) (htext : text.toList = hd ++ args) :
    mode = .lazy ∧ hd = head bareName shape := by
  constructor
  · cases mode with
    | lazy => rfl
    | balanced =>
      have hsuffix := h.1
      rw [htext] at hsuffix
      exact absurd hsuffix ((whole_balanced_iff.1 hargs).1.not_wrapped_suffix hd)
  · rcases hhd with rfl | rfl
    · rfl
    · have hnil := (endsWrapped_iff (htext ▸ firstWrapped_wrapped_append args)).1 h
      exact absurd hnil (by simp)

end EndsWrapped

/-! ### Which lines are calls -/

/-- **What the manifest writes of a match is one complete call again**, of the same shape and in the
same reading, unless the first wrapped namespace of the match is its end.  That happens only in the
lazy reading and with a bare head: such a match ends with the parenthesis of a namespace among its
further arguments, and loses it. -/
theorem find_normalize_eq_singleton_iff {source : String} {m : Match}
    (h : m ∈ find mode shape source) :
    (find mode shape (normalize m.text) = [wholeMatch shape (normalize m.text)] ↔
      ¬ EndsWrapped m.text) ∧
    (EndsWrapped m.text → mode = .lazy ∧ head bareName shape <+: m.text.toList) := by
  obtain ⟨hd, args, hhd, hargs, htext⟩ := exists_text_of_mem_find h
  refine ⟨⟨?_, ?_⟩, ?_⟩
  · intro hfind hends
    obtain ⟨hd', args', -, hargs', htext'⟩ := find_eq_singleton_iff.1 hfind
    obtain ⟨x, rfl⟩ := hargs'.exists_paren
    obtain ⟨u, hu⟩ := hends.bareName_suffix
    rw [htext', ← List.append_assoc] at hu
    -- the text would end with a parenthesis and with a letter
    have hparen : ')' ∈ bareName.toList :=
      mem_of_concat_eq_append hu.symm (List.cons_ne_nil _ _)
    exact absurd hparen (by decide)
  · intro hnot
    obtain ⟨args', hargs', htext'⟩ := exists_whole_normalize hhd hargs htext hnot
    exact find_of_whole (Or.inl rfl) hargs' htext'
  · intro hends
    obtain ⟨hmode, rfl⟩ := hends.of_call hhd hargs htext
    exact ⟨hmode, htext ▸ List.prefix_append _ args⟩

/-- A namespace in a literal is unwrapped there, and the line is a call again. -/
theorem find_normalize_inside_literal :
    wholeMatch .translate "Drupal.t('the (Drupal) site')" ∈
        find .balanced .translate "Drupal.t('the (Drupal) site')" ∧
      find .balanced .translate (normalize "Drupal.t('the (Drupal) site')") =
        [wholeMatch .translate (normalize "Drupal.t('the (Drupal) site')")] := by
  have hmem : wholeMatch .translate "Drupal.t('the (Drupal) site')" ∈
      find .balanced .translate "Drupal.t('the (Drupal) site')" := by decide +kernel
  have hnot : ¬ EndsWrapped "Drupal.t('the (Drupal) site')" := by decide +kernel
  exact ⟨hmem, (find_normalize_eq_singleton_iff hmem).1.2 hnot⟩

/-- In the lazy reading a call may end with the parenthesis of a namespace in its arguments, and
what is written of it is no call. -/
theorem not_forall_find_normalize :
    ¬ ∀ (mode : Mode) (shape : Shape) (source : String), ∀ m ∈ find mode shape source,
      find mode shape (normalize m.text) = [wholeMatch shape (normalize m.text)] := by
  intro h
  have hmem : wholeMatch .translate "Drupal.t('a', (Drupal)" ∈
      find .lazy .translate "Drupal.t('a', (Drupal).x)" := by decide +kernel
  have hcall := h .lazy .translate "Drupal.t('a', (Drupal).x)" _ hmem
  revert hcall
  decide +kernel

/-! ### The two spellings of a call -/

theorem normalize_eq_self_iff {text : String} :
    normalize text = text ↔ ¬ wrappedName.toList <:+: text.toList := by
  constructor
  · intro h hinfix
    obtain ⟨u, v, hfirst⟩ := exists_firstWrapped hinfix
    have hlen := congrArg List.length (toList_normalize_of_firstWrapped hfirst)
    have hname : bareName.toList.length < wrappedName.toList.length := by decide
    rw [h, hfirst.1] at hlen
    simp only [List.length_append] at hlen
    omega
  · exact normalize_eq_self

theorem infix_bare_append_iff (hargs : Whole mode shape args) :
    wrappedName.toList <:+: head bareName shape ++ args ↔ wrappedName.toList <:+: args := by
  constructor
  · intro h
    obtain ⟨u, v, huv⟩ := h
    rw [List.append_assoc] at huv
    obtain ⟨w, -, hw⟩ := exists_of_bare_append hargs huv.symm
    exact ⟨w, v, by rw [hw, List.append_assoc]⟩
  · intro h
    obtain ⟨w, v, rfl⟩ := h
    exact ⟨head bareName shape ++ w, v, by simp⟩

/-- The first wrapped namespace of the arguments is that of the bare spelling. -/
theorem FirstWrapped.bare_append {u v : List Char} (h : FirstWrapped args u v)
    (hargs : Whole mode shape args) :
    FirstWrapped (head bareName shape ++ args) (head bareName shape ++ u) v := by
  refine ⟨by rw [h.1, List.append_assoc], ?_⟩
  intro x y hxy
  obtain ⟨w, rfl, hw⟩ := exists_of_bare_append hargs hxy
  have hle := h.2 w y hw
  simp only [List.length_append]
  omega

/-- The wrapped spelling of a call comes before the bare one. -/
theorem byteLt_of_spellings {bare wrapped : String}
    (hbare : bare.toList = head bareName shape ++ args)
    (hwrapped : wrapped.toList = head wrappedName shape ++ args) : ByteLt wrapped bare := by
  rw [ByteLt, hbare, hwrapped]
  exact List.Lex.rel (by decide)

/-- **The two spellings of one call.**  If one with a bare head is the text of a match, then so is
the one with a wrapped head, and these are two entries of a registry.  The wrapped one is written
as the bare one is spelled, before the line of the bare one.  The two lines are the same just if
the arguments hold no wrapped namespace: on the line of the bare spelling the first one of those is
unwrapped. -/
theorem lines_of_spellings {source wrapped : String} {m : Match} (h : m ∈ find mode shape source)
    (hbare : m.text.toList = head bareName shape ++ args)
    (hwrapped : wrapped.toList = head wrappedName shape ++ args) :
    find mode shape wrapped = [wholeMatch shape wrapped] ∧ wrapped ≠ m.text ∧
      normalize wrapped = m.text ∧
      (normalize wrapped = normalize m.text ↔ ¬ wrappedName.toList <:+: args) ∧
      (∀ u v, FirstWrapped args u v →
        (normalize m.text).toList = head bareName shape ++ u ++ (bareName.toList ++ v)) ∧
      ∀ r : Registry, wrapped ∈ r → m.text ∈ r →
        ["// " ++ normalize wrapped, "// " ++ normalize m.text].Sublist
          (Manifest.ofRegistry r).lines := by
  obtain ⟨hd, args', hhd, hargs, htext⟩ := exists_text_of_mem_find h
  obtain ⟨rfl, rfl⟩ := hhd.append_inj (Or.inl rfl) (htext.symm.trans hbare)
  have hnormalize : normalize wrapped = m.text :=
    String.toList_inj.1 ((toList_normalize_wrapped hwrapped).trans hbare.symm)
  have hlt := byteLt_of_spellings hbare hwrapped
  refine ⟨find_of_whole (Or.inr rfl) hargs hwrapped, ?_, hnormalize, ?_, ?_, ?_⟩
  · intro he
    rw [he] at hlt
    exact List.lt_irrefl _ hlt
  · rw [hnormalize, eq_comm, normalize_eq_self_iff, hbare, infix_bare_append_iff hargs]
  · intro u v hfirst
    exact toList_normalize_of_firstWrapped (hbare ▸ hfirst.bare_append hargs)
  · intro r hw hb
    have hpair := r.ascending_sorted.pair_sublist (Registry.mem_sorted.2 hw)
      (Registry.mem_sorted.2 hb) hlt
    exact hpair.map fun text => "// " ++ normalize text

/-- Both spellings of a call whose literal holds a comma, in a registry to which the bare one came
first. -/
theorem lines_of_both_inserted :
    wholeMatch .translate "Drupal.t('a, b')" ∈ find .lazy .translate "Drupal.t('a, b');" ∧
      "Drupal.t('a, b')".toList = head bareName .translate ++ "'a, b')".toList ∧
      "(Drupal).t('a, b')".toList = head wrappedName .translate ++ "'a, b')".toList ∧
      normalize "(Drupal).t('a, b')" = normalize "Drupal.t('a, b')" ∧
      ["// " ++ normalize "(Drupal).t('a, b')", "// " ++ normalize "Drupal.t('a, b')"].Sublist
        (Manifest.ofRegistry
          ((Registry.empty.insert "Drupal.t('a, b')").insert "(Drupal).t('a, b')")).lines := by
  have hmem : wholeMatch .translate "Drupal.t('a, b')" ∈
      find .lazy .translate "Drupal.t('a, b');" := by decide +kernel
  have hbare : "Drupal.t('a, b')".toList = head bareName .translate ++ "'a, b')".toList := by decide
  have hwrapped : "(Drupal).t('a, b')".toList =
      head wrappedName .translate ++ "'a, b')".toList := by decide
  have hno : ¬ wrappedName.toList <:+: "'a, b')".toList := by decide +kernel
  obtain ⟨-, -, -, hsame, -, hlines⟩ := lines_of_spellings hmem hbare hwrapped
  have hboth := hlines ((Registry.empty.insert "Drupal.t('a, b')").insert "(Drupal).t('a, b')")
  simp only [wholeMatch, Registry.mem_insert, true_or, or_true, forall_const] at hsame hboth
  exact ⟨hmem, hbare, hwrapped, hsame.2 hno, hboth⟩

/-- A namespace in a literal stays wrapped on the line of the wrapped spelling only. -/
theorem not_forall_normalize_spellings :
    ¬ ∀ (mode : Mode) (shape : Shape) (source wrapped : String), ∀ m ∈ find mode shape source,
      ∀ args : List Char, m.text.toList = head bareName shape ++ args →
        wrapped.toList = head wrappedName shape ++ args → normalize wrapped = normalize m.text := by
  intro h
  have hmem : wholeMatch .translate "Drupal.t('(Drupal) is great')" ∈
      find .lazy .translate "Drupal.t('(Drupal) is great')" := by decide +kernel
  have hlines := h .lazy .translate _ "(Drupal).t('(Drupal) is great')" _ hmem
    "'(Drupal) is great')".toList (by decide) (by decide)
  revert hlines
  decide +kernel

end CallHarvest
