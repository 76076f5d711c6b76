import CallHarvest.Proofs.Glob.Directories
import Mathlib.Data.List.Forall2
import Mathlib.Data.List.TakeWhile

/-!
# Patterns held against paths component by component

A pattern of characters, question marks and stars has no token that takes a separator, unless one of
its components is two stars.  So it takes a path if its components take those of the path.

* `IsSimple` — the patterns of characters, question marks and stars.
* `readTokens_simple` — how they are read.
* `takesAll_iff_forall₂` — their words, component by component.
* `HasOpenExtension` — which of them need the name of a file.
* `matches_segments` — which paths they match.
-/

namespace CallHarvest

open CallHarvest.Path (splitOn_append_separator splitOn_eq_singleton)
open CallHarvest.Text (bytes)

/-! ### How they are read -/

/-- Whether a character stands for others. -/
def isWildcard (c : Char) : Bool := c == '?' || c == '*'

/-- Whether all characters of a text stand for themselves or are wildcards. -/
def IsSimple (cs : List Char) : Prop :=
  ∀ c ∈ cs, isSpecial c = true → isWildcard c = true

instance (cs : List Char) : Decidable (IsSimple cs) :=
  decidable_of_iff ((cs.all fun c => !isSpecial c || isWildcard c) = true)
    (by simp [IsSimple, imp_iff_not_or])

/-- The token of a character. -/
def charToken (c : Char) : Token :=
  if c = '?' then .any else if c = '*' then .star else .literal c

theorem IsSimple.tail {c : Char} {cs : List Char} (h : IsSimple (c :: cs)) : IsSimple cs :=
  fun d hd => h d (List.mem_cons_of_mem c hd)

/-- Two stars that are all of a component are one of the components. -/
theorem twoStars_mem_splitOn {cs : List Char} (h : cs = [] ∨ cs.head? = some '/') :
    twoStars ∈ ('*' :: '*' :: cs).splitOn '/' := by
  rcases h with rfl | h
  · decide
  · obtain ⟨more, rfl⟩ := List.head?_eq_some_iff.1 h
    have hsplit : ('*' :: '*' :: '/' :: more).splitOn '/' = [twoStars] ++ more.splitOn '/' :=
      splitOn_append_separator twoStars more
    rw [hsplit]
    exact List.mem_cons_self

theorem eq_separator_of_beginsComponent {previous : Option Char}
    (h : beginsComponent false previous = true) : previous = some '/' := by
  unfold beginsComponent at h
  split at h
  · rfl
  · simp at h
  · exact nomatch h

/-- What follows a separator has no components but those of the whole. -/
theorem not_mem_splitOn_of_append {u v w : List Char} (h : w ∉ (u ++ '/' :: v).splitOn '/') :
    w ∉ v.splitOn '/' := by
  rw [splitOn_append_separator] at h
  exact fun hmem => h (List.mem_append_right _ hmem)

/-- **A simple pattern without a component of two stars is read character by character.**  The text
`u` is what was read of the present component. -/
theorem readTokens_simple {groups : List OpenGroup} {before : List Token}
    {previous : Option Char} {u cs : List Char} (hgroups : groups = []) (hsimple : IsSimple cs)
    (hdirs : twoStars ∉ (u ++ cs).splitOn '/') (hu : before = [] ∨ previous = some '/' → u = []) :
    readTokens .strict groups before previous cs = .ok (before.reverse ++ cs.map charToken) := by
  generalize hb : Brackets.strict = brackets
  -- where the reader finds directories, a component is two stars and nothing else
  fun_induction readTokens brackets groups before previous cs generalizing u with
  | case1 => rw [List.map_nil, List.append_nil]
  | case2 _ _ _ _ hopen => exact absurd (List.isEmpty_iff.2 hgroups) hopen
  | case3 brackets groups before previous cs ih =>
    rw [ih (u := u ++ ['?']) hgroups hsimple.tail (by simpa using hdirs) (by simp) hb]
    simp [charToken]
  | case4 brackets groups before previous cs hbefore =>
    obtain rfl := hu (.inl (List.isEmpty_iff.1 hbefore))
    exact absurd (twoStars_mem_splitOn (.inr rfl)) hdirs
  | case5 brackets groups before previous cs hbefore hbegins =>
    subst hgroups
    obtain rfl := hu (.inr (eq_separator_of_beginsComponent hbegins))
    exact absurd (twoStars_mem_splitOn (.inr rfl)) hdirs
  | case6 brackets groups before previous cs hbefore hbegins ih =>
    have hrest : twoStars ∉ cs.splitOn '/' :=
      not_mem_splitOn_of_append (u := u ++ twoStars) (by simpa [twoStars] using hdirs)
    rw [ih (u := []) hgroups hsimple.tail.tail.tail hrest (fun _ => rfl) hb]
    simp [charToken]
  | case7 brackets groups before previous cs hslash hbefore hend =>
    obtain rfl := hu (.inl (List.isEmpty_iff.1 hbefore))
    exact absurd (twoStars_mem_splitOn (.inl (List.isEmpty_iff.1 hend))) hdirs
  | case8 brackets groups before previous cs hslash hbefore hend ih =>
    obtain rfl := List.isEmpty_iff.1 hbefore
    rw [ih (u := u ++ twoStars) hgroups hsimple.tail.tail (by simpa [twoStars] using hdirs)
      (by simp) hb]
    rfl
  | case9 brackets groups before previous cs hslash hbefore hbegins =>
    subst hgroups
    obtain ⟨hbegins, hend⟩ := Bool.and_eq_true_iff.1 hbegins
    obtain rfl := hu (.inr (eq_separator_of_beginsComponent hbegins))
    have hcs : cs = [] := by
      cases cs with
      | nil => rfl
      | cons c cs => cases hend
    exact absurd (twoStars_mem_splitOn (.inl hcs)) hdirs
  | case10 brackets groups before previous cs hslash hbefore hbegins ih =>
    rw [ih (u := u ++ twoStars) hgroups hsimple.tail.tail (by simpa [twoStars] using hdirs)
      (by simp) hb]
    simp [charToken]
  | case11 brackets groups before previous cs _ _ ih =>
    rw [ih (u := u ++ ['*']) hgroups hsimple.tail (by simpa using hdirs) (by simp) hb]
    simp [charToken]
  | case19 brackets before previous cs ih =>
    rw [ih (u := u ++ [',']) hgroups hsimple.tail (by simpa using hdirs) (by simp) hb]
    simp [charToken]
  | case20 => cases hgroups
  | case23 brackets groups before previous c cs hany _ _ hstar hclass hopen hclose hcomma hend
      hescape ih =>
    have htoken : charToken c = .literal c := by rw [charToken, if_neg hany, if_neg hstar]
    have hmap : before.reverse ++ (c :: cs).map charToken =
        (.literal c :: before).reverse ++ cs.map charToken := by simp [htoken]
    rw [hmap]
    by_cases hc : c = '/'
    · subst hc
      exact ih (u := []) hgroups hsimple.tail (not_mem_splitOn_of_append hdirs) (fun _ => rfl) hb
    · exact ih (u := u ++ [c]) hgroups hsimple.tail (by simpa using hdirs) (by simp [hc]) hb
  | _ => exact absurd (hsimple _ List.mem_cons_self rfl) (by decide)

/-! ### Words, component by component -/

/-- No word of a character but the separator has a separator. -/
theorem separator_not_mem_of_takes {c : Char} (hc : c ≠ '/') {w : List UInt8}
    (h : (charToken c).Takes w) : separator ∉ w := by
  have hinner : ∀ b ∈ w, isInner b = true → separator ≠ b := by
    rintro b - hb rfl
    exact absurd hb (by decide)
  unfold charToken at h
  split_ifs at h
  · obtain ⟨b, hb, rfl⟩ := h
    exact fun hmem => hinner b List.mem_cons_self hb (List.mem_singleton.1 hmem)
  · exact fun hmem => hinner _ hmem (h _ hmem) rfl
  · rw [Token.Takes] at h
    exact h ▸ separator_not_mem_utf8EncodeChar hc

theorem separator_not_mem_of_takesAll {cs : List Char} (hcs : '/' ∉ cs) {w : List UInt8}
    (h : TakesAll (cs.map charToken) w) : separator ∉ w := by
  induction cs generalizing w with
  | nil => exact h ▸ List.not_mem_nil
  | cons c cs ih =>
    rw [List.mem_cons, not_or] at hcs
    obtain ⟨u, v, hu, hv, rfl⟩ := h
    rw [List.mem_append, not_or]
    exact ⟨separator_not_mem_of_takes (Ne.symm hcs.1) hu, ih hcs.2 hv⟩

/-- **The first component of a pattern takes the first component of a path**, and the rest takes
the rest. -/
theorem takesAll_append_separator_iff {u v p : List Char} (hu : '/' ∉ u) :
    TakesAll ((u ++ '/' :: v).map charToken) (bytes p) ↔
      ∃ x y, p = x ++ '/' :: y ∧ '/' ∉ x ∧ TakesAll (u.map charToken) (bytes x) ∧
        TakesAll (v.map charToken) (bytes y) := by
  have hslash : charToken '/' = .literal '/' := rfl
  rw [List.map_append, List.map_cons, hslash, takesAll_append]
  constructor
  · intro h
    obtain ⟨a, w, ha, ⟨s, b, hs, hb, rfl⟩, hp⟩ := h
    rw [Token.Takes, utf8EncodeChar_separator] at hs
    subst hs
    obtain ⟨x, y, rfl, rfl, rfl⟩ := exists_of_bytes_eq hp
    refine ⟨x, y, rfl, ?_, ha, hb⟩
    exact fun hx => separator_not_mem_of_takesAll hu ha (separator_mem_bytes_iff.2 hx)
  · intro h
    obtain ⟨x, y, rfl, -, hx, hy⟩ := h
    refine ⟨bytes x, separator :: bytes y, hx, ⟨[separator], bytes y, ?_, hy, rfl⟩, ?_⟩
    · rw [Token.Takes, utf8EncodeChar_separator]
    · simp [bytes, utf8EncodeChar_separator]

/-- The first part of a text is the whole of it, or what stands before a separator. -/
theorem splitOn_eq_cons_iff {p x : List Char} {parts : List (List Char)} :
    p.splitOn '/' = x :: parts ↔
      '/' ∉ x ∧ ((p = x ∧ parts = []) ∨ ∃ y, p = x ++ '/' :: y ∧ parts = y.splitOn '/') := by
  constructor
  · intro h
    by_cases hp : '/' ∈ p
    · obtain ⟨u, v, rfl, hu⟩ := List.eq_append_cons_of_mem hp
      rw [splitOn_append_separator, splitOn_eq_singleton hu, List.singleton_append] at h
      obtain ⟨rfl, rfl⟩ := List.cons.inj h
      exact ⟨hu, .inr ⟨v, rfl, rfl⟩⟩
    · rw [splitOn_eq_singleton hp] at h
      obtain ⟨rfl, rfl⟩ := List.cons.inj h
      exact ⟨hp, .inl ⟨rfl, rfl⟩⟩
  · intro h
    obtain ⟨hx, ⟨rfl, rfl⟩ | ⟨y, rfl, rfl⟩⟩ := h
    · exact splitOn_eq_singleton hx
    · rw [splitOn_append_separator, splitOn_eq_singleton hx, List.singleton_append]

/-- **A path is a word of a simple pattern if its components are words of the pattern's
components.** -/
theorem takesAll_iff_forall₂ (cs p : List Char) :
    TakesAll (cs.map charToken) (bytes p) ↔
      List.Forall₂ (fun q x => TakesAll (q.map charToken) (bytes x))
        (cs.splitOn '/') (p.splitOn '/') := by
  -- the recursion is on the pattern, from one separator to the next
  by_cases hcs : '/' ∈ cs
  · obtain ⟨u, v, rfl, hu⟩ := List.eq_append_cons_of_mem hcs
    rw [takesAll_append_separator_iff hu, splitOn_append_separator, splitOn_eq_singleton hu,
      List.singleton_append, List.forall₂_cons_left_iff]
    constructor
    · intro h
      obtain ⟨x, y, rfl, hx, htakes, hrest⟩ := h
      refine ⟨x, y.splitOn '/', htakes, (takesAll_iff_forall₂ v y).1 hrest, ?_⟩
      exact splitOn_eq_cons_iff.2 ⟨hx, .inr ⟨y, rfl, rfl⟩⟩
    · intro h
      obtain ⟨x, parts, htakes, hrest, hp⟩ := h
      obtain ⟨hx, ⟨rfl, rfl⟩ | ⟨y, rfl, rfl⟩⟩ := splitOn_eq_cons_iff.1 hp
      · -- the pattern has a further component, and the path has none
        exact absurd (List.forall₂_nil_right_iff.1 hrest) (List.splitOnP_ne_nil _ v)
      · exact ⟨x, y, rfl, hx, htakes, (takesAll_iff_forall₂ v y).2 hrest⟩
  · rw [splitOn_eq_singleton hcs, List.forall₂_cons_left_iff]
    simp only [List.forall₂_nil_left_iff]
    constructor
    · intro h
      have hp : '/' ∉ p := fun hmem =>
        separator_not_mem_of_takesAll hcs h (separator_mem_bytes_iff.2 hmem)
      exact ⟨p, [], h, rfl, splitOn_eq_singleton hp⟩
    · intro h
      obtain ⟨x, parts, htakes, rfl, hp⟩ := h
      obtain ⟨-, ⟨rfl, -⟩ | ⟨y, -, hnil⟩⟩ := splitOn_eq_cons_iff.1 hp
      · exact htakes
      · exact absurd hnil.symm (List.splitOnP_ne_nil _ y)
termination_by cs.length
decreasing_by
  all_goals
    subst_vars
    simp only [List.length_append, List.length_cons]
    omega

/-! ### Extensions -/

/-- Whether a text holds a wildcard, and after it a dot that neither a wildcard nor a separator
follows. -/
def HasOpenExtension (cs : List Char) : Prop :=
  ∃ start extension, cs = start ++ '.' :: extension ∧
    (∀ c ∈ extension, isWildcard c = false ∧ c ≠ '/') ∧ ∃ c ∈ start, isWildcard c = true

theorem literal?_charToken (c : Char) :
    (charToken c).literal? = if isWildcard c then none else some c := by
  by_cases hany : c = '?'
  · rw [hany]; rfl
  by_cases hstar : c = '*'
  · rw [hstar]; rfl
  · simp [charToken, isWildcard, hany, hstar, Token.literal?]

theorem charToken_ne_leadingDirs (c : Char) : charToken c ≠ .leadingDirs := by
  unfold charToken
  split_ifs <;> exact fun h => nomatch h

/-- A member of the end of a list on which a test holds has only such members after it. -/
theorem mem_takeWhile_reverse_iff {p : Char → Bool} {a : Char} {cs : List Char} :
    a ∈ cs.reverse.takeWhile p ↔
      ∃ start rest, cs = start ++ a :: rest ∧ p a = true ∧ ∀ c ∈ rest, p c = true := by
  constructor
  · intro h
    obtain ⟨s, t, hst⟩ := List.append_of_mem h
    have hp : ∀ c ∈ s ++ a :: t, p c = true := fun c hc => List.mem_takeWhile_imp (hst ▸ hc)
    obtain ⟨before, hcs⟩ : ∃ before, cs.reverse = s ++ a :: t ++ before :=
      ⟨cs.reverse.dropWhile p, by rw [← hst, List.takeWhile_append_dropWhile]⟩
    refine ⟨before.reverse ++ t.reverse, s.reverse, ?_, hp a (by simp), ?_⟩
    · rw [← List.reverse_reverse cs, hcs]
      simp
    · exact fun c hc => hp c (List.mem_append_left _ (List.mem_reverse.1 hc))
  · intro h
    obtain ⟨start, rest, rfl, ha, hrest⟩ := h
    rw [List.reverse_append, List.reverse_cons, List.append_assoc, List.singleton_append,
      List.takeWhile_append_of_pos fun c hc => hrest c (List.mem_reverse.1 hc),
      List.takeWhile_cons_of_pos ha]
    simp

theorem endsInExtension_map_charToken_iff {cs : List Char} :
    endsInExtension (cs.map charToken) = true ↔
      ∃ start extension, cs = start ++ '.' :: extension ∧
        ∀ c ∈ extension, isWildcard c = false ∧ c ≠ '/' := by
  have htest : (fun c => c.isSome && c != some '/') ∘ Token.literal? ∘ charToken =
      fun c => !isWildcard c && c != '/' := by
    funext c
    simp only [Function.comp_apply, literal?_charToken]
    cases isWildcard c <;> simp [bne]
  have hdot : ∀ c, (Token.literal? ∘ charToken) c = some '.' ↔ c = '.' := by
    intro c
    rw [Function.comp_apply, literal?_charToken]
    split_ifs with hc
    · have hne : c ≠ '.' := by
        rintro rfl
        exact absurd hc (by decide)
      simp [hne]
    · simp
  rw [endsInExtension, List.contains_iff_mem, ← List.map_reverse, List.map_map, List.takeWhile_map,
    htest, List.mem_map]
  simp only [hdot, exists_eq_right, mem_takeWhile_reverse_iff]
  simp [isWildcard]

/-- A simple pattern is decided by the name of a file if it has a wildcard and ends in an
extension. -/
theorem needsName_map_charToken_iff {pattern : String} {cs : List Char} :
    (⟨pattern, cs.map charToken⟩ : Glob).needsName = true ↔ HasOpenExtension cs := by
  have hdirs : .leadingDirs ∉ cs.map charToken := by
    intro h
    obtain ⟨c, -, hc⟩ := List.mem_map.1 h
    exact charToken_ne_leadingDirs c hc
  have htext : (⟨pattern, cs.map charToken⟩ : Glob).isText = false ↔
      ∃ c ∈ cs, isWildcard c = true := by
    rw [isText_iff hdirs, List.all_eq_false]
    simp [literal?_charToken]
  rw [Glob.needsName, Bool.and_eq_true, Bool.not_eq_true', htext,
    endsInExtension_map_charToken_iff]
  constructor
  · intro h
    obtain ⟨⟨start, extension, rfl, hextension⟩, c, hc, hwild⟩ := h
    refine ⟨start, extension, rfl, hextension, c, ?_, hwild⟩
    rcases List.mem_append.1 hc with hc | hc
    · exact hc
    · rcases List.mem_cons.1 hc with rfl | hc
      · exact absurd hwild (by decide)
      · exact absurd hwild (by simp [(hextension c hc).1])
  · intro h
    obtain ⟨start, extension, rfl, hextension, c, hc, hwild⟩ := h
    exact ⟨⟨start, extension, rfl, hextension⟩, c, List.mem_append_left _ hc, hwild⟩

/-! ### Simple patterns -/

section

variable {pattern : String}

theorem parse_simple (hsimple : IsSimple pattern.toList)
    (hdirs : twoStars ∉ pattern.toList.splitOn '/') :
    Glob.parse pattern = .ok ⟨pattern, pattern.toList.map charToken⟩ :=
  parse_eq_ok_iff.2 (readTokens_simple (u := []) rfl hsimple hdirs fun _ => rfl)

theorem spells_simple_iff (hsimple : IsSimple pattern.toList)
    (hdirs : twoStars ∉ pattern.toList.splitOn '/') (path : String) :
    Spells pattern path ↔ TakesAll (pattern.toList.map charToken) (bytes path.toList) :=
  spells_iff (parse_simple hsimple hdirs) path

theorem matches_simple_iff (hsimple : IsSimple pattern.toList)
    (hdirs : twoStars ∉ pattern.toList.splitOn '/') (path : String) :
    Matches pattern path ↔
      Spells pattern path ∧ ¬ (HasOpenExtension pattern.toList ∧ endsInParent path = true) := by
  have hparse := parse_simple hsimple hdirs
  have htokens : pattern.toList.map charToken ≠ [.leadingDirs] := by
    intro h
    obtain ⟨c, cs, -, hc, -⟩ := List.map_eq_cons_iff.1 h
    exact charToken_ne_leadingDirs c hc
  rw [matches_iff hparse htokens, needsName_iff hparse, needsName_map_charToken_iff]

end

/-! ### Segments -/

/-- The components of a pattern or a path, which stand between its separators. -/
def segments (s : String) : List String :=
  (s.toList.splitOn '/').map String.ofList

theorem mem_segments_iff {q s : String} : q ∈ segments s ↔ q.toList ∈ s.toList.splitOn '/' := by
  rw [segments, List.mem_map]
  constructor
  · intro h
    obtain ⟨w, hw, rfl⟩ := h
    rwa [String.toList_ofList]
  · exact fun h => ⟨q.toList, h, String.ofList_toList⟩

/-- A component has no separator, and its characters are those of the whole. -/
theorem mem_of_mem_splitOn {cs w : List Char} (h : w ∈ cs.splitOn '/') :
    '/' ∉ w ∧ ∀ c ∈ w, c ∈ cs := by
  by_cases hcs : '/' ∈ cs
  · obtain ⟨u, v, rfl, hu⟩ := List.eq_append_cons_of_mem hcs
    rw [splitOn_append_separator, splitOn_eq_singleton hu, List.singleton_append,
      List.mem_cons] at h
    rcases h with rfl | h
    · exact ⟨hu, fun c hc => List.mem_append_left _ hc⟩
    · have hw := mem_of_mem_splitOn h
      refine ⟨hw.1, fun c hc => List.mem_append_right _ (List.mem_cons_of_mem _ (hw.2 c hc))⟩
  · rw [splitOn_eq_singleton hcs, List.mem_singleton] at h
    subst h
    exact ⟨hcs, fun c hc => hc⟩
termination_by cs.length
decreasing_by
  subst_vars
  simp only [List.length_append, List.length_cons]
  omega

theorem forall₂_congr_of_mem {α β : Type} {R S : α → β → Prop} {xs : List α} {ys : List β}
    (h : ∀ x ∈ xs, ∀ y ∈ ys, (R x y ↔ S x y)) : List.Forall₂ R xs ys ↔ List.Forall₂ S xs ys := by
  induction xs generalizing ys with
  | nil => simp
  | cons x xs ih =>
    cases ys with
    | nil => simp
    | cons y ys =>
      rw [List.forall₂_cons, List.forall₂_cons, h x List.mem_cons_self y List.mem_cons_self,
        ih fun x' hx y' hy => h x' (List.mem_cons_of_mem _ hx) y' (List.mem_cons_of_mem _ hy)]

/-- What holds of a simple pattern without a component of two stars holds of its components. -/
theorem simple_of_mem_segments {pattern q : String} (hsimple : IsSimple pattern.toList)
    (hstars : "**" ∉ segments pattern) (hq : q ∈ segments pattern) :
    '/' ∉ q.toList ∧ IsSimple q.toList ∧ twoStars ∉ q.toList.splitOn '/' := by
  obtain ⟨hinner, hchars⟩ := mem_of_mem_splitOn (mem_segments_iff.1 hq)
  refine ⟨hinner, fun c hc => hsimple c (hchars c hc), ?_⟩
  rw [splitOn_eq_singleton hinner, List.mem_singleton]
  intro h
  have hpattern : q = "**" := String.toList_inj.1 h.symm
  exact hstars (hpattern ▸ hq)

theorem parent_mem_segments {path : String} (h : endsInParent path = true) :
    ".." ∈ segments path := by
  rw [endsInParent, beq_iff_eq] at h
  exact mem_segments_iff.2 (List.mem_of_getLast? h)

/-- **A simple pattern and a path are held against each other component by component.** -/
theorem matches_segments {pattern : String} (hsimple : IsSimple pattern.toList)
    (hstars : "**" ∉ segments pattern) :
    (∀ path, Matches pattern path ↔
        List.Forall₂ Spells (segments pattern) (segments path) ∧
          ¬ (HasOpenExtension pattern.toList ∧ endsInParent path = true)) ∧
      (∀ q ∈ segments pattern, ∀ name, Matches q name ↔
        Spells q name ∧ ¬ (HasOpenExtension q.toList ∧ name = "..")) ∧
      ∀ path, ".." ∉ segments path →
        (Matches pattern path ↔ List.Forall₂ Matches (segments pattern) (segments path)) := by
  have hdirs : twoStars ∉ pattern.toList.splitOn '/' := fun h => hstars (mem_segments_iff.2 h)
  have hcomponents : ∀ path, Spells pattern path ↔
      List.Forall₂ Spells (segments pattern) (segments path) := by
    intro path
    rw [spells_simple_iff hsimple hdirs, takesAll_iff_forall₂, segments, segments,
      List.forall₂_map_left_iff, List.forall₂_map_right_iff]
    refine forall₂_congr_of_mem fun w hw x _ => ?_
    have hq : String.ofList w ∈ segments pattern := List.mem_map_of_mem hw
    obtain ⟨-, hsimple', hdirs'⟩ := simple_of_mem_segments hsimple hstars hq
    rw [spells_simple_iff hsimple' hdirs', String.toList_ofList, String.toList_ofList]
  have hwhole : ∀ path, Matches pattern path ↔
      List.Forall₂ Spells (segments pattern) (segments path) ∧
        ¬ (HasOpenExtension pattern.toList ∧ endsInParent path = true) := by
    intro path
    rw [matches_simple_iff hsimple hdirs, hcomponents]
  have hpart : ∀ q ∈ segments pattern, ∀ name, Matches q name ↔
      Spells q name ∧ ¬ (HasOpenExtension q.toList ∧ name = "..") := by
    intro q hq name
    obtain ⟨hinner, hsimple', hdirs'⟩ := simple_of_mem_segments hsimple hstars hq
    rw [matches_simple_iff hsimple' hdirs']
    refine and_congr_right fun hspells => ?_
    -- a name that a component spells has no separator either
    rw [spells_simple_iff hsimple' hdirs'] at hspells
    have hname : '/' ∉ name.toList := fun hmem =>
      separator_not_mem_of_takesAll hinner hspells (separator_mem_bytes_iff.2 hmem)
    rw [endsInParent_iff_of_no_separator hname]
  refine ⟨hwhole, hpart, fun path hparent => ?_⟩
  have hname : ¬ (HasOpenExtension pattern.toList ∧ endsInParent path = true) :=
    fun h => hparent (parent_mem_segments h.2)
  rw [hwhole, and_iff_left hname]
  refine forall₂_congr_of_mem fun q hq name hmem => ?_
  have hne : name ≠ ".." := fun h => hparent (h ▸ hmem)
  rw [hpart q hq, and_iff_left fun h => hne h.2]

/-- Two stars beside other characters stay within a component. -/
theorem matches_segments_glued : IsSimple "lib**/*.j?".toList ∧ "**" ∉ segments "lib**/*.j?" ∧
    ".." ∉ segments "library/a.js" ∧
      List.Forall₂ Matches (segments "lib**/*.j?") (segments "library/a.js") ∧
        Matches "lib**/*.j?" "library/a.js" := by
  have hsimple : IsSimple "lib**/*.j?".toList := by decide +kernel
  have hstars : "**" ∉ segments "lib**/*.j?" := by decide +kernel
  have hparent : ".." ∉ segments "library/a.js" := by decide +kernel
  have hmatches : Matches "lib**/*.j?" "library/a.js" := by decide +kernel
  exact ⟨hsimple, hstars, hparent,
    ((matches_segments hsimple hstars).2.2 _ hparent).1 hmatches, hmatches⟩

/-- Two dots at the end of a path are decided by the whole pattern: a directory whose pattern is
open does not match them alone, and a pattern of two dots matches them alone. -/
theorem not_forall_matches_segments :
    (¬ ∀ pattern, IsSimple pattern.toList → "**" ∉ segments pattern → ∀ path,
        Matches pattern path → List.Forall₂ Matches (segments pattern) (segments path)) ∧
      ¬ ∀ pattern, IsSimple pattern.toList → "**" ∉ segments pattern → ∀ path,
        List.Forall₂ Matches (segments pattern) (segments path) → Matches pattern path := by
  constructor
  · intro h
    have hsegments := h "*./b" (by decide +kernel) (by decide +kernel) "../b" (by decide +kernel)
    revert hsegments
    decide +kernel
  · intro h
    have hmatches := h "*/.." (by decide +kernel) (by decide +kernel) "a/.." (by decide +kernel)
    revert hmatches
    decide +kernel

end CallHarvest
