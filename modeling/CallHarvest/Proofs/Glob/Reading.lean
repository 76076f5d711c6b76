import CallHarvest.Except
import CallHarvest.Glob.Parse
import Mathlib.Data.List.Infix

/-!
# The reading of a pattern as a relation

The reader of patterns looks at what it has read, to tell whether two stars stand for directories.
A pattern in which no two stars stand side by side is read without such a look, token by token.  So
it is read in the same way after other tokens, and before a separator.

* `IsPart` — how one token is read (`IsPart.readTokens_eq`).
* `Reads` — how a whole pattern is read (`reads_of_readTokens`, `Reads.readTokens_eq`).
* `Reads.readTokens_append` — what the reader does with a pattern that a separator follows.
* `Reads.beneath` — what it does with a pattern that other tokens precede.
-/

namespace CallHarvest

/-! ### Classes -/

/-- A class is read up to its closing bracket, whatever follows it. -/
theorem exists_of_readRanges {ranges result : List (Char × Char)} {hyphen : Bool}
    {cs rest : List Char} (h : readRanges ranges hyphen cs = .ok (result, rest)) :
    ∃ w, cs = w ++ rest ∧ ∀ more, readRanges ranges hyphen (w ++ more) = .ok (result, more) := by
  fun_induction readRanges ranges hyphen cs with
  | case1 => cases h
  | case2 ranges hyphen c cs hclose =>
    obtain ⟨rfl, rfl⟩ := Prod.mk.inj (Except.ok.inj h)
    exact ⟨[c], rfl, fun more => by rw [List.singleton_append, readRanges, if_pos hclose]⟩
  | case3 ranges c cs hclose extended hextend ih =>
    obtain ⟨w, rfl, hw⟩ := ih h
    refine ⟨c :: w, rfl, fun more => ?_⟩
    rw [List.cons_append, readRanges, if_neg hclose, if_pos rfl, hextend]
    exact hw more
  | case4 => cases h
  | case5 ranges hyphen c cs hclose hhyphen hdash ih =>
    obtain ⟨w, rfl, hw⟩ := ih h
    refine ⟨c :: w, rfl, fun more => ?_⟩
    rw [List.cons_append, readRanges, if_neg hclose, if_neg hhyphen, if_pos hdash]
    exact hw more
  | case6 ranges hyphen c cs hclose hhyphen hdash ih =>
    obtain ⟨w, rfl, hw⟩ := ih h
    refine ⟨c :: w, rfl, fun more => ?_⟩
    rw [List.cons_append, readRanges, if_neg hclose, if_neg hhyphen, if_neg hdash]
    exact hw more

theorem exists_of_readClass {cs rest : List Char} {allowed : ByteClass}
    (h : readClass cs = .ok (allowed, rest)) :
    ∃ w, cs = w ++ rest ∧ ∀ more, readClass (w ++ more) = .ok (allowed, more) := by
  cases cs with
  | nil => exact nomatch h
  | cons c cs =>
    rw [readClass] at h
    split at h
    · rename_i hnegated
      obtain ⟨⟨ranges, r⟩, hranges, h⟩ := map_eq_ok h
      obtain ⟨rfl, rfl⟩ := Prod.mk.inj h
      obtain ⟨w, rfl, hw⟩ := exists_of_readRanges hranges
      refine ⟨c :: w, rfl, fun more => ?_⟩
      rw [List.cons_append, readClass, if_pos hnegated, hw]
      rfl
    · rename_i hnegated
      obtain ⟨⟨ranges, r⟩, hranges, h⟩ := map_eq_ok h
      obtain ⟨rfl, rfl⟩ := Prod.mk.inj h
      obtain ⟨w, hcs, hw⟩ := exists_of_readRanges hranges
      cases w with
      | nil =>
        have hlt := readRanges_length hranges
        rw [hcs, List.nil_append] at hlt
        exact absurd hlt (Nat.lt_irrefl _)
      | cons d w =>
        obtain ⟨rfl, rfl⟩ := List.cons.inj hcs
        refine ⟨c :: w, rfl, fun more => ?_⟩
        rw [List.cons_append, readClass, if_neg hnegated, ← List.cons_append, hw]
        rfl

/-! ### One step -/

/-- The two stars that a pattern without directories does not hold. -/
def twoStars : List Char := ['*', '*']

theorem not_twoStars_of_suffix {cs rest : List Char} (hsuffix : rest <:+ cs)
    (h : ¬ twoStars <:+: cs) : ¬ twoStars <:+: rest :=
  fun hin => h (hin.trans hsuffix.isInfix)

/-- The characters that do not stand for themselves. -/
def isSpecial (c : Char) : Bool :=
  c == '?' || c == '*' || c == '[' || c == '\x7b' || c == '\x7d' || c == '\\'

/-- How a token is read off a text, other than one for a group or for directories. -/
inductive IsPart (groups : List OpenGroup) : List Char → Token → List Char → Prop
  | any {rest} : IsPart groups ('?' :: rest) .any rest
  | star {rest} : rest.head? ≠ some '*' → IsPart groups ('*' :: rest) .star rest
  | oneOf {cs rest allowed} : readClass cs = .ok (allowed, rest) →
      IsPart groups ('[' :: cs) (.oneOf allowed) rest
  | escaped {c rest} : IsPart groups ('\\' :: c :: rest) (.literal c) rest
  | plain {c rest} : isSpecial c = false → (c = ',' → groups = []) →
      IsPart groups (c :: rest) (.literal c) rest

/-! ### A whole pattern -/

/-- How a pattern is read: within the groups that are open, after the given tokens (the last one
first), as the tokens of the whole. -/
inductive Reads : List OpenGroup → List Token → List Char → List Token → Prop
  | done {before} : Reads [] before [] before.reverse
  | token {groups before cs t rest ts} : IsPart groups cs t rest →
      Reads groups (t :: before) rest ts → Reads groups before cs ts
  | opened {groups before rest ts} : Reads (⟨before, []⟩ :: groups) [] rest ts →
      Reads groups before ('\x7b' :: rest) ts
  | closed {g groups before rest ts} :
      Reads groups (groupOf (before.reverse :: g.branches).reverse :: g.before) rest ts →
      Reads (g :: groups) before ('\x7d' :: rest) ts
  | further {g groups before rest ts} :
      Reads ({ g with branches := before.reverse :: g.branches } :: groups) [] rest ts →
      Reads (g :: groups) before (',' :: rest) ts

/-- **The reader follows the relation.**  The induction is on the calls of the reader; those in
which it finds two stars side by side do not arise. -/
theorem reads_of_readTokens {groups : List OpenGroup} {before : List Token}
    {previous : Option Char} {cs : List Char} {ts : List Token}
    (hfree : ¬ twoStars <:+: cs)
    (h : readTokens .strict groups before previous cs = .ok ts) : Reads groups before cs ts := by
  generalize hb : Brackets.strict = brackets at h
  have htail : ∀ {c cs}, ¬ twoStars <:+: c :: cs → ¬ twoStars <:+: cs :=
    not_twoStars_of_suffix (List.suffix_cons _ _)
  fun_induction readTokens brackets groups before previous cs with
  | case1 brackets groups before previous hgroups =>
    obtain rfl := List.isEmpty_iff.1 hgroups
    obtain rfl := Except.ok.inj h
    exact .done
  | case3 brackets groups before previous cs ih => exact .token .any (ih (htail hfree) hb h)
  | case11 brackets groups before previous cs hdirs hstars ih =>
    have hnext : cs.head? ≠ some '*' := by
      intro hhead
      obtain ⟨more, rfl⟩ := List.head?_eq_some_iff.1 hhead
      exact hstars more rfl
    exact .token (.star hnext) (ih (htail hfree) hb h)
  | case12 => exact nomatch hb
  | case13 brackets groups before previous cs hplain allowed rest hclass ih =>
    obtain ⟨w, rfl, -⟩ := exists_of_readClass hclass
    have hrest := not_twoStars_of_suffix (List.suffix_append w rest) (htail hfree)
    exact .token (.oneOf hclass) (ih hrest hb h)
  | case14 brackets groups before previous cs hplain fault hclass hlenient =>
    rw [← hb] at hlenient
    exact nomatch hlenient.1
  | case16 brackets groups before previous cs ih => exact .opened (ih (htail hfree) hb h)
  | case18 brackets before previous cs g groups ih =>
    simp only [List.unattach_reverse, List.unattach_attach] at ih h
    exact .closed (ih (htail hfree) hb h)
  | case19 brackets before previous cs ih =>
    exact .token (.plain rfl fun _ => rfl) (ih (htail hfree) hb h)
  | case20 brackets before previous cs g groups ih =>
    simp only [List.unattach_reverse, List.unattach_attach] at ih h
    exact .further (ih (htail hfree) hb h)
  | case22 brackets groups before previous c cs ih =>
    exact .token .escaped (ih (htail (htail hfree)) hb h)
  | case23 brackets groups before previous c cs hany _ _ hstar hclass hopen hclose hcomma hend
      hescape ih =>
    have hplain : isSpecial c = false := by
      have hslash : c ≠ '\\' := by
        rintro rfl
        cases cs with
        | nil => exact hend rfl rfl
        | cons d cs => exact hescape d cs rfl rfl
      simp only [isSpecial, Bool.or_eq_false_iff, beq_eq_false_iff_ne]
      exact ⟨⟨⟨⟨⟨hany, hstar⟩, hclass⟩, hopen⟩, hclose⟩, hslash⟩
    exact .token (.plain hplain fun hc => absurd hc hcomma) (ih (htail hfree) hb h)
  | case2 | case15 | case17 | case21 => exact nomatch h
  | case4 | case5 | case6 | case7 | case8 | case9 | case10 => exact absurd ⟨[], _, rfl⟩ hfree

/-- A character that is not special stands for itself. -/
theorem readTokens_plain {groups : List OpenGroup} {c : Char} (hplain : isSpecial c = false)
    (hcomma : c = ',' → groups = []) (before : List Token) (previous : Option Char)
    (cs : List Char) :
    readTokens .strict groups before previous (c :: cs) =
      readTokens .strict groups (.literal c :: before) (some c) cs := by
  simp only [isSpecial, Bool.or_eq_false_iff, beq_eq_false_iff_ne] at hplain
  obtain ⟨⟨⟨⟨⟨hany, hstar⟩, hclass⟩, hopen⟩, hclose⟩, hslash⟩ := hplain
  by_cases hc : c = ','
  · subst hc
    rw [hcomma rfl, readTokens]
  · rw [readTokens] <;> grind

/-- The reader takes one token, whatever it has read. -/
theorem IsPart.readTokens_eq {groups : List OpenGroup} {cs rest : List Char} {t : Token}
    (h : IsPart groups cs t rest) (before : List Token) (previous : Option Char) :
    ∃ next, readTokens .strict groups before previous cs =
      readTokens .strict groups (t :: before) next rest := by
  cases h with
  | any => exact ⟨some '?', by rw [readTokens]⟩
  | star hnext =>
    refine ⟨some '*', ?_⟩
    rw [readTokens]
    · rintro more rfl
      exact hnext rfl
    · rintro more rfl
      exact hnext rfl
  | oneOf hclass =>
    refine ⟨some ']', ?_⟩
    rw [readTokens, if_neg (by decide)]
    split
    · rename_i hread
      obtain ⟨rfl, rfl⟩ := Prod.mk.inj (Except.ok.inj (hclass.symm.trans hread))
      rfl
    · rename_i hread
      cases hclass.symm.trans hread
  | @escaped c => exact ⟨some c, by rw [readTokens]⟩
  | @plain c _ hplain hcomma => exact ⟨some c, readTokens_plain hplain hcomma before previous _⟩

/-- **The relation is followed by the reader.** -/
theorem Reads.readTokens_eq {groups : List OpenGroup} {before ts : List Token} {cs : List Char}
    (h : Reads groups before cs ts) (previous : Option Char) :
    readTokens .strict groups before previous cs = .ok ts := by
  induction h generalizing previous with
  | done => rw [readTokens]; rfl
  | token hpart hrest ih =>
    obtain ⟨next, hnext⟩ := hpart.readTokens_eq _ previous
    rw [hnext]
    exact ih next
  | opened hrest ih =>
    rw [readTokens]
    exact ih _
  | closed hrest ih =>
    rw [readTokens]
    exact ih _
  | further hrest ih =>
    rw [readTokens]
    exact ih _

/-! ### Before a separator -/

/-- A token is read in the same way before a separator.  A star stays a single one. -/
theorem IsPart.append {groups : List OpenGroup} {cs rest : List Char} {t : Token}
    (h : IsPart groups cs t rest) (more : List Char) :
    IsPart groups (cs ++ '/' :: more) t (rest ++ '/' :: more) := by
  cases h with
  | any => exact .any
  | star hnext =>
    refine .star ?_
    cases rest with
    | nil => simp
    | cons c rest => exact hnext
  | oneOf hclass =>
    obtain ⟨w, rfl, hw⟩ := exists_of_readClass hclass
    refine .oneOf ?_
    show readClass (w ++ rest ++ '/' :: more) = _
    rw [List.append_assoc, hw]
  | escaped => exact .escaped
  | plain hplain hcomma => exact .plain hplain hcomma

/-- After a pattern the reader goes on with its tokens. -/
theorem Reads.readTokens_append {groups : List OpenGroup} {before ts : List Token} {cs : List Char}
    (h : Reads groups before cs ts) (previous : Option Char) (more : List Char) :
    ∃ next, readTokens .strict groups before previous (cs ++ '/' :: more) =
      readTokens .strict [] ts.reverse next ('/' :: more) := by
  induction h generalizing previous with
  | done => exact ⟨previous, by rw [List.nil_append, List.reverse_reverse]⟩
  | token hpart hrest ih =>
    obtain ⟨next, hnext⟩ := (hpart.append more).readTokens_eq _ previous
    rw [hnext]
    exact ih next
  | opened hrest ih =>
    rw [List.cons_append, readTokens]
    exact ih _
  | closed hrest ih =>
    rw [List.cons_append, readTokens]
    exact ih _
  | further hrest ih =>
    rw [List.cons_append, readTokens]
    exact ih _

/-! ### After other tokens -/

/-- Whether two states of the reader differ in that the second one has more tokens before all
others. -/
inductive Beneath (outer : List Token) :
    List OpenGroup → List Token → List OpenGroup → List Token → Prop
  | top {before} : Beneath outer [] before [] (before ++ outer)
  | nested {groups groups' before before' branches inner} :
      Beneath outer groups before groups' before' →
        Beneath outer (⟨before, branches⟩ :: groups) inner (⟨before', branches⟩ :: groups') inner

theorem Beneath.cons {outer before before' : List Token} {groups groups' : List OpenGroup}
    (h : Beneath outer groups before groups' before') (t : Token) :
    Beneath outer groups (t :: before) groups' (t :: before') := by
  cases h with
  | top => exact .top
  | nested hgroups => exact .nested hgroups

theorem IsPart.beneath {outer before before' : List Token} {groups groups' : List OpenGroup}
    {cs rest : List Char} {t : Token} (h : IsPart groups cs t rest)
    (hbeneath : Beneath outer groups before groups' before') : IsPart groups' cs t rest := by
  cases h with
  | any => exact .any
  | star hnext => exact .star hnext
  | oneOf hclass => exact .oneOf hclass
  | escaped => exact .escaped
  | plain hplain hcomma =>
    refine .plain hplain fun hc => ?_
    cases hbeneath with
    | top => rfl
    | nested => exact nomatch hcomma hc

/-- **A pattern is read in the same way after other tokens**, which stand before its own. -/
theorem Reads.beneath {outer before before' ts : List Token} {groups groups' : List OpenGroup}
    {cs : List Char} (h : Reads groups before cs ts)
    (hbeneath : Beneath outer groups before groups' before') :
    Reads groups' before' cs (outer.reverse ++ ts) := by
  induction h generalizing groups' before' with
  | done =>
    cases hbeneath with
    | top =>
      rw [← List.reverse_append]
      exact .done
  | token hpart hrest ih => exact .token (hpart.beneath hbeneath) (ih (hbeneath.cons _))
  | opened hrest ih => exact .opened (ih (.nested hbeneath))
  | closed hrest ih =>
    cases hbeneath with
    | nested hgroups => exact .closed (ih (hgroups.cons _))
  | further hrest ih =>
    cases hbeneath with
    | nested hgroups => exact .further (ih (.nested hgroups))

/-! ### What is read -/

theorem IsPart.ne_leadingDirs {groups : List OpenGroup} {cs rest : List Char} {t : Token}
    (h : IsPart groups cs t rest) : t ≠ .leadingDirs := by
  cases h <;> exact fun he => nomatch he

/-- No token stands for directories at the beginning. -/
theorem Reads.leadingDirs_not_mem {groups : List OpenGroup} {before ts : List Token}
    {cs : List Char} (h : Reads groups before cs ts) (hbefore : .leadingDirs ∉ before)
    (hgroups : ∀ g ∈ groups, .leadingDirs ∉ g.before) : .leadingDirs ∉ ts := by
  induction h with
  | done => rwa [List.mem_reverse]
  | token hpart hrest ih =>
    refine ih ?_ hgroups
    exact List.not_mem_cons_of_ne_of_not_mem hpart.ne_leadingDirs.symm hbefore
  | opened hrest ih => exact ih List.not_mem_nil (List.forall_mem_cons.2 ⟨hbefore, hgroups⟩)
  | closed hrest ih =>
    obtain ⟨hg, hgroups⟩ := List.forall_mem_cons.1 hgroups
    exact ih (List.not_mem_cons_of_ne_of_not_mem (fun he => nomatch he) hg) hgroups
  | further hrest ih =>
    obtain ⟨hg, hgroups⟩ := List.forall_mem_cons.1 hgroups
    exact ih List.not_mem_nil (List.forall_mem_cons.2 ⟨hg, hgroups⟩)

/-- What is not the empty text has tokens. -/
theorem Reads.ne_nil {groups : List OpenGroup} {before ts : List Token} {cs : List Char}
    (h : Reads groups before cs ts) (hne : groups = [] → before = [] → cs ≠ []) : ts ≠ [] := by
  induction h with
  | done =>
    rw [Ne, List.reverse_eq_nil_iff]
    exact fun hnil => hne rfl hnil rfl
  | token hpart hrest ih => exact ih fun _ hnil => nomatch hnil
  | opened hrest ih => exact ih fun hnil => nomatch hnil
  | closed hrest ih => exact ih fun _ hnil => nomatch hnil
  | further hrest ih => exact ih fun hnil => nomatch hnil

end CallHarvest
