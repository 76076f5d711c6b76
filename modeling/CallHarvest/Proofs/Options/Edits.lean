import CallHarvest.Proofs.Options.Members
import Mathlib.Logic.Relation

/-!
# Edits that leave options as they are

What the members of an object make of the defaults does not depend on their order, and some members
make nothing of them: those of no field, and those that are null and the only ones of their field.
So such members may come and go, anywhere in the object and in any number.

* `Completes.perm` — the order of members is of no account.
* `completes_cons_other_iff`, `completes_cons_null_iff` — the members that make nothing of options.
* `Edit` — one change by such a member, or of the order (`Edit.completes`).
* `Options.parse_edited` — the options of a text after any edits.
-/

namespace CallHarvest

open Json (Denotes IsDocument IsText Member MembersWritten NameWritten Tree Written nullWord
  skipSpace)

/-! ### Members of no effect -/

variable {o : Options} {f : Field} {d : Draft} {m : Member} {ms ms' : List Member}

theorem DescribesPatterns.eq_none {p : Option Patterns}
    (h : DescribesPatterns (.word nullWord) p) : p = none := by
  cases h with
  | null => rfl
  | single hsaid => obtain ⟨_, h, -⟩ := hsaid; exact nomatch h

theorem DescribesPath.eq_none {p : Option String} (h : DescribesPath (.word nullWord) p) :
    p = none := by
  cases h with
  | null => rfl
  | path hsaid => obtain ⟨_, h, -⟩ := hsaid; exact nomatch h

/-- A field other than the mode is null if it has its default. -/
theorem Options.gives_null_iff (hmode : f ≠ .mode) :
    o.Gives f (.word nullWord) ↔ o.AgreeAt {} f := by
  constructor
  · intro h
    cases f with
    | patterns list =>
      show o.patterns? list = _
      rw [DescribesPatterns.eq_none h]
      cases list <;> rfl
    | baseDir => exact DescribesPath.eq_none h
    | mode => exact absurd rfl hmode
  · intro h
    have hdefault : ({} : Options).Gives f (.word nullWord) := by
      rcases f with (_ | _) | _ | _
      · exact DescribesPatterns.null
      · exact DescribesPatterns.null
      · exact DescribesPath.null
      · exact absurd rfl hmode
    exact h.symm.gives hdefault

theorem Completes.perm (h : Completes d ms o) (hperm : ms.Perm ms') : Completes d ms' o where
  named m hm := h.named m (hperm.mem_iff.2 hm)
  fresh m hm := h.fresh m (hperm.mem_iff.2 hm)
  once := (hperm.pairwise_iff fun hno f hboth => hno f hboth.symm).1 h.once
  given m hm := h.given m (hperm.mem_iff.2 hm)
  kept f hf := h.kept f fun m hm => hf m (hperm.mem_iff.1 hm)

/-- A member of no field makes nothing of options. -/
theorem completes_cons_other_iff {name : List Char} (hname : Denotes m.1 name)
    (hother : ∀ f, ¬ Names f m) : Completes d (m :: ms) o ↔ Completes d ms o := by
  rw [completes_cons_iff]
  constructor
  · intro h
    obtain ⟨d', hadds, h⟩ := h
    cases hadds with
    | other => exact h
    | field hf => exact absurd hf (hother _)
  · exact fun h => ⟨d, .other hname hother, h⟩

/-- A member that is null makes nothing of the defaults, if no other one is of its field. -/
theorem completes_cons_null_iff (hmode : f ≠ .mode) (hf : Names f m) (hnull : m.2 = .word nullWord)
    (hms : ∀ m' ∈ ms, ¬ Names f m') : Completes {} (m :: ms) o ↔ Completes {} ms o := by
  constructor
  · intro h
    refine ⟨(List.forall_mem_cons.1 h.named).2, (List.forall_mem_cons.1 h.fresh).2,
      (List.pairwise_cons.1 h.once).2, (List.forall_mem_cons.1 h.given).2, fun g hg => ?_⟩
    by_cases hgf : g = f
    · rw [hgf, ← Options.gives_null_iff hmode, ← hnull]
      exact h.given m List.mem_cons_self f hf
    · exact h.kept g (List.forall_mem_cons.2 ⟨fun hm => hgf (hm.unique hf), hg⟩)
  · intro h
    refine ⟨List.forall_mem_cons.2 ⟨⟨_, hf⟩, h.named⟩, fun _ _ _ hg => (nomatch hg),
      List.pairwise_cons.2 ⟨fun m' hm' g hboth => ?_, h.once⟩,
      List.forall_mem_cons.2 ⟨fun g hg => ?_, h.given⟩,
      fun g hg => h.kept g (List.forall_mem_cons.1 hg).2⟩
    · exact hms m' hm' (hf.unique hboth.1 ▸ hboth.2)
    · rw [← hf.unique hg, hnull, Options.gives_null_iff hmode]
      exact h.kept f hms

/-! ### Edits -/

/-- A change of the members of an object that leaves the options as they are: of their order, by a
member of no field, or by one that is null and the only one of its field. -/
inductive Edit : List Member → List Member → Prop
  | permuted {ms ms' : List Member} : ms.Perm ms' → Edit ms ms'
  | inserted {before after : List Member} {m : Member} {name} : Denotes m.1 name →
      (∀ f, ¬ Names f m) → Edit (before ++ after) (before ++ m :: after)
  | removed {before after : List Member} {m : Member} : (∀ f, ¬ Names f m) →
      Edit (before ++ m :: after) (before ++ after)
  | nullInserted {before after : List Member} {m : Member} {f} : f ≠ .mode → Names f m →
      m.2 = .word nullWord → (∀ m' ∈ before ++ after, ¬ Names f m') →
      Edit (before ++ after) (before ++ m :: after)
  | nullRemoved {before after : List Member} {m : Member} {f} : f ≠ .mode → Names f m →
      m.2 = .word nullWord → (∀ m' ∈ before ++ after, ¬ Names f m') →
      Edit (before ++ m :: after) (before ++ after)

/-- **One edit does not change what members make of the defaults.** -/
theorem Edit.completes (hedit : Edit ms ms') (h : Completes {} ms o) : Completes {} ms' o := by
  cases hedit with
  | permuted hperm => exact h.perm hperm
  | inserted hname hother =>
    exact ((completes_cons_other_iff hname hother).2 h).perm List.perm_middle.symm
  | removed hother =>
    have h' := h.perm List.perm_middle
    obtain ⟨name, hname⟩ := h'.named _ List.mem_cons_self
    exact (completes_cons_other_iff hname hother).1 h'
  | nullInserted hmode hf hnull hms =>
    exact ((completes_cons_null_iff hmode hf hnull hms).2 h).perm List.perm_middle.symm
  | nullRemoved hmode hf hnull hms =>
    exact (completes_cons_null_iff hmode hf hnull hms).1 (h.perm List.perm_middle)

/-- **Edits do not change what members make of the defaults.** -/
theorem completes_of_edits (hedits : Relation.ReflTransGen Edit ms ms') (h : Completes {} ms o) :
    Completes {} ms' o := by
  induction hedits with
  | refl => exact h
  | tail _ hedit ih => exact hedit.completes ih

/-- **Options depend on the members of fields only.**  Edits in any number, and spaces, leave them
as they are; a field that is given twice is told. -/
theorem Options.parse_edited :
    (∀ ms ms' text text' o, IsDocument (.object ms) text → parse text = .ok o →
        Relation.ReflTransGen Edit ms ms' → IsDocument (.object ms') text' → parse text' = .ok o) ∧
      ∀ before m between m' after text f,
        IsDocument (.object (before ++ m :: between ++ m' :: after)) text → Names f m →
          Names f m' → ∃ e, parse text = .error e := by
  constructor
  · intro ms ms' text text' o htext hparse hedits htext'
    rw [parse_object_iff htext] at hparse
    rw [parse_object_iff htext']
    exact completes_of_edits hedits hparse
  · intro before m between m' after text f htext hf hf'
    cases hparse : parse text with
    | error e => exact ⟨e, rfl⟩
    | ok o =>
      have honce := ((parse_object_iff htext).1 hparse).once
      rw [List.append_assoc] at honce
      have htail := (List.pairwise_append.1 honce).2.1
      have hfirst := (List.pairwise_cons.1 htail).1 m' (by simp)
      exact absurd ⟨hf, hf'⟩ (hfirst f)

/-- A pattern is read beside an unknown member, and is told if it is given twice. -/
theorem Options.parse_edited_pattern :
    IsDocument (.object [("include".toList, .text "*.js".toList)])
        "\x7b\"include\":\"*.js\"\x7d" ∧
      parse "\x7b\"include\":\"*.js\"\x7d" = .ok { included := some (.single "*.js") } ∧
      Relation.ReflTransGen Edit [("include".toList, .text "*.js".toList)]
        [("x".toList, .array []), ("include".toList, .text "*.js".toList)] ∧
      IsDocument (.object [("x".toList, .array []), ("include".toList, .text "*.js".toList)])
        "\x7b \"x\" :[\n],\"include\":\"*.js\"\x7d" ∧
      parse "\x7b \"x\" :[\n],\"include\":\"*.js\"\x7d" =
        .ok { included := some (.single "*.js") } ∧
      IsDocument (.object [("include".toList, .word nullWord),
          ("include".toList, .text "*.js".toList)])
        "\x7b\"include\":null,\"include\":\"*.js\"\x7d" ∧
      ∃ e, parse "\x7b\"include\":null,\"include\":\"*.js\"\x7d" = .error e := by
  have hinclude : Denotes "include".toList "include".toList := Json.denotes_self (by decide)
  have hx : Denotes "x".toList "x".toList := Json.denotes_self (by decide)
  have hpattern : Denotes "*.js".toList "*.js".toList := Json.denotes_self (by decide)
  have hnames : ∀ t, Names (.patterns .included) ("include".toList, t) := fun _ => hinclude
  have hother : ∀ f, ¬ Names f ("x".toList, .array []) := by
    intro f hf
    have hkey : "x" = f.key := String.toList_inj.1 (hx.unique hf)
    rcases f with (_ | _) | _ | _ <;> exact absurd hkey (by decide)
  have hlast : MembersWritten [("include".toList, .text "*.js".toList)]
      "\"include\":\"*.js\"\x7d".toList [] := by
    have hname : NameWritten "include".toList "\"include\":\"*.js\"\x7d".toList
      "\"*.js\"\x7d".toList := ⟨hinclude.isText, ":\"*.js\"\x7d".toList, by decide, by decide⟩
    have hvalue : Written (.text "*.js".toList) "\"*.js\"\x7d".toList "\x7d".toList :=
      .text hpattern.isText (by decide)
    exact .last hname hvalue (by decide)
  have htext : IsDocument (.object [("include".toList, .text "*.js".toList)])
      "\x7b\"include\":\"*.js\"\x7d" := ⟨[], .object (by decide) hlast, by decide⟩
  have hparse : parse "\x7b\"include\":\"*.js\"\x7d" =
      .ok { included := some (.single "*.js") } := by
    have hgives : ({ included := some (.single "*.js") } : Options).Gives (.patterns .included)
      (.text "*.js".toList) := DescribesPatterns.single ⟨_, rfl, hpattern⟩
    rw [parse_object_iff htext, completes_cons_iff]
    exact ⟨_, .field (hnames _) List.not_mem_nil hgives, completes_nil_iff.2 rfl⟩
  have hedits : Relation.ReflTransGen Edit [("include".toList, .text "*.js".toList)]
      [("x".toList, .array []), ("include".toList, .text "*.js".toList)] := by
    have hedit : Edit ([] ++ [("include".toList, .text "*.js".toList)])
      ([] ++ ("x".toList, .array []) :: [("include".toList, .text "*.js".toList)]) :=
      .inserted hx hother
    exact .single hedit
  have htext' : IsDocument (.object [("x".toList, .array []),
      ("include".toList, .text "*.js".toList)])
      "\x7b \"x\" :[\n],\"include\":\"*.js\"\x7d" := by
    have hname : NameWritten "x".toList " \"x\" :[\n],\"include\":\"*.js\"\x7d".toList
      "[\n],\"include\":\"*.js\"\x7d".toList :=
      ⟨hx.isText, " :[\n],\"include\":\"*.js\"\x7d".toList, by decide, by decide⟩
    have hbracket : skipSpace "[\n],\"include\":\"*.js\"\x7d".toList =
      '[' :: "\n],\"include\":\"*.js\"\x7d".toList := by decide
    have hvalue : Written (.array []) "[\n],\"include\":\"*.js\"\x7d".toList
      ",\"include\":\"*.js\"\x7d".toList := .emptyArray hbracket (by decide)
    exact ⟨[], .object (by decide) (.more hname hvalue (by decide) hlast), by decide⟩
  have htwice : IsDocument (.object [("include".toList, .word nullWord),
      ("include".toList, .text "*.js".toList)])
      "\x7b\"include\":null,\"include\":\"*.js\"\x7d" := by
    have hname : NameWritten "include".toList
      "\"include\":null,\"include\":\"*.js\"\x7d".toList
      "null,\"include\":\"*.js\"\x7d".toList :=
      ⟨hinclude.isText, ":null,\"include\":\"*.js\"\x7d".toList, by decide, by decide⟩
    have hvalue : Written (.word nullWord) "null,\"include\":\"*.js\"\x7d".toList
      ",\"include\":\"*.js\"\x7d".toList := .word .null (by decide) (by simp [Json.IsBreak])
    exact ⟨[], .object (by decide) (.more hname hvalue (by decide) hlast), by decide⟩
  exact ⟨htext, hparse, hedits, htext', parse_edited.1 _ _ _ _ _ htext hparse hedits htext', htwice,
    parse_edited.2 [] _ [] _ [] _ _ htwice (hnames _) (hnames _)⟩

/-- The name of an inserted member has to stand for a text: half of a pair of surrogates does not,
and is told. -/
theorem Options.not_forall_parse_inserted :
    ¬ ∀ before m after text text' o, IsDocument (.object (before ++ after)) text →
      parse text = .ok o → (∀ f, ¬ Names f m) → IsDocument (.object (before ++ m :: after)) text' →
        parse text' = .ok o := by
  intro h
  have hnone : ∀ name, ¬ Denotes "\\ud800".toList name := by
    intro name hname
    have hlist : "\\ud800".toList = ['\\', 'u', 'd', '8', '0', '0'] := by decide
    rw [hlist] at hname
    cases hname with
    | plain _ hslash => exact hslash rfl
    | letter hletter => exact Json.ne_u_of_lookup hletter rfl
    | numbered hvalue hhigh =>
      have hcode : Json.hexValue? ['d', '8', '0', '0'] = some 0xD800 := by decide
      obtain rfl := Option.some.inj (hcode.symm.trans hvalue)
      exact absurd hhigh (by decide)
  have htext : IsDocument (.object ([] ++ [])) "\x7b\x7d" := by
    have hbrace : skipSpace "\x7b\x7d".toList = '\x7b' :: ['\x7d'] := by decide
    exact ⟨[], .emptyObject hbrace (by decide), by decide⟩
  have htext' : IsDocument (.object ([] ++ ("\\ud800".toList, .word nullWord) :: []))
      "\x7b\"\\ud800\":null\x7d" := by
    have hvalue : Json.hexValue? ['d', '8', '0', '0'] = some 0xD800 := by decide
    have hname : NameWritten "\\ud800".toList "\"\\ud800\":null\x7d".toList
      "null\x7d".toList := ⟨.numbered hvalue .nil, ":null\x7d".toList, by decide, by decide⟩
    have hnull : Written (.word nullWord) "null\x7d".toList ['\x7d'] :=
      .word .null (by decide) (by simp [Json.IsBreak])
    exact ⟨[], .object (by decide) (.last hname hnull (by decide)), by decide⟩
  have hparse : parse "\x7b\x7d" = .ok {} := (parse_object_iff htext).2 (completes_nil_iff.2 rfl)
  have hother : ∀ f, ¬ Names f ("\\ud800".toList, .word nullWord) := fun f => hnone f.key.toList
  have hparse' := h [] _ [] _ _ _ htext hparse hother htext'
  obtain ⟨name, hname⟩ := ((parse_object_iff htext').1 hparse').named _ List.mem_cons_self
  exact hnone name hname

end CallHarvest
