import CallHarvest.Proofs.Options.Described

/-!
# What the members of an object make of options

The reader of an object goes from member to member and keeps the fields that were given.  What comes
of it can be told from all members at once: no field is given twice, each that is given is what its
value describes, and the others keep their defaults.

* `Names` — the field that a member is of.
* `Adds` — what one member makes of options (`readMember_eq_ok_iff`).
* `Completes` — what all members make of them (`completes_nil_iff`, `completes_cons_iff`).
* `Options.parse_object_iff` — which options an object is read as.
-/

namespace CallHarvest

open Json (Denotes IsDocument Member MembersWritten NameWritten Tree Written
  nullWord readColon_of_skipSpace readName readValue skipSpace)

/-! ### Fields -/

namespace Options

/-- Whether two options have the same in a field. -/
def AgreeAt (o o' : Options) : Field → Prop
  | .patterns list => o.patterns? list = o'.patterns? list
  | .baseDir => o.baseDir = o'.baseDir
  | .mode => o.mode = o'.mode

variable {o o' source : Options} {f g : Field} {t : Tree}

theorem eq_of_agreeAt (h : ∀ f, o.AgreeAt o' f) : o = o' := by
  have hincluded : o.included = o'.included := h (.patterns .included)
  have hexcluded : o.excluded = o'.excluded := h (.patterns .excluded)
  have hbaseDir : o.baseDir = o'.baseDir := h .baseDir
  have hmode : o.mode = o'.mode := h .mode
  cases o
  cases o'
  simp_all

theorem AgreeAt.refl (o : Options) (f : Field) : o.AgreeAt o f := by
  cases f <;> rfl

theorem AgreeAt.symm (h : o.AgreeAt o' f) : o'.AgreeAt o f := by
  cases f <;> exact Eq.symm h

theorem AgreeAt.trans {o'' : Options} (h : o.AgreeAt o' f) (h' : o'.AgreeAt o'' f) :
    o.AgreeAt o'' f := by
  cases f <;> exact Eq.trans h h'

theorem agreeAt_withField (source o : Options) (f : Field) :
    (withField source o f).AgreeAt source f := by
  rcases f with (_ | _) | _ | _ <;> rfl

theorem agreeAt_withField_of_ne (source o : Options) (h : g ≠ f) :
    (withField source o f).AgreeAt o g := by
  rcases f with (_ | _) | _ | _ <;> rcases g with (_ | _) | _ | _ <;>
    first | rfl | exact absurd rfl h

theorem AgreeAt.gives (h : o.AgreeAt o' f) (hgives : o.Gives f t) : o'.Gives f t := by
  cases f <;> simp only [AgreeAt, Gives] at h hgives ⊢ <;> rwa [← h]

end Options

/-! ### The names of members -/

theorem Json.Denotes.unique {raw text text' : List Char} (h : Denotes raw text)
    (h' : Denotes raw text') : text = text' := by
  have hread : Json.readText (.use 0) (raw ++ ['\x22']) = .ok (text, []) := h.readText_eq []
  rw [h'.readText_eq] at hread
  exact (Prod.mk.inj (Except.ok.inj hread)).1.symm

/-- Whether the name of a member stands for that of a field. -/
def Names (f : Field) (m : Member) : Prop :=
  Denotes m.1 f.key.toList

theorem Field.ofKey?_eq_some_iff {key : String} {f : Field} :
    ofKey? key = some f ↔ key = f.key := by
  constructor
  · intro h
    have hkey := List.find?_some (p := fun field : Field => field.key == key) h
    exact (beq_iff_eq.1 hkey).symm
  · rintro rfl
    exact ofKey?_key f

theorem Names.unique {f g : Field} {m : Member} (h : Names f m) (h' : Names g m) : f = g := by
  have hkey : f.key = g.key := String.toList_inj.1 (Json.Denotes.unique h h')
  exact Option.some.inj ((Field.ofKey?_key f).symm.trans (Field.ofKey?_eq_some_iff.2 hkey))

/-! ### One member -/

/-- What a member makes of options that are being read: one of no field makes nothing of them, and
one of a field sets this field, if it was not given before. -/
inductive Adds : Draft → Member → Draft → Prop
  | other {d m name} : Denotes m.1 name → (∀ f, ¬ Names f m) → Adds d m d
  | field {d m f} {source : Options} : Names f m → f ∉ d.given → source.Gives f m.2 →
      Adds d m ⟨Options.withField source d.options f, f :: d.given⟩

/-- **A member is read as what it makes of the options.** -/
theorem readMember_eq_ok_iff {d d' : Draft} {m : Member} {cs value rest r : List Char}
    (hname : NameWritten m.1 cs value) (ht : Written m.2 value rest) :
    d.readMember cs = .ok (d', r) ↔ Adds d m d' ∧ r = rest := by
  obtain ⟨htext, mid, hcs, hmid⟩ := hname
  have hcolon := readColon_of_skipSpace hmid
  constructor
  · intro hread
    obtain ⟨⟨name, afterName⟩, hname, hread⟩ := bind_eq_ok hread
    obtain ⟨hdenotes, rfl⟩ := (readName_eq_ok_iff htext hcs).1 (ofJson_eq_ok hname)
    dsimp only at hread
    split at hread
    · rename_i hother
      obtain ⟨afterColon, hcolon', hread⟩ := bind_eq_ok hread
      obtain rfl := Except.ok.inj (hcolon.symm.trans (ofJson_eq_ok hcolon'))
      obtain ⟨⟨v, after⟩, hvalue, hread⟩ := bind_eq_ok hread
      obtain ⟨rfl, rfl⟩ := Prod.mk.inj (Except.ok.inj hread)
      obtain ⟨v', hskim⟩ := ht.readValue_skim
      have hvalues := (ofJson_eq_ok hvalue).symm.trans hskim
      refine ⟨.other hdenotes fun f hf => ?_, (Prod.mk.inj (Except.ok.inj hvalues)).2⟩
      have hkey : name = f.key := String.toList_inj.1 (hdenotes.unique hf)
      exact nomatch hother.symm.trans (Field.ofKey?_eq_some_iff.2 hkey)
    · rename_i f hf
      rw [Field.ofKey?_eq_some_iff.1 hf] at hdenotes
      split at hread
      · exact nomatch hread
      · rename_i hgiven
        obtain ⟨afterColon, hcolon', hread⟩ := bind_eq_ok hread
        obtain rfl := Except.ok.inj (hcolon.symm.trans (ofJson_eq_ok hcolon'))
        obtain ⟨⟨o, after⟩, hfield, h⟩ := map_eq_ok hread
        obtain ⟨rfl, rfl⟩ := Prod.mk.inj h
        obtain ⟨⟨source, hgives, rfl⟩, hr⟩ := (Options.readField_eq_ok_iff ht).1 hfield
        exact ⟨.field hdenotes hgiven hgives, hr⟩
  · intro hadds
    obtain ⟨hadds, rfl⟩ := hadds
    cases hadds with
    | @other name hdenotes hother =>
      obtain ⟨v, hskim⟩ := ht.readValue_skim
      have hread : readName (.use 0) cs = .ok (String.ofList name, mid) :=
        (readName_eq_ok_iff htext hcs).2 ⟨by rwa [String.toList_ofList], rfl⟩
      have hnone : Field.ofKey? (String.ofList name) = none := by
        rw [Option.eq_none_iff_forall_not_mem]
        intro f hf
        have hkey := Field.ofKey?_eq_some_iff.1 hf
        refine hother f ?_
        rw [Names, ← hkey, String.toList_ofList]
        exact hdenotes
      simp only [Draft.readMember, hread, ofJson, bind, Except.bind, hnone, hcolon, hskim]
      rfl
    | @field f source hnames hgiven hgives =>
      have hread : readName (.use 0) cs = .ok (f.key, mid) :=
        (readName_eq_ok_iff htext hcs).2 ⟨hnames, rfl⟩
      have hfield := (Options.readField_eq_ok_iff (o := d.options) ht).2
        ⟨⟨source, hgives, rfl⟩, rfl⟩
      simp only [Draft.readMember, hread, ofJson, bind, Except.bind, Field.ofKey?_key,
        if_neg hgiven, hcolon]
      rw [Draft.readField, hfield]
      rfl

/-! ### All members -/

/-- What members make of options that are being read.  Nothing in it depends on their order. -/
structure Completes (d : Draft) (ms : List Member) (o : Options) : Prop where
  /-- The names of all members stand for texts. -/
  named : ∀ m ∈ ms, ∃ name, Denotes m.1 name
  /-- No field is given that was given before. -/
  fresh : ∀ m ∈ ms, ∀ f ∈ d.given, ¬ Names f m
  /-- No field is given twice. -/
  once : ms.Pairwise fun m m' => ∀ f, ¬ (Names f m ∧ Names f m')
  /-- A field that is given is what its value describes. -/
  given : ∀ m ∈ ms, ∀ f, Names f m → o.Gives f m.2
  /-- A field that is not given stays as it was. -/
  kept : ∀ f, (∀ m ∈ ms, ¬ Names f m) → o.AgreeAt d.options f

theorem completes_nil_iff {d : Draft} {o : Options} : Completes d [] o ↔ o = d.options := by
  constructor
  · exact fun h => Options.eq_of_agreeAt fun f => h.kept f (List.forall_mem_nil _)
  · rintro rfl
    exact ⟨List.forall_mem_nil _, List.forall_mem_nil _, .nil, List.forall_mem_nil _,
      fun f _ => .refl _ f⟩

/-- **The first member is read first**, and the others complete what it leaves. -/
theorem completes_cons_iff {d : Draft} {m : Member} {ms : List Member} {o : Options} :
    Completes d (m :: ms) o ↔ ∃ d', Adds d m d' ∧ Completes d' ms o := by
  constructor
  · intro h
    obtain ⟨hnamed, hfresh, honce, hgiven, hkept⟩ := h
    obtain ⟨⟨name, hname⟩, hnamed⟩ := List.forall_mem_cons.1 hnamed
    obtain ⟨hfresh', hfresh⟩ := List.forall_mem_cons.1 hfresh
    obtain ⟨honce', honce⟩ := List.pairwise_cons.1 honce
    obtain ⟨hgiven', hgiven⟩ := List.forall_mem_cons.1 hgiven
    -- the options that come out have the field already, so they serve as its source
    by_cases hfield : ∃ f, Names f m
    · obtain ⟨f, hf⟩ := hfield
      refine ⟨_, .field hf (fun hmem => hfresh' f hmem hf) (hgiven' f hf), hnamed, ?_, honce,
        hgiven, ?_⟩
      · intro m' hm' g hg hnames
        rcases List.mem_cons.1 hg with rfl | hg
        · exact honce' m' hm' g ⟨hf, hnames⟩
        · exact hfresh m' hm' g hg hnames
      · intro g hg
        by_cases hgf : g = f
        · rw [hgf]
          exact (Options.agreeAt_withField o d.options f).symm
        · have hkeep := hkept g (List.forall_mem_cons.2 ⟨fun h => hgf (h.unique hf), hg⟩)
          exact hkeep.trans (Options.agreeAt_withField_of_ne o d.options hgf).symm
    · have hother : ∀ f, ¬ Names f m := fun f hf => hfield ⟨f, hf⟩
      exact ⟨d, .other hname hother, hnamed, hfresh, honce, hgiven,
        fun g hg => hkept g (List.forall_mem_cons.2 ⟨hother g, hg⟩)⟩
  · intro h
    obtain ⟨d', hadds, hnamed, hfresh, honce, hgiven, hkept⟩ := h
    cases hadds with
    | @other name hname hother =>
      refine ⟨List.forall_mem_cons.2 ⟨⟨name, hname⟩, hnamed⟩,
        List.forall_mem_cons.2 ⟨fun f _ => hother f, hfresh⟩,
        List.pairwise_cons.2 ⟨fun m' _ f h => hother f h.1, honce⟩,
        List.forall_mem_cons.2 ⟨fun f hf => absurd hf (hother f), hgiven⟩,
        fun g hg => hkept g (List.forall_mem_cons.1 hg).2⟩
    | @field f source hf hnotin hgives =>
      -- the field is now among those given, so no later member changes it
      have hrest : ∀ m' ∈ ms, ¬ Names f m' := fun m' hm' => hfresh m' hm' f List.mem_cons_self
      refine ⟨List.forall_mem_cons.2 ⟨⟨_, hf⟩, hnamed⟩, List.forall_mem_cons.2 ⟨?_, ?_⟩,
        List.pairwise_cons.2 ⟨?_, honce⟩, List.forall_mem_cons.2 ⟨?_, hgiven⟩, ?_⟩
      · intro g hg hnames
        exact hnotin (hf.unique hnames ▸ hg)
      · exact fun m' hm' g hg => hfresh m' hm' g (List.mem_cons_of_mem _ hg)
      · intro m' hm' g hboth
        exact hrest m' hm' (hf.unique hboth.1 ▸ hboth.2)
      · intro g hg
        obtain rfl := hf.unique hg
        have hset := (hkept f hrest).trans (Options.agreeAt_withField source d.options f)
        exact hset.symm.gives hgives
      · intro g hg
        obtain ⟨hm, hg⟩ := List.forall_mem_cons.1 hg
        have hne : g ≠ f := fun h => hm (h ▸ hf)
        exact (hkept g hg).trans (Options.agreeAt_withField_of_ne source d.options hne)

/-! ### The reader -/

/-- What the reader of members has done, if it gave an answer. -/
theorem exists_of_readMembers {d d' : Draft} {cs rest : List Char}
    (h : readMembers d cs = .ok (d', rest)) :
    ∃ d₁ mid, d.readMember cs = .ok (d₁, mid) ∧
      ((skipSpace mid = '\x7d' :: rest ∧ d' = d₁) ∨
        ∃ next, skipSpace mid = ',' :: next ∧ readMembers d₁ next = .ok (d', rest)) := by
  cases hmember : d.readMember cs with
  | error e =>
    rw [readMembers] at h
    split at h
    · cases h
    · rename_i heq
      cases hmember.symm.trans heq
  | ok p =>
    obtain ⟨d₁, mid⟩ := p
    rw [Options.readMembers_of_readMember hmember] at h
    refine ⟨d₁, mid, rfl, ?_⟩
    split at h
    · rename_i hmid
      obtain ⟨rfl, rfl⟩ := Prod.mk.inj (Except.ok.inj h)
      exact .inl ⟨hmid, rfl⟩
    · rename_i hmid
      exact .inr ⟨_, hmid, h⟩
    · cases h

/-- **Members that are read complete the options**, up to the end of the object. -/
theorem completes_of_readMembers {d d' : Draft} {ms : List Member} {cs rest r : List Char}
    (hms : MembersWritten ms cs rest) (h : readMembers d cs = .ok (d', r)) :
    Completes d ms d'.options ∧ r = rest := by
  induction ms generalizing d cs with
  | nil => exact nomatch hms
  | cons m ms ih =>
    obtain ⟨d₁, mid, hmember, hrest⟩ := exists_of_readMembers h
    cases hms with
    | last hname ht hend =>
      obtain ⟨hadds, rfl⟩ := (readMember_eq_ok_iff (m := (_, _)) hname ht).1 hmember
      rcases hrest with ⟨hmid, rfl⟩ | ⟨next, hmid, -⟩
      · exact ⟨completes_cons_iff.2 ⟨d', hadds, completes_nil_iff.2 rfl⟩,
          (List.cons.inj (hmid.symm.trans hend)).2⟩
      · exact absurd (List.cons.inj (hmid.symm.trans hend)).1 (by decide)
    | more hname ht hend hms =>
      obtain ⟨hadds, rfl⟩ := (readMember_eq_ok_iff (m := (_, _)) hname ht).1 hmember
      rcases hrest with ⟨hmid, -⟩ | ⟨next, hmid, hnext⟩
      · exact absurd (List.cons.inj (hmid.symm.trans hend)).1 (by decide)
      · obtain ⟨-, rfl⟩ := List.cons.inj (hmid.symm.trans hend)
        obtain ⟨hcompletes, hr⟩ := ih hms hnext
        exact ⟨completes_cons_iff.2 ⟨d₁, hadds, hcompletes⟩, hr⟩

/-- **Members that complete options are read.** -/
theorem exists_readMembers_of_completes {d : Draft} {ms : List Member} {o : Options}
    {cs rest : List Char} (hms : MembersWritten ms cs rest) (h : Completes d ms o) :
    ∃ given, readMembers d cs = .ok (⟨o, given⟩, rest) := by
  induction ms generalizing d cs with
  | nil => exact nomatch hms
  | cons m ms ih =>
    obtain ⟨d₁, hadds, hcompletes⟩ := completes_cons_iff.1 h
    cases hms with
    | last hname ht hend =>
      have hmember := (readMember_eq_ok_iff (m := (_, _)) hname ht).2 ⟨hadds, rfl⟩
      rw [Options.readMembers_of_readMember hmember, hend, completes_nil_iff.1 hcompletes]
      exact ⟨d₁.given, rfl⟩
    | more hname ht hend hms =>
      have hmember := (readMember_eq_ok_iff (m := (_, _)) hname ht).2 ⟨hadds, rfl⟩
      obtain ⟨given, hread⟩ := ih hms hcompletes
      rw [Options.readMembers_of_readMember hmember, hend]
      exact ⟨given, hread⟩

/-! ### Whole texts -/

theorem mapError_eq_ok_iff {ε ε' α : Type} {x : Except ε α} {f : ε → ε'} {a : α} :
    x.mapError f = .ok a ↔ x = .ok a := by
  cases x <;> simp [Except.mapError]

theorem whole_eq_ok_iff {α : Type} {a b : α} {rest : List Char} :
    whole (a, rest) = .ok b ↔ a = b ∧ skipSpace rest = [] := by
  rw [whole]
  split <;> simp_all

namespace Options

theorem parse_eq_ok_iff {text : String} {o : Options} :
    parse text = .ok o ↔ ∃ given rest, readOptions text.toList = .ok (⟨o, given⟩, rest) ∧
      skipSpace rest = [] := by
  rw [parse, mapError_eq_ok_iff]
  constructor
  · intro h
    obtain ⟨d, hwhole, rfl⟩ := map_eq_ok h
    obtain ⟨⟨d', rest⟩, hread, hwhole⟩ := bind_eq_ok hwhole
    obtain ⟨rfl, hend⟩ := whole_eq_ok_iff.1 hwhole
    exact ⟨d'.given, rest, hread, hend⟩
  · intro h
    obtain ⟨given, rest, hread, hend⟩ := h
    rw [hread]
    show (whole (_, rest)).map _ = _
    rw [whole_eq_ok_iff.2 ⟨rfl, hend⟩]
    rfl

theorem readOptions_brace {cs inside : List Char} (hcs : skipSpace cs = '\x7b' :: inside)
    (hfull : ∀ rest, skipSpace inside ≠ '\x7d' :: rest) :
    readOptions cs = (readMembers {} inside).mapError (Failure.settle settleObject) := by
  unfold readOptions
  split
  · rename_i heq
    obtain ⟨-, rfl⟩ := List.cons.inj (heq.symm.trans hcs)
    split
    · rename_i hend
      exact absurd hend (hfull _)
    · rfl
  · rename_i heq
    exact absurd (List.cons.inj (hcs.symm.trans heq)).1 (by decide)
  · rename_i hbrace _
    exact absurd hcs (hbrace inside)

/-- **An object is read as the options that its members make of the defaults.** -/
theorem parse_object_iff {ms : List Member} {text : String} {o : Options}
    (h : IsDocument (.object ms) text) : parse text = .ok o ↔ Completes {} ms o := by
  obtain ⟨rest, hwritten, hend⟩ := h
  rw [parse_eq_ok_iff]
  cases hwritten with
  | emptyObject hcs hinside =>
    have hread : readOptions text.toList = .ok ({}, rest) := by
      rw [readOptions, hcs]
      simp only [hinside]
    rw [hread, completes_nil_iff]
    constructor
    · intro h
      obtain ⟨given, rest', h, -⟩ := h
      exact (congrArg Draft.options (Prod.mk.inj (Except.ok.inj h)).1).symm
    · rintro rfl
      exact ⟨[], rest, rfl, hend⟩
  | object hcs hms =>
    rw [readOptions_brace hcs hms.head_ne]
    simp only [mapError_eq_ok_iff]
    constructor
    · intro h
      obtain ⟨given, rest', hread, -⟩ := h
      exact (completes_of_readMembers hms hread).1
    · intro h
      obtain ⟨given, hread⟩ := exists_readMembers_of_completes hms h
      exact ⟨given, rest, hread, hend⟩

end Options

end CallHarvest
