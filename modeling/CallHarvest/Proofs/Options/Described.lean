import CallHarvest.Proofs.Json.Written
import CallHarvest.Proofs.Options.RoundTrip

/-!
# What the values of fields describe

The value of a field is a tree, and what it describes can be told from the tree alone.  The readers
give this answer for each of its writings, and none for a tree that describes nothing.

* `Json.Tree.Says` — the text that a tree stands for.
* `DescribesPatterns`, `DescribesPath`, `DescribesMode` — what trees describe; `Options.Gives` puts
  them together.
* `readAs_of_readValue` — what a value that is used is read as.
* `readPatterns?_eq_ok_iff`, `readPath?_eq_ok_iff`, `readMode_eq_ok_iff` — the readers of fields.
* `Options.readField_eq_ok_iff` — a field is set to what its value describes.
-/

namespace CallHarvest

open Json (Care Denotes ElementsWritten IsText IsWord MembersWritten NameWritten Tree Value Written
  nullWord readColon readItems readItems_eq readName readScalar readText
  readValue readValue_bracket readValue_eq readValue_of_skipSpace readValue_scalar skipSpace)

/-! ### What trees say -/

/-- Whether a tree is a text that stands for the given one. -/
def Json.Tree.Says (t : Tree) (s : String) : Prop :=
  ∃ raw, t = .text raw ∧ Denotes raw s.toList

/-- The patterns that a tree describes, or that it is null. -/
inductive DescribesPatterns : Tree → Option Patterns → Prop
  | null : DescribesPatterns (.word nullWord) none
  | single {t s} : t.Says s → DescribesPatterns t (some (.single s))
  | list {ts texts} : List.Forall₂ Tree.Says ts texts →
      DescribesPatterns (.array ts) (some (.list texts))

/-- The path that a tree describes, or that it is null. -/
inductive DescribesPath : Tree → Option String → Prop
  | null : DescribesPath (.word nullWord) none
  | path {t s} : t.Says s → DescribesPath t (some s)

/-- The mode that a tree describes: its name, or an object with its name as the only member. -/
inductive DescribesMode : Tree → Call.Mode → Prop
  | name {t m} : t.Says m.name → DescribesMode t m
  | only {raw m} : Denotes raw m.name.toList → DescribesMode (.object [(raw, .word nullWord)]) m

/-- Whether a field of options is what a tree describes. -/
def Options.Gives (o : Options) : Field → Tree → Prop
  | .patterns list, t => DescribesPatterns t (o.patterns? list)
  | .baseDir, t => DescribesPath t o.baseDir
  | .mode, t => DescribesMode t o.mode

/-! ### Values that are used -/

/-- What is read of a tree in a value that is used.  Nothing is said of numbers and objects, which
no field has. -/
inductive ReadAs : Tree → List Char → Value → List Char → Prop
  | null {rest} : ReadAs (.word nullWord) rest .null rest
  | bool {t b rest r} : ReadAs t rest (.bool b) r
  | number {t n rest r} : ReadAs t rest (.number n) r
  | text {t s rest} : t.Says s → ReadAs t rest (.text s) rest
  | emptyArray {rest} : ReadAs (.array []) rest (.array []) rest
  | array {depth ts inside vs rest r} : ElementsWritten ts inside rest →
      readItems (.use depth) inside = .ok (vs, r) → ReadAs (.array ts) rest (.array vs) r
  | object {t ms rest r} : ReadAs t rest (.object ms) r

variable {depth : Nat} {t : Tree} {cs rest r : List Char}

/-- **What a value that is used is read as.** -/
theorem readAs_of_readValue {v : Value} (h : Written t cs rest)
    (hread : readValue (.use depth) cs = .ok (v, r)) : ReadAs t rest v r := by
  cases h with
  | word hword hcs hrest =>
    rw [Json.readValue_word hword hcs] at hread
    rcases hword.readScalar_cases hrest (.use depth) with ⟨hnull, h⟩ | ⟨b, h⟩ | ⟨n, h⟩
    · rw [h] at hread
      obtain ⟨rfl, rfl⟩ := Prod.mk.inj (Except.ok.inj hread)
      rw [hnull]
      exact .null
    · rw [h] at hread
      obtain ⟨rfl, rfl⟩ := Prod.mk.inj (Except.ok.inj hread)
      exact .bool
    · rw [h] at hread
      split at hread
      · cases hread
      · obtain ⟨rfl, rfl⟩ := Prod.mk.inj (Except.ok.inj hread)
        exact .number
  | @text raw _ _ htext hcs =>
    rw [readValue_scalar hcs (by decide) (by decide)] at hread
    obtain ⟨⟨text, after⟩, htexts, h⟩ := map_eq_ok hread
    obtain ⟨rfl, rfl⟩ := Prod.mk.inj h
    obtain ⟨hdenotes, rfl⟩ := Json.denotes_of_readText htext htexts
    exact .text ⟨raw, rfl, by rwa [String.toList_ofList]⟩
  | emptyArray hcs hinside =>
    rw [readValue_eq, hcs] at hread
    cases depth with
    | zero => cases hread
    | succ depth =>
      simp only [if_true, Care.inside?, hinside] at hread
      obtain ⟨rfl, rfl⟩ := Prod.mk.inj (Except.ok.inj hread)
      exact .emptyArray
  | array hcs hts =>
    cases depth with
    | zero =>
      rw [readValue_eq, hcs] at hread
      cases hread
    | succ depth =>
      rw [readValue_of_skipSpace hcs, readValue_bracket rfl hts.head_ne] at hread
      obtain ⟨⟨vs, after⟩, helements, h⟩ := map_eq_ok hread
      obtain ⟨rfl, rfl⟩ := Prod.mk.inj h
      exact .array hts helements
  | emptyObject hcs hinside =>
    rw [readValue_eq, hcs] at hread
    cases depth with
    | zero => cases hread
    | succ depth =>
      simp only [Care.inside?, hinside] at hread
      obtain ⟨rfl, rfl⟩ := Prod.mk.inj (Except.ok.inj hread)
      exact .object
  | object hcs hms =>
    cases depth with
    | zero =>
      rw [readValue_eq, hcs] at hread
      cases hread
    | succ depth =>
      rw [readValue_of_skipSpace hcs, Json.readValue_brace rfl hms.head_ne] at hread
      obtain ⟨⟨ms, after⟩, -, h⟩ := map_eq_ok hread
      obtain ⟨rfl, rfl⟩ := Prod.mk.inj h
      exact .object

/-- A text in quotes is read as what it stands for. -/
theorem readValue_of_says {s : String} (h : Written t cs rest) (hsaid : t.Says s) :
    readValue (.use depth) cs = .ok (.text s, rest) := by
  obtain ⟨raw, rfl, hdenotes⟩ := hsaid
  cases h with
  | text _ hcs =>
    rw [readValue_scalar hcs (by decide) (by decide)]
    show (readText (.use depth) _).map _ = _
    rw [hdenotes.readText_eq]
    simp [Except.map]

theorem readValue_null (h : Written (.word nullWord) cs rest) :
    readValue (.use depth) cs = .ok (.null, rest) := by
  cases h with
  | word hword hcs =>
    rw [Json.readValue_word hword hcs]
    rfl

/-! ### Patterns -/

/-- **An array of texts is read as these texts.** -/
theorem readItems_of_says {ts : List Tree} {texts : List String}
    (h : List.Forall₂ Tree.Says ts texts) (hts : ElementsWritten ts cs rest) :
    readItems (.use depth) cs = .ok (texts.map .text, rest) := by
  induction h generalizing cs with
  | nil => exact nomatch hts
  | cons hsaid hmore ih =>
    cases hts with
    | last ht hmid =>
      rw [readItems_eq, readValue_of_says ht hsaid]
      cases hmore
      simp only [hmid]
      rfl
    | more ht hmid hts =>
      rw [readItems_eq, readValue_of_says ht hsaid]
      simp only [hmid, ih hts]
      rfl

theorem eq_map_of_mapM_text? {vs : List Value} {texts : List String}
    (h : vs.mapM text? = some texts) : vs = texts.map .text := by
  induction vs generalizing texts with
  | nil =>
    obtain rfl := Option.some.inj h
    rfl
  | cons v vs ih =>
    rw [List.mapM_cons] at h
    obtain ⟨s, hs, h⟩ := Option.bind_eq_some_iff.1 h
    obtain ⟨more, hmore, h⟩ := Option.bind_eq_some_iff.1 h
    obtain rfl := Option.some.inj h
    cases v with
    | text s' =>
      obtain rfl := Option.some.inj hs
      rw [ih hmore, List.map_cons]
    | _ => exact nomatch hs

theorem says_of_readValue {s : String} (h : Written t cs rest)
    (hread : readValue (.use depth) cs = .ok (.text s, r)) : t.Says s ∧ r = rest := by
  cases readAs_of_readValue h hread with
  | text hsaid => exact ⟨hsaid, rfl⟩

/-- **What is read as an array of texts is one.** -/
theorem says_of_readItems {ts : List Tree} {texts : List String} (hts : ElementsWritten ts cs rest)
    (hread : readItems (.use depth) cs = .ok (texts.map .text, r)) :
    List.Forall₂ Tree.Says ts texts ∧ r = rest := by
  induction ts generalizing cs texts with
  | nil => exact nomatch hts
  | cons t ts ih =>
    -- what is read first is a text, because all that is read are texts
    obtain ⟨v, mid, hvalue, hmore⟩ := Json.exists_of_readItems hread
    obtain ⟨s, more, rfl, rfl, hrest⟩ : ∃ s more, texts = s :: more ∧ v = .text s ∧
        ((skipSpace mid = ']' :: r ∧ more = []) ∨ ∃ next, skipSpace mid = ',' :: next ∧
          readItems (.use depth) next = .ok (more.map .text, r)) := by
      rcases hmore with ⟨hmid, hvs⟩ | ⟨next, vs, hmid, hvs, hall⟩
      · obtain ⟨s, more, rfl, rfl, hmore⟩ := List.map_eq_cons_iff.1 hvs
        exact ⟨s, more, rfl, rfl, .inl ⟨hmid, List.map_eq_nil_iff.1 hmore⟩⟩
      · obtain ⟨s, more, rfl, rfl, rfl⟩ := List.map_eq_cons_iff.1 hall
        exact ⟨s, more, rfl, rfl, .inr ⟨next, hmid, hvs⟩⟩
    cases hts with
    | last ht hend =>
      obtain ⟨hsaid, rfl⟩ := says_of_readValue ht hvalue
      rcases hrest with ⟨hmid, rfl⟩ | ⟨next, hmid, -⟩
      · exact ⟨.cons hsaid .nil, (List.cons.inj (hmid.symm.trans hend)).2⟩
      · exact absurd (List.cons.inj (hmid.symm.trans hend)).1 (by decide)
    | more ht hend hts =>
      obtain ⟨hsaid, rfl⟩ := says_of_readValue ht hvalue
      rcases hrest with ⟨hmid, -⟩ | ⟨next, hmid, hnext⟩
      · exact absurd (List.cons.inj (hmid.symm.trans hend)).1 (by decide)
      · obtain ⟨-, rfl⟩ := List.cons.inj (hmid.symm.trans hend)
        obtain ⟨hall, hr⟩ := ih hts hnext
        exact ⟨.cons hsaid hall, hr⟩

/-- A tree that describes patterns is read as null or as a value that describes them. -/
theorem DescribesPatterns.exists_readValue {p : Option Patterns} (h : DescribesPatterns t p)
    (ht : Written t cs rest) :
    ∃ v, readValue (.use (maxDepth - 1)) cs = .ok (v, rest) ∧
      ((v = .null ∧ p = none) ∨
        (v ≠ .null ∧ ∃ patterns, Patterns.ofValue? v = some patterns ∧ p = some patterns)) := by
  cases h with
  | null => exact ⟨.null, readValue_null ht, .inl ⟨rfl, rfl⟩⟩
  | @single _ s hsaid =>
    exact ⟨.text s, readValue_of_says ht hsaid, .inr ⟨fun h => (nomatch h), _, rfl, rfl⟩⟩
  | @list ts texts hall =>
    refine ⟨.array (texts.map .text), ?_, .inr ⟨fun h => (nomatch h), .list texts, ?_, rfl⟩⟩
    · cases ht with
      | emptyArray hcs hinside =>
        cases hall
        rw [readValue_eq, hcs]
        simp only [if_true, maxDepth, Care.inside?, hinside]
        rfl
      | array hcs hts =>
        rw [readValue_of_skipSpace hcs, readValue_bracket rfl hts.head_ne,
          readItems_of_says hall hts]
        rfl
    · rw [Patterns.ofValue?, mapM_text?]
      rfl

/-- **Patterns are read as what their tree describes.** -/
theorem readPatterns?_eq_ok_iff {p : Option Patterns} (h : Written t cs rest) :
    readPatterns? cs = .ok (p, r) ↔ DescribesPatterns t p ∧ r = rest := by
  constructor
  · intro hread
    obtain ⟨⟨v, after⟩, hvalue, hread⟩ := bind_eq_ok hread
    have hreadAs := readAs_of_readValue h (ofJson_eq_ok hvalue)
    dsimp only at hread
    split at hread
    · obtain ⟨rfl, rfl⟩ := Prod.mk.inj (Except.ok.inj hread)
      cases hreadAs
      exact ⟨.null, rfl⟩
    · split at hread
      · rename_i patterns hpatterns
        obtain ⟨rfl, rfl⟩ := Prod.mk.inj (Except.ok.inj hread)
        cases hreadAs with
        | null | bool | number | object => exact nomatch hpatterns
        | text hsaid =>
          obtain rfl := Option.some.inj hpatterns
          exact ⟨.single hsaid, rfl⟩
        | emptyArray =>
          obtain rfl := Option.some.inj hpatterns
          exact ⟨.list .nil, rfl⟩
        | array hts helements =>
          obtain ⟨texts, htexts, rfl⟩ := Option.map_eq_some_iff.1 hpatterns
          rw [eq_map_of_mapM_text? htexts] at helements
          obtain ⟨hall, hr⟩ := says_of_readItems hts helements
          exact ⟨.list hall, hr⟩
      · exact nomatch hread
  · intro hdescribes
    obtain ⟨hdescribes, rfl⟩ := hdescribes
    obtain ⟨v, hvalue, hp⟩ := hdescribes.exists_readValue h
    rw [readPatterns?, hvalue]
    rcases hp with ⟨rfl, rfl⟩ | ⟨hv, patterns, hpatterns, rfl⟩
    · rfl
    · simp only [ofJson, bind, Except.bind, hpatterns]
      rfl

/-! ### Paths -/

/-- What is read where no array and no object can stand is read as in a value. -/
theorem readValue_of_readPlain {expected : Expected} {v : Value}
    (h : readPlain expected cs = .ok (v, r)) : readValue (.use 0) cs = .ok (v, r) := by
  unfold readPlain at h
  split at h
  · exact nomatch h
  · exact nomatch h
  · rename_i hbracket hbrace
    have hread := ofJson_eq_ok h
    cases hcs : skipSpace cs with
    | nil =>
      rw [hcs] at hread
      exact nomatch hread
    | cons c inside =>
      rw [hcs] at hread
      rw [readValue_scalar hcs, hread]
      · rintro rfl
        exact hbracket inside hcs
      · rintro rfl
        exact hbrace inside hcs

theorem readPlain_scalar {c : Char} {inside : List Char} (hcs : skipSpace cs = c :: inside)
    (hbracket : c ≠ '[') (hbrace : c ≠ '\x7b') (expected : Expected) :
    readPlain expected cs = ofJson (readValue (.use 0) cs) := by
  rw [readValue_scalar hcs hbracket hbrace]
  unfold readPlain
  split
  · rename_i heq
    exact absurd (List.cons.inj (hcs.symm.trans heq)).1 hbracket
  · rename_i heq
    exact absurd (List.cons.inj (hcs.symm.trans heq)).1 hbrace
  · rw [hcs]

theorem readPlain_null (h : Written (.word nullWord) cs rest) (expected : Expected) :
    readPlain expected cs = .ok (.null, rest) := by
  have hread : readValue (.use 0) cs = .ok (.null, rest) := readValue_null h
  cases h with
  | word _ hcs => rw [readPlain_scalar hcs (by decide) (by decide), hread]; rfl

theorem readPlain_of_says {s : String} (h : Written t cs rest) (hsaid : t.Says s)
    (expected : Expected) : readPlain expected cs = .ok (.text s, rest) := by
  have hread : readValue (.use 0) cs = .ok (.text s, rest) := readValue_of_says h hsaid
  obtain ⟨raw, rfl, -⟩ := hsaid
  cases h with
  | text _ hcs => rw [readPlain_scalar hcs (by decide) (by decide), hread]; rfl

/-- **A path is read as what its tree describes.** -/
theorem readPath?_eq_ok_iff {p : Option String} (h : Written t cs rest) :
    readPath? cs = .ok (p, r) ↔ DescribesPath t p ∧ r = rest := by
  constructor
  · intro hread
    obtain ⟨⟨v, after⟩, hvalue, hread⟩ := bind_eq_ok hread
    have hreadAs := readAs_of_readValue h (readValue_of_readPlain hvalue)
    dsimp only at hread
    split at hread
    · obtain ⟨rfl, rfl⟩ := Prod.mk.inj (Except.ok.inj hread)
      cases hreadAs
      exact ⟨.null, rfl⟩
    · obtain ⟨rfl, rfl⟩ := Prod.mk.inj (Except.ok.inj hread)
      cases hreadAs with
      | text hsaid => exact ⟨.path hsaid, rfl⟩
    · exact nomatch hread
  · intro hdescribes
    obtain ⟨hdescribes, rfl⟩ := hdescribes
    cases hdescribes with
    | null => rw [readPath?, readPlain_null h]; rfl
    | path hsaid => rw [readPath?, readPlain_of_says h hsaid]; rfl

/-! ### Modes -/

theorem readNull_eq_ok_iff (h : Written t cs rest) :
    readNull cs = .ok ((), r) ↔ t = .word nullWord ∧ r = rest := by
  constructor
  · intro hread
    obtain ⟨⟨v, after⟩, hvalue, hread⟩ := bind_eq_ok hread
    have hreadAs := readAs_of_readValue h (readValue_of_readPlain hvalue)
    dsimp only at hread
    split at hread
    · obtain ⟨-, rfl⟩ := Prod.mk.inj (Except.ok.inj hread)
      cases hreadAs
      exact ⟨rfl, rfl⟩
    · exact nomatch hread
  · intro hnull
    obtain ⟨rfl, rfl⟩ := hnull
    rw [readNull, readPlain_null h]
    rfl

/-- **A name is read as what it stands for.** -/
theorem readName_eq_ok_iff {raw mid : List Char} {name : String} (htext : IsText raw)
    (hcs : skipSpace cs = '\x22' :: (raw ++ '\x22' :: mid)) :
    readName (.use depth) cs = .ok (name, r) ↔ Denotes raw name.toList ∧ r = mid := by
  have hname : readName (.use depth) cs = (readText (.use depth) (raw ++ '\x22' :: mid)).map
      fun p => (String.ofList p.1, p.2) := by
    rw [readName, hcs]
    rfl
  rw [hname]
  constructor
  · intro hread
    obtain ⟨⟨text, after⟩, htexts, h⟩ := map_eq_ok hread
    obtain ⟨rfl, rfl⟩ := Prod.mk.inj h
    obtain ⟨hdenotes, rfl⟩ := Json.denotes_of_readText htext htexts
    exact ⟨by rwa [String.toList_ofList], rfl⟩
  · intro hdenotes
    obtain ⟨hdenotes, rfl⟩ := hdenotes
    rw [hdenotes.readText_eq]
    simp [Except.map]

theorem Call.Mode.ofName?_eq_some_iff {name : String} {m : Call.Mode} :
    Call.Mode.ofName? name = some m ↔ name = m.name := by
  constructor
  · intro h
    have hname := List.find?_some (p := fun mode : Call.Mode => mode.name == name) h
    exact (beq_iff_eq.1 hname).symm
  · rintro rfl
    exact Call.Mode.ofName?_name m

theorem readModeName_eq_ok_iff {raw mid : List Char} {m : Call.Mode} (htext : IsText raw)
    (hcs : skipSpace cs = '\x22' :: (raw ++ '\x22' :: mid)) :
    readModeName cs = .ok (m, r) ↔ Denotes raw m.name.toList ∧ r = mid := by
  constructor
  · intro hread
    obtain ⟨⟨name, after⟩, hname, hread⟩ := bind_eq_ok hread
    obtain ⟨hdenotes, rfl⟩ := (readName_eq_ok_iff htext hcs).1 (ofJson_eq_ok hname)
    dsimp only at hread
    split at hread
    · rename_i mode hmode
      obtain ⟨rfl, rfl⟩ := Prod.mk.inj (Except.ok.inj hread)
      rw [Call.Mode.ofName?_eq_some_iff.1 hmode] at hdenotes
      exact ⟨hdenotes, rfl⟩
    · exact nomatch hread
  · intro hdenotes
    have hname : readName (.use 0) cs = .ok (m.name, r) := (readName_eq_ok_iff htext hcs).2 hdenotes
    rw [readModeName, hname]
    simp only [ofJson, bind, Except.bind, Call.Mode.ofName?_name]
    rfl

theorem readMode_quote {inside : List Char} (hcs : skipSpace cs = '\x22' :: inside) :
    readMode cs = readModeName ('\x22' :: inside) := by
  rw [readMode, hcs]
  rfl

theorem readMode_brace {inside : List Char} (hcs : skipSpace cs = '\x7b' :: inside) :
    readMode cs = (do
      let (mode, afterName) ← readModeName inside
      let afterColon ← ofJson (readColon afterName)
      let (_, afterNull) ← readNull afterColon
      let rest ← readBrace afterNull
      return (mode, rest)) := by
  rw [readMode, hcs]
  rfl

theorem readBrace_eq_ok_iff {cs after : List Char} :
    readBrace cs = .ok after ↔ skipSpace cs = '\x7d' :: after := by
  unfold readBrace
  split
  · rename_i hcs
    simp [hcs]
  · rename_i hcs
    exact ⟨fun h => (nomatch h), fun h => absurd h (hcs after)⟩

/-- What the reader of modes has done with an object, if it gave an answer. -/
theorem exists_of_readMode_brace {inside : List Char} {m : Call.Mode}
    (hcs : skipSpace cs = '\x7b' :: inside) (h : readMode cs = .ok (m, r)) :
    ∃ mid value last, readModeName inside = .ok (m, mid) ∧ readColon mid = .ok value ∧
      readNull value = .ok ((), last) ∧ skipSpace last = '\x7d' :: r := by
  rw [readMode_brace hcs] at h
  obtain ⟨⟨mode, mid⟩, hname, h⟩ := bind_eq_ok h
  obtain ⟨value, hcolon, h⟩ := bind_eq_ok h
  obtain ⟨⟨_, last⟩, hnull, h⟩ := bind_eq_ok h
  obtain ⟨after, hbrace, h⟩ := bind_eq_ok h
  obtain ⟨rfl, rfl⟩ := Prod.mk.inj (Except.ok.inj h)
  exact ⟨mid, value, last, hname, ofJson_eq_ok hcolon, hnull, readBrace_eq_ok_iff.1 hbrace⟩

theorem describesMode_of_readMode {m : Call.Mode} (h : Written t cs rest)
    (hread : readMode cs = .ok (m, r)) : DescribesMode t m ∧ r = rest := by
  cases h with
  | word hword hcs =>
    obtain ⟨c, tail, rfl, -, -, hbrace, hquote⟩ := hword.exists_cons
    unfold readMode at hread
    split at hread
    · rename_i heq
      exact absurd (List.cons.inj (hcs.symm.trans heq)).1 hquote
    · rename_i heq
      exact absurd (List.cons.inj (hcs.symm.trans heq)).1 hbrace
    · cases hread
  | @text raw _ _ htext hcs =>
    rw [readMode_quote hcs] at hread
    obtain ⟨hdenotes, rfl⟩ :=
      (readModeName_eq_ok_iff htext (Json.skipSpace_cons (by decide) _)).1 hread
    exact ⟨.name ⟨raw, rfl, hdenotes⟩, rfl⟩
  | emptyArray hcs | array hcs =>
    rw [readMode, hcs] at hread
    cases hread
  | emptyObject hcs hinside =>
    obtain ⟨_, _, _, hname, -⟩ := exists_of_readMode_brace hcs hread
    obtain ⟨_, hname, -⟩ := bind_eq_ok hname
    rw [readName, hinside] at hname
    cases hname
  | object hcs hms =>
    obtain ⟨_, _, _, hname, hcolon, hnull, hbrace⟩ := exists_of_readMode_brace hcs hread
    cases hms with
    | last hwritten ht hend =>
      obtain ⟨htext, mid, hinside, hmid⟩ := hwritten
      obtain ⟨hdenotes, rfl⟩ := (readModeName_eq_ok_iff htext hinside).1 hname
      obtain rfl := Except.ok.inj ((Json.readColon_of_skipSpace hmid).symm.trans hcolon)
      obtain ⟨rfl, rfl⟩ := (readNull_eq_ok_iff ht).1 hnull
      exact ⟨.only hdenotes, (List.cons.inj (hbrace.symm.trans hend)).2⟩
    | more hwritten ht hend =>
      -- a comma comes next, where the reader looks for the end of the object
      obtain ⟨htext, mid, hinside, hmid⟩ := hwritten
      obtain ⟨-, rfl⟩ := (readModeName_eq_ok_iff htext hinside).1 hname
      obtain rfl := Except.ok.inj ((Json.readColon_of_skipSpace hmid).symm.trans hcolon)
      obtain ⟨-, rfl⟩ := (readNull_eq_ok_iff ht).1 hnull
      exact absurd (List.cons.inj (hbrace.symm.trans hend)).1 (by decide)

theorem readMode_of_describesMode {m : Call.Mode} (h : Written t cs rest)
    (hdescribes : DescribesMode t m) : readMode cs = .ok (m, rest) := by
  cases hdescribes with
  | name hsaid =>
    obtain ⟨raw, rfl, hdenotes⟩ := hsaid
    cases h with
    | text htext hcs =>
      rw [readMode_quote hcs]
      exact (readModeName_eq_ok_iff htext (Json.skipSpace_cons (by decide) _)).2 ⟨hdenotes, rfl⟩
  | only hdenotes =>
    cases h with
    | object hcs hms =>
      cases hms with
      | last hwritten ht hend =>
        obtain ⟨htext, mid, hinside, hmid⟩ := hwritten
        have hname := (readModeName_eq_ok_iff htext hinside).2 ⟨hdenotes, rfl⟩
        have hnull := (readNull_eq_ok_iff ht).2 ⟨rfl, rfl⟩
        rw [readMode_brace hcs, hname]
        simp only [bind, Except.bind, Json.readColon_of_skipSpace hmid, ofJson, hnull,
          readBrace_eq_ok_iff.2 hend]
        rfl
      | more _ _ _ hms => cases hms

/-- **A mode is read as what its tree describes.** -/
theorem readMode_eq_ok_iff {m : Call.Mode} (h : Written t cs rest) :
    readMode cs = .ok (m, r) ↔ DescribesMode t m ∧ r = rest := by
  constructor
  · exact describesMode_of_readMode h
  · intro hdescribes
    obtain ⟨hdescribes, rfl⟩ := hdescribes
    exact readMode_of_describesMode h hdescribes

/-! ### Fields -/

/-- **A field is set to what its value describes**, and to nothing else. -/
theorem Options.readField_eq_ok_iff {o o' : Options} {f : Field} (h : Written t cs rest) :
    o.readField f cs = .ok (o', r) ↔
      (∃ source : Options, source.Gives f t ∧ o' = withField source o f) ∧ r = rest := by
  constructor
  · intro hread
    cases f with
    | patterns list =>
      obtain ⟨⟨p, after⟩, hp, hread⟩ := map_eq_ok hread
      obtain ⟨rfl, rfl⟩ := Prod.mk.inj hread
      obtain ⟨hdescribes, rfl⟩ := (readPatterns?_eq_ok_iff h).1 hp
      cases list with
      | included => exact ⟨⟨o.withPatterns p .included, hdescribes, rfl⟩, rfl⟩
      | excluded => exact ⟨⟨o.withPatterns p .excluded, hdescribes, rfl⟩, rfl⟩
    | baseDir =>
      obtain ⟨⟨p, after⟩, hp, hread⟩ := map_eq_ok hread
      obtain ⟨rfl, rfl⟩ := Prod.mk.inj hread
      obtain ⟨hdescribes, rfl⟩ := (readPath?_eq_ok_iff h).1 hp
      exact ⟨⟨{ o with baseDir := p }, hdescribes, rfl⟩, rfl⟩
    | mode =>
      obtain ⟨⟨m, after⟩, hm, hread⟩ := map_eq_ok hread
      obtain ⟨rfl, rfl⟩ := Prod.mk.inj hread
      obtain ⟨hdescribes, rfl⟩ := (readMode_eq_ok_iff h).1 hm
      exact ⟨⟨{ o with mode := m }, hdescribes, rfl⟩, rfl⟩
  · intro hset
    obtain ⟨⟨source, hgives, rfl⟩, rfl⟩ := hset
    cases f with
    | patterns list => rw [readField, (readPatterns?_eq_ok_iff h).2 ⟨hgives, rfl⟩]; rfl
    | baseDir => rw [readField, (readPath?_eq_ok_iff h).2 ⟨hgives, rfl⟩]; rfl
    | mode => rw [readField, (readMode_eq_ok_iff h).2 ⟨hgives, rfl⟩]; rfl

end CallHarvest
