import CallHarvest.Proofs.Json.Grammar
import CallHarvest.Proofs.Json.Quote
import Mathlib.Data.List.DropRight

/-!
# What is written is read

Texts and words are read to their end, and every value can be skimmed.  What stands between the
quotes of a text that is used is read if it stands for something, and as what it stands for.

* `Denotes.readText_eq`, `denotes_of_readText` — a text that is used.
* `IsText.exists_readText` — a text that is skimmed, whatever its surrogates.
* `IsNumber.exists_readNumeral`, `IsWord.readScalar_cases` — numbers and other words.
* `readPairs_eq`, `readValue_brace` — how the members of an object are read.
* `Written.readValue_skim` — every value is skimmed.
-/

namespace CallHarvest.Json

variable {care : Care} {depth : Nat}

/-! ### Escapes -/

theorem readText_plain {c : Char} (hquote : c ≠ '\x22') (hslash : c ≠ '\\')
    (hcode : 0x20 ≤ c.toNat) (rest : List Char) :
    readText care (c :: rest) = (readText care rest).map (consText c) := by
  rw [readText, if_neg hquote, if_neg hslash, if_neg (by omega)]

theorem ne_u_of_lookup {e c : Char} (h : escapes.lookup e = some c) : e ≠ 'u' := by
  rintro rfl
  have hnone : escapes.lookup 'u' = none := by decide
  exact nomatch hnone.symm.trans h

theorem readEscape_letter {e c : Char} (h : escapes.lookup e = some c) (rest : List Char) :
    readEscape care (e :: rest) = .ok (c, rest) := by
  rw [readEscape, if_neg (ne_u_of_lookup h), h]

theorem readHex_of_hexValue? {a b c d : Char} {n : Nat} (h : hexValue? [a, b, c, d] = some n)
    (rest : List Char) : readHex (a :: b :: c :: d :: rest) = .ok (n, rest) := by
  rw [readHex, h]

/-- How a numbered escape is read. -/
theorem readEscape_numbered (care : Care) {a b c d : Char} {n : Nat}
    (h : hexValue? [a, b, c, d] = some n) (rest : List Char) :
    readEscape care ('u' :: a :: b :: c :: d :: rest) =
      if care.isUse && isLowSurrogate n then .error .malformed
      else if care.isUse && isHighSurrogate n then readPartner n rest
      else .ok (charOf n, rest) := by
  rw [readEscape, if_pos rfl, readNumbered, readHex_of_hexValue? h]
  rfl

/-- A text that goes on with an escape is read from what the escape stands for. -/
theorem exists_of_readText_escape {cs text rest : List Char}
    (h : readText care ('\\' :: cs) = .ok (text, rest)) :
    ∃ c after text', readEscape care cs = .ok (c, after) ∧
      readText care after = .ok (text', rest) ∧ text = c :: text' := by
  cases hescape : readEscape care cs with
  | error fault =>
    rw [readText, if_neg (by decide), if_pos rfl] at h
    split at h
    · rename_i heq
      cases hescape.symm.trans heq
    · cases h
  | ok p =>
    obtain ⟨c, after⟩ := p
    rw [readText_escape hescape] at h
    obtain ⟨⟨text', r⟩, hread, h⟩ := map_eq_ok h
    obtain ⟨rfl, rfl⟩ := Prod.mk.inj h
    exact ⟨c, after, text', rfl, hread, rfl⟩

/-! ### Texts -/

/-- **What stands between quotes is skimmed**, whatever its surrogates. -/
theorem IsText.exists_readText {raw : List Char} (h : IsText raw) :
    ∃ text, ∀ rest, readText .skim (raw ++ '\x22' :: rest) = .ok (text, rest) := by
  induction h with
  | nil => exact ⟨[], fun rest => by rw [List.nil_append, readText, if_pos rfl]⟩
  | @plain c raw hquote hslash hcode _ ih =>
    obtain ⟨text, hread⟩ := ih
    refine ⟨c :: text, fun rest => ?_⟩
    rw [List.cons_append, readText_plain hquote hslash hcode, hread]
    rfl
  | @letter e c raw hletter _ ih =>
    obtain ⟨text, hread⟩ := ih
    refine ⟨c :: text, fun rest => ?_⟩
    rw [List.cons_append, List.cons_append, readText_escape (readEscape_letter hletter _), hread]
    rfl
  | @numbered a b c d n raw hvalue _ ih =>
    obtain ⟨text, hread⟩ := ih
    refine ⟨charOf n :: text, fun rest => ?_⟩
    have hescape := readEscape_numbered .skim hvalue (raw ++ '\x22' :: rest)
    simp only [Care.isUse, Bool.false_and, Bool.false_eq_true, if_false] at hescape
    simp only [List.cons_append]
    rw [readText_escape hescape, hread]
    rfl

theorem readPartner_of_hexValue? {a b c d : Char} {high low : Nat}
    (hvalue : hexValue? [a, b, c, d] = some low) (hlow : isLowSurrogate low = true)
    (rest : List Char) :
    readPartner high ('\\' :: 'u' :: a :: b :: c :: d :: rest) =
      .ok (Char.ofNat (0x10000 + (high - 0xD800) * 0x400 + (low - 0xDC00)), rest) := by
  have hread : readHex (a :: b :: c :: d :: rest) = .ok (low, rest) := readHex_of_hexValue? hvalue _
  simp [readPartner, readWord, hread, hlow, bind, Except.bind]

/-- **What stands between quotes is read as what it stands for.** -/
theorem Denotes.readText_eq {raw text : List Char} (h : Denotes raw text) (rest : List Char) :
    readText (.use depth) (raw ++ '\x22' :: rest) = .ok (text, rest) := by
  induction h with
  | nil => rw [List.nil_append, readText, if_pos rfl]
  | plain hquote hslash hcode _ ih =>
    rw [List.cons_append, readText_plain hquote hslash hcode, ih]
    rfl
  | letter hletter _ ih =>
    rw [List.cons_append, List.cons_append, readText_escape (readEscape_letter hletter _), ih]
    rfl
  | @numbered a b c d n raw text hvalue hhigh hlow _ ih =>
    have hescape := readEscape_numbered (.use depth) hvalue (raw ++ '\x22' :: rest)
    have hchar : charOf n = Char.ofNat n := by simp [charOf, hhigh, hlow]
    simp only [hhigh, hlow, Bool.and_false, Bool.false_eq_true, if_false, hchar] at hescape
    simp only [List.cons_append]
    rw [readText_escape hescape, ih]
    rfl
  | @pair a b c d a' b' c' d' high low raw text hvalue hhigh hvalue' hlow _ ih =>
    have hnot : isLowSurrogate high = false := by
      simp only [isHighSurrogate, isLowSurrogate, Bool.and_eq_true, Bool.and_eq_false_iff,
        decide_eq_true_eq, decide_eq_false_iff_not] at hhigh ⊢
      omega
    have hescape := readEscape_numbered (.use depth) hvalue
      ('\\' :: 'u' :: a' :: b' :: c' :: d' :: (raw ++ '\x22' :: rest))
    simp only [hhigh, hnot, Care.isUse, Bool.and_true, Bool.and_false, Bool.false_eq_true, if_false,
      if_true, readPartner_of_hexValue? hvalue' hlow] at hescape
    simp only [List.cons_append]
    rw [readText_escape hescape, ih]
    rfl

/-- Characters that need no escape stand for themselves. -/
theorem denotes_self {raw : List Char}
    (h : (raw.all fun c => c != '\x22' && c != '\\' && 0x20 ≤ c.toNat) = true) :
    Denotes raw raw := by
  induction raw with
  | nil => exact .nil
  | cons c raw ih =>
    simp only [List.all_cons, Bool.and_eq_true, bne_iff_ne, decide_eq_true_eq] at h
    obtain ⟨⟨⟨hquote, hslash⟩, hcode⟩, hraw⟩ := h
    exact .plain hquote hslash hcode (ih (List.all_eq_true.2 (by simpa using hraw)))

theorem Denotes.isText {raw text : List Char} (h : Denotes raw text) : IsText raw := by
  induction h with
  | nil => exact .nil
  | plain hquote hslash hcode _ ih => exact .plain hquote hslash hcode ih
  | letter hletter _ ih => exact .letter hletter ih
  | numbered hvalue _ _ _ ih => exact .numbered hvalue ih
  | pair hvalue _ hvalue' _ _ ih => exact .numbered hvalue (.numbered hvalue' ih)

/-- The other surrogate of a pair is written after the first one. -/
theorem exists_of_readPartner {high : Nat} {raw rest after : List Char} {c : Char}
    (htext : IsText raw) (h : readPartner high (raw ++ '\x22' :: rest) = .ok (c, after)) :
    ∃ a b c' d low more, raw = '\\' :: 'u' :: a :: b :: c' :: d :: more ∧ IsText more ∧
      hexValue? [a, b, c', d] = some low ∧ isLowSurrogate low = true ∧
      c = Char.ofNat (0x10000 + (high - 0xD800) * 0x400 + (low - 0xDC00)) ∧
      after = more ++ '\x22' :: rest := by
  obtain ⟨mid, hword, h⟩ := bind_eq_ok h
  cases htext with
  | nil => cases hword
  | @plain d raw _ hslash =>
    rw [List.cons_append, readWord, if_neg (Ne.symm hslash)] at hword
    cases hword
  | @letter e d raw hletter =>
    rw [List.cons_append, List.cons_append, readWord, if_pos rfl, readWord,
      if_neg (ne_u_of_lookup hletter).symm] at hword
    cases hword
  | @numbered a b c' d low more hvalue hmore =>
    simp only [List.cons_append, readWord, if_true, Except.ok.injEq] at hword
    subst hword
    obtain ⟨⟨low', r⟩, hhex, h⟩ := bind_eq_ok h
    rw [readHex_of_hexValue? hvalue] at hhex
    obtain ⟨rfl, rfl⟩ := Prod.mk.inj (Except.ok.inj hhex)
    dsimp only at h
    split at h
    · rename_i hlow
      obtain ⟨rfl, rfl⟩ := Prod.mk.inj (Except.ok.inj h)
      exact ⟨a, b, c', d, low, more, rfl, hmore, hvalue, hlow, rfl, rfl⟩
    · cases h

/-- **What is read between quotes is what they stand for.**  A pair of surrogates is one escape
after another, so the induction is on the length. -/
theorem denotes_of_readText {raw text rest after : List Char} (htext : IsText raw)
    (h : readText (.use depth) (raw ++ '\x22' :: rest) = .ok (text, after)) :
    Denotes raw text ∧ after = rest := by
  cases htext with
  | nil =>
    rw [List.nil_append, readText, if_pos rfl] at h
    obtain ⟨rfl, rfl⟩ := Prod.mk.inj (Except.ok.inj h)
    exact ⟨.nil, rfl⟩
  | @plain c raw hquote hslash hcode hraw =>
    rw [List.cons_append, readText_plain hquote hslash hcode] at h
    obtain ⟨⟨text', r⟩, hread, h⟩ := map_eq_ok h
    obtain ⟨rfl, rfl⟩ := Prod.mk.inj h
    obtain ⟨hdenotes, rfl⟩ := denotes_of_readText hraw hread
    exact ⟨.plain hquote hslash hcode hdenotes, rfl⟩
  | @letter e c raw hletter hraw =>
    rw [List.cons_append, List.cons_append] at h
    obtain ⟨c', mid, text', hescape, hread, rfl⟩ := exists_of_readText_escape h
    rw [readEscape_letter hletter] at hescape
    obtain ⟨rfl, rfl⟩ := Prod.mk.inj (Except.ok.inj hescape)
    obtain ⟨hdenotes, rfl⟩ := denotes_of_readText hraw hread
    exact ⟨.letter hletter hdenotes, rfl⟩
  | @numbered a b c d n raw hvalue hraw =>
    simp only [List.cons_append] at h
    obtain ⟨c', mid, text', hescape, hread, rfl⟩ := exists_of_readText_escape h
    rw [readEscape_numbered _ hvalue] at hescape
    simp only [Care.isUse, Bool.true_and] at hescape
    split at hescape
    · cases hescape
    · rename_i hlow
      split at hescape
      · rename_i hhigh
        obtain ⟨a', b', c₁, d', low, more, rfl, hmore, hvalue', hlow', hchar, rfl⟩ :=
          exists_of_readPartner hraw hescape
        obtain ⟨hdenotes, rfl⟩ := denotes_of_readText hmore hread
        rw [hchar]
        exact ⟨.pair hvalue hhigh hvalue' hlow' hdenotes, rfl⟩
      · rename_i hhigh
        obtain ⟨rfl, rfl⟩ := Prod.mk.inj (Except.ok.inj hescape)
        obtain ⟨hdenotes, rfl⟩ := denotes_of_readText hraw hread
        rw [Bool.not_eq_true] at hlow hhigh
        have hchar : charOf n = Char.ofNat n := by simp [charOf, hhigh, hlow]
        rw [hchar]
        exact ⟨.numbered hvalue hhigh hlow hdenotes, rfl⟩
termination_by raw.length

/-! ### Numbers -/

/-- Whether no digit comes next. -/
def NoDigit (cs : List Char) : Prop :=
  ∀ c, cs.head? = some c → c.isDigit = false

theorem NoDigit.cons {c : Char} (h : c.isDigit = false) (cs : List Char) : NoDigit (c :: cs) := by
  intro d hd
  obtain rfl := Option.some.inj hd
  exact h

theorem IsBreak.of_head? {rest : List Char} (h : IsBreak rest) {c : Char}
    (hc : rest.head? = some c) : c.isDigit = false ∧ c ≠ '.' ∧ c ≠ 'e' ∧ c ≠ 'E' := by
  rcases h c hc with hspace | rfl | rfl | rfl
  · simp only [isSpace, Bool.or_eq_true, beq_iff_eq] at hspace
    rcases hspace with ((rfl | rfl) | rfl) | rfl <;> decide
  all_goals decide

theorem IsBreak.noDigit {rest : List Char} (h : IsBreak rest) : NoDigit rest :=
  fun _ hc => (h.of_head? hc).1

/-- **Digits are read to their end.** -/
theorem readDigits_append {digits rest : List Char} (h : IsDigits digits) (hrest : NoDigit rest) :
    readDigits care (digits ++ rest) = .ok (digits, rest) := by
  have htake : (digits ++ rest).takeWhile Char.isDigit = digits := by
    rw [List.takeWhile_append_of_pos h.2]
    cases rest with
    | nil => rw [List.takeWhile_nil, List.append_nil]
    | cons c rest =>
      rw [List.takeWhile_cons_of_neg (by simp [hrest c rfl]), List.append_nil]
  have hdrop : (digits ++ rest).dropWhile Char.isDigit = rest := by
    rw [List.dropWhile_append_of_pos h.2]
    cases rest with
    | nil => rfl
    | cons c rest => exact List.dropWhile_cons_of_neg (by simp [hrest c rfl])
  obtain ⟨c, more, rfl⟩ := List.exists_cons_of_ne_nil h.1
  rw [readDigits, htake, hdrop]

theorem readWhole_append {whole rest : List Char} (h : IsWhole whole) (hrest : NoDigit rest) :
    readWhole care (whole ++ rest) = .ok (whole, rest) := by
  have hzero : ¬ (whole.head? = some '0' ∧ whole.length ≠ 1) := by
    intro hlong
    rw [h.2 hlong.1] at hlong
    exact hlong.2 rfl
  rw [readWhole, readDigits_append h.1 hrest]
  exact if_neg hzero

theorem readFraction_append (care : Care) {fraction rest : List Char} (h : IsFraction fraction)
    (hrest : NoDigit rest) (hpoint : rest.head? ≠ some '.') :
    ∃ digits?, readFraction care (fraction ++ rest) = .ok (digits?, rest) := by
  cases h with
  | none =>
    refine ⟨none, ?_⟩
    rw [List.nil_append]
    unfold readFraction
    split
    · exact absurd rfl hpoint
    · rfl
  | @some digits hdigits =>
    refine ⟨some digits, ?_⟩
    rw [List.cons_append, readFraction, readDigits_append hdigits hrest]
    rfl

theorem takeSign_append {sign digits : List Char} (h : sign = [] ∨ sign = ['+'] ∨ sign = ['-'])
    (hdigits : IsDigits digits) (rest : List Char) :
    ∃ minus, takeSign (sign ++ digits ++ rest) = (minus, digits ++ rest) := by
  rcases h with rfl | rfl | rfl
  · obtain ⟨c, digits, rfl⟩ := List.exists_cons_of_ne_nil hdigits.1
    have hc := hdigits.2 c List.mem_cons_self
    refine ⟨false, ?_⟩
    simp only [List.nil_append, List.cons_append]
    unfold takeSign takeMinus
    split
    · rename_i heq
      obtain ⟨rfl, -⟩ := List.cons.inj heq
      exact absurd hc (by decide)
    · split
      · rename_i heq
        obtain ⟨rfl, -⟩ := List.cons.inj heq
        exact absurd hc (by decide)
      · rfl
  · exact ⟨false, rfl⟩
  · exact ⟨true, rfl⟩

theorem readExponent_append (care : Care) {exponent rest : List Char} (h : IsExponent exponent)
    (hrest : IsBreak rest) :
    ∃ digits?, readExponent care (exponent ++ rest) = .ok (digits?, rest) := by
  cases h with
  | none =>
    refine ⟨none, ?_⟩
    cases rest with
    | nil => rfl
    | cons c rest =>
      obtain ⟨-, -, hsmall, hlarge⟩ := hrest.of_head? rfl
      exact if_neg (not_or.2 ⟨hsmall, hlarge⟩)
  | @some e sign digits he hsign hdigits =>
    obtain ⟨minus, htake⟩ := takeSign_append hsign hdigits rest
    refine ⟨some (minus, digits), ?_⟩
    rw [List.cons_append, readExponent, if_pos he, htake, readDigits_append hdigits hrest.noDigit]
    rfl

theorem head?_exponent_append {exponent : List Char} (h : IsExponent exponent) {rest : List Char}
    (hrest : IsBreak rest) : NoDigit (exponent ++ rest) ∧ (exponent ++ rest).head? ≠ some '.' := by
  cases h with
  | none => exact ⟨hrest.noDigit, fun hpoint => (hrest.of_head? hpoint).2.1 rfl⟩
  | some he =>
    rcases he with rfl | rfl
    · exact ⟨.cons (by decide) _, by simp⟩
    · exact ⟨.cons (by decide) _, by simp⟩

theorem IsFraction.noDigit {fraction : List Char} (h : IsFraction fraction) {rest : List Char}
    (hrest : NoDigit rest) : NoDigit (fraction ++ rest) := by
  cases h with
  | none => exact hrest
  | some => exact .cons (by decide) _

/-- **A number is read to its end.** -/
theorem IsNumber.exists_readNumeral {raw rest : List Char} (h : IsNumber raw)
    (hrest : IsBreak rest) (care : Care) : ∃ n, readNumeral care (raw ++ rest) = .ok (n, rest) := by
  obtain ⟨hsign, hwhole, hfraction, hexponent⟩ := h
  rename_i sign whole fraction exponent
  obtain ⟨hnext, hpoint⟩ := head?_exponent_append hexponent hrest
  obtain ⟨digits?, hreadFraction⟩ := readFraction_append care hfraction hnext hpoint
  obtain ⟨exponent?, hreadExponent⟩ := readExponent_append care hexponent hrest
  have hreadWhole : readWhole care _ = _ := readWhole_append hwhole (hfraction.noDigit hnext)
  obtain ⟨minus, hminus⟩ : ∃ minus,
      takeMinus (sign ++ (whole ++ (fraction ++ (exponent ++ rest)))) =
        (minus, whole ++ (fraction ++ (exponent ++ rest))) := by
    rcases hsign with rfl | rfl
    · obtain ⟨c, digits, rfl⟩ := List.exists_cons_of_ne_nil hwhole.1.1
      have hc := hwhole.1.2 c List.mem_cons_self
      refine ⟨false, ?_⟩
      unfold takeMinus
      split
      · rename_i heq
        obtain ⟨rfl, -⟩ := List.cons.inj heq
        exact absurd hc (by decide)
      · rfl
    · exact ⟨true, rfl⟩
  refine ⟨⟨minus, whole, digits?, exponent?⟩, ?_⟩
  simp only [List.append_assoc]
  simp only [readNumeral, hminus, hreadWhole, hreadFraction, hreadExponent, bind, Except.bind]
  rfl

/-! ### Words -/

/-- A number begins with a sign or a digit. -/
theorem IsNumber.exists_cons {raw : List Char} (h : IsNumber raw) :
    ∃ c tail, raw = c :: tail ∧ (c = '-' ∨ c.isDigit = true) := by
  obtain ⟨hsign, hwhole, -, -⟩ := h
  rcases hsign with rfl | rfl
  · obtain ⟨c, digits, rfl⟩ := List.exists_cons_of_ne_nil hwhole.1.1
    exact ⟨c, _, rfl, .inr (hwhole.1.2 c List.mem_cons_self)⟩
  · exact ⟨'-', _, rfl, .inl rfl⟩

/-- A word does not begin as another value does, or as an array ends. -/
theorem IsWord.exists_cons {raw : List Char} (h : IsWord raw) :
    ∃ c tail, raw = c :: tail ∧ c ≠ '[' ∧ c ≠ ']' ∧ c ≠ '\x7b' ∧ c ≠ '\x22' := by
  cases h with
  | null => exact ⟨'n', _, rfl, by decide⟩
  | yes => exact ⟨'t', _, rfl, by decide⟩
  | no => exact ⟨'f', _, rfl, by decide⟩
  | number hnumber =>
    obtain ⟨c, tail, rfl, hc⟩ := hnumber.exists_cons
    refine ⟨c, tail, rfl, ?_, ?_, ?_, ?_⟩ <;> rintro rfl <;> exact absurd hc (by decide)

theorem readScalar_number {c : Char} (h : c = '-' ∨ c.isDigit = true) (cs : List Char) :
    readScalar care (c :: cs) = readNumber care (c :: cs) := by
  rw [readScalar.eq_def]
  split
  case h_5 heq =>
    obtain ⟨rfl, rfl⟩ := List.cons.inj heq
    exact if_pos h
  case h_6 heq => exact nomatch heq
  all_goals
    rename_i heq
    obtain ⟨rfl, -⟩ := List.cons.inj heq
    exact absurd h (by decide)

/-- **How a word is read.**  Only a number may be refused, and only in a value that is used. -/
theorem IsWord.readScalar_cases {raw rest : List Char} (h : IsWord raw) (hrest : IsBreak rest)
    (care : Care) :
    (raw = nullWord ∧ readScalar care (raw ++ rest) = .ok (.null, rest)) ∨
      (∃ b, readScalar care (raw ++ rest) = .ok (.bool b, rest)) ∨
        ∃ n, readScalar care (raw ++ rest) =
          if care.isUse ∧ n.number? = none then .error .malformed else .ok (.number n, rest) := by
  cases h with
  | null => exact .inl ⟨rfl, rfl⟩
  | yes => exact .inr (.inl ⟨true, rfl⟩)
  | no => exact .inr (.inl ⟨false, rfl⟩)
  | number hnumber =>
    obtain ⟨n, hread⟩ := hnumber.exists_readNumeral hrest care
    obtain ⟨c, tail, rfl, hc⟩ := hnumber.exists_cons
    refine .inr (.inr ⟨n, ?_⟩)
    rw [List.cons_append] at hread ⊢
    rw [readScalar_number hc, readNumber, hread]
    rfl

/-! ### How values are read -/

theorem skipSpace_skipSpace (cs : List Char) : skipSpace (skipSpace cs) = skipSpace cs :=
  List.dropWhile_idempotent ..

/-- Spaces before a value are of no account. -/
theorem readValue_of_skipSpace {cs ds : List Char} (h : skipSpace cs = ds) :
    readValue care cs = readValue care ds := by
  rw [readValue_eq, readValue_eq, ← h, skipSpace_skipSpace]

theorem readValue_scalar {c : Char} {cs inside : List Char} (h : skipSpace cs = c :: inside)
    (hbracket : c ≠ '[') (hbrace : c ≠ '\x7b') :
    readValue care cs = readScalar care (c :: inside) := by
  rw [readValue_eq, h]
  simp [hbracket, hbrace]

theorem readValue_word {raw cs rest : List Char} (h : IsWord raw)
    (hcs : skipSpace cs = raw ++ rest) :
    readValue care cs = readScalar care (raw ++ rest) := by
  obtain ⟨c, tail, rfl, hbracket, -, hbrace, -⟩ := h.exists_cons
  exact readValue_scalar hcs hbracket hbrace

/-- What the reader of elements has done, if it gave an answer. -/
theorem exists_of_readItems {cs rest : List Char} {vs : List Value}
    (h : readItems care cs = .ok (vs, rest)) :
    ∃ v mid, readValue care cs = .ok (v, mid) ∧
      ((skipSpace mid = ']' :: rest ∧ vs = [v]) ∨
        ∃ next more, skipSpace mid = ',' :: next ∧ readItems care next = .ok (more, rest) ∧
          vs = v :: more) := by
  rw [readItems_eq] at h
  split at h
  · exact nomatch h
  · rename_i v mid hvalue
    refine ⟨v, mid, hvalue, ?_⟩
    split at h
    · rename_i hmid
      obtain ⟨rfl, rfl⟩ := Prod.mk.inj (Except.ok.inj h)
      exact .inl ⟨hmid, rfl⟩
    · rename_i next hmid
      obtain ⟨⟨more, after⟩, hmore, h⟩ := map_eq_ok h
      obtain ⟨rfl, rfl⟩ := Prod.mk.inj h
      exact .inr ⟨next, more, hmid, hmore, rfl⟩
    · exact nomatch h

/-- How the members of an object are read: up to the closing brace after one of them. -/
theorem readPairs_eq (care : Care) (cs : List Char) :
    readPairs care cs =
      match readKey care cs with
      | .error fault => .error fault
      | .ok (name, value) =>
        match readValue care value with
        | .error fault => .error fault
        | .ok (v, rest) =>
          match skipSpace rest with
          | '\x7d' :: after => .ok ([(name, v)], after)
          | ',' :: after => (readPairs care after).map fun (ms, rest) => ((name, v) :: ms, rest)
          | other => .error (faultAt other) := by
  rw [readPairs, takeMembers, ← takeBy_map_val readKey_length]
  cases takeBy (readKey care) readKey_length cs with
  | error fault => rfl
  | ok p =>
    obtain ⟨⟨name, value⟩, hkey⟩ := p
    have hname : (Except.ok ⟨(name, value), hkey⟩ : Taken String cs).map Subtype.val =
      .ok (name, value) := rfl
    simp only [hname, readValue]
    cases takeValue care value with
    | error fault => rfl
    | ok p =>
      obtain ⟨⟨v, rest⟩, hlt⟩ := p
      have hread : (Except.ok ⟨(v, rest), hlt⟩ : Taken Value value).map Subtype.val =
        .ok (v, rest) := rfl
      simp only [hread]
      split
      · rename_i hrest
        simp only [hrest]
        rfl
      · rename_i after hrest
        simp only [hrest, readPairs]
        cases takeMembers care after <;> rfl
      · simp only [Except.map]

/-- How an object is read that is not empty. -/
theorem readValue_brace {care deeper : Care} (h : care.inside? = some deeper) {inside : List Char}
    (hfull : ∀ rest, skipSpace inside = '\x7d' :: rest → False) :
    readValue care ('\x7b' :: inside) =
      (readPairs deeper inside).map fun (ms, rest) => (.object ms, rest) := by
  have hne : ('\x7b' : Char) ≠ '[' := by decide
  rw [readValue_eq, skipSpace_cons (by decide)]
  simp only [if_neg hne, if_true, h]

theorem readColon_of_skipSpace {cs rest : List Char} (h : skipSpace cs = ':' :: rest) :
    readColon cs = .ok rest := by
  rw [readColon, h]
  rfl

/-! ### Skimming -/

/-- The first token of a value does not end an array. -/
theorem Written.head_ne {t : Tree} {cs rest : List Char} (h : Written t cs rest) :
    ∀ after, skipSpace cs ≠ ']' :: after := by
  intro after hskip
  cases h with
  | word hword hcs =>
    obtain ⟨c, tail, rfl, -, hc, -⟩ := hword.exists_cons
    exact hc (List.cons.inj (hcs.symm.trans hskip)).1
  | text _ hcs | emptyArray hcs | array hcs | emptyObject hcs | object hcs =>
    exact absurd (List.cons.inj (hcs.symm.trans hskip)).1 (by decide)

theorem ElementsWritten.head_ne {ts : List Tree} {cs rest : List Char}
    (h : ElementsWritten ts cs rest) : ∀ after, skipSpace cs ≠ ']' :: after := by
  cases h with
  | last ht => exact ht.head_ne
  | more ht => exact ht.head_ne

theorem MembersWritten.head_ne {ms : List Member} {cs rest : List Char}
    (h : MembersWritten ms cs rest) : ∀ after, skipSpace cs ≠ '\x7d' :: after := by
  have hname : ∀ {raw value}, NameWritten raw cs value →
      ∀ after, skipSpace cs ≠ '\x7d' :: after := by
    intro raw value hname after hskip
    obtain ⟨-, mid, hcs, -⟩ := hname
    exact absurd (List.cons.inj (hcs.symm.trans hskip)).1 (by decide)
  cases h with
  | last h => exact hname h
  | more h => exact hname h

theorem NameWritten.exists_readKey {raw cs rest : List Char} (h : NameWritten raw cs rest) :
    ∃ name, readKey .skim cs = .ok (name, rest) := by
  obtain ⟨htext, mid, hcs, hmid⟩ := h
  obtain ⟨text, hread⟩ := htext.exists_readText
  refine ⟨String.ofList text, ?_⟩
  have hname : readName .skim cs = .ok (String.ofList text, mid) := by
    rw [readName, hcs]
    show (readText .skim _).map _ = _
    rw [hread]
    rfl
  rw [readKey, hname]
  simp only [bind, Except.bind, readColon_of_skipSpace hmid]
  rfl

mutual

/-- **Every value is skimmed**, however deep it is nested. -/
theorem Written.readValue_skim {t : Tree} {cs rest : List Char} :
    Written t cs rest → ∃ v, readValue .skim cs = .ok (v, rest)
  | .word hword hcs hrest => by
    rw [readValue_word hword hcs]
    rcases hword.readScalar_cases hrest .skim with ⟨-, h⟩ | ⟨b, h⟩ | ⟨n, h⟩
    · exact ⟨_, h⟩
    · exact ⟨_, h⟩
    · exact ⟨_, h⟩
  | .text htext hcs => by
    obtain ⟨text, hread⟩ := htext.exists_readText
    refine ⟨.text (String.ofList text), ?_⟩
    rw [readValue_scalar hcs (by decide) (by decide)]
    show (readText .skim _).map _ = _
    rw [hread]
    rfl
  | .emptyArray hcs hinside =>
    ⟨.array [], by rw [readValue_eq, hcs]; simp [Care.inside?, hinside]⟩
  | .array hcs hts => by
    obtain ⟨vs, hread⟩ := hts.readItems_skim
    refine ⟨.array vs, ?_⟩
    rw [readValue_of_skipSpace hcs, readValue_bracket rfl hts.head_ne, hread]
    rfl
  | .emptyObject hcs hinside =>
    ⟨.object [], by rw [readValue_eq, hcs]; simp [Care.inside?, hinside]⟩
  | .object hcs hms => by
    obtain ⟨vs, hread⟩ := hms.readPairs_skim
    refine ⟨.object vs, ?_⟩
    rw [readValue_of_skipSpace hcs, readValue_brace rfl hms.head_ne, hread]
    rfl

theorem ElementsWritten.readItems_skim {ts : List Tree} {cs rest : List Char} :
    ElementsWritten ts cs rest → ∃ vs, readItems .skim cs = .ok (vs, rest)
  | .last ht hmid => by
    obtain ⟨v, hread⟩ := ht.readValue_skim
    exact ⟨[v], by rw [readItems_eq, hread]; simp only [hmid]⟩
  | .more ht hmid hts => by
    obtain ⟨v, hread⟩ := ht.readValue_skim
    obtain ⟨vs, hreads⟩ := hts.readItems_skim
    exact ⟨v :: vs, by rw [readItems_eq, hread]; simp only [hmid, hreads]; rfl⟩

theorem MembersWritten.readPairs_skim {ms : List Member} {cs rest : List Char} :
    MembersWritten ms cs rest → ∃ pairs, readPairs .skim cs = .ok (pairs, rest)
  | .last hname ht hmid => by
    obtain ⟨name, hkey⟩ := hname.exists_readKey
    obtain ⟨v, hread⟩ := ht.readValue_skim
    exact ⟨[(name, v)], by rw [readPairs_eq, hkey]; simp only [hread, hmid]⟩
  | .more hname ht hmid hms => by
    obtain ⟨name, hkey⟩ := hname.exists_readKey
    obtain ⟨v, hread⟩ := ht.readValue_skim
    obtain ⟨pairs, hreads⟩ := hms.readPairs_skim
    exact ⟨(name, v) :: pairs, by rw [readPairs_eq, hkey]; simp only [hread, hmid, hreads]; rfl⟩

end

end CallHarvest.Json
