import Mathlib.Tactic.SplitIfs
import CallHarvest.Json.Value

/-!
# Reading back what is quoted

A text that was quoted is read as the same text, whatever follows its closing quote: each of its
characters is written so that the reader finds it again.

* `readText_quoteChar`, `readText_flatMap_quoteChar` — a character, and all of a text.
* `readValue_eq`, `readItems_eq` — how a value and the elements of an array are read.
* `readName_quote`, `readScalar_quote`, `readValue_quote` — a quoted text as a name and as a value.
-/

namespace CallHarvest.Json

variable {care : Care}

/-! ### Characters -/

theorem hexDigit?_hexChar : ∀ n < 16, hexDigit? (hexChar n) = some n := by
  decide

/-- Two digits after two zeros stand for the number of which they are the digits. -/
theorem hexValue?_hexChar {n : Nat} (h : n < 256) :
    hexValue? ['0', '0', hexChar (n / 16), hexChar (n % 16)] = some n := by
  have hzero : hexDigit? '0' = some 0 := by decide
  have hhigh := hexDigit?_hexChar (n / 16) (by omega)
  have hlow := hexDigit?_hexChar (n % 16) (by omega)
  simp only [hexValue?, List.foldl_cons, List.foldl_nil, hzero, hhigh, hlow, Option.bind_some,
    Option.map_some, Option.some.injEq]
  omega

/-- A control character is read from its numbered escape. -/
theorem readNumbered_control {c : Char} (h : c.toNat < 0x20) (rest : List Char) :
    readNumbered care
      ('0' :: '0' :: hexChar (c.toNat / 16) :: hexChar (c.toNat % 16) :: rest) = .ok (c, rest) := by
  have hhigh : isHighSurrogate c.toNat = false := by
    simp only [isHighSurrogate, Bool.and_eq_false_iff, decide_eq_false_iff_not]
    omega
  have hlow : isLowSurrogate c.toNat = false := by
    simp only [isLowSurrogate, Bool.and_eq_false_iff, decide_eq_false_iff_not]
    omega
  have hread : readHex
      ('0' :: '0' :: hexChar (c.toNat / 16) :: hexChar (c.toNat % 16) :: rest) =
      .ok (c.toNat, rest) := by
    rw [readHex, hexValue?_hexChar (by omega)]
  rw [readNumbered, hread]
  simp [bind, Except.bind, hhigh, hlow, charOf, Char.ofNat_toNat]

/-- A text goes on after an escape. -/
theorem readText_escape {c : Char} {escaped rest : List Char}
    (h : readEscape care escaped = .ok (c, rest)) :
    readText care ('\\' :: escaped) = (readText care rest).map (consText c) := by
  rw [readText, if_neg (by decide), if_pos rfl]
  split
  · rename_i heq
    obtain ⟨rfl, rfl⟩ := Prod.mk.inj (Except.ok.inj (h.symm.trans heq))
    rfl
  · rename_i heq
    cases h.symm.trans heq

/-- **A character is read from what it is written as.** -/
theorem readText_quoteChar (care : Care) (c : Char) (rest : List Char) :
    readText care (quoteChar c ++ rest) = (readText care rest).map (consText c) := by
  rw [quoteChar]
  split_ifs with hquote hslash hb hf hn hr ht hcontrol
  · exact readText_escape (by subst hquote; rfl)
  · exact readText_escape (by subst hslash; rfl)
  · exact readText_escape (by subst hb; rfl)
  · exact readText_escape (by subst hf; rfl)
  · exact readText_escape (by subst hn; rfl)
  · exact readText_escape (by subst hr; rfl)
  · exact readText_escape (by subst ht; rfl)
  · exact readText_escape (readNumbered_control hcontrol rest)
  · rw [List.singleton_append, readText, if_neg hquote, if_neg hslash, if_neg hcontrol]

/-! ### Texts -/

/-- **A text is read from what its characters are written as.** -/
theorem readText_flatMap_quoteChar (care : Care) (text rest : List Char) :
    readText care (text.flatMap quoteChar ++ '\x22' :: rest) = .ok (text, rest) := by
  induction text with
  | nil => rw [List.flatMap_nil, List.nil_append, readText, if_pos rfl]
  | cons c text ih =>
    rw [List.flatMap_cons, List.append_assoc, readText_quoteChar, ih]
    rfl

theorem skipSpace_cons {c : Char} (h : isSpace c = false) (cs : List Char) :
    skipSpace (c :: cs) = c :: cs :=
  List.dropWhile_cons_of_neg (by simp [h])

/-- A quoted text is a quote, and what its characters are written as with a quote after it. -/
theorem quote_append (text : String) (rest : List Char) :
    quote text ++ rest = '\x22' :: (text.toList.flatMap quoteChar ++ '\x22' :: rest) := by
  simp [quote]

theorem readName_quote (care : Care) (text : String) (rest : List Char) :
    readName care (quote text ++ rest) = .ok (text, rest) := by
  rw [quote_append, readName, skipSpace_cons (by decide)]
  show (readText care _).map _ = _
  rw [readText_flatMap_quoteChar]
  simp [Except.map]

theorem readScalar_quote (care : Care) (text : String) (rest : List Char) :
    readScalar care (quote text ++ rest) = .ok (.text text, rest) := by
  rw [quote_append, readScalar, readText_flatMap_quoteChar]
  simp [Except.map]

theorem readColon_cons (rest : List Char) : readColon (':' :: rest) = .ok rest := by
  rw [readColon, skipSpace_cons (by decide)]
  rfl

/-! ### Values -/

/-- Reads one or more elements with commas between them, and the closing bracket. -/
def readItems (care : Care) (cs : List Char) : Except Fault (List Value × List Char) :=
  (takeElements care cs).map Subtype.val

/-- Reads one or more members with commas between them, and the closing brace. -/
def readPairs (care : Care) (cs : List Char) : Except Fault (List (String × Value) × List Char) :=
  (takeMembers care cs).map Subtype.val

theorem takeBy_map_val {α : Type} {read : List Char → Except Fault (α × List Char)}
    (shorter : ∀ {cs a rest}, read cs = .ok (a, rest) → rest.length < cs.length)
    (cs : List Char) : (takeBy read shorter cs).map Subtype.val = read cs := by
  rw [takeBy]
  split <;> rename_i h <;> exact h.symm

/-- How a value is read: by its first character. -/
theorem readValue_eq (care : Care) (cs : List Char) :
    readValue care cs =
      match skipSpace cs with
      | [] => .error .ended
      | c :: inside =>
        if c = '[' then
          match care.inside?, skipSpace inside with
          | none, _ => .error .malformed
          | some _, ']' :: rest => .ok (.array [], rest)
          | some deeper, _ => (readItems deeper inside).map fun (vs, rest) => (.array vs, rest)
        else if c = '\x7b' then
          match care.inside?, skipSpace inside with
          | none, _ => .error .malformed
          | some _, '\x7d' :: rest => .ok (.object [], rest)
          | some deeper, _ => (readPairs deeper inside).map fun (ms, rest) => (.object ms, rest)
        else readScalar care (c :: inside) := by
  rw [readValue, takeValue]
  split
  · rename_i h
    rw [h]
    rfl
  · rename_i c inside h
    simp only [h]
    split_ifs
    · split
      · rename_i hdeep
        simp only [hdeep]
        rfl
      · rename_i hdeep hin
        simp only [hdeep, hin]
        rfl
      · rename_i deeper hdeep hin
        simp only [hdeep, readItems]
        cases takeElements deeper inside <;> rfl
    · split
      · rename_i hdeep
        simp only [hdeep]
        rfl
      · rename_i hdeep hin
        simp only [hdeep, hin]
        rfl
      · rename_i deeper hdeep hin
        simp only [hdeep, readPairs]
        cases takeMembers deeper inside <;> rfl
    · rw [← takeBy_map_val readScalar_length]
      cases takeBy (readScalar care) readScalar_length (c :: inside) <;> rfl

/-- How the elements of an array are read: up to the closing bracket after one of them. -/
theorem readItems_eq (care : Care) (cs : List Char) :
    readItems care cs =
      match readValue care cs with
      | .error fault => .error fault
      | .ok (v, rest) =>
        match skipSpace rest with
        | ']' :: after => .ok ([v], after)
        | ',' :: after => (readItems care after).map fun (vs, rest) => (v :: vs, rest)
        | other => .error (faultAt other) := by
  rw [readItems, takeElements, readValue]
  cases takeValue care cs with
  | error fault => rfl
  | ok p =>
    obtain ⟨⟨v, rest⟩, hlt⟩ := p
    have hread : (Except.ok ⟨(v, rest), hlt⟩ : Taken Value cs).map Subtype.val = .ok (v, rest) :=
      rfl
    simp only [hread]
    split
    · rename_i hrest
      simp only [hrest]
      rfl
    · rename_i after hrest
      simp only [hrest, readItems]
      cases takeElements care after <;> rfl
    · simp only [Except.map]

theorem readValue_empty {care deeper : Care} (h : care.inside? = some deeper) (rest : List Char) :
    readValue care ('[' :: ']' :: rest) = .ok (.array [], rest) := by
  rw [readValue_eq, skipSpace_cons (by decide)]
  simp only [if_true, h, skipSpace_cons (show isSpace ']' = false by decide)]

/-- How an array is read that is not empty. -/
theorem readValue_bracket {care deeper : Care} (h : care.inside? = some deeper)
    {inside : List Char} (hfull : ∀ rest, skipSpace inside = ']' :: rest → False) :
    readValue care ('[' :: inside) =
      (readItems deeper inside).map fun (vs, rest) => (.array vs, rest) := by
  rw [readValue_eq, skipSpace_cons (by decide)]
  simp only [if_true, h]

theorem readValue_quote (care : Care) (text : String) (rest : List Char) :
    readValue care (quote text ++ rest) = .ok (.text text, rest) := by
  have hscalar := readScalar_quote care text rest
  rw [quote_append] at hscalar ⊢
  rw [readValue_eq, skipSpace_cons (by decide)]
  exact hscalar

end CallHarvest.Json
