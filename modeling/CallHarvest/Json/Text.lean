import CallHarvest.Json.Basic
import CallHarvest.Text.Utf8

/-!
# JSON texts

A text stands between double quotes.  A backslash begins an escape; characters outside the basic
plane may be written as two escapes, a high and a low surrogate.

* `readText` — a text from after its opening quote.
* `quote` — a text with its quotes: the escapes that have a letter where there is one, and numbered
  escapes for the other control characters.
-/

namespace CallHarvest.Json

open CallHarvest.Text (byteLength replacement)

/-! ### Reading -/

/-- The value of a hexadecimal digit. -/
def hexDigit? (c : Char) : Option Nat :=
  if '0' ≤ c ∧ c ≤ '9' then some (c.toNat - 48)
  else if 'a' ≤ c ∧ c ≤ 'f' then some (c.toNat - 87)
  else if 'A' ≤ c ∧ c ≤ 'F' then some (c.toNat - 55)
  else none

/-- The value of hexadecimal digits, the first one having the most weight. -/
def hexValue? (cs : List Char) : Option Nat :=
  cs.foldl (fun value c => value.bind fun n => (hexDigit? c).map fun d => 16 * n + d) (some 0)

/-- Reads four hexadecimal digits.  They need four bytes; with fewer the text has ended. -/
def readHex (cs : List Char) : Except Fault (Nat × List Char) :=
  match cs with
  | a :: b :: c :: d :: rest =>
    match hexValue? [a, b, c, d] with
    | some n => .ok (n, rest)
    | none => .error .malformed
  | _ => if byteLength cs < 4 then .error .ended else .error .malformed

/-- Whether a number is that of a high surrogate. -/
def isHighSurrogate (n : Nat) : Bool := 0xD800 ≤ n && n < 0xDC00

/-- Whether a number is that of a low surrogate. -/
def isLowSurrogate (n : Nat) : Bool := 0xDC00 ≤ n && n < 0xE000

/-- The character of a number that is no surrogate; the replacement character for one that is. -/
def charOf (n : Nat) : Char :=
  if isHighSurrogate n || isLowSurrogate n then replacement else Char.ofNat n

/-- Reads the low surrogate that has to follow a high one. -/
def readPartner (high : Nat) (cs : List Char) : Except Fault (Char × List Char) := do
  let (low, rest) ← readHex (← readWord ['\\', 'u'] cs)
  if isLowSurrogate low then
    .ok (Char.ofNat (0x10000 + (high - 0xD800) * 0x400 + (low - 0xDC00)), rest)
  else .error .malformed

/-- Reads a numbered escape from after its letter.  In a text that is used, surrogates have to come
in pairs. -/
def readNumbered (care : Care) (cs : List Char) : Except Fault (Char × List Char) := do
  let (n, rest) ← readHex cs
  if care.isUse && isLowSurrogate n then .error .malformed
  else if care.isUse && isHighSurrogate n then readPartner n rest
  else .ok (charOf n, rest)

/-- The letters and marks of escapes, each with the character that it stands for. -/
def escapes : List (Char × Char) :=
  [('\x22', '\x22'), ('\\', '\\'), ('/', '/'), ('b', '\x08'), ('f', '\x0c'), ('n', '\n'),
    ('r', '\r'), ('t', '\t')]

/-- Reads an escape from after its backslash. -/
def readEscape (care : Care) : List Char → Except Fault (Char × List Char)
  | [] => .error .ended
  | c :: cs =>
    if c = 'u' then readNumbered care cs
    else
      match escapes.lookup c with
      | some escaped => .ok (escaped, cs)
      | none => .error .malformed

theorem readHex_length {cs rest : List Char} {n : Nat} (h : readHex cs = .ok (n, rest)) :
    rest.length ≤ cs.length := by
  unfold readHex at h
  split at h
  · split at h
    · simp only [Except.ok.injEq, Prod.mk.injEq] at h
      obtain ⟨_, rfl⟩ := h
      simp only [List.length_cons]
      omega
    · exact nomatch h
  · split at h <;> exact nomatch h

theorem readPartner_length {high : Nat} {cs rest : List Char} {c : Char}
    (h : readPartner high cs = .ok (c, rest)) : rest.length ≤ cs.length := by
  unfold readPartner at h
  cases hw : readWord ['\\', 'u'] cs with
  | error fault =>
    rw [hw] at h
    exact nomatch h
  | ok mid =>
    cases hx : readHex mid with
    | error fault =>
      rw [hw] at h
      simp only [bind, Except.bind, hx] at h
      exact nomatch h
    | ok p =>
      rw [hw] at h
      simp only [bind, Except.bind, hx] at h
      split at h
      · simp only [Except.ok.injEq, Prod.mk.injEq] at h
        obtain ⟨_, rfl⟩ := h
        exact Nat.le_trans (readHex_length hx) (readWord_length hw)
      · exact nomatch h

theorem readNumbered_length {care : Care} {cs rest : List Char} {c : Char}
    (h : readNumbered care cs = .ok (c, rest)) : rest.length ≤ cs.length := by
  unfold readNumbered at h
  cases hx : readHex cs with
  | error fault =>
    rw [hx] at h
    exact nomatch h
  | ok p =>
    have hle := readHex_length hx
    rw [hx] at h
    simp only [bind, Except.bind] at h
    split at h
    · exact nomatch h
    · split at h
      · exact Nat.le_trans (readPartner_length h) hle
      · simp only [Except.ok.injEq, Prod.mk.injEq] at h
        obtain ⟨_, rfl⟩ := h
        exact hle

theorem readEscape_length {care : Care} {cs rest : List Char} {c : Char}
    (h : readEscape care cs = .ok (c, rest)) : rest.length < cs.length := by
  cases cs with
  | nil => exact nomatch h
  | cons a cs =>
    rw [readEscape] at h
    rw [List.length_cons]
    split at h
    · have := readNumbered_length h
      omega
    · cases hl : escapes.lookup a with
      | none => simp [hl] at h
      | some escaped =>
        rw [hl] at h
        obtain ⟨_, rfl⟩ := Prod.mk.inj (Except.ok.inj h)
        exact Nat.lt_succ_self _

/-- Puts a character in front of a text that was read. -/
def consText (c : Char) : List Char × List Char → List Char × List Char
  | (text, rest) => (c :: text, rest)

/-- Reads a text from after its opening quote. -/
def readText (care : Care) : List Char → Except Fault (List Char × List Char)
  | [] => .error .ended
  | c :: cs =>
    if c = '\x22' then .ok ([], cs)
    else if c = '\\' then
      match _escape : readEscape care cs with
      | .ok (escaped, rest) => (readText care rest).map (consText escaped)
      | .error fault => .error fault
    else if c.toNat < 0x20 then .error .malformed
    else (readText care cs).map (consText c)
termination_by cs => cs.length
decreasing_by
  · have := readEscape_length _escape
    rw [List.length_cons]
    omega
  · rw [List.length_cons]
    omega

theorem exists_of_map_consText {c : Char} {read : Except Fault (List Char × List Char)}
    {text rest : List Char} (h : read.map (consText c) = .ok (text, rest)) :
    ∃ t, read = .ok (t, rest) := by
  cases read with
  | error fault => exact nomatch h
  | ok p =>
    simp only [Except.map, consText, Except.ok.injEq, Prod.mk.injEq] at h
    exact ⟨p.1, by rw [← h.2]⟩

theorem readText_length {care : Care} {cs text rest : List Char}
    (h : readText care cs = .ok (text, rest)) : rest.length < cs.length := by
  fun_induction readText care cs generalizing text with
  | case1 => exact nomatch h
  | case2 =>
    simp only [Except.ok.injEq, Prod.mk.injEq] at h
    obtain ⟨_, rfl⟩ := h
    simp
  | case3 =>
    rename_i ih
    obtain ⟨t, ht⟩ := exists_of_map_consText h
    have hlt := ih ht
    have hle := readEscape_length ‹readEscape care _ = _›
    rw [List.length_cons]
    omega
  | case4 => exact nomatch h
  | case5 => exact nomatch h
  | case6 =>
    rename_i ih
    obtain ⟨t, ht⟩ := exists_of_map_consText h
    have hlt := ih ht
    rw [List.length_cons]
    omega

/-! ### Writing -/

/-- A hexadecimal digit in small letters. -/
def hexChar (n : Nat) : Char :=
  if n < 10 then Char.ofNat (48 + n) else Char.ofNat (87 + n)

/-- A character of a text as it is written. -/
def quoteChar (c : Char) : List Char :=
  if c = '\x22' then ['\\', '\x22']
  else if c = '\\' then ['\\', '\\']
  else if c = '\x08' then ['\\', 'b']
  else if c = '\x0c' then ['\\', 'f']
  else if c = '\n' then ['\\', 'n']
  else if c = '\r' then ['\\', 'r']
  else if c = '\t' then ['\\', 't']
  else if c.toNat < 0x20 then
    ['\\', 'u', '0', '0', hexChar (c.toNat / 16), hexChar (c.toNat % 16)]
  else [c]

/-- A text with its quotes. -/
def quote (text : String) : List Char :=
  '\x22' :: text.toList.flatMap quoteChar ++ ['\x22']

end CallHarvest.Json
