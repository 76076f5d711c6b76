import CallHarvest.Call.Find
import CallHarvest.Except
import CallHarvest.Text.Offset

/-!
# Reading with a cursor

The balanced reading of a source can be done with a cursor: an offset into the bytes of the source
that moves forward, by the bytes of a character at a time.  An offset that is not between two
characters has no text after it.  Here each look at the source says so with a failure of its own,
`offBoundary`, so that it cannot be taken for a call that is not complete.

* `Failure` — why a reading has no result.
* `Window` — a source and the part of it that a cursor can read (`peek`, `bump`, `eat`).
* `Window.closeLiteral`, `Window.literal`, `Window.integer`, `Window.argumentTail` — the parts of
  the arguments of a call.
* `readArguments` — the arguments of a call (`lt_of_readArguments`: the cursor moves forward).
* `scan` — the calls of a source, each cut out of it by its two offsets.
-/

namespace CallHarvest.Call

open CallHarvest.Text (atByte? atByte?_eq_some_iff before before_append byteLength
  byteLength_append byteLength_cons isScriptBlank slice? trim)

/-- Why a reading has no result. -/
inductive Failure
  /-- What is read is not there; the cursor has come as far as the offset. -/
  | rejected (pos : Nat)
  /-- The source was to be cut at an offset that is not between two characters of it. -/
  | offBoundary
deriving DecidableEq, Repr

/-- A reading with a cursor. -/
abbrev Reading (α : Type) : Type := Except Failure α

/-- A source and the offset from which a cursor reads it. -/
structure Window where
  source : List Char
  start : Nat

namespace Window

variable {w : Window}

/-- No character that begins at this offset or after it is read. -/
def limit (w : Window) : Nat := w.start + callLimit

/-! ### Single characters -/

/-- The next character, if there is one before the limit.  A cursor that is at its limit has to be
between two characters as well. -/
def peek (w : Window) (pos : Nat) : Reading (Option Char) :=
  match atByte? pos w.source with
  | none => .error .offBoundary
  | some rest => .ok (if pos < w.limit then rest.head? else none)

/-- Moves past the next character. -/
def bump (w : Window) (pos : Nat) : Reading (Char × Nat) := do
  match ← w.peek pos with
  | some c => .ok (c, pos + c.utf8Size)
  | none => .error (.rejected pos)

/-- Moves past the given character, if it is the next one. -/
def eat (w : Window) (c : Char) (pos : Nat) : Reading (Option Nat) := do
  let next ← w.peek pos
  return if next = some c then some (pos + c.utf8Size) else none

/-- Moves past the given character, which has to be the next one. -/
def expect (w : Window) (c : Char) (pos : Nat) : Reading Nat := do
  match ← w.eat c pos with
  | some next => .ok next
  | none => .error (.rejected pos)

theorem lt_limit_of_peek {pos : Nat} {c : Char} (h : w.peek pos = .ok (some c)) :
    pos < w.limit := by
  unfold peek at h
  split at h
  · exact nomatch h
  · split at h
    · assumption
    · exact nomatch h

theorem bump_eq_ok {pos next : Nat} {c : Char} (h : w.bump pos = .ok (c, next)) :
    w.peek pos = .ok (some c) ∧ next = pos + c.utf8Size := by
  obtain ⟨found, hpeek, hnext⟩ := bind_eq_ok h
  cases found with
  | none => exact nomatch hnext
  | some d =>
    obtain ⟨rfl, rfl⟩ := Prod.mk.inj (Except.ok.inj hnext)
    exact ⟨hpeek, rfl⟩

theorem lt_of_bump {pos next : Nat} {c : Char} (h : w.bump pos = .ok (c, next)) :
    pos < next ∧ pos < w.limit := by
  obtain ⟨hpeek, rfl⟩ := bump_eq_ok h
  exact ⟨Nat.lt_add_of_pos_right (Char.utf8Size_pos c), lt_limit_of_peek hpeek⟩

/-! ### Blanks, digits and literals -/

/-- Moves past the characters of a class. -/
def skipWhile (w : Window) (p : Char → Bool) (pos : Nat) : Reading Nat :=
  match _next : w.peek pos with
  | .error e => .error e
  | .ok none => .ok pos
  | .ok (some c) => if p c then skipWhile w p (pos + c.utf8Size) else .ok pos
termination_by w.limit - pos
decreasing_by
  have hlt := lt_limit_of_peek _next
  have hpos := Char.utf8Size_pos c
  omega

/-- Moves past one or more decimal digits. -/
def integer (w : Window) (pos : Nat) : Reading Nat := do
  match ← w.peek pos with
  | some c => if c.isDigit then w.skipWhile Char.isDigit pos else .error (.rejected pos)
  | none => .error (.rejected pos)

/-- Moves past the mark that closes an open literal. -/
def closeLiteral (w : Window) (mark : Char) (pos : Nat) : Reading Nat :=
  match _first : w.bump pos with
  | .error e => .error e
  | .ok (c, next) =>
    if c = '\\' then
      match _second : w.bump next with
      | .error e => .error e
      | .ok (_, after) => closeLiteral w mark after
    else if c = mark then .ok next
    else closeLiteral w mark next
termination_by w.limit - pos
decreasing_by
  · have hfirst := lt_of_bump _first
    have hsecond := lt_of_bump _second
    omega
  · have hfirst := lt_of_bump _first
    omega

/-- Moves past a literal. -/
def literal (w : Window) (pos : Nat) : Reading Nat := do
  let (c, next) ← w.bump pos
  if isQuote c then w.closeLiteral c next else .error (.rejected next)

/-- Moves past a comma, blanks and a literal. -/
def literalArgument (w : Window) (pos : Nat) : Reading Nat := do
  let pos ← w.expect ',' pos
  let pos ← w.skipWhile isScriptBlank pos
  w.literal pos

theorem le_of_skipWhile {p : Char → Bool} {pos next : Nat} (h : w.skipWhile p pos = .ok next) :
    pos ≤ next := by
  fun_induction skipWhile w p pos with
  | case1 => exact nomatch h
  | case2 => exact Nat.le_of_eq (Except.ok.inj h)
  | case3 pos c _ _ ih => exact Nat.le_trans (Nat.le_add_right pos _) (ih h)
  | case4 => exact Nat.le_of_eq (Except.ok.inj h)

theorem lt_of_closeLiteral {mark : Char} {pos next : Nat}
    (h : w.closeLiteral mark pos = .ok next) : pos < next := by
  fun_induction closeLiteral w mark pos with
  | case1 => exact nomatch h
  | case2 => exact nomatch h
  | case3 pos mid _ _ hsecond hfirst ih =>
    have hfirst := (lt_of_bump hfirst).1
    have hsecond := (lt_of_bump hsecond).1
    exact Nat.lt_trans hfirst (Nat.lt_trans hsecond (ih h))
  | case4 pos mid hfirst =>
    obtain rfl := Except.ok.inj h
    exact (lt_of_bump hfirst).1
  | case5 pos c mid hfirst _ _ ih => exact Nat.lt_trans (lt_of_bump hfirst).1 (ih h)

theorem lt_of_literal {pos next : Nat} (h : w.literal pos = .ok next) : pos < next := by
  obtain ⟨⟨c, mid⟩, hbump, hclose⟩ := bind_eq_ok h
  have hmid := (lt_of_bump hbump).1
  dsimp only at hclose
  split at hclose
  · exact Nat.lt_trans hmid (lt_of_closeLiteral hclose)
  · exact nomatch hclose

/-! ### The arguments after the literals -/

/-- The text of an argument that takes up the bytes from one offset to another. -/
def piece (w : Window) (start stop : Nat) : Reading (List Char) :=
  match slice? start stop w.source with
  | none => .error .offBoundary
  | some text => .ok (trim isScriptBlank text)

/-- Reads arguments up to the closing parenthesis of the call, inside the brackets that the given
ones close, the innermost first.  The argument that is being read began at `start`. -/
def argumentTail (w : Window) (closers : List Char) (start pos : Nat) :
    Reading (List (List Char) × Nat) :=
  match _next : w.peek pos with
  | .error e => .error e
  | .ok none => .error (.rejected pos)
  | .ok (some c) =>
    if isQuote c then
      match _closed : w.literal pos with
      | .error e => .error e
      | .ok next => argumentTail w closers start next
    else if let some d := closer? c then
      argumentTail w (d :: closers) start (pos + c.utf8Size)
    else if isCloser c then
      match closers with
      | [] =>
        if c = ')' then do
          let last ← w.piece start pos
          .ok ([last], pos + c.utf8Size)
        else .error (.rejected pos)
      | d :: outer =>
        if c = d then argumentTail w outer start (pos + c.utf8Size) else .error (.rejected pos)
    else if c = ',' ∧ closers = [] then do
      let first ← w.piece start pos
      let (further, stop) ← argumentTail w closers (pos + 1) (pos + c.utf8Size)
      .ok (first :: further, stop)
    else argumentTail w closers start (pos + c.utf8Size)
termination_by w.limit - pos
decreasing_by
  · have hlt := lt_limit_of_peek _next
    have hclosed := lt_of_literal _closed
    omega
  all_goals
    have hlt := lt_limit_of_peek _next
    have hpos := Char.utf8Size_pos c
    omega

/-- Reads a comma and the arguments after it. -/
def furtherTail (w : Window) (pos : Nat) : Reading (List (List Char) × Nat) := do
  let pos ← w.expect ',' pos
  w.argumentTail [] pos pos

theorem lt_of_expect {c : Char} {pos next : Nat} (h : w.expect c pos = .ok next) : pos < next := by
  obtain ⟨found, heat, hnext⟩ := bind_eq_ok h
  obtain ⟨d, -, hd⟩ := bind_eq_ok heat
  obtain rfl := Except.ok.inj hd
  split at hnext
  · rename_i hsome
    split at hsome
    · obtain rfl := Except.ok.inj hnext
      obtain rfl := Option.some.inj hsome
      exact Nat.lt_add_of_pos_right (Char.utf8Size_pos c)
    · exact nomatch hsome
  · exact nomatch hnext

theorem lt_of_literalArgument {pos next : Nat} (h : w.literalArgument pos = .ok next) :
    pos < next := by
  obtain ⟨comma, hcomma, h⟩ := bind_eq_ok h
  obtain ⟨blanks, hblanks, hliteral⟩ := bind_eq_ok h
  have hcomma := lt_of_expect hcomma
  have hblanks := le_of_skipWhile hblanks
  exact Nat.lt_trans (Nat.lt_of_lt_of_le hcomma hblanks) (lt_of_literal hliteral)

theorem le_of_integer {pos next : Nat} (h : w.integer pos = .ok next) : pos ≤ next := by
  obtain ⟨found, -, hdigits⟩ := bind_eq_ok h
  split at hdigits
  · split at hdigits
    · exact le_of_skipWhile hdigits
    · exact nomatch hdigits
  · exact nomatch hdigits

theorem lt_of_argumentTail {closers : List Char} {start pos stop : Nat}
    {pieces : List (List Char)} (h : w.argumentTail closers start pos = .ok (pieces, stop)) :
    pos < stop := by
  have past : ∀ {pos : Nat} {c : Char}, pos + c.utf8Size < stop → pos < stop :=
    fun hlt => Nat.lt_of_le_of_lt (Nat.le_add_right _ _) hlt
  fun_induction argumentTail w closers start pos generalizing pieces with
  | case1 => exact nomatch h
  | case2 => exact nomatch h
  | case3 => exact nomatch h
  | case4 _ _ _ _ _ _ _ hclosed ih => exact Nat.lt_trans (lt_of_literal hclosed) (ih h)
  | case5 _ _ _ _ _ _ _ _ ih => exact past (ih h)
  | case6 start pos =>
    obtain ⟨last, -, hstop⟩ := bind_eq_ok h
    obtain ⟨-, rfl⟩ := Prod.mk.inj (Except.ok.inj hstop)
    exact Nat.lt_add_of_pos_right (Char.utf8Size_pos ')')
  | case7 => exact nomatch h
  | case8 _ _ _ _ _ _ _ _ ih => exact past (ih h)
  | case9 => exact nomatch h
  | case10 _ _ _ _ _ _ _ _ _ ih =>
    obtain ⟨first, -, hfurther⟩ := bind_eq_ok h
    obtain ⟨⟨further, stop'⟩, htail, hstop⟩ := bind_eq_ok hfurther
    obtain ⟨-, rfl⟩ := Prod.mk.inj (Except.ok.inj hstop)
    exact past (ih htail)
  | case11 _ _ _ _ _ _ _ _ _ ih => exact past (ih h)

theorem lt_of_furtherTail {pos stop : Nat} {pieces : List (List Char)}
    (h : w.furtherTail pos = .ok (pieces, stop)) : pos < stop := by
  obtain ⟨comma, hcomma, htail⟩ := bind_eq_ok h
  exact Nat.lt_trans (lt_of_expect hcomma) (lt_of_argumentTail htail)

/-! ### The arguments of a call -/

/-- Reads the arguments of a call for one text. -/
def translate (w : Window) (pos : Nat) : Reading Nat := do
  let pos ← w.literal pos
  match ← w.eat ')' pos with
  | some stop => .ok stop
  | none => (w.furtherTail pos).map Prod.snd

/-- Pieces, less an empty last one that only a trailing comma makes. -/
def withoutTrailing (pieces : List (List Char)) : List (List Char) :=
  if 1 < pieces.length ∧ pieces.getLast? = some [] then pieces.dropLast else pieces

/-- Whether pieces are replacements and at most one more argument. -/
def isPlural (pieces : List (List Char)) : Bool :=
  let args := withoutTrailing pieces
  args.head?.any (fun first => !first.isEmpty) && args.length ≤ 2

/-- Reads the arguments of a call for a count. -/
def plural (w : Window) (pos : Nat) : Reading Nat := do
  let pos ← w.integer pos
  let pos ← w.literalArgument pos
  let pos ← w.literalArgument pos
  let (pieces, stop) ← w.furtherTail pos
  if isPlural pieces then .ok stop else .error (.rejected stop)

theorem lt_of_translate {pos stop : Nat} (h : w.translate pos = .ok stop) : pos < stop := by
  obtain ⟨mid, hliteral, h⟩ := bind_eq_ok h
  obtain ⟨found, heat, hstop⟩ := bind_eq_ok h
  have hmid := lt_of_literal hliteral
  cases found with
  | some next =>
    have hexpect : w.expect ')' mid = .ok next := by
      rw [expect, heat]
      rfl
    obtain rfl := Except.ok.inj hstop
    exact Nat.lt_trans hmid (lt_of_expect hexpect)
  | none =>
    obtain ⟨⟨pieces, stop'⟩, htail, rfl⟩ := map_eq_ok hstop
    exact Nat.lt_trans hmid (lt_of_furtherTail htail)

theorem lt_of_plural {pos stop : Nat} (h : w.plural pos = .ok stop) : pos < stop := by
  obtain ⟨count, hcount, h⟩ := bind_eq_ok h
  obtain ⟨one, hone, h⟩ := bind_eq_ok h
  obtain ⟨many, hmany, h⟩ := bind_eq_ok h
  obtain ⟨⟨pieces, stop'⟩, htail, hstop⟩ := bind_eq_ok h
  dsimp only at hstop
  split at hstop
  · obtain rfl := Except.ok.inj hstop
    have hcount := le_of_integer hcount
    have hone := lt_of_literalArgument hone
    have hmany := lt_of_literalArgument hmany
    have htail := lt_of_furtherTail htail
    omega
  · exact nomatch hstop

end Window

/-- Reads the arguments of a call whose head ends at an offset, with a cursor of their own. -/
def readArguments (shape : Shape) (source : List Char) (pos : Nat) : Reading Nat :=
  let w : Window := ⟨source, pos⟩
  match shape with
  | .translate => w.translate pos
  | .formatPlural => w.plural pos

/-- The cursor moves forward. -/
theorem lt_of_readArguments {shape : Shape} {source : List Char} {pos stop : Nat}
    (h : readArguments shape source pos = .ok stop) : pos < stop := by
  cases shape with
  | translate => exact Window.lt_of_translate h
  | formatPlural => exact Window.lt_of_plural h

/-! ### The calls of a source -/

/-- The two ends of the first head in a text that begins at an offset. -/
def firstHead? (shape : Shape) (pos : Nat) : List Char → Option (Nat × Nat)
  | [] => none
  | c :: cs =>
    match afterHead? shape (c :: cs) with
    | some body => some (pos, pos + byteLength (before (c :: cs) body))
    | none => firstHead? shape (pos + c.utf8Size) cs

/-- A head takes up some of the text. -/
theorem bounds_of_firstHead? {shape : Shape} {pos first body : Nat} {cs : List Char}
    (h : firstHead? shape pos cs = some (first, body)) :
    pos < body ∧ body ≤ pos + byteLength cs := by
  fun_induction firstHead? shape pos cs with
  | case1 => exact nomatch h
  | case2 pos c cs rest hhead =>
    obtain ⟨rfl, rfl⟩ := Prod.mk.inj (Option.some.inj h)
    obtain ⟨hsuffix, hlength⟩ := afterHead?_suffix hhead
    have hcut := before_append hsuffix
    cases hbefore : before (c :: cs) rest with
    | nil =>
      rw [hbefore, List.nil_append] at hcut
      rw [hcut] at hlength
      exact absurd hlength (Nat.lt_irrefl _)
    | cons d ds =>
      rw [hbefore] at hcut
      rw [← hcut, byteLength_append, byteLength_cons]
      have hpos := Char.utf8Size_pos d
      omega
  | case3 pos c cs _ ih =>
    have hrest := ih h
    rw [byteLength_cons]
    omega

/-- The calls of one shape in the part of a source from an offset on.  A call with complete
arguments is cut out of the source; where a candidate is rejected, the part up to the place that
the cursor has come to is cut out as well, and left. -/
def scanFrom (shape : Shape) (source : List Char) (start : Nat) : Reading (List Match) :=
  match _more : atByte? start source with
  | none => .error .offBoundary
  | some rest =>
    match _head : firstHead? shape start rest with
    | none => .ok []
    | some (first, body) =>
      match _read : readArguments shape source body with
      | .ok stop =>
        match slice? first stop source with
        | none => .error .offBoundary
        | some call =>
          (scanFrom shape source stop).map (⟨shape, String.ofList call, first, stop⟩ :: ·)
      | .error (.rejected pos) =>
        match slice? first pos source with
        | none => .error .offBoundary
        | some _ => scanFrom shape source body
      | .error .offBoundary => .error .offBoundary
termination_by byteLength source - start
decreasing_by
  · obtain ⟨pre, rfl, rfl⟩ := atByte?_eq_some_iff.1 _more
    have hhead := bounds_of_firstHead? _head
    have hread := lt_of_readArguments _read
    rw [byteLength_append]
    omega
  · obtain ⟨pre, rfl, rfl⟩ := atByte?_eq_some_iff.1 _more
    have hhead := bounds_of_firstHead? _head
    rw [byteLength_append]
    omega

/-- The calls of one shape in a source, in the order of their places. -/
def scan (shape : Shape) (source : String) : Reading (List Match) :=
  scanFrom shape source.toList 0

end CallHarvest.Call
