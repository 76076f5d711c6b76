import CallHarvest.Call.Balanced

/-!
# Finding calls

A source is searched from left to right.  At each place either a complete call begins, and the
search goes on after it, or the place is passed.  In the lazy reading a place is passed by one
character; in the balanced reading the whole head of a call that is not complete is passed.

* `arguments?` — the arguments of a call in either reading.
* `attempt` — what there is at one place (`attempt_append`).
* `throughLastParen` — the part of a source that is searched.
* `find` — the calls of one shape.
* `findAll` — the calls of all shapes, one shape after the other.
-/

namespace CallHarvest.Call

open CallHarvest.Text (after? after?_eq_some_iff before before_append byteLength)

/-- Reads the arguments of a call in the given reading. -/
def arguments? : Mode → Shape → List Char → Option (List Char)
  | .lazy => lazyArguments?
  | .balanced => limitedArguments?

/-- What there is at one place of a source, and the text after it. -/
inductive Attempt
  /-- A complete call. -/
  | complete (call rest : List Char)
  /-- No complete call; the search goes on after the characters that are passed. -/
  | passed (skipped rest : List Char)

namespace Attempt

/-- The characters before the place at which the search goes on. -/
def taken : Attempt → List Char
  | .complete call _ => call
  | .passed skipped _ => skipped

/-- The text at which the search goes on. -/
def rest : Attempt → List Char
  | .complete _ rest => rest
  | .passed _ rest => rest

end Attempt

/-- Tries to read a call at the place of the character `c`. -/
def attempt (mode : Mode) (shape : Shape) (c : Char) (cs : List Char) : Attempt :=
  match afterHead? shape (c :: cs) with
  | none => .passed [c] cs
  | some body =>
    match arguments? mode shape body, mode with
    | some rest, _ => .complete (before (c :: cs) rest) rest
    | none, .lazy => .passed [c] cs
    | none, .balanced => .passed (before (c :: cs) body) body

/-! ### The search goes on -/

theorem arguments?_suffix {mode : Mode} {shape : Shape} {cs rest : List Char}
    (h : arguments? mode shape cs = some rest) : rest <:+ cs := by
  cases mode with
  | lazy => exact lazyArguments?_suffix h
  | balanced =>
    obtain ⟨_, _, rfl⟩ := Option.map_eq_some_iff.1 h
    exact List.drop_suffix _ _

theorem afterHead?_suffix {shape : Shape} {cs body : List Char}
    (h : afterHead? shape cs = some body) : body <:+ cs ∧ body.length < cs.length := by
  have key : ∀ name, after? (head name shape) cs = some body →
      body <:+ cs ∧ body.length < cs.length := by
    intro name hp
    rw [after?_eq_some_iff.1 hp]
    refine ⟨List.suffix_append _ _, ?_⟩
    simp [head]
    omega
  rw [afterHead?] at h
  rcases Option.or_eq_some_iff.1 h with h | ⟨_, h⟩
  · exact key _ h
  · exact key _ h

/-- **An attempt loses nothing.**  What it takes and what is left make up the text. -/
theorem attempt_append (mode : Mode) (shape : Shape) (c : Char) (cs : List Char) :
    (attempt mode shape c cs).taken ++ (attempt mode shape c cs).rest = c :: cs := by
  unfold attempt
  split
  · rfl
  · rename_i body hb
    have hbody := (afterHead?_suffix hb).1
    split
    · rename_i rest _ ha
      exact before_append ((arguments?_suffix ha).trans hbody)
    · rfl
    · exact before_append hbody

/-- The search goes on after the place that it is at. -/
theorem attempt_length (mode : Mode) (shape : Shape) (c : Char) (cs : List Char) :
    (attempt mode shape c cs).rest.length < (c :: cs).length := by
  unfold attempt
  split
  · simp [Attempt.rest]
  · rename_i body hb
    have hlt := (afterHead?_suffix hb).2
    split
    · rename_i rest _ ha
      exact Nat.lt_of_le_of_lt (arguments?_suffix ha).length_le hlt
    · simp [Attempt.rest]
    · exact hlt

/-! ### The search -/

/-- The calls of one shape in the text from the byte `start` on. -/
def findFrom (mode : Mode) (shape : Shape) (start : Nat) : List Char → List Match
  | [] => []
  | c :: cs =>
    match _found : attempt mode shape c cs with
    | .complete call rest =>
      let stop := start + byteLength call
      ⟨shape, String.ofList call, start, stop⟩ :: findFrom mode shape stop rest
    | .passed skipped rest => findFrom mode shape (start + byteLength skipped) rest
termination_by cs => cs.length
decreasing_by
  all_goals
    have hlt := attempt_length mode shape c cs
    rw [_found] at hlt
    exact hlt

/-- A text up to its last closing parenthesis.  What follows that is part of no call. -/
def throughLastParen (cs : List Char) : List Char :=
  (cs.reverse.dropWhile (· != ')')).reverse

theorem throughLastParen_append (cs : List Char) :
    ∃ rest, throughLastParen cs ++ rest = cs ∧ ')' ∉ rest := by
  refine ⟨(cs.reverse.takeWhile (· != ')')).reverse, ?_, fun h => ?_⟩
  · rw [throughLastParen, ← List.reverse_append, List.takeWhile_append_dropWhile,
      List.reverse_reverse]
  · simpa using List.all_eq_true.1 List.all_takeWhile _ (List.mem_reverse.1 h)

/-- The calls of one shape in a source, in the order of their places. -/
def find (mode : Mode) (shape : Shape) (source : String) : List Match :=
  findFrom mode shape 0 (throughLastParen source.toList)

/-- The calls of all shapes in a source. -/
def findAll (mode : Mode) (source : String) : List Match :=
  Shape.all.flatMap fun shape => find mode shape source

end CallHarvest.Call
