/-!
# Taking texts apart

* `after?` — what follows a given beginning (`after?_eq_some_iff`).
* `before` — what comes before a given end (`before_append`).
* `replaceFirst?` — a text with another one in the place of the first occurrence of a part.
-/

namespace CallHarvest.Text

/-- What follows the given beginning, of a text that has it. -/
def after? {α : Type} [DecidableEq α] : (beginning cs : List α) → Option (List α)
  | [], cs => some cs
  | _ :: _, [] => none
  | b :: bs, c :: cs => if b = c then after? bs cs else none

theorem after?_eq_some_iff {α : Type} [DecidableEq α] {beginning cs rest : List α} :
    after? beginning cs = some rest ↔ cs = beginning ++ rest := by
  induction beginning generalizing cs with
  | nil => simp [after?]
  | cons b bs ih =>
    cases cs with
    | nil => simp [after?]
    | cons c cs =>
      by_cases h : b = c
      · simp [after?, h, ih]
      · simp [after?, h, Ne.symm h]

/-- What comes before the given end of a text. -/
def before {α : Type} (cs rest : List α) : List α :=
  cs.take (cs.length - rest.length)

theorem before_append {α : Type} {cs rest : List α} (h : rest <:+ cs) :
    before cs rest ++ rest = cs :=
  List.suffix_iff_eq_append.1 h

theorem before_append_right {α : Type} (xs rest : List α) : before (xs ++ rest) rest = xs :=
  List.append_cancel_right (before_append (List.suffix_append xs rest))

/-- A text with the first occurrence of `part` replaced, if there is one. -/
def replaceFirst? (part new : List Char) : List Char → Option (List Char)
  | [] => if part = [] then some new else none
  | c :: cs =>
    match after? part (c :: cs) with
    | some rest => some (new ++ rest)
    | none => (replaceFirst? part new cs).map (c :: ·)

end CallHarvest.Text
