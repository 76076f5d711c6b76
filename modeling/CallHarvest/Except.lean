/-!
# Computations that may fail

* `bind_eq_ok`, `map_eq_ok` — if a computation made of others succeeds, so do these.
-/

namespace CallHarvest

variable {ε α β : Type} {x : Except ε α}

/-- What succeeds in two steps succeeds in the first, and then in the second. -/
theorem bind_eq_ok {f : α → Except ε β} {b : β} (h : x >>= f = .ok b) :
    ∃ a, x = .ok a ∧ f a = .ok b := by
  cases x with
  | error e => exact nomatch h
  | ok a => exact ⟨a, rfl, h⟩

theorem map_eq_ok {f : α → β} {b : β} (h : x.map f = .ok b) : ∃ a, x = .ok a ∧ f a = b := by
  cases x with
  | error e => exact nomatch h
  | ok a => exact ⟨a, rfl, by simpa [Except.map] using h⟩

end CallHarvest
