import CallHarvest.Glob.Matches

/-!
# The words of a glob

A glob stands for a set of words over bytes, and it matches the paths that are among them.

* `Token.Takes`, `TakesAll`, `TakesSome` — the words of a token, of a sequence of tokens, and of one
  of several sequences.
* `mem_rests_advanceAll` — the places after tokens are those after their words.
* `Glob.accepts_eq_true_iff` — a glob matches the paths that are its words, except that a path
  without a file name is matched by no glob that needs one.
-/

namespace CallHarvest

open CallHarvest.Text (bytes)

/-- Whether a word is made of whole directories: it is empty or ends in a separator. -/
def IsDirs (w : List UInt8) : Prop :=
  w = [] ∨ ∃ v, w = v ++ [separator]

mutual

/-- Whether a word is one of a token. -/
def Token.Takes : Token → List UInt8 → Prop
  | .literal c, w => w = String.utf8EncodeChar c
  | .any, w => ∃ b, isInner b = true ∧ w = [b]
  | .star, w => ∀ b ∈ w, isInner b = true
  | .leadingDirs, w => IsDirs w
  | .innerDirs, w => ∃ v, IsDirs v ∧ w = separator :: v
  | .trailingDirs, w => ∃ v, w = separator :: v
  | .oneOf allowed, w => ∃ b, allowed.allows b = true ∧ w = [b]
  | .alternatives branches, w => if branches.isEmpty then w = [] else TakesSome branches w

/-- Whether a word is made of words of tokens one after the other. -/
def TakesAll : List Token → List UInt8 → Prop
  | [], w => w = []
  | t :: ts, w => ∃ u v, t.Takes u ∧ TakesAll ts v ∧ w = u ++ v

/-- Whether a word is one of the tokens of one of several branches. -/
def TakesSome : List (List Token) → List UInt8 → Prop
  | [], _ => False
  | branch :: branches, w => TakesAll branch w ∨ TakesSome branches w

end

/-! ### Places after words -/

namespace Places

theorem mem_rests_stepAll {word path rest : List UInt8} {ps : Places} :
    rest ∈ (ps.stepAll word path).rests path ↔ word ++ rest ∈ ps.rests path := by
  induction word generalizing ps with
  | nil => rfl
  | cons b word ih =>
    have h : ps.stepAll (b :: word) path = (ps.step (· == b) path).stepAll word path := rfl
    rw [h, ih, mem_rests_step]
    simp

theorem mem_rests_step_iff {suits : UInt8 → Bool} {path rest : List UInt8} {ps : Places} :
    rest ∈ (ps.step suits path).rests path ↔
      ∃ w, (∃ b, suits b = true ∧ w = [b]) ∧ w ++ rest ∈ ps.rests path := by
  rw [mem_rests_step]
  constructor
  · intro h
    obtain ⟨b, hb, h⟩ := h
    exact ⟨[b], ⟨b, hb, rfl⟩, h⟩
  · intro h
    obtain ⟨_, ⟨b, hb, rfl⟩, h⟩ := h
    exact ⟨b, hb, h⟩

theorem mem_rests_step_separator {path rest : List UInt8} {ps : Places} :
    rest ∈ (ps.step isSeparator path).rests path ↔ separator :: rest ∈ ps.rests path := by
  simp [mem_rests_step, isSeparator]

theorem mem_rests_stepDirs {path rest : List UInt8} {ps : Places} :
    rest ∈ (ps.stepDirs path).rests path ↔ ∃ w, IsDirs w ∧ w ++ rest ∈ ps.rests path := by
  rw [stepDirs, mem_rests_union, mem_rests_step_separator, mem_rests_spread]
  constructor
  · intro h
    rcases h with h | ⟨v, hv, _⟩
    · exact ⟨[], .inl rfl, h⟩
    · exact ⟨v ++ [separator], .inr ⟨v, rfl⟩, by simpa using hv⟩
  · intro h
    obtain ⟨w, rfl | ⟨v, rfl⟩, hw⟩ := h
    · exact .inl hw
    · exact .inr ⟨v, by simpa using hw, fun _ _ => rfl⟩

end Places

mutual

theorem mem_rests_advance {path rest : List UInt8} {ps : Places} : ∀ t : Token,
    rest ∈ (t.advance path ps).rests path ↔ ∃ w, t.Takes w ∧ w ++ rest ∈ ps.rests path
  | .literal c => by simp [Token.advance, Token.Takes, Places.mem_rests_stepAll]
  | .any => Places.mem_rests_step_iff
  | .star => by simp [Token.advance, Token.Takes, Places.mem_rests_spread, and_comm]
  | .leadingDirs => Places.mem_rests_stepDirs
  | .innerDirs => by
    rw [Token.advance, Places.mem_rests_stepDirs]
    constructor
    · intro h
      obtain ⟨v, hv, h⟩ := h
      exact ⟨separator :: v, ⟨v, hv, rfl⟩, Places.mem_rests_step_separator.1 h⟩
    · intro h
      obtain ⟨_, ⟨v, hv, rfl⟩, h⟩ := h
      exact ⟨v, hv, Places.mem_rests_step_separator.2 h⟩
  | .trailingDirs => by
    rw [Token.advance, Places.mem_rests_spread]
    constructor
    · intro h
      obtain ⟨v, h, _⟩ := h
      exact ⟨separator :: v, ⟨v, rfl⟩, Places.mem_rests_step_separator.1 h⟩
    · intro h
      obtain ⟨_, ⟨v, rfl⟩, h⟩ := h
      exact ⟨v, Places.mem_rests_step_separator.2 h, fun _ _ => rfl⟩
  | .oneOf allowed => Places.mem_rests_step_iff
  | .alternatives branches => by
    simp only [Token.advance, Token.Takes]
    split
    · simp
    · exact mem_rests_advanceSome branches

/-- The places after tokens are those after their words. -/
theorem mem_rests_advanceAll {path rest : List UInt8} {ps : Places} : ∀ ts : List Token,
    rest ∈ (advanceAll path ts ps).rests path ↔ ∃ w, TakesAll ts w ∧ w ++ rest ∈ ps.rests path
  | [] => by simp [advanceAll, TakesAll]
  | t :: ts => by
    rw [advanceAll, mem_rests_advanceAll ts]
    constructor
    · intro h
      obtain ⟨v, hv, h⟩ := h
      obtain ⟨u, hu, h⟩ := (mem_rests_advance t).1 h
      exact ⟨u ++ v, ⟨u, v, hu, hv, rfl⟩, by simpa using h⟩
    · intro h
      obtain ⟨_, ⟨u, v, hu, hv, rfl⟩, h⟩ := h
      exact ⟨v, hv, (mem_rests_advance t).2 ⟨u, hu, by simpa using h⟩⟩

theorem mem_rests_advanceSome {path rest : List UInt8} {ps : Places} :
    ∀ branches : List (List Token), rest ∈ (advanceSome path branches ps).rests path ↔
      ∃ w, TakesSome branches w ∧ w ++ rest ∈ ps.rests path
  | [] => by simp [advanceSome, TakesSome, Places.rests]
  | branch :: branches => by
    rw [advanceSome, Places.mem_rests_union, mem_rests_advanceAll branch,
      mem_rests_advanceSome branches]
    simp [TakesSome, or_and_right, exists_or]

end

/-- **A glob matches its words.**  Only a path without a file name may be a word of a glob that
needs one, and is then not matched. -/
theorem Glob.accepts_eq_true_iff {g : Glob} {path : String} :
    g.accepts path = true ↔ g.isUniversal = true ∨
      (¬ (g.needsName = true ∧ endsInParent path = true) ∧
        TakesAll g.tokens (bytes path.toList)) := by
  have key : (advanceAll (bytes path.toList) g.tokens .start).hasEnd (bytes path.toList) = true ↔
      TakesAll g.tokens (bytes path.toList) := by
    rw [← Places.nil_mem_rests_iff, mem_rests_advanceAll]
    simp [Places.rests_start]
  rw [accepts, Bool.or_eq_true, Bool.and_eq_true, key, Bool.not_eq_true', ← Bool.not_eq_true,
    Bool.and_eq_true]

end CallHarvest
