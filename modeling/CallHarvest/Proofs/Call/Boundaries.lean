import CallHarvest.Call.Cursor
import CallHarvest.Proofs.Call.Limit
import CallHarvest.Proofs.Text.Cuts

/-!
# A cursor stays on boundaries

The readers with a cursor are compared with those that take characters off a list.

* `Window.At` — a cursor is at an offset between two characters, and has the given text to read.
* `Window.Agrees` — two readings have the same result, or both have none, in which case the cursor
  is at a boundary; the one with the cursor is never cut short (`Agrees.bind`).
* `agrees_readArguments` — the two readings of the arguments of a call agree.
* `readArguments_cases` — **the cursor comes to the end of arguments, or there are none**.
-/

namespace CallHarvest.Call

open CallHarvest.Text (append_inj_of_byteLength_eq atByte?_append before before_append_right
  byteLength byteLength_append isScriptBlank slice? slice?_eq_some_iff trim)

namespace Window

variable {w : Window} {pos : Nat} {c : Char} {near : List Char}

/-! ### The place of a cursor -/

/-- The cursor is at an offset between two characters of the source, and `near` is what is left of
the text within its reach. -/
def At (w : Window) (pos : Nat) (near : List Char) : Prop :=
  ∃ pre whole read, w.source = pre ++ whole ∧ byteLength pre = w.start ∧
    reach callLimit whole = read ++ near ∧ pos = w.start + byteLength read

theorem at_start (pre body : List Char) :
    At ⟨pre ++ body, byteLength pre⟩ (byteLength pre) (reach callLimit body) :=
  ⟨pre, body, [], rfl, rfl, rfl, rfl⟩

theorem At.drop (xs : List Char) (h : At w pos (xs ++ near)) : At w (pos + byteLength xs) near := by
  obtain ⟨pre, whole, read, hsource, hpre, hread, rfl⟩ := h
  refine ⟨pre, whole, read ++ xs, hsource, hpre, ?_, ?_⟩
  · rw [hread, List.append_assoc]
  · rw [byteLength_append, Nat.add_assoc]

theorem At.tail (h : At w pos (c :: near)) : At w (pos + c.utf8Size) near :=
  At.drop [c] h

/-- Two places of a cursor are as far apart as the text that is left at the one and not at the
other. -/
theorem At.eq_add {xs : List Char} {next : Nat} (h : At w pos (xs ++ near)) (hnext : At w next near) :
    next = pos + byteLength xs := by
  obtain ⟨pre, whole, read, hsource, hpre, hread, rfl⟩ := h
  obtain ⟨pre', whole', read', hsource', hpre', hread', rfl⟩ := hnext
  obtain ⟨rfl, rfl⟩ :=
    append_inj_of_byteLength_eq (hsource.symm.trans hsource') (hpre.trans hpre'.symm)
  rw [hread, ← List.append_assoc] at hread'
  rw [← List.append_cancel_right hread', byteLength_append, Nat.add_assoc]

/-- The text between two places of a cursor. -/
theorem At.slice {lead : List Char} {next : Nat} (h : At w pos (lead ++ near))
    (hnext : At w next near) : slice? pos next w.source = some lead := by
  have hlength := h.eq_add hnext
  obtain ⟨pre, whole, read, hsource, hpre, hread, rfl⟩ := h
  obtain ⟨far, hfar⟩ := reach_prefix callLimit whole
  refine slice?_eq_some_iff.2 ⟨pre ++ read, near ++ far, ?_, ?_, hlength.symm⟩
  · rw [hsource, ← hfar, hread]
    simp
  · rw [byteLength_append, hpre]

/-- The text that a cursor has read. -/
theorem At.exists_slice (h : At w pos near) : ∃ read, slice? w.start pos w.source = some read := by
  obtain ⟨pre, whole, read, hsource, hpre, hread, rfl⟩ := h
  obtain ⟨far, hfar⟩ := reach_prefix callLimit whole
  refine ⟨read, slice?_eq_some_iff.2 ⟨pre, near ++ far, ?_, hpre, rfl⟩⟩
  rw [hsource, ← hfar, hread, List.append_assoc]

/-- **A cursor sees the next character within its reach.** -/
theorem At.peek (h : At w pos near) : w.peek pos = .ok near.head? := by
  obtain ⟨pre, whole, read, hsource, hpre, hread, rfl⟩ := h
  obtain ⟨far, hfar⟩ := reach_prefix callLimit whole
  have hplace : w.start + byteLength read = byteLength (pre ++ read) := by
    rw [byteLength_append, hpre]
  have hcut : w.source = (pre ++ read) ++ (near ++ far) := by
    rw [hsource, ← hfar, hread]
    simp
  rw [Window.peek, hcut, hplace, atByte?_append, ← hplace, limit]
  show Except.ok _ = Except.ok _
  congr 1
  cases near with
  | cons c near =>
    have hlt := byteLength_lt_of_reach hread
    rw [if_pos (Nat.add_lt_add_left hlt _)]
    rfl
  | nil =>
    cases far with
    | nil => exact ite_self _
    | cons d far =>
      rw [List.append_nil] at hread
      rw [hread] at hfar
      have hle := le_byteLength_of_reach (hfar.symm ▸ hread)
      rw [if_neg (Nat.not_lt.2 (Nat.add_le_add_left hle _))]
      rfl

/-! ### Readings that agree -/

/-- A reading with a cursor and one of characters agree: their results are related, or neither has
one and the cursor is at a boundary. -/
inductive Agrees {α β : Type} (w : Window) (R : α → β → Prop) : Reading α → Option β → Prop
  | accepted {a : α} {b : β} : R a b → Agrees w R (.ok a) (some b)
  | rejected {pos : Nat} {near : List Char} :
      At w pos near → Agrees w R (.error (.rejected pos)) none

variable {α β γ δ : Type} {R : α → β → Prop} {S : γ → δ → Prop}

/-- Agreement goes from one reader to the next. -/
theorem Agrees.bind {x : Reading α} {o : Option β} {f : α → Reading γ} {g : β → Option δ}
    (h : Agrees w R x o) (hnext : ∀ a b, R a b → Agrees w S (f a) (g b)) :
    Agrees w S (x >>= f) (o.bind g) := by
  cases h with
  | accepted hab => exact hnext _ _ hab
  | rejected hpos => exact .rejected hpos

theorem Agrees.bind_none {x : Reading α} {f : α → Reading γ} (h : Agrees w R x none) :
    Agrees w S (x >>= f) none := by
  cases h with
  | rejected hpos => exact .rejected hpos

theorem Agrees.exists_ok {x : Reading α} {b : β} (h : Agrees w R x (some b)) :
    ∃ a, x = .ok a ∧ R a b := by
  cases h with
  | accepted hab => exact ⟨_, rfl, hab⟩

theorem Agrees.map {x : Reading α} {o : Option β} {f : α → γ} {g : β → δ}
    (h : Agrees w R x o) (hnext : ∀ a b, R a b → S (f a) (g b)) :
    Agrees w S (x.map f) (o.map g) := by
  cases h with
  | accepted hab => exact .accepted (hnext _ _ hab)
  | rejected hpos => exact .rejected hpos

theorem Agrees.map_right {T : α → δ → Prop} {x : Reading α} {o : Option β} {g : β → δ}
    (h : Agrees w R x o) (hnext : ∀ a b, R a b → T a (g b)) : Agrees w T x (o.map g) := by
  cases h with
  | accepted hab => exact .accepted (hnext _ _ hab)
  | rejected hpos => exact .rejected hpos

/-! ### Single characters -/

theorem At.bump_nil (h : At w pos []) : w.bump pos = .error (.rejected pos) := by
  rw [bump, h.peek]
  rfl

theorem At.bump_cons (h : At w pos (c :: near)) : w.bump pos = .ok (c, pos + c.utf8Size) := by
  rw [bump, h.peek]
  rfl

theorem At.eat_cons (h : At w pos (c :: near)) : w.eat c pos = .ok (some (pos + c.utf8Size)) := by
  rw [eat, h.peek]
  show Except.ok (if some c = some c then some (pos + c.utf8Size) else none) = _
  rw [if_pos rfl]

theorem At.eat_of_ne (h : At w pos near) (hc : near.head? ≠ some c) : w.eat c pos = .ok none := by
  rw [eat, h.peek]
  show Except.ok (if near.head? = some c then some (pos + c.utf8Size) else none) = _
  rw [if_neg hc]

theorem At.expect_cons (h : At w pos (c :: near)) : w.expect c pos = .ok (pos + c.utf8Size) := by
  rw [expect, h.eat_cons]
  rfl

theorem At.expect_of_ne (h : At w pos near) (hc : near.head? ≠ some c) :
    w.expect c pos = .error (.rejected pos) := by
  rw [expect, h.eat_of_ne hc]
  rfl

/-! ### Blanks, digits and literals -/

theorem head?_ne_some {cs : List Char} (h : ∀ ds, cs = c :: ds → False) : cs.head? ≠ some c := by
  intro hhead
  obtain ⟨ds, hcs⟩ := List.head?_eq_some_iff.1 hhead
  exact h ds hcs

theorem skipWhile_eq (p : Char → Bool) :
    w.skipWhile p pos = w.peek pos >>= fun
      | none => .ok pos
      | some c => if p c then w.skipWhile p (pos + c.utf8Size) else .ok pos := by
  rw [Window.skipWhile]
  split <;> rename_i hnext <;> rw [hnext] <;> rfl

theorem closeLiteral_eq (mark : Char) :
    w.closeLiteral mark pos = w.bump pos >>= fun (c, next) =>
      if c = '\\' then w.bump next >>= fun (_, after) => w.closeLiteral mark after
      else if c = mark then .ok next else w.closeLiteral mark next := by
  rw [Window.closeLiteral]
  split
  · rename_i hfirst
    rw [hfirst]
    rfl
  · rename_i c next hfirst
    rw [hfirst]
    show _ = if c = '\\' then _ else _
    split
    · split <;> rename_i hsecond <;> rw [hsecond] <;> rfl
    · rfl

/-- Characters of a class are skipped. -/
theorem At.skipWhile {p : Char → Bool} (h : At w pos near) :
    ∃ next, w.skipWhile p pos = .ok next ∧ At w next (near.dropWhile p) := by
  induction near generalizing pos with
  | nil =>
    refine ⟨pos, ?_, h⟩
    rw [skipWhile_eq, h.peek]
    rfl
  | cons c near ih =>
    rw [skipWhile_eq, h.peek]
    show ∃ next, (if p c then w.skipWhile p (pos + c.utf8Size) else .ok pos) = .ok next ∧ _
    by_cases hc : p c
    · rw [if_pos hc, List.dropWhile_cons_of_pos hc]
      exact ih h.tail
    · rw [if_neg hc, List.dropWhile_cons_of_neg hc]
      exact ⟨pos, rfl, h⟩

theorem agrees_integer (h : At w pos near) : Agrees w (At w) (w.integer pos) (digits? near) := by
  rw [integer, h.peek]
  cases near with
  | nil => exact .rejected h
  | cons c near =>
    show Agrees w (At w) (if c.isDigit then w.skipWhile Char.isDigit pos else .error (.rejected pos))
      (digits? (c :: near))
    rw [digits?]
    split
    · rename_i hc
      obtain ⟨next, hskip, hnext⟩ := At.skipWhile (p := Char.isDigit) h
      rw [List.dropWhile_cons_of_pos hc] at hnext
      rw [hskip]
      exact .accepted hnext
    · exact .rejected h

/-- A literal is closed at the same place, and what is read of it tells the cursor's way. -/
theorem agrees_closeLiteral {mark : Char} (h : At w pos near) :
    Agrees w (fun next p => At w next p.2) (w.closeLiteral mark pos) (literalBody? mark near) := by
  fun_induction literalBody? mark near generalizing pos with
  | case1 =>
    rw [closeLiteral_eq, h.bump_nil]
    exact .rejected h
  | case2 =>
    rw [closeLiteral_eq, h.bump_cons]
    show Agrees w _ (w.bump _ >>= _) none
    rw [h.tail.bump_nil]
    exact .rejected h.tail
  | case3 c cs ih =>
    rw [closeLiteral_eq, h.bump_cons]
    show Agrees w _ (w.bump _ >>= _) _
    rw [h.tail.bump_cons]
    exact (ih h.tail.tail).map_right fun _ _ hnext => hnext
  | case4 cs hend hesc =>
    rw [closeLiteral_eq, h.bump_cons]
    show Agrees w _ (if mark = '\\' then _ else _) _
    rw [if_neg (ne_backslash hend hesc), if_pos rfl]
    exact .accepted h.tail
  | case5 c cs hend hesc hc ih =>
    rw [closeLiteral_eq, h.bump_cons]
    show Agrees w _ (if c = '\\' then _ else _) _
    rw [if_neg (ne_backslash hend hesc), if_neg hc]
    exact (ih h.tail).map_right fun _ _ hnext => hnext

theorem agrees_literal (h : At w pos near) : Agrees w (At w) (w.literal pos) (literal? near) := by
  rw [literal]
  cases near with
  | nil =>
    rw [h.bump_nil]
    exact .rejected h
  | cons c near =>
    rw [h.bump_cons, literal?]
    show Agrees w (At w) (if isQuote c then _ else _) _
    split
    · exact (agrees_closeLiteral h.tail).map_right fun _ _ hnext => hnext
    · exact .rejected h.tail

theorem agrees_literalArgument (h : At w pos near) :
    Agrees w (At w) (w.literalArgument pos) (literalArgument? near) := by
  rw [literalArgument]
  unfold literalArgument?
  split
  · rename_i near
    rw [h.expect_cons]
    obtain ⟨next, hskip, hnext⟩ := At.skipWhile (p := isScriptBlank) h.tail
    show Agrees w (At w) (w.skipWhile isScriptBlank _ >>= _) _
    rw [hskip]
    exact agrees_literal hnext
  · rename_i hcomma
    rw [h.expect_of_ne (head?_ne_some hcomma)]
    exact .rejected h

/-! ### The arguments after the literals -/

/-- The text between two places of the cursor is cut out of the source. -/
theorem At.piece {lead : List Char} {start : Nat} (hstart : At w start (lead ++ near))
    (h : At w pos near) : w.piece start pos = .ok (trim isScriptBlank lead) := by
  rw [Window.piece, hstart.slice h]

/-- One more character goes to the text that was read. -/
theorem At.lead_cons {lead : List Char} (h : At w pos (lead ++ c :: near)) :
    At w pos ((lead ++ [c]) ++ near) := by
  rwa [← List.append_cons]

theorem At.argumentTail_nil (h : At w pos []) (closers : List Char) (start : Nat) :
    w.argumentTail closers start pos = .error (.rejected pos) := by
  have hpeek := h.peek
  rw [Window.argumentTail]
  split
  · rename_i hnext
    exact absurd (hpeek.symm.trans hnext) (by simp)
  · rfl
  · rename_i hnext
    exact absurd (hpeek.symm.trans hnext) (by simp)

theorem At.argumentTail_cons (h : At w pos (c :: near)) (closers : List Char) (start : Nat) :
    w.argumentTail closers start pos =
      if isQuote c then w.literal pos >>= w.argumentTail closers start
      else if let some d := closer? c then
        w.argumentTail (d :: closers) start (pos + c.utf8Size)
      else if isCloser c then
        match closers with
        | [] =>
          if c = ')' then do
            let last ← w.piece start pos
            .ok ([last], pos + c.utf8Size)
          else .error (.rejected pos)
        | d :: outer =>
          if c = d then w.argumentTail outer start (pos + c.utf8Size)
          else .error (.rejected pos)
      else if c = ',' ∧ closers = [] then do
        let first ← w.piece start pos
        let (further, stop) ← w.argumentTail closers (pos + 1) (pos + c.utf8Size)
        .ok (first :: further, stop)
      else w.argumentTail closers start (pos + c.utf8Size) := by
  have hpeek := h.peek
  rw [Window.argumentTail]
  split
  · rename_i hnext
    exact absurd (hpeek.symm.trans hnext) (by simp)
  · rename_i hnext
    exact absurd (hpeek.symm.trans hnext) (by simp)
  · rename_i hnext
    obtain rfl := Option.some.inj (Except.ok.inj (hpeek.symm.trans hnext))
    split
    · split <;> rename_i hclosed <;> rw [hclosed] <;> rfl
    · rfl

/-- The pieces that the cursor cuts out are those of the tail with `lead` in front of it. -/
def CutsTail (w : Window) (lead : List Char) (p : List (List Char) × Nat) (t : Tail) : Prop :=
  p.1 = (t.prepend lead).pieces ∧ At w p.2 t.rest

theorem Agrees.prepend {lead xs : List Char} {x : Reading (List (List Char) × Nat)}
    {o : Option Tail} (h : Agrees w (CutsTail w (lead ++ xs)) x o) :
    Agrees w (CutsTail w lead) x (o.map (Tail.prepend xs)) := by
  apply h.map_right
  intro p t hcuts
  obtain ⟨hpieces, hrest⟩ := hcuts
  exact ⟨by rw [hpieces, Tail.prepend_prepend], hrest⟩

/-- **Arguments are cut out of the source piece by piece**, each between two places at which the
cursor has been. -/
theorem agrees_argumentTail {closers lead : List Char} {start : Nat}
    (hstart : At w start (lead ++ near)) (h : At w pos near) :
    Agrees w (CutsTail w lead) (w.argumentTail closers start pos) (tail? closers near) := by
  fun_induction tail? closers near generalizing start pos lead with
  | case1 =>
    rw [h.argumentTail_nil]
    exact .rejected h
  | case2 closers c cs hq hclosed =>
    have hliteral := agrees_literal h
    rw [literal?, if_pos hq, hclosed, Option.map_none] at hliteral
    rw [h.argumentTail_cons, if_pos hq]
    exact hliteral.bind_none
  | case3 closers c cs hq body rest hclosed ih =>
    have hliteral := agrees_literal h
    rw [literal?, if_pos hq, hclosed, Option.map_some] at hliteral
    obtain ⟨next, hread, hnext⟩ := hliteral.exists_ok
    rw [h.argumentTail_cons, if_pos hq, hread]
    refine (ih ?_ hnext).prepend
    rwa [List.append_assoc, List.cons_append, literalBody?_append hclosed]
  | case4 closers c cs hq d ho ih =>
    rw [h.argumentTail_cons, if_neg hq, ho]
    exact (ih hstart.lead_cons h.tail).prepend
  | case5 cs hq hd ho =>
    rw [h.argumentTail_cons, if_neg hq, closer?_of_isCloser hd, hstart.piece h]
    exact .accepted ⟨by simp [Tail.pieces, Tail.prepend], h.tail⟩
  | case6 c cs hq hd hc ho =>
    rw [h.argumentTail_cons, if_neg hq, closer?_of_isCloser hd]
    show Agrees w _ (if isCloser c then if c = ')' then _ else _ else _) _
    rw [if_pos hd, if_neg hc]
    exact .rejected h
  | case7 cs d outer hq hd ho ih =>
    rw [h.argumentTail_cons, if_neg hq, closer?_of_isCloser hd]
    show Agrees w _ (if isCloser d then if d = d then _ else _ else _) _
    rw [if_pos hd, if_pos rfl]
    exact (ih hstart.lead_cons h.tail).prepend
  | case8 c cs hq hd d outer hc ho =>
    rw [h.argumentTail_cons, if_neg hq, closer?_of_isCloser hd]
    show Agrees w _ (if isCloser c then if c = d then _ else _ else _) _
    rw [if_pos hd, if_neg hc]
    exact .rejected h
  | case9 closers c cs hq hd hcomma ho ih =>
    have hplain : closer? c = none := Option.eq_none_iff_forall_ne_some.2 ho
    rw [h.argumentTail_cons, if_neg hq, hplain]
    show Agrees w _ (if isCloser c then _ else if c = ',' ∧ closers = [] then _ else _) _
    rw [if_neg hd, if_pos hcomma, hstart.piece h]
    obtain ⟨rfl, rfl⟩ := hcomma
    -- the argument after the comma begins right after it, one byte on
    have hnext : At w (pos + 1) ([] ++ cs) := h.tail
    show Agrees w _ ((w.argumentTail [] (pos + 1) (pos + 1)).map
      fun p => (trim isScriptBlank lead :: p.1, p.2)) _
    apply (ih hnext hnext).map
    intro p t hcuts
    obtain ⟨hpieces, hrest⟩ := hcuts
    refine ⟨?_, hrest⟩
    rw [hpieces]
    simp [Tail.pieces, Tail.prepend, Tail.afterComma]
  | case10 closers c cs hq hd hcomma ho ih =>
    have hplain : closer? c = none := Option.eq_none_iff_forall_ne_some.2 ho
    rw [h.argumentTail_cons, if_neg hq, hplain]
    show Agrees w _ (if isCloser c then _ else if c = ',' ∧ closers = [] then _ else _) _
    rw [if_neg hd, if_neg hcomma]
    exact (ih hstart.lead_cons h.tail).prepend

theorem agrees_furtherTail (h : At w pos near) :
    Agrees w (CutsTail w []) (w.furtherTail pos) (furtherTail? near) := by
  rw [furtherTail]
  unfold furtherTail?
  split
  · rename_i near
    rw [h.expect_cons]
    have hstart : At w (pos + ','.utf8Size) ([] ++ near) := h.tail
    exact agrees_argumentTail hstart h.tail
  · rename_i hcomma
    rw [h.expect_of_ne (head?_ne_some hcomma)]
    exact .rejected h

/-! ### The arguments of a call -/

theorem agrees_translate (h : At w pos near) :
    Agrees w (At w) (w.translate pos) (balancedTranslate? near) := by
  rw [translate, balancedTranslate?]
  apply (agrees_literal h).bind
  intro next more hnext
  split
  · rw [hnext.eat_cons]
    exact .accepted hnext.tail
  · rename_i hparen
    rw [hnext.eat_of_ne (head?_ne_some hparen)]
    exact (agrees_furtherTail hnext).map fun _ _ hcuts => hcuts.2

theorem withoutTrailing_pieces (t : Tail) : withoutTrailing t.pieces = t.arguments := by
  have hlength : 1 < t.pieces.length ↔ t.further ≠ [] := by
    rw [Tail.pieces, List.length_map, List.length_cons, Nat.lt_add_left_iff_pos,
      List.length_pos_iff]
  simp only [withoutTrailing, Tail.arguments, hlength]

theorem isPlural_pieces (t : Tail) : isPlural t.pieces = t.isPlural := by
  unfold isPlural Tail.isPlural
  rw [withoutTrailing_pieces]
  cases t.arguments with
  | nil => rfl
  | cons replacements more => simp

theorem agrees_plural (h : At w pos near) :
    Agrees w (At w) (w.plural pos) (balancedPlural? near) := by
  rw [plural, balancedPlural?, Option.bind_assoc, Option.bind_assoc]
  apply (agrees_integer h).bind
  intro _ _ hone
  apply (agrees_literalArgument hone).bind
  intro _ _ hmany
  apply (agrees_literalArgument hmany).bind
  intro next more hnext
  have htail := agrees_furtherTail hnext
  generalize w.furtherTail next = x, furtherTail? more = o at htail
  cases htail with
  | rejected hpos => exact .rejected hpos
  | @accepted p t hcuts =>
    obtain ⟨hpieces, hrest⟩ := hcuts
    show Agrees w (At w) (if isPlural p.1 then .ok p.2 else .error (.rejected p.2))
      (((some t).filter Tail.isPlural).map Tail.rest)
    rw [hpieces, Tail.prepend_nil, isPlural_pieces, Option.filter_some]
    split
    · exact .accepted hrest
    · exact .rejected hrest

end Window

/-- **The two readings of the arguments of a call agree.** -/
theorem agrees_readArguments (shape : Shape) (pre body : List Char) :
    Window.Agrees ⟨pre ++ body, byteLength pre⟩ (Window.At ⟨pre ++ body, byteLength pre⟩)
      (readArguments shape (pre ++ body) (byteLength pre))
      (balancedArguments? shape (reach callLimit body)) := by
  have hstart := Window.at_start pre body
  cases shape with
  | translate => exact Window.agrees_translate hstart
  | formatPlural => exact Window.agrees_plural hstart

/-- **The cursor comes to the end of arguments within the limit, or there are none.**  Either way
it stops between two characters of the source. -/
theorem readArguments_cases (shape : Shape) (pre body : List Char) :
    (∃ args rest, body = args ++ rest ∧ limitedArguments? shape body = some rest ∧
        readArguments shape (pre ++ body) (byteLength pre) = .ok (byteLength (pre ++ args))) ∨
      (limitedArguments? shape body = none ∧
        ∃ pos read, slice? (byteLength pre) pos (pre ++ body) = some read ∧
          readArguments shape (pre ++ body) (byteLength pre) = .error (.rejected pos)) := by
  have hstart := Window.at_start pre body
  have hagrees := agrees_readArguments shape pre body
  have hlimited : limitedArguments? shape body =
      (balancedArguments? shape (reach callLimit body)).map fun rest =>
        body.drop (before (reach callLimit body) rest).length := rfl
  generalize readArguments shape (pre ++ body) (byteLength pre) = x,
    ho : balancedArguments? shape (reach callLimit body) = o at hagrees
  rw [ho] at hlimited
  cases hagrees with
  | @accepted stop near hstop =>
    obtain ⟨args, -, hnear⟩ := balancedArguments?_eq_some_iff.1 ho
    obtain ⟨far, hfar⟩ := reach_prefix callLimit body
    rw [hnear] at hstart
    rw [hnear, List.append_assoc] at hfar
    rw [Option.map_some, hnear, before_append_right, ← hfar, List.drop_left, hfar] at hlimited
    refine Or.inl ⟨args, near ++ far, hfar.symm, hlimited, ?_⟩
    rw [hstart.eq_add hstop, byteLength_append]
  | @rejected pos near hpos =>
    obtain ⟨read, hread⟩ := hpos.exists_slice
    exact Or.inr ⟨hlimited, pos, read, hread, rfl⟩

end CallHarvest.Call
