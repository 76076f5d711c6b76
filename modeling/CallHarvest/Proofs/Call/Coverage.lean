import CallHarvest.Proofs.Call.Whole

/-!
# The lazy reading covers the balanced one

Every call in the balanced reading is a call in the lazy reading, although not always the shortest
one at its place.  So the lazy search takes in each place at which the balanced search reports a
call, whatever the two did before they came there.

* `BalancedArguments.lazy` — balanced arguments are arguments in the lazy reading.
* `ShortestScan.exists_cover` — a scan takes in every place at which a word begins.
* `ClearCall` — a call in which no quotation mark and no parenthesis misleads the lazy reading
  (`eq_of_clearLiterals`).
* `find_lazy_covers_balanced` — where the matches of the two searches are.
-/

namespace CallHarvest.Call

open CallHarvest.Text (append_eq_append_cases append_inj_of_byteLength_eq byteLength
  byteLength_append byteLength_pos isScriptBlank prefix_of_prefix_append)

variable {shape : Shape}

/-! ### One language in the other -/

/-- **Balanced arguments are arguments in the lazy reading.** -/
theorem BalancedArguments.lazy {args : List Char} (h : BalancedArguments shape args) :
    LazyArguments shape args := by
  cases h with
  | literal hl =>
    obtain ⟨mark, text, hq, -, rfl⟩ := hl
    have h : LazyArguments .translate
        (mark :: text ++ mark :: [].flatMap (',' :: ·) ++ [')']) := .translate hq hq
    simpa using h
  | @further _ b hl _ =>
    obtain ⟨mark, text, hq, -, rfl⟩ := hl
    have h : LazyArguments .translate
        (mark :: text ++ mark :: [b].flatMap (',' :: ·) ++ [')']) := .translate hq hq
    simpa using h
  | @formatPlural n v w _ _ p ps hne hn hv hw hone hmany _ _ _ _ =>
    obtain ⟨a, one, ha, -, rfl⟩ := hone
    obtain ⟨c, many, hc, -, rfl⟩ := hmany
    have h : LazyArguments .formatPlural (n ++ ',' :: v ++ a :: one ++ a :: ',' :: w ++
        c :: many ++ c :: ',' :: joined p ps ++ [')']) := .formatPlural hne hn hv hw ha ha hc hc
    simpa using h

/-! ### What a scan takes in -/

/-- **A scan takes in every place at which a word begins.** -/
theorem ShortestScan.exists_cover {L : List Char → Prop} {start : Nat} {cs pre w : List Char}
    {ms : List Match} (h : ShortestScan shape L start cs ms) (hw : L w) (hp : pre ++ w <+: cs) :
    ∃ m ∈ ms, m.start ≤ start + byteLength pre ∧ start + byteLength pre < m.stop := by
  induction h generalizing pre with
  | stop hnone => exact absurd hw (hnone pre w hp)
  | @word start u v rest ms hv hleft _ ih =>
    have hle : u.length ≤ pre.length := hleft pre w hp hw
    have hu : u <+: pre := List.prefix_of_prefix_length_le (List.prefix_append u (v ++ rest))
      ((List.prefix_append pre w).trans hp) hle
    obtain ⟨e, rfl⟩ := hu
    obtain ⟨more, hmore⟩ := hp
    rw [List.append_assoc, List.append_assoc] at hmore
    rcases append_eq_append_cases (List.append_cancel_left hmore) with
      ⟨f, rfl, rfl⟩ | ⟨f, hf, rfl, -⟩
    · -- the place is after the first word of the scan
      obtain ⟨m, hm, hfrom, hto⟩ := ih ⟨more, List.append_assoc f w more⟩
      refine ⟨m, List.mem_cons_of_mem _ hm, ?_, ?_⟩
      · rw [byteLength_append, byteLength_append]
        omega
      · rw [byteLength_append, byteLength_append]
        omega
    · -- the place is inside that word
      have hpos := byteLength_pos hf
      refine ⟨_, List.mem_cons_self, ?_, ?_⟩
      · show start + byteLength u ≤ start + byteLength (u ++ e)
        rw [byteLength_append]
        omega
      · show start + byteLength (u ++ e) < start + byteLength u + byteLength (e ++ f)
        rw [byteLength_append, byteLength_append]
        omega

/-! ### Calls that both readings end at the same place -/

/-- A literal without a quotation mark between its marks. -/
def ClearLiteral (l : List Char) : Prop :=
  ∃ mark text, isQuote mark ∧ LiteralText mark text ∧ (∀ c ∈ text, ¬ isQuote c) ∧
    l = mark :: (text ++ [mark])

/-- The beginning of arguments, up to the end of the last of the literals that a call begins with,
when these literals are clear. -/
inductive ClearLiterals : Shape → List Char → Prop
  | translate {l : List Char} : ClearLiteral l → ClearLiterals .translate l
  | formatPlural {n v w one many : List Char} :
      n ≠ [] → (∀ x ∈ n, x.isDigit) →
      (∀ x ∈ v, isScriptBlank x) → (∀ x ∈ w, isScriptBlank x) →
      ClearLiteral one → ClearLiteral many →
      ClearLiterals .formatPlural (n ++ ',' :: (v ++ (one ++ ',' :: (w ++ many))))

/-- A call that begins with clear literals, and has no closing parenthesis between the last of them
and its end. -/
def ClearCall (shape : Shape) (call : List Char) : Prop :=
  ∃ hd lits more, IsHead shape hd ∧ ClearLiterals shape lits ∧ ')' ∉ more ∧
    call = hd ++ (lits ++ more ++ [')'])

/-- The number of quotation marks that the literals at the beginning of a call take. -/
def Shape.marks : Shape → Nat
  | .translate => 2
  | .formatPlural => 4

/-- Arguments in the lazy reading have these marks before their end. -/
theorem LazyArguments.exists_marks {args : List Char} (h : LazyArguments shape args) :
    ∃ x, args = x ++ [')'] ∧ shape.marks ≤ x.countP isQuote := by
  cases h with
  | translate hq hr =>
    refine ⟨_, rfl, ?_⟩
    simp only [Shape.marks, List.countP_append, List.countP_cons, hq, hr, if_true]
    omega
  | formatPlural _ _ _ _ ha hb hc hd =>
    refine ⟨_, rfl, ?_⟩
    simp only [Shape.marks, List.countP_append, List.countP_cons, ha, hb, hc, hd, if_true]
    omega

theorem not_isQuote_of_isDigit {c : Char} (h : c.isDigit) : ¬ isQuote c := by
  intro hq
  simp only [isQuote, Bool.or_eq_true, beq_iff_eq] at hq
  obtain (rfl | rfl) | rfl := hq <;> exact absurd h (by decide)

theorem ClearLiteral.exists_last {l : List Char} (h : ClearLiteral l) :
    ∃ y q, l = y ++ [q] ∧ isQuote q ∧ y.countP isQuote = 1 := by
  obtain ⟨mark, text, hq, -, hclear, rfl⟩ := h
  refine ⟨mark :: text, mark, rfl, hq, ?_⟩
  rw [List.countP_cons_of_pos hq, List.countP_eq_zero.2 hclear]

/-- Clear literals have no marks but their own, and end with one. -/
theorem ClearLiterals.exists_last {lits : List Char} (h : ClearLiterals shape lits) :
    ∃ y q, lits = y ++ [q] ∧ isQuote q ∧ y.countP isQuote < shape.marks := by
  cases h with
  | translate hl =>
    obtain ⟨y, q, rfl, hq, hy⟩ := hl.exists_last
    exact ⟨y, q, rfl, hq, by rw [hy]; decide⟩
  | @formatPlural n v w _ _ _ hn hv hw hone hmany =>
    obtain ⟨one, b, rfl, hb, hone⟩ := hone.exists_last
    obtain ⟨many, d, rfl, hd, hmany⟩ := hmany.exists_last
    have hblank : ∀ {z : List Char}, (∀ x ∈ z, isScriptBlank x) → z.countP isQuote = 0 := fun hz =>
      List.countP_eq_zero.2 fun x hx hq => not_isScriptBlank_of_isQuote hq (hz x hx)
    have hdigits : n.countP isQuote = 0 :=
      List.countP_eq_zero.2 fun x hx => not_isQuote_of_isDigit (hn x hx)
    have hcomma : ¬ isQuote ',' := by decide
    refine ⟨n ++ ',' :: (v ++ (one ++ [b] ++ ',' :: (w ++ many))), d, by simp, hd, ?_⟩
    simp only [List.countP_append, List.countP_cons_of_neg hcomma, List.countP_singleton, hb,
      hdigits, hblank hv, hblank hw, hone, hmany]
    decide

/-- **Nothing in a clear call ends it early.**  The lazy reading needs as many quotation marks as
the literals have, and after these the first closing parenthesis is the last character. -/
theorem eq_of_clearLiterals {lits more w : List Char} (hlits : ClearLiterals shape lits)
    (hmore : ')' ∉ more) (hw : LazyArguments shape w) (hp : w <+: lits ++ more ++ [')']) :
    w = lits ++ more ++ [')'] := by
  obtain ⟨x, rfl, hmarks⟩ := hw.exists_marks
  obtain ⟨y, q, rfl, hq, hfew⟩ := hlits.exists_last
  rcases List.prefix_concat_iff.1 hp with heq | hp
  · exact heq
  · rcases List.prefix_concat_iff.1 (prefix_of_prefix_append hmore hp) with heq | hp
    · obtain ⟨-, hlast⟩ := List.append_inj' heq rfl
      rw [← List.singleton_inj.1 hlast] at hq
      exact absurd hq (by decide)
    · -- the marks would all be in front of the last one
      have hcount : x.countP isQuote ≤ y.countP isQuote :=
        ((List.prefix_append x [')']).trans hp).sublist.countP_le
      omega

/-! ### The two searches -/

section Searches

variable {start : Nat} {cs : List Char} {m l : Match}

/-- A match of the balanced search begins inside one of the lazy search. -/
theorem exists_cover_of_mem_findFrom (hm : m ∈ findFrom .balanced shape start cs) :
    ∃ l ∈ findFrom .lazy shape start cs, l.start ≤ m.start ∧ m.start < l.stop := by
  obtain ⟨pre, hd, args, rest, hhd, hargs, rfl, rfl⟩ := exists_of_mem_findFrom hm
  have hcall : LazyCall shape (hd ++ args) :=
    ⟨hd, args, hhd, (whole_balanced_iff.1 hargs).1.lazy, rfl⟩
  have hp : pre ++ (hd ++ args) <+: pre ++ (hd ++ args ++ rest) :=
    ⟨rest, List.append_assoc pre (hd ++ args) rest⟩
  exact (shortestScan_findFrom shape start _).exists_cover hcall hp

/-- Calls at the same place have the same head, and the arguments of the lazy one are the beginning
of the others. -/
theorem exists_of_same_start (hm : m ∈ findFrom .balanced shape start cs)
    (hl : l ∈ findFrom .lazy shape start cs) (hstart : l.start = m.start) :
    ∃ pre hd args w, IsHead shape hd ∧ LazyArguments shape w ∧ w <+: args ∧
      m = callMatch shape (hd ++ args) pre ∧ l = callMatch shape (hd ++ w) pre := by
  obtain ⟨pre, hd, args, rest, hhd, hargs, hcs, rfl⟩ := exists_of_mem_findFrom hm
  obtain ⟨pre', hd', w, rest', hhd', hw, hcs', rfl⟩ := exists_of_mem_findFrom hl
  have hlen : byteLength pre' = byteLength pre := Nat.add_left_cancel hstart
  obtain ⟨rfl, hcut⟩ := append_inj_of_byteLength_eq (hcs'.symm.trans hcs) hlen
  rw [List.append_assoc, List.append_assoc] at hcut
  obtain ⟨rfl, hbody⟩ := hhd'.append_inj hhd hcut
  have hshort := whole_lazy_iff.1 hw
  have hp : w <+: args := by
    rcases List.prefix_or_prefix_of_prefix (List.prefix_append w rest')
      (hbody ▸ List.prefix_append args rest) with hp | hp
    · exact hp
    · have hle := hshort.least args hp (whole_balanced_iff.1 hargs).1.lazy
      obtain rfl := hp.eq_of_length_le hle
      exact List.prefix_rfl
  exact ⟨_, hd', args, w, hhd, hshort.word, hp, rfl, rfl⟩

/-- **The lazy search covers the balanced one.**  Each match of the balanced search begins inside a
match of the lazy search.  Where the two begin at the same place, the lazy one ends no later, and
they end together if the call is clear. -/
theorem find_lazy_covers_balanced {source : String} (hm : m ∈ find .balanced shape source) :
    (∃ l ∈ find .lazy shape source, l.start ≤ m.start ∧ m.start < l.stop) ∧
      ∀ l ∈ find .lazy shape source, l.start = m.start →
        l.stop ≤ m.stop ∧ (ClearCall shape m.text.toList → l.stop = m.stop) := by
  refine ⟨exists_cover_of_mem_findFrom hm, ?_⟩
  intro l hl hstart
  obtain ⟨pre, hd, args, w, hhd, hw, hp, rfl, rfl⟩ := exists_of_same_start hm hl hstart
  constructor
  · obtain ⟨x, rfl⟩ := hp
    show pre + byteLength (hd ++ w) ≤ pre + byteLength (hd ++ (w ++ x))
    rw [← List.append_assoc, byteLength_append (hd ++ w)]
    omega
  · intro hclear
    obtain ⟨hd', lits, more, hhd', hlits, hmore, hcall⟩ := hclear
    rw [callMatch, String.toList_ofList] at hcall
    obtain ⟨-, rfl⟩ := hhd.append_inj hhd' hcall
    rw [eq_of_clearLiterals hlits hmore hw hp]

/-- The balanced search passes the first head and reports the call in its argument, which begins
inside the first match of the lazy search.  The last call is clear. -/
theorem lazy_covers_nested_and_clear :
    (⟨.translate, "Drupal.t('b')", 15, 28⟩ ∈
        find .balanced .translate "Drupal.t('a' + Drupal.t('b')) Drupal.t('c', d)" ∧
      ∃ l ∈ find .lazy .translate "Drupal.t('a' + Drupal.t('b')) Drupal.t('c', d)",
        l.start ≤ 15 ∧ 15 < l.stop) ∧
    ⟨.translate, "Drupal.t('c', d)", 30, 46⟩ ∈
        find .balanced .translate "Drupal.t('a' + Drupal.t('b')) Drupal.t('c', d)" ∧
      ClearCall .translate "Drupal.t('c', d)".toList ∧
      ∀ l ∈ find .lazy .translate "Drupal.t('a' + Drupal.t('b')) Drupal.t('c', d)",
        l.start = 30 → l.stop = 46 := by
  have hnested : ⟨.translate, "Drupal.t('b')", 15, 28⟩ ∈
      find .balanced .translate "Drupal.t('a' + Drupal.t('b')) Drupal.t('c', d)" := by
    decide +kernel
  have hlast : ⟨.translate, "Drupal.t('c', d)", 30, 46⟩ ∈
      find .balanced .translate "Drupal.t('a' + Drupal.t('b')) Drupal.t('c', d)" := by
    decide +kernel
  have hliteral : ClearLiteral "'c'".toList :=
    ⟨'\x27', ['c'], rfl, .plain (by decide) (by decide) .nil,
      List.forall_mem_singleton.2 (by decide), rfl⟩
  have hclear : ClearCall .translate "Drupal.t('c', d)".toList :=
    ⟨head bareName .translate, "'c'".toList, ", d".toList, Or.inl rfl, .translate hliteral,
      by decide, rfl⟩
  refine ⟨⟨hnested, (find_lazy_covers_balanced hnested).1⟩, hlast, hclear, ?_⟩
  intro l hl hstart
  exact ((find_lazy_covers_balanced hlast).2 l hl hstart).2 hclear

end Searches

end CallHarvest.Call
