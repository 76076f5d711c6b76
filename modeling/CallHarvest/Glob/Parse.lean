import CallHarvest.Glob.Basic

/-!
# Reading glob patterns

A pattern is read from left to right.  Groups in braces may be nested, so the reader keeps a stack
of the groups that are open.  The first fault ends the reading; that a group is not closed shows
only at the end of the pattern.

* `readClass` — a class in brackets, from after its opening bracket.
* `Brackets` — how opening brackets are read.
* `readTokens` — a pattern, within the groups that are open.
* `Glob.parse` — a pattern for the include and exclude lists.
* `Glob.parseLenient` — a pattern in which a bracket that is not closed stands for itself, with all
  brackets after it.
-/

namespace CallHarvest

/-! ### Classes -/

/-- Extends the range read last, the first of the list, to the given character. -/
def extendRange (last : Char) : List (Char × Char) → Except GlobFault (List (Char × Char))
  | [] => .ok [(last, last)]
  | (first, _) :: ranges =>
    if last < first then .error (.invalidRange first last) else .ok ((first, last) :: ranges)

/-- Reads the rest of a class, after the given ranges (the last one first) and possibly a hyphen
that is not yet part of one.  A closing bracket as the first character of a class is one of its
characters, and so is a hyphen with nothing before or after it. -/
def readRanges (ranges : List (Char × Char)) (hyphen : Bool) :
    List Char → Except GlobFault (List (Char × Char) × List Char)
  | [] => .error .unclosedClass
  | c :: cs =>
    if c = ']' ∧ ranges ≠ [] then
      .ok ((if hyphen then ('-', '-') :: ranges else ranges).reverse, cs)
    else if hyphen then
      match extendRange c ranges with
      | .ok extended => readRanges extended false cs
      | .error fault => .error fault
    else if c = '-' ∧ ranges ≠ [] then readRanges ranges true cs
    else readRanges ((c, c) :: ranges) false cs

/-- Reads a class from after its opening bracket. -/
def readClass : List Char → Except GlobFault (ByteClass × List Char)
  | [] => .error .unclosedClass
  | c :: cs =>
    if c = '!' ∨ c = '^' then
      (readRanges [] false cs).map fun (ranges, rest) => (⟨true, ranges⟩, rest)
    else (readRanges [] false (c :: cs)).map fun (ranges, rest) => (⟨false, ranges⟩, rest)

theorem readRanges_length {ranges : List (Char × Char)} {hyphen : Bool} {cs rest : List Char}
    {result : List (Char × Char)} (h : readRanges ranges hyphen cs = .ok (result, rest)) :
    rest.length < cs.length := by
  fun_induction readRanges ranges hyphen cs with
  | case1 => simp at h
  | case2 =>
    simp only [Except.ok.injEq, Prod.mk.injEq] at h
    obtain ⟨_, rfl⟩ := h
    simp
  | case3 =>
    rename_i ih
    have := ih h
    rw [List.length_cons]
    omega
  | case4 => simp at h
  | case5 =>
    rename_i ih
    have := ih h
    rw [List.length_cons]
    omega
  | case6 =>
    rename_i ih
    have := ih h
    rw [List.length_cons]
    omega

theorem readClass_length {cs rest : List Char} {result : ByteClass}
    (h : readClass cs = .ok (result, rest)) : rest.length < cs.length := by
  have hmap : ∀ (negated : Bool) (xs : List Char),
      (readRanges [] false xs).map (fun (ranges, r) => ((⟨negated, ranges⟩ : ByteClass), r)) =
        .ok (result, rest) → rest.length < xs.length := by
    intro negated xs hx
    cases hr : readRanges [] false xs with
    | error fault =>
      rw [hr] at hx
      exact nomatch hx
    | ok p =>
      obtain ⟨ranges, r⟩ := p
      rw [hr] at hx
      simp only [Except.map, Except.ok.injEq, Prod.mk.injEq] at hx
      obtain ⟨_, rfl⟩ := hx
      exact readRanges_length hr
  cases cs with
  | nil => exact nomatch h
  | cons c cs =>
    rw [readClass] at h
    split at h
    · rw [List.length_cons]
      have := hmap true cs h
      omega
    · exact hmap false (c :: cs) h

/-! ### Patterns -/

/-- How opening brackets are read. -/
inductive Brackets
  /-- As the beginnings of classes, which have to be closed. -/
  | strict
  /-- As the beginnings of classes, up to the first that is not closed. -/
  | lenient
  /-- As characters that stand for themselves. -/
  | plain
deriving DecidableEq, Repr

/-- A group that is open: the tokens before it, the last one first, and its finished branches, the
last one first. -/
structure OpenGroup where
  before : List Token
  branches : List (List Token)

/-- Whether a token stands for the empty text alone: a group with no branch that says anything. -/
def Token.isVoid : Token → Bool
  | .alternatives [] => true
  | _ => false

/-- The token for a group.  Branches that say nothing are dropped. -/
def groupOf (branches : List (List Token)) : Token :=
  .alternatives (branches.filter fun branch => !branch.all Token.isVoid)

/-- Whether a component of two stars may begin after a character: after a separator, and inside
braces also after a comma or an opening brace. -/
def beginsComponent (nested : Bool) : Option Char → Bool
  | some '/' => true
  | some c => nested && (c == ',' || c == '\x7b')
  | none => false

/-- Whether a component of two stars is the last one: at the end of the pattern, and inside braces
at the end of a branch. -/
def endsBranch (nested : Bool) : List Char → Bool
  | [] => true
  | c :: _ => nested && (c == ',' || c == '\x7d')

/-- What two stars after other tokens of the branch, the last one first, make of these tokens.
They take the place of the separator before them; directories that follow directories are the same
directories. -/
def addDirs (dirs : Token) : List Token → List Token
  | [] => [dirs]
  | .leadingDirs :: before => .leadingDirs :: before
  | .trailingDirs :: before => .trailingDirs :: before
  | _ :: before => dirs :: before

/-- Reads a pattern, within the open groups, the innermost first, after the given tokens of the
present branch, the last one first, and after the given character. -/
def readTokens (brackets : Brackets) (groups : List OpenGroup) (before : List Token)
    (previous : Option Char) : List Char → Except GlobFault (List Token)
  | [] => if groups.isEmpty then .ok before.reverse else .error .unclosedBraces
  | '?' :: cs => readTokens brackets groups (.any :: before) (some '?') cs
  | '*' :: '*' :: '/' :: cs =>
    if before.isEmpty then readTokens brackets groups [.leadingDirs] (some '/') cs
    else if beginsComponent (!groups.isEmpty) previous then
      readTokens brackets groups (addDirs .innerDirs before) (some '/') cs
    else readTokens brackets groups (.literal '/' :: .star :: .star :: before) (some '/') cs
  | '*' :: '*' :: cs =>
    if before.isEmpty then
      if cs.isEmpty then readTokens brackets groups [.leadingDirs] none cs
      else readTokens brackets groups [.star, .star] (some '*') cs
    else if beginsComponent (!groups.isEmpty) previous && endsBranch (!groups.isEmpty) cs then
      readTokens brackets groups (addDirs .trailingDirs before) (some '*') cs
    else readTokens brackets groups (.star :: .star :: before) (some '*') cs
  | '*' :: cs => readTokens brackets groups (.star :: before) (some '*') cs
  | '[' :: cs =>
    if brackets = .plain then readTokens .plain groups (.literal '[' :: before) (some '[') cs
    else
      match _class : readClass cs with
      | .ok (allowed, rest) => readTokens brackets groups (.oneOf allowed :: before) (some ']') rest
      | .error fault =>
        if brackets = .lenient ∧ fault = .unclosedClass then
          readTokens .plain groups (.literal '[' :: before) (some '[') cs
        else .error fault
  | '\x7b' :: cs => readTokens brackets (⟨before, []⟩ :: groups) [] (some '\x7b') cs
  | '\x7d' :: cs =>
    match groups with
    | [] => .error .unopenedBraces
    | g :: outer =>
      readTokens brackets outer (groupOf (before.reverse :: g.branches).reverse :: g.before)
        (some '\x7d') cs
  | ',' :: cs =>
    match groups with
    | [] => readTokens brackets [] (.literal ',' :: before) (some ',') cs
    | g :: outer =>
      readTokens brackets ({ g with branches := before.reverse :: g.branches } :: outer) []
        (some ',') cs
  | '\\' :: [] => .error .danglingEscape
  | '\\' :: c :: cs => readTokens brackets groups (.literal c :: before) (some c) cs
  | c :: cs => readTokens brackets groups (.literal c :: before) (some c) cs
termination_by cs => cs.length
decreasing_by
  all_goals simp only [List.length_cons]
  all_goals try have := readClass_length _class
  all_goals omega

namespace Glob

/-- Reads a pattern for the include and exclude lists. -/
def parse (pattern : String) : Except GlobError Glob :=
  match readTokens .strict [] [] none pattern.toList with
  | .ok tokens => .ok ⟨pattern, tokens⟩
  | .error fault => .error ⟨pattern, fault⟩

/-- Reads a pattern in which an opening bracket that is not closed stands for itself, with all
opening brackets after it. -/
def parseLenient (pattern : String) : Except GlobError Glob :=
  match readTokens .lenient [] [] none pattern.toList with
  | .ok tokens => .ok ⟨pattern, tokens⟩
  | .error fault => .error ⟨pattern, fault⟩

end Glob

end CallHarvest
