import CallHarvest.Glob.Basic

/-!
# How deep a glob is nested

As a regular expression over bytes a glob is built from groups, alternatives, sequences of more than
one element, repetitions and classes.  Its depth is the largest number of these within one another.

* `Token.size` — of how many elements of a sequence a token consists.
* `Token.depth`, `Glob.depth` — how deep tokens and globs are nested.
* `Glob.maxDepth` — how deep globs may be nested to be used together.
-/

namespace CallHarvest

/-- The number of bytes and ranges of bytes in a range of characters. -/
def rangeSize (first last : Char) : Nat :=
  if first = last then first.utf8Size else first.utf8Size + last.utf8Size - 1

/-- The number of bytes and ranges of bytes that a class lists. -/
def ByteClass.size (c : ByteClass) : Nat :=
  c.ranges.foldr (fun r n => rangeSize r.1 r.2 + n) 0

/-- The number of elements of a token: bytes, classes, repetitions and groups. -/
def Token.size : Token → Nat
  | .literal c => c.utf8Size
  | .trailingDirs => 2
  | .alternatives [] => 0
  | _ => 1

/-- Whether tokens make a sequence of more than one element. -/
def isSequence (ts : List Token) : Bool :=
  1 < ts.foldr (fun t n => t.size + n) 0

mutual

/-- How deep a token is nested. -/
def Token.depth : Token → Nat
  | .literal _ => 0
  | .any => 1
  | .star => 2
  | .leadingDirs => 4
  | .innerDirs => 4
  | .trailingDirs => 1
  | .oneOf allowed => if 1 < allowed.size then 2 else 1
  | .alternatives branches =>
    if branches.isEmpty then 0
    else branchesDepth branches + if 1 < branches.length then 2 else 1

/-- How deep the tokens of a sequence are nested. -/
def tokensDepth : List Token → Nat
  | [] => 0
  | t :: ts => max t.depth (tokensDepth ts)

/-- How deep the branches of a group are nested. -/
def branchesDepth : List (List Token) → Nat
  | [] => 0
  | ts :: branches =>
    max (tokensDepth ts + if isSequence ts then 1 else 0) (branchesDepth branches)

end

/-- How deep a glob is nested.  As a whole it is a sequence that begins and ends where the path
does. -/
def Glob.depth (g : Glob) : Nat := tokensDepth g.tokens + 1

/-- How deep globs may be nested to be used together. -/
def Glob.maxDepth : Nat := 250

end CallHarvest
