import CallHarvest.Glob.Basic
import CallHarvest.Glob.Places
import CallHarvest.Text.Utf8

/-!
# Which paths a glob matches

A glob is held against the bytes of a whole path.  Each token moves all places that were reached in
the path, so that the work is bounded by the number of tokens and the length of the path.

* `ByteClass.allows` — whether a class allows a byte.
* `Token.advance`, `advanceAll`, `advanceSome` — the places after a token, after a sequence of
  tokens, and after one of several sequences.
* `Glob.needsName` — whether a glob is decided by the name of a file.
* `Glob.accepts` — whether a glob matches a path.
-/

namespace CallHarvest

open CallHarvest.Text (bytes)

/-- The byte between the components of a path. -/
def separator : UInt8 := 0x2F

/-- Whether a byte is a separator. -/
def isSeparator (b : UInt8) : Bool := b == separator

/-- Whether a byte is no separator. -/
def isInner (b : UInt8) : Bool := b != separator

/-! ### Tokens -/

/-- The bytes of a range of characters: from the last byte of the first character to the first
byte of the last one, and the other bytes of the two. -/
def rangeAllows (first last : Char) (b : UInt8) : Bool :=
  let start := String.utf8EncodeChar first
  let stop := String.utf8EncodeChar last
  if first = last then start.contains b
  else
    start.dropLast.contains b || stop.tail.contains b ||
      (start.getLast?.any (· ≤ b) && stop.head?.any (b ≤ ·))

/-- Whether a class allows a byte. -/
def ByteClass.allows (c : ByteClass) (b : UInt8) : Bool :=
  (c.ranges.any fun r => rangeAllows r.1 r.2 b) != c.negated

/-- The places after the given bytes. -/
def Places.stepAll (word path : List UInt8) (ps : Places) : Places :=
  word.foldl (fun ps b => ps.step (· == b) path) ps

/-- The places after any number of directories. -/
def Places.stepDirs (path : List UInt8) (ps : Places) : Places :=
  ps.union ((ps.spread (fun _ => true) path).step isSeparator path)

mutual

/-- The places in a path after a token. -/
def Token.advance (path : List UInt8) : Token → Places → Places
  | .literal c, ps => ps.stepAll (String.utf8EncodeChar c) path
  | .any, ps => ps.step isInner path
  | .star, ps => ps.spread isInner path
  | .leadingDirs, ps => ps.stepDirs path
  | .innerDirs, ps => (ps.step isSeparator path).stepDirs path
  | .trailingDirs, ps => (ps.step isSeparator path).spread (fun _ => true) path
  | .oneOf allowed, ps => ps.step allowed.allows path
  | .alternatives branches, ps => if branches.isEmpty then ps else advanceSome path branches ps

/-- The places in a path after tokens one after the other. -/
def advanceAll (path : List UInt8) : List Token → Places → Places
  | [], ps => ps
  | t :: ts, ps => advanceAll path ts (t.advance path ps)

/-- The places in a path after the tokens of one of several branches. -/
def advanceSome (path : List UInt8) : List (List Token) → Places → Places
  | [], _ => []
  | branch :: branches, ps => (advanceAll path branch ps).union (advanceSome path branches ps)

end

/-! ### Names of files

Two dots as the last component of a path are not the name of a file.  A glob that is decided by the
name or its extension does not match such a path. -/

/-- Whether the last component of a path is two dots. -/
def endsInParent (path : String) : Bool :=
  (path.toList.splitOn '/').getLast? == some ['.', '.']

/-- The character of a literal token. -/
def Token.literal? : Token → Option Char
  | .literal c => some c
  | _ => none

/-- Whether tokens end in an extension: in a dot, and characters after it of which none is a
separator. -/
def endsInExtension (tokens : List Token) : Bool :=
  ((tokens.reverse.map Token.literal?).takeWhile fun c => c.isSome && c != some '/').contains
    (some '.')

namespace Glob

/-- Whether a glob is nothing but leading directories, and so matches every path. -/
def isUniversal (g : Glob) : Bool :=
  match g.tokens with
  | [.leadingDirs] => true
  | _ => false

/-- Whether a glob spells out a path: the whole of it, or its end from a separator on. -/
def isText (g : Glob) : Bool :=
  match g.tokens with
  | .leadingDirs :: ts =>
    let cs := ts.map Token.literal?
    cs.all Option.isSome && cs.contains (some '/')
  | ts => (ts.map Token.literal?).all Option.isSome

/-- Whether a glob is decided by the name of a file. -/
def needsName (g : Glob) : Bool :=
  endsInExtension g.tokens && !g.isText

/-- Whether a glob matches a path. -/
def accepts (g : Glob) (path : String) : Bool :=
  g.isUniversal ||
    (!(g.needsName && endsInParent path) &&
      (advanceAll (bytes path.toList) g.tokens .start).hasEnd (bytes path.toList))

end Glob

end CallHarvest
