/-!
# Glob patterns

A glob is a pattern for paths.  Its text is read into tokens; three of them stand for any number of
directories, according to where a component of two stars is in the pattern.

* `ByteClass` — the bytes that a class in brackets allows.
* `Token` — a part of a glob.
* `Glob` — the text of a pattern with its tokens.
* `GlobFault`, `GlobError` — what is wrong with a pattern, and in which one; `GlobError.message` is
  the wording.
-/

namespace CallHarvest

/-- The single characters and ranges of a class in brackets.  A single character is a range from
itself to itself. -/
structure ByteClass where
  negated : Bool
  ranges : List (Char × Char)
deriving DecidableEq, Repr

/-- A part of a glob. -/
inductive Token
  /-- The character itself. -/
  | literal (c : Char)
  /-- One byte that is no separator. -/
  | any
  /-- Any bytes that are no separators. -/
  | star
  /-- Any number of directories at the beginning. -/
  | leadingDirs
  /-- A separator, and any number of directories. -/
  | innerDirs
  /-- A separator, and whatever follows it. -/
  | trailingDirs
  /-- One byte of a class. -/
  | oneOf (allowed : ByteClass)
  /-- One of several sequences of tokens; nothing, if there are none. -/
  | alternatives (branches : List (List Token))

/-- A pattern and what it was read as. -/
structure Glob where
  pattern : String
  tokens : List Token

/-- What is wrong with a pattern. -/
inductive GlobFault
  /-- A class is not closed. -/
  | unclosedClass
  /-- A range of a class begins after its end. -/
  | invalidRange (first last : Char)
  /-- A closing brace has no opening one. -/
  | unopenedBraces
  /-- An opening brace has no closing one. -/
  | unclosedBraces
  /-- A backslash has nothing after it. -/
  | danglingEscape
deriving DecidableEq, Repr

/-- The wording of a fault. -/
def GlobFault.message : GlobFault → String
  | .unclosedClass => "unclosed character class; missing ']'"
  | .invalidRange first last =>
    "invalid range; '" ++ String.singleton first ++ "' > '" ++ String.singleton last ++ "'"
  | .unopenedBraces =>
    "unopened alternate group; missing '\x7b' (maybe escape '\x7d' with '[\x7d]'?)"
  | .unclosedBraces =>
    "unclosed alternate group; missing '\x7d' (maybe escape '\x7b' with '[\x7b]'?)"
  | .danglingEscape => "dangling '\\'"

/-- A pattern that is no glob, and the first fault in it. -/
structure GlobError where
  pattern : String
  fault : GlobFault
deriving DecidableEq, Repr

/-- The wording of an error. -/
def GlobError.message (e : GlobError) : String :=
  "error parsing glob '" ++ e.pattern ++ "': " ++ e.fault.message

end CallHarvest
