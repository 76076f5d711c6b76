/-!
# Blank characters

Two sets of blank characters are in use: those that may stand between the parts of a JavaScript
program, and those that have the `White_Space` property of Unicode.

* `isScriptBlank` — blank in a program.
* `isBlank` — blank by property; a line of an ignore file loses these at its end.
* `trim` — a text without the characters of a class at both ends.
-/

namespace CallHarvest.Text

/-- The characters that are blank in both sets, as code points in ascending order. -/
def sharedBlanks : List Nat :=
  [0x09, 0x0A, 0x0B, 0x0C, 0x0D, 0x20, 0xA0, 0x1680,
    0x2000, 0x2001, 0x2002, 0x2003, 0x2004, 0x2005, 0x2006, 0x2007, 0x2008, 0x2009, 0x200A,
    0x2028, 0x2029, 0x202F, 0x205F, 0x3000]

/-- Whether a character is blank between the parts of a program: the byte order mark is, the
next-line control is not. -/
def isScriptBlank (c : Char) : Bool :=
  sharedBlanks.contains c.toNat || c.toNat == 0xFEFF

/-- Whether a character has the `White_Space` property: the next-line control has it, the byte
order mark has not. -/
def isBlank (c : Char) : Bool :=
  sharedBlanks.contains c.toNat || c.toNat == 0x85

/-- A text without the characters of a class at its end. -/
def trimEnd (p : Char → Bool) (cs : List Char) : List Char :=
  (cs.reverse.dropWhile p).reverse

/-- A text without the characters of a class at both ends. -/
def trim (p : Char → Bool) (cs : List Char) : List Char :=
  trimEnd p (cs.dropWhile p)

end CallHarvest.Text
