import CallHarvest.Glob.Depth
import CallHarvest.Glob.Matches
import CallHarvest.Glob.Parse
import CallHarvest.Text.Blank
import CallHarvest.Text.Parts
import CallHarvest.Text.Utf8

/-!
# Rules of ignore files

Each line of an ignore file is a rule: a glob for paths relative to the directory of the file, with
marks before and after it.

* `Rule` — a glob, whether it keeps what it matches, and whether it is for directories only.
* `Rule.ofLine?` — the rule of a line, if it has one.
* `Rule.ofContent` — the rules of a file.
* `verdict?` — what rules say of a path.
-/

namespace CallHarvest

/-- A rule of an ignore file. -/
structure Rule where
  glob : Glob
  keeps : Bool
  onlyDirs : Bool

/-! ### Reading a line -/

/-- A line without the blanks at its end, unless the last of these is escaped. -/
def trimLine (cs : List Char) : List Char :=
  if ['\\', ' '].isSuffixOf cs then cs else Text.trimEnd Text.isBlank cs

/-- The marks at the beginning of a line. -/
structure LineMarks where
  keeps : Bool
  anchored : Bool

/-- Takes the marks off the beginning of a line: an exclamation mark, and then a separator that
anchors the pattern.  A backslash before an exclamation mark or a hash sign only protects it. -/
def takeMarks : List Char → LineMarks × List Char
  | '\\' :: '!' :: cs => (⟨false, false⟩, '!' :: cs)
  | '\\' :: '#' :: cs => (⟨false, false⟩, '#' :: cs)
  | '!' :: '/' :: cs => (⟨true, true⟩, cs)
  | '!' :: cs => (⟨true, false⟩, cs)
  | '/' :: cs => (⟨false, true⟩, cs)
  | cs => (⟨false, false⟩, cs)

/-- Takes a separator off the end of a pattern, with a backslash before it. -/
def takeSlash (cs : List Char) : Bool × List Char :=
  if cs.getLast? = some '/' then
    let shorter := cs.dropLast
    (true, if shorter.getLast? = some '\\' then shorter.dropLast else shorter)
  else (false, cs)

/-- Whether a pattern begins with a component of two stars. -/
def beginsWithDirs (cs : List Char) : Bool :=
  "**/".toList.isPrefixOf cs || cs == "**".toList

/-- The glob for a pattern.  One that is not anchored and has no separator is for any directory,
and one that ends in a component of two stars is for what is inside. -/
def globText (anchored : Bool) (cs : List Char) : List Char :=
  let placed :=
    if !anchored && !cs.contains '/' && !beginsWithDirs cs then "**/".toList ++ cs else cs
  if "/**".toList.isSuffixOf placed then placed ++ "/*".toList else placed

namespace Rule

/-- The rule of a line.  Comments, blank lines and lines that are no globs have none. -/
def ofLine? (line : String) : Option Rule :=
  let cs := trimLine line.toList
  if line.toList.head? = some '#' ∨ cs = [] then none
  else
    let (marks, marked) := takeMarks cs
    let (onlyDirs, pattern) := takeSlash marked
    match Glob.parseLenient (String.ofList (globText marks.anchored pattern)) with
    | .ok g => some ⟨g, marks.keeps, onlyDirs⟩
    | .error _ => none

/-- Whether a rule is about a path, which may be that of a directory. -/
def applies (r : Rule) (path : String) (isDir : Bool) : Bool :=
  r.glob.accepts path && (!r.onlyDirs || isDir)

end Rule

/-! ### Reading a file -/

/-- The lines of a content, without their line breaks. -/
def linesOf (content : ByteArray) : List (List UInt8) :=
  match (content.data.toList.splitOn 0x0A).reverse with
  | [] => []
  | last :: ended =>
    (last :: ended.map fun line =>
      if line.getLast? = some 0x0D then line.dropLast else line).reverse

/-- The texts of lines up to the first that is no text. -/
def leadingTexts : List (List UInt8) → List String
  | [] => []
  | line :: lines =>
    match String.fromUTF8? ⟨line.toArray⟩ with
    | some text => text :: leadingTexts lines
    | none => []

/-- A text without byte order marks at its beginning. -/
def dropMark (text : String) : String :=
  String.ofList (text.toList.dropWhile fun c => c.toNat == 0xFEFF)

namespace Rule

/-- The rules of lines. -/
def ofLines (lines : List String) : List Rule :=
  lines.filterMap ofLine?

/-- Whether a rule can be used together with others: whether its glob is not nested too deep. -/
def isUsable (r : Rule) : Bool := r.glob.depth ≤ Glob.maxDepth

/-- The rules of a file.  A byte order mark before them is passed over.  If one of the rules cannot
be used, the file has none. -/
def ofContent (content : ByteArray) : List Rule :=
  match leadingTexts (linesOf content) with
  | [] => []
  | first :: lines =>
    let rules := ofLines (dropMark first :: lines)
    if rules.all isUsable then rules else []

end Rule

/-! ### What rules say -/

/-- What is to be done with a path. -/
inductive Verdict
  | ignore
  | keep
deriving DecidableEq, Repr

/-- What rules say of a path.  The last one that is about it decides. -/
def verdict? (rules : List Rule) (path : String) (isDir : Bool) : Option Verdict :=
  (rules.reverse.find? fun r => r.applies path isDir).map fun r =>
    if r.keeps then .keep else .ignore

end CallHarvest
