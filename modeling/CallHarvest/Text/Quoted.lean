import CallHarvest.Text.Unprintable

/-!
# Quoted texts

Messages show a text in double quotes, so that its ends and its invisible characters can be seen.

* `quotedChar` — a character of such a text.
* `quoted` — a text in quotes.
-/

namespace CallHarvest.Text

/-- The number of a character in braces, for one that does not print. -/
def numbered (c : Char) : List Char :=
  '\\' :: 'u' :: '\x7b' :: Nat.toDigits 16 c.toNat ++ ['\x7d']

/-- A character as it is shown in a quoted text: quotes and backslashes have a backslash before
them, some controls are shown by a letter, and other characters that do not print by number. -/
def quotedChar (c : Char) : List Char :=
  if c = '\x22' then ['\\', '\x22']
  else if c = '\\' then ['\\', '\\']
  else if c = '\x00' then ['\\', '0']
  else if c = '\t' then ['\\', 't']
  else if c = '\n' then ['\\', 'n']
  else if c = '\r' then ['\\', 'r']
  else if isUnprintable c then numbered c
  else [c]

/-- A text in double quotes. -/
def quoted (text : String) : String :=
  String.ofList ('\x22' :: text.toList.flatMap quotedChar ++ ['\x22'])

end CallHarvest.Text
