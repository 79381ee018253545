import Decompiler.Text.Extending
import Decompiler.Text.Unprintable

/-!
# Quoted text

A string constant is written between double quotes. Quotes, backslashes and the common controls are
escaped by a letter, and characters that cannot be seen on their own by their number.
-/

namespace Decompiler.Text

/-- A character by its number, in hexadecimal digits between braces. -/
def byNumber (c : Char) : List Char :=
  ['\\', 'u', '\x7b'] ++ Nat.toDigits 16 c.toNat ++ ['\x7d']

/-- The written form of a character inside quotes. -/
def quotedChar (c : Char) : List Char :=
  if c = '\x00' then ['\\', '0']
  else if c = '\t' then ['\\', 't']
  else if c = '\r' then ['\\', 'r']
  else if c = '\n' then ['\\', 'n']
  else if c = '"' || c = '\\' then ['\\', c]
  else if isExtending c || isUnprintable c then byNumber c
  else [c]

/-- The written form of a string. -/
def quoted (s : String) : String :=
  "\"" ++ String.ofList (s.toList.flatMap quotedChar) ++ "\""

end Decompiler.Text
