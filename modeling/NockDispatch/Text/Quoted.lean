import NockDispatch.Text.Combining
import NockDispatch.Text.Unprintable

/-!
# Quoted text

A text between double quotes in which every character can be told from the others: the
quote and the backslash are escaped by a backslash, the commonest controls have an escape of
one letter, and whatever does not print or would combine with its neighbour is written by
its code point.
-/

namespace NockDispatch.Text

/-- A character by its code point: `\u`, and the lowercase hexadecimal digits in braces. -/
def codePointEscape (c : Char) : List Char :=
  ['\\', 'u', '\x7b'] ++ Nat.toDigits 16 c.toNat ++ ['\x7d']

def quoteChar (c : Char) : List Char :=
  if c = '"' then ['\\', '"']
  else if c = '\\' then ['\\', '\\']
  else if c = '\x00' then ['\\', '0']
  else if c = '\t' then ['\\', 't']
  else if c = '\n' then ['\\', 'n']
  else if c = '\r' then ['\\', 'r']
  else if combining.covers c || unprintable.covers c then codePointEscape c
  else [c]

def quoted (text : String) : String :=
  String.ofList ('"' :: text.toList.flatMap quoteChar ++ ['"'])

end NockDispatch.Text
