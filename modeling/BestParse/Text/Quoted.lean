import BestParse.Text.Printable

/-!
# Quoted text

A text between double quotes, with a backslash before quotes and backslashes,
short escapes for the usual controls, and the code point in braces for every
other character that is not printable.
-/

namespace BestParse
namespace Text

/-- The hexadecimal code point of a character, in lower case. -/
def codePoint (c : Char) : List Char := Nat.toDigits 16 c.toNat

/-- One character as it stands between quotes. -/
def quoteChar (c : Char) : List Char :=
  if c = '\x00' then ['\\', '0']
  else if c = '\t' then ['\\', 't']
  else if c = '\r' then ['\\', 'r']
  else if c = '\n' then ['\\', 'n']
  else if c = '"' then ['\\', '"']
  else if c = '\\' then ['\\', '\\']
  else if isPrintable c then [c]
  else ['\\', 'u', '\x7b'] ++ codePoint c ++ ['\x7d']

/-- A text between double quotes. -/
def quoted (cs : List Char) : List Char := '"' :: cs.flatMap quoteChar ++ ['"']

end Text
end BestParse
