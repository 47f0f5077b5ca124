import KubeSchema.Text.Numeral
import KubeSchema.Text.Printable

/-!
# Quoted texts in messages

A message shows a text between single quotes, or between double quotes if it holds a single quote and no double one.
The quote in use, backslashes, line feeds, carriage returns and tabs are escaped by a backslash; any other character
that is not printable is shown by its code in two, four or eight hexadecimal digits.
-/

namespace KubeSchema.Text

/-- The quote that a text is shown in. -/
def quoteFor (s : List Char) : Char := if '\x27' ∈ s ∧ '\x22' ∉ s then '\x22' else '\x27'

/-- The code of a character in as few of two, four and eight hexadecimal digits as hold it. -/
def codeEscape (c : Char) : List Char :=
  if c.toNat < 0x100 then '\\' :: 'x' :: Numeral.hex 2 c.toNat
  else if c.toNat < 0x10000 then '\\' :: 'u' :: Numeral.hex 4 c.toNat
  else '\\' :: 'U' :: Numeral.hex 8 c.toNat

/-- A character as it stands between quotes. -/
def quotedChar (quote c : Char) : List Char :=
  if c = quote ∨ c = '\\' then ['\\', c]
  else if c = '\n' then ['\\', 'n']
  else if c = '\r' then ['\\', 'r']
  else if c = '\t' then ['\\', 't']
  else if isPrintable c then [c]
  else codeEscape c

/-- A text in quotes. -/
def quoted (s : List Char) : List Char :=
  quoteFor s :: s.flatMap (quotedChar (quoteFor s)) ++ [quoteFor s]

example : quoted "it's".toList = "\"it's\"".toList := by decide +kernel

example : quoted "a\nb\x7f".toList = "'a\\nb\\x7f'".toList := by decide +kernel

/-- A name in quotes, for messages. -/
def quote (s : String) : String := String.ofList (quoted s.toList)

end KubeSchema.Text
