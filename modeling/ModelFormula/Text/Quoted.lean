import ModelFormula.Text.Printable

/-!
# Quoted text

Text is quoted by apostrophes, or by quotation marks if it holds an apostrophe and no quotation
mark. Characters without a visible form are written by their code point.
-/
namespace ModelFormula.Text

/-- Hexadecimal digits of a code point, with zeros in front up to the width. -/
def hexDigits (width : Nat) (n : Nat) : List Char :=
  let digits := Nat.toDigits 16 n
  List.replicate (width - digits.length) '0' ++ digits

/-- One character between the given quotes. -/
def quoteChar (quote c : Char) : List Char :=
  if c == quote || c == '\\' then ['\\', c]
  else if c == '\n' then ['\\', 'n']
  else if c == '\r' then ['\\', 'r']
  else if c == '\t' then ['\\', 't']
  else if isPrintable c then [c]
  else if c.toNat < 0x100 then '\\' :: 'x' :: hexDigits 2 c.toNat
  else if c.toNat < 0x10000 then '\\' :: 'u' :: hexDigits 4 c.toNat
  else '\\' :: 'U' :: hexDigits 8 c.toNat

/-- The quote that needs the least escaping. -/
def chooseQuote (s : List Char) : Char :=
  let apostrophe := Char.ofNat 39
  let mark := Char.ofNat 34
  if s.contains apostrophe && !s.contains mark then mark else apostrophe

def quoted (s : String) : String :=
  let chars := s.toList
  let quote := chooseQuote chars
  String.ofList (quote :: (chars.flatMap (quoteChar quote) ++ [quote]))

end ModelFormula.Text
