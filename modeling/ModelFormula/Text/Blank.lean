import ModelFormula.Text.Ranges

/-!
# Blanks

The characters that count as white space in a text, and among them the few at which lines of a
paragraph may be broken.
-/
namespace ModelFormula.Text

/-- White space of Unicode, with the separators of files, groups, records and units. -/
def blankRanges : List (Nat × Nat) := [
  (0x09, 0x0d), (0x1c, 0x20), (0x85, 0x85), (0xa0, 0xa0), (0x1680, 0x1680), (0x2000, 0x200a),
  (0x2028, 0x2029), (0x202f, 0x202f), (0x205f, 0x205f), (0x3000, 0x3000)]

def isBlank (c : Char) : Bool := inRanges blankRanges c

/-- Tabs, line ends of ASCII and the space. -/
def isSpace (c : Char) : Bool := (0x09 ≤ c.toNat && c.toNat ≤ 0x0d) || c == ' '

end ModelFormula.Text
