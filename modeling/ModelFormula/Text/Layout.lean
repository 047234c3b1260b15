import ModelFormula.Text.Lines

/-!
# Layout

Indented text, lists with one item a line, and entries whose value stands at the right margin.
-/
namespace ModelFormula.Text

/-- Indents every line by two blanks. -/
def indentAll (s : String) : String := "  " ++ indentRest s

/-- Items on lines of their own, separated by the given text. -/
def itemLines (separator : String) (items : List String) : String :=
  "\n" ++ (separator ++ "\n").intercalate items

/-- A key and its value, which ends at the given width if both fit. -/
def aligned (key value : String) (width : Int) : String :=
  let room := width - key.length - value.length
  key ++ String.ofList (List.replicate room.toNat ' ') ++ value

end ModelFormula.Text
