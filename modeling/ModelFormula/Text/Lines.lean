/-!
# Lines

Text is cut into lines at line feeds, carriage returns, separators, vertical tabs, form feeds and
the next line character. A carriage return with a line feed behind it is one end of line.
-/
namespace ModelFormula.Text

def isLineEnd (c : Char) : Bool :=
  c == '\n' || c == '\r' || c == '\x0b' || c == '\x0c' || c == '\x1c' || c == '\x1d' || c == '\x1e'
    || c == '\u0085' || c == '\u2028' || c == '\u2029'

/-- The lines of a text, each with its end; the characters read of the current line come
reversed. -/
def linesFrom (current : List Char) : List Char → List (List Char)
  | [] => if current.isEmpty then [] else [current.reverse]
  | '\r' :: '\n' :: rest => ('\n' :: '\r' :: current).reverse :: linesFrom [] rest
  | c :: rest =>
    if isLineEnd c then (c :: current).reverse :: linesFrom [] rest
    else linesFrom (c :: current) rest

/-- The lines of a text with their ends. -/
def lines (s : String) : List String := (linesFrom [] s.toList).map String.ofList

/-- Indents every line but the first by two blanks. -/
def indentRest (s : String) : String := "  ".intercalate (lines s)

end ModelFormula.Text
