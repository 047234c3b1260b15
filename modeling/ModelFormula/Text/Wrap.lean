import ModelFormula.Error
import ModelFormula.Text.Blank
import ModelFormula.Text.Digit
import ModelFormula.Text.Letter
import ModelFormula.Text.Lines

/-!
# Wrapping

A paragraph is cut into chunks: runs of spaces, words, the parts of hyphenated words, and dashes.
Lines are filled with as many chunks as fit, and one that is too long for any line is broken.
-/
namespace ModelFormula.Text

/-- A chunk of a paragraph. -/
abbrev Chunk := List Char

/-- Letters, digits, other numerals and the underscore. -/
def isWordChar (c : Char) : Bool := isLetter c || isDigit c || isNumeral c || c == '_'

/-- What a hyphenated word is made of: word characters that are no decimal digits. -/
def isWordLetter (c : Char) : Bool := isWordChar c && (decimalValue? c).isNone && !c.isDigit

/-- What may stand in front of a dash. -/
def isWordPunct (c : Char) : Bool :=
  isWordChar c || ['!', '"', '\'', '&', '.', ',', '?'].contains c

/-- Every tab as the blanks up to the next eighth column. -/
def expandTabs : Nat → List Char → List Char
  | _, [] => []
  | column, c :: rest =>
    if c == '\t' then
      let n := 8 - column % 8
      List.replicate n ' ' ++ expandTabs (column + n) rest
    else if c == '\n' || c == '\r' then c :: expandTabs 0 rest
    else c :: expandTabs (column + 1) rest

/-- Only plain blanks are left as spaces. -/
def plainSpaces (cs : List Char) : List Char :=
  (expandTabs 0 cs).map fun c => if isSpace c then ' ' else c

/-- A dash of two or more hyphens in front of a word. -/
def dashAhead (rest : List Char) : Bool :=
  2 ≤ (rest.takeWhile (· == '-')).length &&
    match rest.dropWhile (· == '-') with
    | c :: _ => isWordChar c
    | [] => false

/-- A word goes on with two letters, which a hyphen may separate. -/
def wordAhead : List Char → Bool
  | c :: d :: rest =>
    isWordLetter c && (isWordLetter d || (d == '-' && (rest.head?.map isWordLetter).getD false))
  | _ => false

/-- Whether a word can be broken behind the hyphen that follows: two letters, or single letters
between hyphens, stand before it. The characters before come reversed. -/
def breaksBehindHyphen (before : List Char) : List Char → Bool
  | '-' :: rest =>
    (match before with
      | a :: '-' :: b :: _ => isWordLetter a && (isWordLetter b)
      | a :: b :: _ => isWordLetter a && isWordLetter b
      | _ => false) && wordAhead rest
  | _ => false

def endsInWord (before : List Char) : Bool := (before.head?.map isWordPunct).getD false

/-- The characters of a word from its second on, given what stands before them. -/
def wordTail (before : List Char) : List Char → List Char
  | [] => []
  | c :: rest =>
    if breaksBehindHyphen before (c :: rest) then [c]
    else if isSpace c then []
    else if endsInWord before && dashAhead (c :: rest) then []
    else c :: wordTail (c :: before) rest

/-- The first chunk of a text that is not empty. -/
def firstChunk (before : List Char) (c : Char) (rest : List Char) : Chunk :=
  if isSpace c then c :: rest.takeWhile isSpace
  else if endsInWord before && dashAhead (c :: rest) then c :: rest.takeWhile (· == '-')
  else c :: wordTail (c :: before) rest

/-- A paragraph cut into chunks; each takes at least one character. -/
def chunksFrom : Nat → List Char → List Char → List Chunk
  | 0, _, _ => []
  | _ + 1, _, [] => []
  | fuel + 1, before, c :: rest =>
    let chunk := firstChunk before c rest
    chunk :: chunksFrom fuel (chunk.reverse ++ before) ((c :: rest).drop chunk.length)

def chunks (cs : List Char) : List Chunk := chunksFrom cs.length [] cs

def isBlankChunk (c : Chunk) : Bool := c.all isBlank

/-- The chunks that fit into a line in which some characters are used, and the others. -/
def takeFitting (width : Int) : Nat → List Chunk → List Chunk × List Chunk
  | _, [] => ([], [])
  | used, c :: rest =>
    if (used + c.length : Nat) ≤ width then
      let (taken, left) := takeFitting width (used + c.length) rest
      (c :: taken, left)
    else ([], c :: rest)

/-- The place behind the last hyphen among the first characters, if something else stands before. -/
def hyphenEnd? (room : Nat) (c : Chunk) : Option Nat :=
  let front := c.take room
  let behind := (front.reverse.takeWhile (· != '-')).length
  let place := front.length - behind
  if 1 < place && (front.take (place - 1)).any (· != '-') then some place else none

/-- A chunk that is too long for any line, broken in two. -/
def breakChunk (width : Int) (used : Nat) (c : Chunk) : Chunk × Chunk :=
  let room := if width < 1 then 1 else (width - used).toNat
  let place := if room < c.length then (hyphenEnd? room c).getD room else room
  (c.take place, c.drop place)

def dropLastBlank (line : List Chunk) : List Chunk :=
  match line.reverse with
  | c :: rest => if isBlankChunk c then rest.reverse else line
  | [] => []

/-- The chunks of the next line, and those that are left. -/
def nextLine (width : Int) (cs : List Chunk) : List Chunk × List Chunk :=
  let (line, left) := takeFitting width 0 cs
  let (line, left) := match left with
    | c :: rest =>
      if width < c.length then
        let (front, back) := breakChunk width line.flatten.length c
        (line ++ [front], back :: rest)
      else (line, left)
    | [] => (line, left)
  (dropLastBlank line, left)

/-- Fills lines of the given width; all but the first are indented. -/
def fillLines (width : Int) (indent : Nat) : Nat → Bool → List Chunk → List (List Char)
  | 0, _, _ => []
  | _ + 1, _, [] => []
  | fuel + 1, first, c :: rest =>
    let cs := if !first && isBlankChunk c then rest else c :: rest
    let margin := if first then 0 else indent
    let (line, left) := nextLine (width - margin) cs
    if line.isEmpty then fillLines width indent fuel first left
    else (List.replicate margin ' ' ++ line.flatten) :: fillLines width indent fuel false left

/-- The lines of a paragraph. Each step uses up a character or a chunk. -/
def paragraph (width : Int) (indent : Nat) (cs : List Char) : Except Fault (List (List Char)) :=
  if width ≤ 0 then .error .badValue
  else
    let chunks := chunks (plainSpaces cs)
    .ok (fillLines width indent (2 * cs.length * 8 + 2) true chunks)

/-- Wraps the lines of a text that are too long. What is wrapped off a line is indented by two more
blanks than the line itself. -/
def wrapLines (s : String) (width : Int) : Except Fault String := do
  let wrapped ← (linesFrom [] s.toList).mapM fun line => do
    if (line.length : Int) ≤ width then return line
    let margin := (line.takeWhile (· == ' ')).length
    let lines ← paragraph width (margin + 2) line
    return ['\n'].intercalate lines ++ ['\n']
  return String.ofList wrapped.flatten

end ModelFormula.Text
