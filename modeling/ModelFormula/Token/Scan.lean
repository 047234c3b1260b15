import ModelFormula.Error
import ModelFormula.Text.Digit
import ModelFormula.Text.Letter
import ModelFormula.Token

/-!
# Scanning

Each step of a scan takes the longest piece that the first character can begin, so the rest is
always shorter. A formula has at most one tilde, and unless the caller asks otherwise a leading `1
+` is added to the formula or, if it has a tilde, to its right side.
-/
namespace ModelFormula.Token

def isBlank (c : Char) : Bool := c == ' ' || c == '\n' || c == '\t' || c == '\r'

def quotationMark : Char := Char.ofNat 34

def apostrophe : Char := Char.ofNat 39

def backQuote : Char := Char.ofNat 96

/-- Either quote opens and closes a string. -/
def isQuote (c : Char) : Bool := c == quotationMark || c == apostrophe

/-- Characters that continue a name; a dot leads into a member. -/
def isNameChar (c : Char) : Bool :=
  Text.isLetter c || Text.isDigit c || Text.isNumeral c || c == '.' || c == '_'

/-- Tokens of one character that begin no longer one. -/
def single? : Char → Option Kind
  | '(' => some .leftParen
  | ')' => some .rightParen
  | '[' => some .leftBracket
  | ']' => some .rightBracket
  | '\x7b' => some .leftBrace
  | '\x7d' => some .rightBrace
  | ',' => some .comma
  | '+' => some .plus
  | '-' => some .minus
  | '%' => some .modulo
  | '~' => some .tilde
  | ':' => some .colon
  | '|' => some .pipe
  | _ => none

/-- Tokens that a second character can lengthen: that character, the long and the short kind. -/
def double? : Char → Option (Char × Kind × Kind)
  | '/' => some ('/', .slashSlash, .slash)
  | '*' => some ('*', .starStar, .star)
  | '!' => some ('=', .bangEqual, .bang)
  | '=' => some ('=', .equalEqual, .equal)
  | '<' => some ('=', .lessEqual, .less)
  | '>' => some ('=', .greaterEqual, .greater)
  | _ => none

/-- The number that decimal digits stand for; none if one of them is no decimal digit. -/
def naturalOf? (digits : List Char) : Option Nat :=
  digits.foldlM (fun n c => (Text.decimalValue? c).map (10 * n + ·)) 0

/-- The longest numeral of an integer that is read. -/
def maxIntegerDigits : Nat := 4300

def integerLiteral (digits : List Char) : Except Fault Literal :=
  match naturalOf? digits with
  | some n => if digits.length ≤ maxIntegerDigits then .ok (.int n) else .error .malformedNumber
  | none => .error .malformedNumber

def fractionLiteral (whole decimals : List Char) : Except Fault Literal :=
  match naturalOf? (whole ++ decimals) with
  | some n => .ok (.float (Decimal.nearest n (Nat.pow 10 decimals.length)))
  | none => .error .malformedNumber

/-- A number begins with the given digit. Its point belongs to it only if a digit follows. -/
def number (c : Char) (rest : List Char) : Except Fault (Token × List Char) := do
  let whole := c :: rest.takeWhile Text.isDigit
  match rest.dropWhile Text.isDigit with
  | '.' :: d :: after =>
    if Text.isDigit d then
      let decimals := d :: after.takeWhile Text.isDigit
      let literal ← fractionLiteral whole decimals
      return (⟨.number, String.ofList (whole ++ '.' :: decimals), literal⟩,
        after.dropWhile Text.isDigit)
    else
      return (⟨.number, String.ofList whole, ← integerLiteral whole⟩, '.' :: d :: after)
  | after => return (⟨.number, String.ofList whole, ← integerLiteral whole⟩, after)

/-- A string ends at the next quote of either form. -/
def quotedString (c : Char) (rest : List Char) : Except Fault (Token × List Char) :=
  let inside := rest.takeWhile (!isQuote ·)
  match rest.dropWhile (!isQuote ·) with
  | close :: after =>
    .ok (⟨.string, String.ofList (c :: inside ++ [close]), some (.text (String.ofList inside))⟩,
      after)
  | [] => .error .unterminatedString

/-- A name between back quotes. -/
def backQuoted (c : Char) (rest : List Char) : Except Fault (Token × List Char) :=
  let inside := rest.takeWhile (· != c)
  match rest.dropWhile (· != c) with
  | close :: after => .ok (⟨.quotedName, String.ofList (c :: inside ++ [close]), none⟩, after)
  | [] => .error .unterminatedName

/-- A dot begins a number if a digit follows. -/
def dot (rest : List Char) : Except Fault (Token × List Char) := do
  match rest with
  | d :: after =>
    if Text.isDigit d then
      let decimals := d :: after.takeWhile Text.isDigit
      return (⟨.number, String.ofList ('.' :: decimals), ← fractionLiteral [] decimals⟩,
        after.dropWhile Text.isDigit)
    else return (⟨.period, ".", none⟩, rest)
  | [] => return (⟨.period, ".", none⟩, rest)

/-- The token that a character begins, and what follows it. -/
def next (c : Char) (rest : List Char) : Except Fault (Token × List Char) :=
  if isQuote c then quotedString c rest
  else if c == backQuote then backQuoted c rest
  else if c == '.' then dot rest
  else match single? c, double? c with
    | some kind, _ => .ok (⟨kind, c.toString, none⟩, rest)
    | none, some (second, long, short) =>
      match rest with
      | d :: after =>
        if d == second then .ok (⟨long, String.ofList [c, d], none⟩, after)
        else .ok (⟨short, c.toString, none⟩, rest)
      | [] => .ok (⟨short, c.toString, none⟩, rest)
    | none, none =>
      if Text.isDigit c then number c rest
      else if Text.isLetter c then
        .ok (⟨.identifier, String.ofList (c :: rest.takeWhile isNameChar), none⟩,
          rest.dropWhile isNameChar)
      else .error (.unexpectedCharacter c)

theorem length_dropWhile_le (p : Char → Bool) (cs : List Char) :
    (cs.dropWhile p).length ≤ cs.length :=
  (List.dropWhile_suffix p).length_le

theorem number_length {c : Char} {rest after : List Char} {t : Token}
    (scanned : number c rest = .ok (t, after)) : after.length ≤ rest.length := by
  have bound := length_dropWhile_le Text.isDigit rest
  simp only [number, bind, Except.bind, pure, Except.pure] at scanned
  split at scanned
  next d tail shape =>
    rw [shape] at bound
    have tailBound := length_dropWhile_le Text.isDigit tail
    simp only [List.length_cons] at bound
    split at scanned <;> split at scanned <;> simp only [reduceCtorEq, Except.ok.injEq,
      Prod.mk.injEq] at scanned
    · obtain ⟨_, rfl⟩ := scanned; omega
    · obtain ⟨_, rfl⟩ := scanned; simp only [List.length_cons]; omega
  next =>
    split at scanned <;> simp only [reduceCtorEq, Except.ok.injEq, Prod.mk.injEq] at scanned
    obtain ⟨_, rfl⟩ := scanned; exact bound

theorem quotedString_length {c : Char} {rest after : List Char} {t : Token}
    (scanned : quotedString c rest = .ok (t, after)) : after.length ≤ rest.length := by
  have bound := length_dropWhile_le (!isQuote ·) rest
  simp only [quotedString] at scanned
  split at scanned
  next close tail shape =>
    simp only [Except.ok.injEq, Prod.mk.injEq] at scanned
    obtain ⟨_, rfl⟩ := scanned
    rw [shape, List.length_cons] at bound
    omega
  next => simp at scanned

theorem backQuoted_length {c : Char} {rest after : List Char} {t : Token}
    (scanned : backQuoted c rest = .ok (t, after)) : after.length ≤ rest.length := by
  have bound := length_dropWhile_le (· != c) rest
  simp only [backQuoted] at scanned
  split at scanned
  next close tail shape =>
    simp only [Except.ok.injEq, Prod.mk.injEq] at scanned
    obtain ⟨_, rfl⟩ := scanned
    rw [shape, List.length_cons] at bound
    omega
  next => simp at scanned

theorem dot_length {rest after : List Char} {t : Token}
    (scanned : dot rest = .ok (t, after)) : after.length ≤ rest.length := by
  simp only [dot, bind, Except.bind, pure, Except.pure] at scanned
  split at scanned
  next d tail =>
    have bound := length_dropWhile_le Text.isDigit tail
    split at scanned
    · split at scanned <;> simp only [reduceCtorEq, Except.ok.injEq, Prod.mk.injEq] at scanned
      obtain ⟨_, rfl⟩ := scanned; simp only [List.length_cons]; omega
    · simp only [Except.ok.injEq, Prod.mk.injEq] at scanned
      obtain ⟨_, rfl⟩ := scanned; exact Nat.le_refl _
  next =>
    simp only [Except.ok.injEq, Prod.mk.injEq] at scanned
    obtain ⟨_, rfl⟩ := scanned; exact Nat.le_refl _

/-- A token takes at least the character that begins it. -/
theorem next_length {c : Char} {rest after : List Char} {t : Token}
    (scanned : next c rest = .ok (t, after)) : after.length ≤ rest.length := by
  simp only [next] at scanned
  split at scanned
  · exact quotedString_length scanned
  split at scanned
  · exact backQuoted_length scanned
  split at scanned
  · exact dot_length scanned
  split at scanned
  · simp only [Except.ok.injEq, Prod.mk.injEq] at scanned
    obtain ⟨_, rfl⟩ := scanned; exact Nat.le_refl _
  · split at scanned
    · split at scanned <;>
      · simp only [Except.ok.injEq, Prod.mk.injEq] at scanned
        obtain ⟨_, rfl⟩ := scanned; simp
    · simp only [Except.ok.injEq, Prod.mk.injEq] at scanned
      obtain ⟨_, rfl⟩ := scanned; exact Nat.le_refl _
  · split at scanned
    · exact number_length scanned
    split at scanned
    · simp only [Except.ok.injEq, Prod.mk.injEq] at scanned
      obtain ⟨_, rfl⟩ := scanned; exact length_dropWhile_le _ _
    · simp at scanned

/-- All tokens of a text. -/
def tokens : List Char → Except Fault (List Token)
  | [] => .ok []
  | c :: rest =>
    if isBlank c then tokens rest
    else match _scanned : next c rest with
      | .error fault => .error fault
      | .ok (t, after) => (tokens after).map (t :: ·)
termination_by cs => cs.length
decreasing_by
  · simp
  · have bound := next_length _scanned
    simp only [List.length_cons]
    omega

/-- The tokens of a leading `1 +`. -/
def one : Token := ⟨.number, "1", some (.int 1)⟩

def plusSign : Token := ⟨.plus, "+", none⟩

def endMark : Token := ⟨.endOfFormula, "", none⟩

def isTilde (t : Token) : Bool := t.kind == .tilde

/-- Puts `1 +` after the tilde, or in front if there is none. -/
def withIntercept (ts : List Token) : List Token :=
  match ts.dropWhile (!isTilde ·) with
  | [] => one :: plusSign :: ts
  | tilde :: right => ts.takeWhile (!isTilde ·) ++ tilde :: one :: plusSign :: right

/-- The tokens of a formula, with the end mark last. -/
def scan (formula : String) (intercept : Bool := true) : Except Fault (List Token) := do
  if formula.isEmpty then throw .emptyFormula
  let ts ← tokens formula.toList
  if 1 < ts.countP isTilde then throw .severalTildes
  let ts := ts ++ [endMark]
  return if intercept then withIntercept ts else ts

end ModelFormula.Token
