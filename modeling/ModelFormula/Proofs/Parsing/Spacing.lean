import Mathlib
import ModelFormula.Token.Scan

/-!
# Spacing

A blank never lets a piece go on, so a lexeme is read as the same token wherever blanks stand around
it, and other blanks between the lexemes give the same tokens.
-/
namespace ModelFormula.Token

open List Text

/-! ### Blanks -/

/-- Only blanks, or nothing. -/
def Blanks (cs : List Char) : Prop := ∀ c ∈ cs, isBlank c = true

instance (cs : List Char) : Decidable (Blanks cs) := List.decidableBAll _ cs

/-- Nothing, or something that begins with a blank. -/
def Apart (rest : List Char) : Prop := ∀ c ∈ rest.head?, isBlank c = true

lemma Blanks.apart {w : List Char} (blanks : Blanks w) (present : w ≠ []) (rest : List Char) :
    Apart (w ++ rest) := by
  cases w with
  | nil => exact absurd rfl present
  | cons c w => simpa [Apart] using blanks c mem_cons_self

lemma Blanks.apart_self {w : List Char} (blanks : Blanks w) : Apart w :=
  fun c first => blanks c (mem_of_mem_head? first)

lemma isBlank_iff (c : Char) : isBlank c ↔ c = ' ' ∨ c = '\n' ∨ c = '\t' ∨ c = '\r' := by
  simp [isBlank, or_assoc]

/-- No blank continues a number. -/
lemma not_digit_of_blank (blank : isBlank c) : isDigit c = false := by
  rcases (isBlank_iff c).mp blank with rfl | rfl | rfl | rfl <;> decide +kernel

/-- No blank continues a name. -/
lemma not_nameChar_of_blank (blank : isBlank c) : isNameChar c = false := by
  rcases (isBlank_iff c).mp blank with rfl | rfl | rfl | rfl <;> decide +kernel

/-! ### Longest pieces -/

section Longest

variable {p : Char → Bool} {cs rest : List Char}

/-- The longest front is found again in front of anything that it cannot go on with. -/
lemma takeWhile_again (stops : ∀ c ∈ rest.head?, p c = false) :
    (cs.takeWhile p ++ rest).takeWhile p = cs.takeWhile p := by
  rw [takeWhile_append_of_pos fun _ => mem_takeWhile_imp]
  cases rest with
  | nil => simp
  | cons c rest => simp [stops c rfl]

lemma dropWhile_again (stops : ∀ c ∈ rest.head?, p c = false) :
    (cs.takeWhile p ++ rest).dropWhile p = rest := by
  rw [dropWhile_append_of_pos fun _ => mem_takeWhile_imp]
  cases rest with
  | nil => simp
  | cons c rest => simp [stops c rfl]

end Longest

/-! ### Pieces that are read again -/

variable {c : Char} {rest after : List Char} {t : Token} {tail : List Char} {ts : List Token}

/-- The reader takes the character and the body of the lexeme, and it does so whenever something that
stands apart comes behind them. -/
structure Rereads (read : List Char → Except Fault (Token × List Char)) (c : Char)
    (body : List Char) (t : Token) : Prop where
  lexeme : t.lexeme.toList = c :: body
  again : ∀ rest, Apart rest → read (body ++ rest) = .ok (t, rest)

/-- A whole number, since no digit follows behind a point. -/
lemma number_whole (ends : ∀ d tail, rest.dropWhile isDigit = '.' :: d :: tail →
      isDigit d = false) :
    number c rest = (integerLiteral (c :: rest.takeWhile isDigit)).map fun literal =>
      (⟨.number, String.ofList (c :: rest.takeWhile isDigit), literal⟩,
        rest.dropWhile isDigit) := by
  simp only [number]
  split
  next d tail shape =>
    rw [ends d tail shape, if_neg Bool.false_ne_true, ← shape]
    cases integerLiteral (c :: rest.takeWhile isDigit) <;> rfl
  next => cases integerLiteral (c :: rest.takeWhile isDigit) <;> rfl

lemma number_fraction (shape : rest.dropWhile isDigit = '.' :: d :: tail) (digit : isDigit d) :
    number c rest =
      (fractionLiteral (c :: rest.takeWhile isDigit) (d :: tail.takeWhile isDigit)).map
        fun literal => (⟨.number, String.ofList (c :: rest.takeWhile isDigit ++
          '.' :: d :: tail.takeWhile isDigit), literal⟩, tail.dropWhile isDigit) := by
  simp only [number, shape, digit, if_true]
  cases fractionLiteral (c :: rest.takeWhile isDigit) (d :: tail.takeWhile isDigit) <;> rfl

/-- What a mapped result comes from. -/
lemma map_ok {α β : Type} {x : Except Fault α} {f : α → β} {b : β} (mapped : x.map f = .ok b) :
    ∃ a, x = .ok a ∧ f a = b := by
  cases x with
  | error fault => cases mapped
  | ok a => exact ⟨a, rfl, Except.ok.inj mapped⟩

/-- A point with a digit behind it follows the digits, or none does. -/
lemma fraction_or_whole (rest : List Char) :
    (∃ d tail, rest.dropWhile isDigit = '.' :: d :: tail ∧ isDigit d) ∨
      ∀ d tail, rest.dropWhile isDigit = '.' :: d :: tail → isDigit d = false := by
  by_cases fraction : ∃ d tail, rest.dropWhile isDigit = '.' :: d :: tail ∧ isDigit d
  · exact .inl fraction
  · exact .inr fun d tail shape =>
      Bool.eq_false_iff.mpr fun digit => fraction ⟨d, tail, shape, digit⟩

lemma number_rereads (scanned : number c rest = .ok (t, after)) :
    ∃ body, rest = body ++ after ∧ Rereads (number c) c body t := by
  rcases fraction_or_whole rest with ⟨d, tail, shape, digit⟩ | ends
  · rw [number_fraction shape digit] at scanned
    obtain ⟨literal, value, eq⟩ := map_ok scanned
    cases eq
    let front := rest.takeWhile isDigit
    let decimals := tail.takeWhile isDigit
    refine ⟨front ++ '.' :: d :: decimals, ?_, ?_⟩
    · calc rest = front ++ rest.dropWhile isDigit := takeWhile_append_dropWhile.symm
        _ = front ++ '.' :: d :: (decimals ++ tail.dropWhile isDigit) := by
          rw [shape, takeWhile_append_dropWhile]
        _ = _ := by simp
    · constructor
      · simp [front, decimals]
      · intro gap apart
        have stops : ∀ x ∈ gap.head?, isDigit x = false :=
          fun x first => not_digit_of_blank (apart x first)
        have point : ∀ x ∈ ('.' :: d :: (decimals ++ gap)).head?, isDigit x = false := by
          rintro x ⟨⟩
          decide +kernel
        have again : front ++ '.' :: d :: decimals ++ gap = front ++ '.' :: d :: (decimals ++ gap) := by
          simp
        rw [again, number_fraction (dropWhile_again point) digit, takeWhile_again point,
          takeWhile_again stops, dropWhile_again stops, value]
        rfl
  · rw [number_whole ends] at scanned
    obtain ⟨literal, value, eq⟩ := map_ok scanned
    cases eq
    refine ⟨rest.takeWhile isDigit, takeWhile_append_dropWhile.symm, ?_⟩
    constructor
    · simp
    · intro gap apart
      have stops : ∀ x ∈ gap.head?, isDigit x = false :=
        fun x first => not_digit_of_blank (apart x first)
      have noPoint : ∀ d tail, (rest.takeWhile isDigit ++ gap).dropWhile isDigit =
          '.' :: d :: tail → isDigit d = false := by
        -- the gap would begin with a point, which is no blank
        intro d tail shape
        rw [dropWhile_again stops] at shape
        subst shape
        have blank : isBlank '.' := apart '.' rfl
        exact absurd blank (by decide)
      rw [number_whole noPoint, takeWhile_again stops, dropWhile_again stops, value]
      rfl

/-- A piece between delimiters ends with the first character that closes it. -/
lemma delimited_again (shape : rest.dropWhile p = close :: tail) :
    rest = (rest.takeWhile p ++ [close]) ++ tail ∧
      ∀ gap, (rest.takeWhile p ++ [close] ++ gap).takeWhile p = rest.takeWhile p ∧
        (rest.takeWhile p ++ [close] ++ gap).dropWhile p = close :: gap := by
  constructor
  · rw [append_assoc, singleton_append, ← shape, takeWhile_append_dropWhile]
  · intro gap
    have closes := head?_dropWhile_not p rest
    rw [shape] at closes
    have stops : ∀ x ∈ (close :: gap).head?, p x = false := by
      rintro x ⟨⟩
      simpa using closes
    rw [append_assoc, singleton_append]
    exact ⟨takeWhile_again stops, dropWhile_again stops⟩

lemma quotedString_rereads (scanned : quotedString c rest = .ok (t, after)) :
    ∃ body, rest = body ++ after ∧ Rereads (quotedString c) c body t := by
  simp only [quotedString] at scanned
  split at scanned
  next close tail shape =>
    cases scanned
    obtain ⟨whole, again⟩ := delimited_again shape
    refine ⟨_, whole, ?_⟩
    constructor
    · simp
    · intro gap _
      simp only [quotedString, again gap]
  next => cases scanned

lemma backQuoted_rereads (scanned : backQuoted c rest = .ok (t, after)) :
    ∃ body, rest = body ++ after ∧ Rereads (backQuoted c) c body t := by
  simp only [backQuoted] at scanned
  split at scanned
  next close tail shape =>
    cases scanned
    obtain ⟨whole, again⟩ := delimited_again shape
    refine ⟨_, whole, ?_⟩
    constructor
    · simp
    · intro gap _
      simp only [backQuoted, again gap]
  next => cases scanned

lemma dot_digit (digit : isDigit d) :
    dot (d :: tail) = (fractionLiteral [] (d :: tail.takeWhile isDigit)).map fun literal =>
      (⟨.number, String.ofList ('.' :: d :: tail.takeWhile isDigit), literal⟩,
        tail.dropWhile isDigit) := by
  simp only [dot, digit, if_true]
  cases fractionLiteral [] (d :: tail.takeWhile isDigit) <;> rfl

lemma dot_period (ends : ∀ d ∈ rest.head?, isDigit d = false) :
    dot rest = .ok (⟨.period, ".", none⟩, rest) := by
  cases rest with
  | nil => rfl
  | cons d tail => simp [dot, ends d rfl, pure, Except.pure]

lemma digit_or_none (rest : List Char) :
    (∃ d tail, rest = d :: tail ∧ isDigit d) ∨ ∀ d ∈ rest.head?, isDigit d = false := by
  cases rest with
  | nil => simp
  | cons d tail => cases digit : isDigit d <;> simp [digit]

lemma dot_rereads (scanned : dot rest = .ok (t, after)) :
    ∃ body, rest = body ++ after ∧ Rereads dot '.' body t := by
  rcases digit_or_none rest with ⟨d, tail, rfl, digit⟩ | ends
  · rw [dot_digit digit] at scanned
    obtain ⟨literal, value, eq⟩ := map_ok scanned
    cases eq
    refine ⟨d :: tail.takeWhile isDigit, ?_, ?_⟩
    · rw [cons_append, takeWhile_append_dropWhile]
    · constructor
      · simp
      · intro gap apart
        have stops : ∀ x ∈ gap.head?, isDigit x = false :=
          fun x first => not_digit_of_blank (apart x first)
        rw [cons_append, dot_digit digit, takeWhile_again stops, dropWhile_again stops, value]
        rfl
  · rw [dot_period ends] at scanned
    cases scanned
    refine ⟨[], rfl, ?_⟩
    constructor
    · rfl
    · intro gap apart
      exact dot_period fun x first => not_digit_of_blank (apart x first)

/-- The second characters of the long operators are no blanks. -/
lemma double?_not_blank (found : double? c = some (second, long, short)) :
    isBlank second = false := by
  simp only [double?] at found
  split at found <;> cases found <;> decide

/-- A token takes its lexeme from the front of the text, and it takes the same lexeme again wherever
what follows stands apart. -/
lemma next_rereads (scanned : next c rest = .ok (t, after)) :
    ∃ body, rest = body ++ after ∧ Rereads (next c) c body t := by
  have same : ∀ {read : List Char → Except Fault (Token × List Char)}, next c = read →
      (∃ body, rest = body ++ after ∧ Rereads read c body t) →
      ∃ body, rest = body ++ after ∧ Rereads (next c) c body t := fun eq => by rw [eq]; exact id
  by_cases quote : isQuote c
  · have reader : next c = quotedString c := by funext cs; simp [next, quote]
    exact same reader (quotedString_rereads (by rwa [← reader]))
  by_cases back : (c == backQuote)
  · have reader : next c = backQuoted c := by funext cs; simp [next, quote, back]
    exact same reader (backQuoted_rereads (by rwa [← reader]))
  by_cases point : c = '.'
  · subst point
    have reader : next '.' = dot := by funext cs; simp [next, quote, back]
    exact same reader (dot_rereads (by rwa [← reader]))
  have pointless : (c == '.') = false := by simpa using point
  cases single : single? c with
  | some kind =>
    have reader : ∀ cs, next c cs = .ok (⟨kind, c.toString, none⟩, cs) := by
      intro cs
      simp [next, quote, back, pointless, single]
    rw [reader] at scanned
    cases scanned
    refine ⟨[], rfl, ?_⟩
    constructor
    · simp
    · intro gap _
      exact reader gap
  | none =>
    cases double : double? c with
    | some choice =>
      obtain ⟨second, long, short⟩ := choice
      have longer : ∀ cs, next c (second :: cs) =
          .ok (⟨long, String.ofList [c, second], none⟩, cs) := by
        intro cs
        simp [next, quote, back, pointless, single, double]
      have shorter : ∀ cs : List Char, (∀ d ∈ cs.head?, d ≠ second) →
          next c cs = .ok (⟨short, c.toString, none⟩, cs) := by
        intro cs other
        cases cs with
        | nil => simp [next, quote, back, pointless, single, double]
        | cons d cs => simp [next, quote, back, pointless, single, double, other d rfl]
      by_cases goesOn : rest.head? = some second
      · obtain ⟨tail, rfl⟩ := head?_eq_some_iff.mp goesOn
        rw [longer] at scanned
        cases scanned
        refine ⟨[second], rfl, ?_⟩
        constructor
        · simp
        · intro gap _
          exact longer gap
      · rw [shorter rest fun d first eq => goesOn (eq ▸ first)] at scanned
        cases scanned
        refine ⟨[], rfl, ?_⟩
        constructor
        · simp
        · intro gap apart
          apply shorter gap
          rintro d first rfl
          have blank := apart d first
          rw [double?_not_blank double] at blank
          cases blank
    | none =>
      by_cases digit : isDigit c
      · have reader : next c = number c := by
          funext cs
          simp [next, quote, back, pointless, single, double, digit]
        exact same reader (number_rereads (by rwa [← reader]))
      by_cases letter : isLetter c
      · have reader : ∀ cs, next c cs =
            .ok (⟨.identifier, String.ofList (c :: cs.takeWhile isNameChar), none⟩,
              cs.dropWhile isNameChar) := by
          intro cs
          simp [next, quote, back, pointless, single, double, digit, letter]
        rw [reader] at scanned
        cases scanned
        refine ⟨rest.takeWhile isNameChar, takeWhile_append_dropWhile.symm, ?_⟩
        constructor
        · simp
        · intro gap apart
          have stops : ∀ x ∈ gap.head?, isNameChar x = false :=
            fun x first => not_nameChar_of_blank (apart x first)
          rw [reader, takeWhile_again stops, dropWhile_again stops]
      · simp [next, quote, back, pointless, single, double, digit, letter] at scanned

/-! ### Whole texts -/

lemma tokens_blanks (blanks : Blanks w) (cs : List Char) : tokens (w ++ cs) = tokens cs := by
  induction w with
  | nil => rfl
  | cons c w ih =>
    obtain ⟨blank, others⟩ := forall_mem_cons.mp blanks
    rw [cons_append, tokens, if_pos blank]
    exact ih others

lemma tokens_next (black : isBlank c = false) (first : next c rest = .ok (t, after)) :
    tokens (c :: rest) = (tokens after).map (t :: ·) := by
  rw [tokens, if_neg (by simp [black])]
  split
  next other => cases first.symm.trans other
  next other =>
    cases first.symm.trans other
    rfl

/-- Blanks, and then every lexeme with the blanks behind it. -/
def written (front : List Char) (pieces : List (Token × List Char)) : List Char :=
  front ++ pieces.flatMap fun (t, gap) => t.lexeme.toList ++ gap

lemma written_cons (front gap : List Char) (t : Token) (pieces : List (Token × List Char)) :
    written front ((t, gap) :: pieces) = front ++ (t.lexeme.toList ++ written gap pieces) := by
  simp [written]

/-- The token is read from its lexeme wherever a blank or the end follows. -/
def Legible (t : Token) : Prop := ∃ c body, isBlank c = false ∧ Rereads (next c) c body t

lemma tokens_legible (scanned : tokens cs = .ok ts) : ∀ t ∈ ts, Legible t := by
  fun_induction tokens cs generalizing ts with
  | case1 =>
    cases scanned
    simp
  | case2 c rest blank ih => exact ih scanned
  | case3 => cases scanned
  | case4 c rest black t after first ih =>
    obtain ⟨us, others, rfl⟩ := map_ok scanned
    obtain ⟨body, _, rereads⟩ := next_rereads first
    have own : Legible t := ⟨c, body, by simpa using black, rereads⟩
    exact forall_mem_cons.mpr ⟨own, ih others⟩

/-- Nothing is lost: a text is its lexemes in order, with blanks before, between and after them. -/
lemma tokens_written (scanned : tokens cs = .ok ts) :
    ∃ front pieces, pieces.map (·.1) = ts ∧ Blanks front ∧ (∀ p ∈ pieces, Blanks p.2) ∧
      cs = written front pieces := by
  fun_induction tokens cs generalizing ts with
  | case1 =>
    cases scanned
    exact ⟨[], [], rfl, by simp [Blanks], by simp, rfl⟩
  | case2 c rest blank ih =>
    -- a blank joins those in front
    obtain ⟨front, pieces, same, blanks, gaps, rfl⟩ := ih scanned
    refine ⟨c :: front, pieces, same, ?_, gaps, rfl⟩
    exact forall_mem_cons.mpr ⟨blank, blanks⟩
  | case3 => cases scanned
  | case4 c rest _ t after first ih =>
    -- what stood in front of the later lexemes is the gap behind this one
    obtain ⟨us, others, rfl⟩ := map_ok scanned
    obtain ⟨front, pieces, rfl, blanks, gaps, rfl⟩ := ih others
    obtain ⟨body, rfl, rereads⟩ := next_rereads first
    refine ⟨[], (t, front) :: pieces, rfl, by simp [Blanks], ?_, ?_⟩
    · exact forall_mem_cons.mpr ⟨blanks, gaps⟩
    · rw [written_cons, rereads.lexeme]
      rfl

/-- Legible lexemes are read whatever blanks keep them apart. -/
lemma tokens_of_written (legible : ∀ p ∈ pieces, Legible p.1) (blanks : Blanks front)
    (gaps : ∀ p ∈ pieces, Blanks p.2) (separate : ∀ p ∈ pieces.dropLast, p.2 ≠ []) :
    tokens (written front pieces) = .ok (pieces.map (·.1)) := by
  induction pieces generalizing front with
  | nil =>
    rw [written, tokens_blanks blanks]
    rw [flatMap_nil, tokens]
    rfl
  | cons p pieces ih =>
    obtain ⟨t, gap⟩ := p
    obtain ⟨⟨c, body, black, rereads⟩, legible⟩ := forall_mem_cons.mp legible
    obtain ⟨blank, gaps⟩ := forall_mem_cons.mp gaps
    have apart : Apart (written gap pieces) := by
      cases pieces with
      | nil => simpa [written] using blank.apart_self
      | cons q pieces => exact blank.apart (separate (t, gap) (by simp)) _
    have others : ∀ q ∈ pieces.dropLast, q.2 ≠ [] := by
      intro q mem
      apply separate q
      rw [dropLast_cons_of_ne_nil (ne_nil_of_mem (mem_of_mem_dropLast mem))]
      exact mem_cons_of_mem _ mem
    rw [written_cons, tokens_blanks blanks, rereads.lexeme, cons_append,
      tokens_next black (rereads.again _ apart), ih legible blank gaps others]
    rfl

lemma Legible.lexeme_ne_nil (legible : Legible t) : t.lexeme.toList ≠ [] := by
  obtain ⟨c, body, _, rereads⟩ := legible
  rw [rereads.lexeme]
  exact cons_ne_nil c body

lemma scan_eq_ok_iff : scan code false = .ok ts ↔
      code ≠ "" ∧ ∃ us, tokens code.toList = .ok us ∧ us.countP isTilde ≤ 1 ∧ ts = us ++ [endMark] := by
  simp only [scan, String.isEmpty_iff]
  by_cases empty : code = ""
  · simp [empty, throw, throwThe, MonadExceptOf.throw, bind, Except.bind]
  · cases found : tokens code.toList with
    | error fault => simp [empty, bind, Except.bind]
    | ok us =>
      by_cases several : 1 < us.countP isTilde
      · simp [empty, several, throw, throwThe, MonadExceptOf.throw, bind, Except.bind]
      · have few : us.countP isTilde ≤ 1 := Nat.not_lt.mp several
        simp [empty, several, few, bind, Except.bind, pure, Except.pure, eq_comm]

/-- A text that is scanned consists of the lexemes of its tokens, with blanks before, between and
after them; and if it has a token, then the same lexemes are scanned to the same tokens with any other
blanks around them, as long as there is one between any two. -/
theorem scan_written {code : String} {ts : List Token} (scanned : scan code false = .ok ts) :
    ∃ us, ts = us ++ [endMark] ∧
      (∃ front pieces, pieces.map (·.1) = us ∧ Blanks front ∧ (∀ p ∈ pieces, Blanks p.2) ∧
        code = String.ofList (written front pieces)) ∧
      ∀ front pieces, us ≠ [] → pieces.map (·.1) = us → Blanks front →
        (∀ p ∈ pieces, Blanks p.2) → (∀ p ∈ pieces.dropLast, p.2 ≠ []) →
        scan (String.ofList (written front pieces)) false = .ok ts := by
  obtain ⟨_, us, found, tildes, rfl⟩ := scan_eq_ok_iff.mp scanned
  refine ⟨us, rfl, ?_, ?_⟩
  · obtain ⟨front, pieces, same, blanks, gaps, whole⟩ := tokens_written found
    refine ⟨front, pieces, same, blanks, gaps, ?_⟩
    rw [← whole, String.ofList_toList]
  · rintro front pieces present rfl blanks gaps separate
    have legible : ∀ p ∈ pieces, Legible p.1 :=
      fun p member => tokens_legible found p.1 (mem_map_of_mem member)
    apply scan_eq_ok_iff.mpr
    constructor
    · -- the first lexeme already has a character
      intro empty
      cases pieces with
      | nil => exact present rfl
      | cons p rest =>
        have nothing : written front (p :: rest) = [] := by simpa using congrArg String.toList empty
        rw [written_cons, append_eq_nil_iff, append_eq_nil_iff] at nothing
        exact (legible p mem_cons_self).lexeme_ne_nil nothing.2.1
    · refine ⟨pieces.map (·.1), ?_, tildes, rfl⟩
      rw [String.toList_ofList]
      exact tokens_of_written legible blanks gaps separate

/-- In `x**2.'p q'` every piece ends only because of what comes next. -/
theorem scan_written_tight :
    let ts : List Token := [⟨.identifier, "x", none⟩, ⟨.starStar, "**", none⟩,
      ⟨.number, "2", some (.int 2)⟩, ⟨.period, ".", none⟩, ⟨.string, "'p q'", some (.text "p q")⟩,
      endMark]
    scan "x**2.'p q'" false = .ok ts ∧ scan "x ** 2\t. \n'p q' " false = .ok ts := by
  intro ts
  have scanned : scan "x**2.'p q'" false = .ok ts := by cbv
  obtain ⟨us, whole, _, respaced⟩ := scan_written scanned
  have tokens : ts.dropLast = us := by rw [whole, dropLast_concat]
  refine ⟨scanned, ?_⟩
  have gaps := respaced [] (ts.dropLast.zip [[' '], [' '], ['\t'], [' ', '\n'], [' ']])
    (by rw [← tokens]; exact cons_ne_nil _ _) (by rw [← tokens]; rfl) (by simp [Blanks])
    (by decide +kernel) (by decide +kernel)
  exact gaps

/-!
### Separators

Some characters are a token of their own, and no piece in front of them goes on with them. A text is
then scanned in two parts, unless a string or a quoted name is still open.
-/

/-! ### A separator ends the piece in front of it -/

section Longest

variable {p : Char → Bool} {stop : Char}

lemma takeWhile_stop (stops : p stop = false) (cs more : List Char) :
    (cs ++ stop :: more).takeWhile p = cs.takeWhile p := by
  rw [takeWhile_append]
  split
  next whole =>
    -- all of `cs` is taken, and then the stop is in the way
    rw [takeWhile_cons_of_neg (by simp [stops]), append_nil]
    exact (( takeWhile_prefix p).eq_of_length whole).symm
  next => rfl

lemma dropWhile_stop (stops : p stop = false) (cs more : List Char) :
    (cs ++ stop :: more).dropWhile p = cs.dropWhile p ++ stop :: more := by
  rw [dropWhile_append]
  split
  next nothing => rw [dropWhile_cons_of_neg (by simp [stops]), isEmpty_iff.mp nothing, nil_append]
  next => rfl

end Longest

/-- The character is a token of its own and continues no number, no name and no operator. -/
structure Separator (stop : Char) (kind : Kind) : Prop where
  black : isBlank stop = false
  single : ∀ rest, next stop rest = .ok (⟨kind, stop.toString, none⟩, rest)
  notDigit : Text.isDigit stop = false
  notNameChar : isNameChar stop = false
  notSecond : ∀ {c second : Char} {long short : Kind},
    double? c = some (second, long, short) → second ≠ stop

/-- Only three characters can be the second one of an operator. -/
lemma mem_of_double? (found : double? c = some (second, long, short)) :
    second ∈ ['/', '*', '='] := by
  simp only [double?] at found
  split at found <;> cases found <;> decide

lemma separator_of_single {stop : Char} {kind : Kind}
    (single : ∀ rest, next stop rest = .ok (⟨kind, stop.toString, none⟩, rest))
    (apart : isBlank stop = false ∧ Text.isDigit stop = false ∧ isNameChar stop = false ∧
      stop ∉ ['/', '*', '=']) : Separator stop kind where
  black := apart.1
  single := single
  notDigit := apart.2.1
  notNameChar := apart.2.2.1
  notSecond found := by
    rintro rfl
    exact apart.2.2.2 (mem_of_double? found)

lemma separator_tilde : Separator '~' .tilde :=
  separator_of_single (fun _ => rfl) (by decide +kernel)

lemma separator_rightParen : Separator ')' .rightParen :=
  separator_of_single (fun _ => rfl) (by decide +kernel)

lemma separator_rightBrace : Separator '\x7d' .rightBrace :=
  separator_of_single (fun _ => rfl) (by decide +kernel)

/-- An outcome of reading with more text behind what it leaves. -/
def followedBy (more : List Char) (outcome : Except Fault (Token × List Char)) :
    Except Fault (Token × List Char) :=
  outcome.map fun p => (p.1, p.2 ++ more)

variable {stop : Char} {kind : Kind}

lemma number_separator (separator : Separator stop kind) (c : Char) (rest more : List Char) :
    number c (rest ++ stop :: more) = followedBy (stop :: more) (number c rest) := by
  have front := takeWhile_stop separator.notDigit rest more
  have left := dropWhile_stop separator.notDigit rest more
  rcases fraction_or_whole rest with ⟨d, tail, shape, digit⟩ | ends
  · rw [shape, cons_append, cons_append] at left
    rw [number_fraction shape digit, number_fraction left digit, front,
      takeWhile_stop separator.notDigit, dropWhile_stop separator.notDigit]
    cases fractionLiteral (c :: rest.takeWhile Text.isDigit) (d :: tail.takeWhile Text.isDigit) <;> rfl
  · -- a point at the very end of `rest` gets the separator behind it, which is no digit either
    have ends' : ∀ d tail, (rest ++ stop :: more).dropWhile Text.isDigit = '.' :: d :: tail →
        Text.isDigit d = false := by
      intro d tail shape
      rw [left] at shape
      match behind : rest.dropWhile Text.isDigit with
      | [] =>
        rw [behind] at shape
        cases shape
        exact absurd separator.notNameChar (by decide +kernel)
      | [x] =>
        rw [behind] at shape
        cases shape
        exact separator.notDigit
      | x :: y :: others =>
        rw [behind] at shape
        cases shape
        exact ends d others behind
    rw [number_whole ends, number_whole ends', front, left]
    cases integerLiteral (c :: rest.takeWhile Text.isDigit) <;> rfl

lemma dot_separator (separator : Separator stop kind) (rest more : List Char) :
    dot (rest ++ stop :: more) = followedBy (stop :: more) (dot rest) := by
  cases rest with
  | nil => exact dot_period (by rintro d ⟨⟩; exact separator.notDigit)
  | cons d tail =>
    rw [cons_append]
    by_cases digit : Text.isDigit d
    · rw [dot_digit digit, dot_digit digit, takeWhile_stop separator.notDigit,
        dropWhile_stop separator.notDigit]
      cases fractionLiteral [] (d :: tail.takeWhile Text.isDigit) <;> rfl
    · have ends : Text.isDigit d = false := by simpa using digit
      rw [dot_period (by rintro x ⟨⟩; exact ends), dot_period (by rintro x ⟨⟩; exact ends)]
      rfl

lemma quotedString_followed (closed : quotedString c rest ≠ .error .unterminatedString)
    (more : List Char) :
    quotedString c (rest ++ stop :: more) = followedBy (stop :: more) (quotedString c rest) := by
  cases shape : rest.dropWhile (!isQuote ·) with
  | nil => exact absurd (by rw [quotedString, shape]) closed
  | cons close tail =>
    -- the closing quote is found before the text behind it is looked at
    obtain ⟨whole, again⟩ := delimited_again shape
    have longer : rest ++ stop :: more =
        rest.takeWhile (!isQuote ·) ++ [close] ++ (tail ++ stop :: more) := by
      rw [← append_assoc, ← whole]
    simp only [quotedString]
    rw [longer, (again _).1, (again _).2, shape]
    rfl

lemma backQuoted_followed (closed : backQuoted c rest ≠ .error .unterminatedName)
    (more : List Char) :
    backQuoted c (rest ++ stop :: more) = followedBy (stop :: more) (backQuoted c rest) := by
  cases shape : rest.dropWhile (· != c) with
  | nil => exact absurd (by rw [backQuoted, shape]) closed
  | cons close tail =>
    obtain ⟨whole, again⟩ := delimited_again shape
    have longer : rest ++ stop :: more =
        rest.takeWhile (· != c) ++ [close] ++ (tail ++ stop :: more) := by
      rw [← append_assoc, ← whole]
    simp only [backQuoted]
    rw [longer, (again _).1, (again _).2, shape]
    rfl

/-- A piece that is closed is read in the same way if a separator follows, and so is a fault. -/
lemma next_separator (separator : Separator stop kind)
    (string : next c rest ≠ .error .unterminatedString)
    (name : next c rest ≠ .error .unterminatedName) (more : List Char) :
    next c (rest ++ stop :: more) = followedBy (stop :: more) (next c rest) := by
  simp only [next] at string name ⊢
  split
  next quote =>
    rw [if_pos quote] at string
    exact quotedString_followed string more
  next quote =>
    rw [if_neg quote] at string name
    split
    next back =>
      rw [if_pos back] at name
      exact backQuoted_followed name more
    next back =>
      split
      · exact dot_separator separator rest more
      · split
        next => rfl
        next second long short _ found =>
          -- an operator looks one character ahead, and a separator does not lengthen it
          cases rest with
          | nil =>
            have other : (stop == second) = false := by simpa using (separator.notSecond found).symm
            simp [other, followedBy, Except.map]
          | cons d tail =>
            rw [cons_append]
            dsimp only
            split <;> rfl
        next =>
          split
          · exact number_separator separator c rest more
          split
          · rw [takeWhile_stop separator.notNameChar, dropWhile_stop separator.notNameChar]
            rfl
          · rfl

/-! ### Texts around a separator -/

/-- The text breaks off inside a string or a quoted name, which goes on with whatever follows. -/
def Unclosed (cs : List Char) : Prop :=
  tokens cs = .error .unterminatedString ∨ tokens cs = .error .unterminatedName

lemma tokens_fault (black : isBlank c = false) (first : next c rest = .error fault) :
    tokens (c :: rest) = .error fault := by
  rw [tokens, if_neg (by simp [black])]
  split
  next other =>
    cases first.symm.trans other
    rfl
  next other => cases first.symm.trans other

lemma map_bind {α β γ : Type} (x : Except Fault α) (f : α → β) (k : β → Except Fault γ) :
    (x.map f >>= k) = x >>= fun a => k (f a) := by
  cases x <;> rfl

lemma map_map {α β γ : Type} (x : Except Fault α) (f : α → β) (g : β → γ) :
    (x.map f).map g = x.map fun a => g (f a) := by
  cases x <;> rfl

/-- The tokens of a text with a separator: those in front of it, its own, and those behind it. The
first fault from the left is the fault of the whole. -/
lemma tokens_append_separator (separator : Separator stop kind) (closed : ¬ Unclosed cs)
    (more : List Char) :
    tokens (cs ++ stop :: more) = tokens cs >>= fun ls =>
      (tokens more).map fun rs => ls ++ ⟨kind, stop.toString, none⟩ :: rs := by
  -- by the pieces of the text in front; where it ends, the separator is the next piece
  fun_induction tokens cs with
  | case1 => exact tokens_next separator.black (separator.single more)
  | case2 c rest blank ih =>
    have same : tokens (c :: rest) = tokens rest := by rw [tokens, if_pos blank]
    rw [cons_append, tokens, if_pos blank]
    exact ih (by rwa [Unclosed, ← same])
  | case3 c rest black fault first =>
    have dark : isBlank c = false := by simpa using black
    have whole := tokens_fault dark first
    have longer : next c (rest ++ stop :: more) = .error fault := by
      rw [next_separator separator, first]
      · rfl
      -- neither kind of piece is open, or the whole text would be
      · intro eq
        rw [first] at eq
        exact closed (.inl (whole.trans (congrArg _ (Except.error.inj eq))))
      · intro eq
        rw [first] at eq
        exact closed (.inr (whole.trans (congrArg _ (Except.error.inj eq))))
    rw [cons_append, tokens_fault dark longer]
    rfl
  | case4 c rest black t after first ih =>
    have dark : isBlank c = false := by simpa using black
    have longer : next c (rest ++ stop :: more) = .ok (t, after ++ stop :: more) := by
      rw [next_separator separator, first]
      · rfl
      · simp [first]
      · simp [first]
    have inner : ¬ Unclosed after := by
      intro unclosed
      apply closed
      rw [Unclosed, tokens_next dark first]
      exact unclosed.imp (fun open' => by rw [open']; rfl) fun open' => by rw [open']; rfl
    rw [cons_append, tokens_next dark longer, ih inner, map_bind]
    cases tokens after with
    | error fault => rfl
    | ok ls => exact map_map _ _ _

end ModelFormula.Token
