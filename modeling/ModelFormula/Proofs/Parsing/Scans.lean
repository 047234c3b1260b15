import ModelFormula.Proofs.Parsing.Spacing

/-!
# The implicit intercept

A scan puts the tokens of `1 +` into a complete list of tokens. The same tokens come out if `1 +` is
written into the text, because no piece in front takes in a blank or a tilde.
-/
namespace ModelFormula.Token

open List

/-- The token of a tilde. -/
def tildeSign : Token := ⟨.tilde, "~", none⟩

/-- In front of a text `1 + ` is two tokens of its own. -/
lemma tokens_one_plus (cs : List Char) :
    tokens ("1 + ".toList ++ cs) = (tokens cs).map fun ts => one :: plusSign :: ts := by
  have number : next '1' (' ' :: '+' :: ' ' :: cs) = .ok (one, ' ' :: '+' :: ' ' :: cs) := by
    have reads : number '1' (' ' :: '+' :: ' ' :: cs) = .ok (one, ' ' :: '+' :: ' ' :: cs) := by
      have stops : Text.isDigit ' ' = false := by decide +kernel
      rw [number_whole]
      · simp only [takeWhile_cons, dropWhile_cons, stops]
        rfl
      · intro d tail shape
        simp [stops] at shape
    have digit : Text.isDigit '1' := by decide +kernel
    have quote : isQuote '1' = false := by decide +kernel
    have back : ('1' == backQuote) = false := by decide +kernel
    simp [next, quote, back, single?, double?, digit, reads]
  have sign : next '+' (' ' :: cs) = .ok (plusSign, ' ' :: cs) := rfl
  have blanks : ∀ ds, tokens (' ' :: ds) = tokens ds := fun ds => by rw [tokens, if_pos (by decide)]
  show tokens ('1' :: ' ' :: '+' :: ' ' :: cs) = _
  rw [tokens_next (by decide) number, blanks, tokens_next (by decide) sign, blanks, map_map]

/-! ### Scans -/

/-- What a scan makes of all tokens. -/
def complete (intercept : Bool) (ts : List Token) : Except Fault (List Token) :=
  if 1 < ts.countP isTilde then .error .severalTildes
  else .ok (if intercept then withIntercept (ts ++ [endMark]) else ts ++ [endMark])

lemma scan_eq_complete (present : code ≠ "") (intercept : Bool) :
    scan code intercept = tokens code.toList >>= complete intercept := by
  simp only [scan, String.isEmpty_iff, present, if_false]
  cases tokens code.toList with
  | error fault => rfl
  | ok ts =>
    by_cases several : 1 < ts.countP isTilde <;>
      simp [complete, several, bind, Except.bind, pure, Except.pure, throw, throwThe,
        MonadExceptOf.throw]

lemma withIntercept_of_no_tilde (none : ∀ t ∈ ts, isTilde t = false) :
    withIntercept ts = one :: plusSign :: ts := by
  have all : ts.dropWhile (!isTilde ·) = [] :=
    dropWhile_eq_nil_iff.mpr fun t mem => by simp [none t mem]
  rw [withIntercept, all]

lemma withIntercept_of_tilde (none : ∀ t ∈ ls, isTilde t = false) (rs : List Token) :
    withIntercept (ls ++ tildeSign :: rs) = ls ++ tildeSign :: one :: plusSign :: rs := by
  have left : ∀ t ∈ ls, (!isTilde t) := fun t mem => by simp [none t mem]
  rw [withIntercept, dropWhile_append_of_pos left, takeWhile_append_of_pos left,
    dropWhile_cons_of_neg (by decide), takeWhile_cons_of_neg (by decide), append_nil]

lemma complete_no_tilde (none : ∀ t ∈ ts, isTilde t = false) :
    complete true ts = complete false (one :: plusSign :: ts) := by
  have count : ts.countP isTilde = 0 := countP_eq_zero.mpr fun t mem => by simp [none t mem]
  have marked : ∀ t ∈ ts ++ [endMark], isTilde t = false := by
    simpa [or_imp, forall_and] using ⟨none, by decide⟩
  simp [complete, count, withIntercept_of_no_tilde marked,
    show isTilde one = false from rfl, show isTilde plusSign = false from rfl]

lemma complete_tilde (ls rs : List Token) : complete true (ls ++ tildeSign :: rs) =
      complete false (ls ++ tildeSign :: one :: plusSign :: rs) := by
  have count : (ls ++ tildeSign :: one :: plusSign :: rs).countP isTilde =
      (ls ++ tildeSign :: rs).countP isTilde := by
    simp [countP_cons, show isTilde one = false from rfl, show isTilde plusSign = false from rfl]
  rw [complete, complete, count]
  split
  · rfl
  next few =>
    -- the one tilde is this one, so that there is none in front of it
    have none : ∀ t ∈ ls, isTilde t = false := by
      have nothing : ls.countP isTilde = 0 := by
        rw [countP_append, countP_cons_of_pos (by decide)] at few
        omega
      simpa using countP_eq_zero.mp nothing
    rw [append_assoc, cons_append, if_pos rfl, withIntercept_of_tilde none]
    simp

/-- The intercept that a scan adds is the one that `1 + ` in the text stands for, with the same tokens
or the same fault. In a text without a tilde it is written in front. In a text with a tilde it is
written behind it: the tilde must not stand inside a string or a quoted name, and if there are other
tildes then both scans refuse them. -/
theorem scan_intercept_written :
    (∀ code : String, code ≠ "" →
      (∀ ts, tokens code.toList = .ok ts → ∀ t ∈ ts, isTilde t = false) →
      scan code = scan ("1 + " ++ code) false) ∧
    ∀ left right : String, ¬ Unclosed left.toList →
      scan (left ++ "~" ++ right) = scan (left ++ "~ 1 + " ++ right) false := by
  constructor
  · intro code present none
    have written : "1 + " ++ code ≠ "" := by simp
    rw [scan_eq_complete present, scan_eq_complete written, String.toList_append, tokens_one_plus,
      map_bind]
    cases found : tokens code.toList with
    | error fault => rfl
    | ok ts => exact complete_no_tilde (none ts found)
  · intro left right closed
    have implicit : left ++ "~" ++ right ≠ "" := by simp
    have explicit : left ++ "~ 1 + " ++ right ≠ "" := by simp
    have short : (left ++ "~" ++ right).toList = left.toList ++ '~' :: right.toList := by simp
    have long : (left ++ "~ 1 + " ++ right).toList =
        left.toList ++ '~' :: ' ' :: ("1 + ".toList ++ right.toList) := by simp
    have blank : tokens (' ' :: ("1 + ".toList ++ right.toList)) =
        tokens ("1 + ".toList ++ right.toList) := by rw [tokens, if_pos (by decide)]
    rw [scan_eq_complete implicit, scan_eq_complete explicit, short, long,
      tokens_append_separator separator_tilde closed,
      tokens_append_separator separator_tilde closed, blank, tokens_one_plus]
    cases tokens left.toList with
    | error fault => rfl
    | ok ls =>
      cases tokens right.toList with
      | error fault => rfl
      | ok rs => exact complete_tilde ls rs

/-- Tildes in a string and in a quoted name do not count, and `x.` would go on with a digit. -/
theorem scan_intercept_written_quoted :
    (∀ ts, tokens "'~'+x.".toList = .ok ts → ∀ t ∈ ts, isTilde t = false) ∧
      scan "'~'+x." = scan "1 + '~'+x." false ∧
      ¬ Unclosed [backQuote, 'a', '~', backQuote] ∧
      scan (String.ofList [backQuote, 'a', '~', backQuote] ++ "~" ++ "2*'~'") =
        scan (String.ofList [backQuote, 'a', '~', backQuote] ++ "~ 1 + " ++ "2*'~'") false := by
  have free : ∀ ts, tokens "'~'+x.".toList = .ok ts → ∀ t ∈ ts, isTilde t = false := by
    have found : tokens "'~'+x.".toList = .ok [⟨.string, "'~'", some (.text "~")⟩, plusSign,
        ⟨.identifier, "x.", none⟩] := by cbv
    intro ts scanned
    obtain rfl := Except.ok.inj (found.symm.trans scanned)
    decide
  have closed : ¬ Unclosed [backQuote, 'a', '~', backQuote] := by
    have found : tokens [backQuote, 'a', '~', backQuote] =
        .ok [⟨.quotedName, String.ofList [backQuote, 'a', '~', backQuote], none⟩] := by cbv
    simp [Unclosed, found]
  exact ⟨free, scan_intercept_written.1 _ (by decide) free, closed,
    scan_intercept_written.2 _ _ (by simpa using closed)⟩

/-!
### Faults of the scan

What is left where a scan stops decides on the fault: an open quoted name is an index out of range,
a numeral that is no number a bad value, all else a fault of scanning.
-/

/-- The text is made of blanks and whole tokens, and then of what is left. -/
inductive Leaves : List Char → List Char → Prop
  | refl (cs : List Char) : Leaves cs cs
  | blank {c : Char} {rest left : List Char} (blank : isBlank c = true) (more : Leaves rest left) :
      Leaves (c :: rest) left
  | token {c : Char} {rest after left : List Char} {t : Token} (black : isBlank c = false)
      (first : next c rest = .ok (t, after)) (more : Leaves after left) : Leaves (c :: rest) left

variable {c : Char} {cs rest : List Char} {fault : Fault}

/-- The scan fails where it comes to a character that begins no token. -/
lemma tokens_eq_error_iff : tokens cs = .error fault ↔
    ∃ c rest, Leaves cs (c :: rest) ∧ isBlank c = false ∧ next c rest = .error fault := by
  constructor
  · intro failed
    fun_induction tokens cs with
    | case1 => cases failed
    | case2 c rest blank ih =>
      obtain ⟨d, left, leaves, stuck⟩ := ih failed
      exact ⟨d, left, .blank blank leaves, stuck⟩
    | case3 c rest black found first =>
      cases failed
      exact ⟨c, rest, .refl _, by simpa using black, first⟩
    | case4 c rest black t after first ih =>
      cases more : tokens after with
      | error found =>
        rw [more] at failed
        cases failed
        obtain ⟨d, left, leaves, stuck⟩ := ih more
        exact ⟨d, left, .token (by simpa using black) first leaves, stuck⟩
      | ok ts =>
        rw [more] at failed
        cases failed
  · rintro ⟨c, rest, leaves, black, first⟩
    generalize shape : c :: rest = left at leaves
    induction leaves with
    | refl =>
      subst shape
      exact tokens_fault black first
    | blank blank _ ih =>
      rw [tokens, if_pos blank]
      exact ih shape
    | token dark begins _ ih =>
      rw [tokens_next dark begins, ih shape]
      rfl

/-! ### What a character can lead to -/

lemma integerLiteral_fault {digits : List Char} (failed : integerLiteral digits = .error fault) :
    fault = .malformedNumber := by
  simp only [integerLiteral] at failed
  split at failed
  · split at failed
    · cases failed
    · cases failed
      rfl
  · cases failed
    rfl

lemma fractionLiteral_fault (failed : fractionLiteral whole decimals = .error fault) :
    fault = .malformedNumber := by
  simp only [fractionLiteral] at failed
  split at failed
  · cases failed
  · cases failed
    rfl

lemma error_of_map {α β : Type} {x : Except Fault α} {f : α → β}
    (failed : x.map f = .error fault) : x = .error fault := by
  cases x with
  | error found =>
    cases failed
    rfl
  | ok a => cases failed

lemma number_fault (failed : number c rest = .error fault) : fault = .malformedNumber := by
  rcases fraction_or_whole rest with ⟨d, tail, shape, digit⟩ | ends
  · rw [number_fraction shape digit] at failed
    exact fractionLiteral_fault (error_of_map failed)
  · rw [number_whole ends] at failed
    exact integerLiteral_fault (error_of_map failed)

lemma dot_fault (failed : dot rest = .error fault) : fault = .malformedNumber := by
  rcases digit_or_none rest with ⟨d, tail, rfl, digit⟩ | ends
  · rw [dot_digit digit] at failed
    exact fractionLiteral_fault (error_of_map failed)
  · rw [dot_period ends] at failed
    cases failed

lemma backQuoted_eq_error_iff : backQuoted c rest = .error fault ↔
    fault = .unterminatedName ∧ c ∉ rest := by
  have outside : rest.dropWhile (· != c) = [] ↔ c ∉ rest := by
    rw [List.dropWhile_eq_nil_iff]
    constructor
    · intro all mem
      simpa using all c mem
    · intro absent d mem
      simpa using fun eq : d = c => absent (eq ▸ mem)
  rw [← outside]
  simp only [backQuoted]
  cases rest.dropWhile (· != c) with
  | nil => simp [eq_comm]
  | cons close after => simp

/-- Of the faults of one character only an open quoted name is none of scanning, or of a value. -/
lemma next_fault (failed : next c rest = .error fault) :
    (fault = .unterminatedName ∧ c = backQuote ∧ backQuote ∉ rest) ∨ fault.category = .scan ∨
      fault.category = .value := by
  simp only [next] at failed
  split at failed
  · -- a string
    simp only [quotedString] at failed
    split at failed
    · cases failed
    · cases failed
      exact .inr (.inl rfl)
  split at failed
  next back =>
    obtain ⟨rfl, absent⟩ := backQuoted_eq_error_iff.mp failed
    obtain rfl : c = backQuote := by simpa using back
    exact .inl ⟨rfl, rfl, absent⟩
  split at failed
  · rw [dot_fault failed]
    exact .inr (.inr rfl)
  split at failed
  · cases failed
  · split at failed
    · split at failed <;> cases failed
    · cases failed
  split at failed
  · rw [number_fault failed]
    exact .inr (.inr rfl)
  split at failed
  · cases failed
  · cases failed
    exact .inr (.inl rfl)

lemma next_backQuote (absent : backQuote ∉ rest) :
    next backQuote rest = .error .unterminatedName := by
  have quote : isQuote backQuote = false := by decide
  simp only [next, quote, Bool.false_eq_true, if_false, beq_self_eq_true, if_true]
  exact backQuoted_eq_error_iff.mpr ⟨rfl, absent⟩

/-! ### Scans -/

variable {code : String} {intercept : Bool}

/-- Beyond its characters, a text is refused only if it is empty or has several tildes. -/
lemma scan_fault (failed : scan code intercept = .error fault) :
    tokens code.toList = .error fault ∨ fault.category = .scan := by
  by_cases present : code = ""
  · subst present
    cases failed
    exact .inr rfl
  rw [scan_eq_complete present] at failed
  cases read : tokens code.toList with
  | error found =>
    rw [read] at failed
    exact .inl failed
  | ok ts =>
    rw [read] at failed
    by_cases several : 1 < ts.countP isTilde
    · simp only [bind, Except.bind, complete, several, if_true] at failed
      cases failed
      exact .inr rfl
    · simp only [bind, Except.bind, complete, several, if_false] at failed
      cases failed

lemma scan_category (failed : scan code intercept = .error fault) :
    fault.category ∈ [.scan, .value, .index] := by
  rcases scan_fault failed with read | scan
  · obtain ⟨c, rest, _, _, stuck⟩ := tokens_eq_error_iff.mp read
    rcases next_fault stuck with ⟨rfl, -⟩ | scan | value
    · decide
    · simp [scan]
    · simp [value]
  · simp [scan]

/-- A scan runs out of the text exactly if it comes to a back quote with none behind it. -/
lemma scan_index_iff : (∃ fault, scan code intercept = .error fault ∧ fault.category = .index) ↔
      ∃ rest, Leaves code.toList (backQuote :: rest) ∧ backQuote ∉ rest := by
  constructor
  · rintro ⟨fault, failed, index⟩
    rcases scan_fault failed with read | scan
    · obtain ⟨c, rest, leaves, _, stuck⟩ := tokens_eq_error_iff.mp read
      rcases next_fault stuck with ⟨_, rfl, absent⟩ | other
      · exact ⟨rest, leaves, absent⟩
      · simp [index] at other
    · simp [index] at scan
  · rintro ⟨rest, leaves, absent⟩
    have read : tokens code.toList = .error .unterminatedName :=
      tokens_eq_error_iff.mpr ⟨backQuote, rest, leaves, by decide, next_backQuote absent⟩
    have present : code ≠ "" := by
      rintro rfl
      rw [show "".toList = [] from rfl, tokens] at read
      cases read
    refine ⟨.unterminatedName, ?_, rfl⟩
    rw [scan_eq_complete present, read]
    rfl

end ModelFormula.Token
