import ModelFormula.Proofs.Numbers.ShortestDecimal

/-!
# Numbers and their texts

The text of a number can be read back as the shortest decimal that it shows. So two finite numbers
with one text are equal, and no text of a fraction is that of a natural number.
-/
namespace ModelFormula.Decimal

open List Binary

variable {x : Float} {cs ds : List Char} {c : Char}

/-! ### Numbers of the format -/

/-- A finite number without a sign, as a formula writes it. -/
structure Unsigned (x : Float) : Prop where
  finite : x.isFinite = true
  sign : signBit x = false

lemma Unsigned.isNaN (u : Unsigned x) : x.isNaN = false := by
  have finite : x.toModel.unpack.isFinite := u.finite
  show x.toModel.unpack.isNaN = false
  cases shape : x.toModel.unpack <;> simp_all [Float.Model.UnpackedFloat.isFinite,
    Float.Model.UnpackedFloat.isNaN]

lemma Unsigned.isInf (u : Unsigned x) : x.isInf = false := by
  have finite : x.toModel.unpack.isFinite := u.finite
  show x.toModel.unpack.isInf = false
  cases shape : x.toModel.unpack <;> simp_all [Float.Model.UnpackedFloat.isFinite,
    Float.Model.UnpackedFloat.isInf]

lemma Unsigned.bits (u : Unsigned x) : x.toBits.toNat < 2 ^ 63 := by
  have sign := u.sign
  have bound := x.toBits.toNat_lt
  simp only [signBit, Nat.pow_eq, decide_eq_false_iff_not] at sign
  omega

lemma canonical_ofFloat (nonzero : (x == 0.0) = false) (u : Unsigned x) :
    (ofFloat x).Canonical := by
  have bits := u.bits
  have some : x.toBits.toNat ≠ 0 := by
    intro zero
    have eq : x = 0.0 := by
      apply Float.toBits_inj.mp
      apply UInt64.toNat_inj.mp
      rw [zero]
      decide +kernel
    rw [eq] at nonzero
    exact absurd nonzero (by decide +kernel)
  simp only [ofFloat, Nat.pow_eq]
  split
  · constructor <;> dsimp only <;> omega
  · constructor <;> dsimp only <;> omega

lemma ofFloat_injective (left : Unsigned x) (right : Unsigned y) (same : ofFloat x = ofFloat y) :
    x = y := by
  have xBits := left.bits
  have yBits := right.bits
  apply Float.toBits_inj.mp
  apply UInt64.toNat_inj.mp
  simp only [ofFloat, Nat.pow_eq] at same
  split at same <;> split at same <;> simp only [mk.injEq] at same <;> omega

/-! ### Reading -/

/-- The number that digits around a point stand for. -/
def numeral (cs : List Char) : ℚ :=
  let whole := cs.takeWhile (· != '.')
  let decimals := (cs.dropWhile (· != '.')).drop 1
  (Nat.ofDigitChars 10 (whole ++ decimals) 0 : ℚ) / 10 ^ decimals.length

/-- The number that a text stands for, with or without an exponent. -/
def readText (cs : List Char) : ℚ :=
  let mantissa := numeral (cs.takeWhile (· != 'e'))
  match cs.dropWhile (· != 'e') with
  | _ :: sign :: ds =>
    let exponent := Nat.ofDigitChars 10 ds 0
    if sign = '-' then mantissa / 10 ^ exponent else mantissa * 10 ^ exponent
  | _ => mantissa

lemma numeral_of_whole (noPoint : '.' ∉ cs) : numeral cs = Nat.ofDigitChars 10 cs 0 := by
  have all : ∀ c ∈ cs, (c != '.') := by
    intro c mem
    simpa using fun eq : c = '.' => noPoint (eq ▸ mem)
  simp [numeral, takeWhile_eq_self_iff.mpr all, dropWhile_eq_nil_iff.mpr all]

lemma numeral_of_point {whole decimals : List Char} (noPoint : '.' ∉ whole) :
    numeral (whole ++ '.' :: decimals) =
      (Nat.ofDigitChars 10 (whole ++ decimals) 0 : ℚ) / 10 ^ decimals.length := by
  have all : ∀ c ∈ whole, (c != '.') := by
    intro c mem
    simpa using fun eq : c = '.' => noPoint (eq ▸ mem)
  simp [numeral, takeWhile_append_of_pos all, dropWhile_append_of_pos all]

lemma ofDigitChars_zeros (k n : Nat) :
    Nat.ofDigitChars 10 (List.replicate k '0') n = n * 10 ^ k := by
  induction k generalizing n with
  | zero => simp
  | succ k ih =>
    rw [replicate_succ, Nat.ofDigitChars_cons, ih]
    simp [pow_succ]
    ring

/-- Digits are no signs. -/
lemma not_mem_of_digits (digits : ∀ c ∈ cs, c.isDigit) (other : c.isDigit = false) : c ∉ cs := by
  intro mem
  rw [digits c mem] at other
  cases other

/-- The value of the digits with the point behind the first `e + 1` of them. -/
lemma numeral_positional (digits : ∀ c ∈ ds, c.isDigit) (e : Int) :
    numeral (positional ds e) = Nat.ofDigitChars 10 ds 0 * 10 ^ (e + 1 - ds.length) := by
  have noPoint : '.' ∉ ds := not_mem_of_digits digits (by decide)
  unfold positional
  split
  next e =>
    split
    next short =>
      rw [numeral_of_whole (by simp [noPoint]), Nat.ofDigitChars_append, ofDigitChars_zeros]
      push_cast
      rw [← zpow_natCast, Nat.cast_sub short]
      push_cast
      rfl
    next long =>
      have front : '.' ∉ ds.take (e + 1) := fun mem => noPoint (mem_of_mem_take mem)
      rw [numeral_of_point front, take_append_drop, length_drop, div_eq_mul_inv,
        ← zpow_natCast, ← zpow_neg]
      congr 2
      rw [Int.ofNat_eq_natCast, Nat.cast_sub (by omega)]
      push_cast
      ring
  next e =>
    have split := @numeral_of_point ['0'] (List.replicate e '0' ++ ds) (by decide)
    have zeros : Nat.ofDigitChars 10 ('0' :: (List.replicate e '0' ++ ds)) 0 =
        Nat.ofDigitChars 10 ds 0 := by
      rw [Nat.ofDigitChars_cons, Nat.ofDigitChars_append, ofDigitChars_zeros]
      simp
    rw [singleton_append, singleton_append, zeros] at split
    rw [split, length_append, length_replicate, div_eq_mul_inv, ← zpow_natCast,
      ← zpow_neg, Int.negSucc_eq]
    congr 2
    push_cast
    ring

/-- A whole number is shown with one decimal. -/
lemma numeral_point_zero (noPoint : '.' ∉ cs) : numeral (cs ++ ['.', '0']) = numeral cs := by
  rw [numeral_of_point noPoint, numeral_of_whole noPoint, Nat.ofDigitChars_append]
  simp [Nat.ofDigitChars_cons]

lemma mem_positional (digits : ∀ c ∈ ds, c.isDigit) (mem : c ∈ positional ds e) :
    c.isDigit ∨ c = '.' := by
  unfold positional at mem
  split at mem
  · split at mem
    · rcases mem_append.mp mem with inside | zero
      · exact .inl (digits c inside)
      · rw [(mem_replicate.mp zero).2]
        exact .inl (by decide)
    · rcases mem_append.mp mem with inside | behind
      · exact .inl (digits c (mem_of_mem_take inside))
      · rcases mem_cons.mp behind with rfl | inside
        · exact .inr rfl
        · exact .inl (digits c (mem_of_mem_drop inside))
  · simp only [mem_cons, mem_append] at mem
    rcases mem with rfl | rfl | zero | inside
    · exact .inl (by decide)
    · exact .inr rfl
    · rw [(mem_replicate.mp zero).2]
      exact .inl (by decide)
    · exact .inl (digits c inside)

lemma readText_of_plain (plain : 'e' ∉ cs) : readText cs = numeral cs := by
  have all : ∀ c ∈ cs, (c != 'e') := by
    intro c mem
    simpa using fun eq : c = 'e' => plain (eq ▸ mem)
  simp [readText, takeWhile_eq_self_iff.mpr all, dropWhile_eq_nil_iff.mpr all]

/-- The digits of an exponent, after zeros that fill it up. -/
lemma ofDigitChars_padLeft (width n : Nat) :
    Nat.ofDigitChars 10 (padLeft width '0' (Nat.toDigits 10 n)) 0 = n := by
  rw [padLeft, Nat.ofDigitChars_append, ofDigitChars_zeros, Nat.zero_mul]
  exact Nat.ofDigitChars_toDigits (by decide) (by decide)

lemma exponentForm_eq (some : ds ≠ []) (e : Int) :
    exponentForm ds e = positional ds 0 ++ 'e' :: exponentText e := by
  match ds with
  | [d] => simp [exponentForm, positional]
  | d :: d' :: rest => simp [exponentForm, positional]

/-- Digits, none of which is missing, before an exponent. -/
lemma readText_exponentForm (digits : ∀ c ∈ ds, c.isDigit) (some : ds ≠ []) (e : Int) :
    readText (exponentForm ds e) = Nat.ofDigitChars 10 ds 0 * 10 ^ (e + 1 - ds.length) := by
  have all : ∀ c ∈ positional ds 0, (c != 'e') := by
    intro c mem
    rcases mem_positional digits mem with digit | rfl
    · have other : c ≠ 'e' := by
        rintro rfl
        cases digit
      simpa using other
    · decide
  rw [exponentForm_eq some, readText, takeWhile_append_of_pos all, dropWhile_append_of_pos all]
  simp only [bne_self_eq_false, Bool.false_eq_true, not_false_eq_true, takeWhile_cons_of_neg,
    append_nil, dropWhile_cons_of_neg, exponentText, numeral_positional digits]
  have power (n : ℤ) : ((10 : ℚ) ^ (0 + 1 - ds.length : ℤ)) * 10 ^ n = 10 ^ (n + 1 - ds.length) := by
    rw [← zpow_add₀ (by norm_num)]
    congr 1
    ring
  by_cases negative : e < 0
  · have abs : -(e.natAbs : ℤ) = e := by omega
    simp only [if_pos negative, if_true, ofDigitChars_padLeft]
    rw [div_eq_mul_inv, ← zpow_natCast, ← zpow_neg, mul_assoc, power, abs]
  · have abs : (e.natAbs : ℤ) = e := by omega
    have plus : '+' ≠ '-' := by decide
    simp only [if_neg negative, if_neg plus, ofDigitChars_padLeft]
    rw [← zpow_natCast, mul_assoc, power, abs]

/-! ### The text of a number -/

lemma shortText_eq (u : Unsigned x) : shortText x =
    if x == 0.0 then "0.0" else
    let s := shortest (ofFloat x)
    let digits := Nat.toDigits 10 s.digits
    let e := s.exponent + digits.length - 1
    if -4 ≤ e ∧ e < 16 then
      let text := positional digits e
      String.ofList (if text.contains '.' then text else text ++ ['.', '0'])
    else String.ofList (exponentForm digits e) := by
  rw [shortText, signed, u.isNaN, u.isInf, u.sign]
  rfl

/-- The text shows the shortest decimal. -/
lemma readText_shortText (u : Unsigned x) (nonzero : (x == 0.0) = false) :
    readText (shortText x).toList = (shortest (ofFloat x)).value := by
  rw [shortText_eq u, nonzero]
  simp only [Bool.false_eq_true, if_false]
  generalize shortest (ofFloat x) = s
  have digits : ∀ c ∈ Nat.toDigits 10 s.digits, c.isDigit :=
    fun c => Nat.isDigit_of_mem_toDigits (by decide) (by decide)
  have value : (Nat.ofDigitChars 10 (Nat.toDigits 10 s.digits) 0 : ℚ) = s.digits := by
    rw [Nat.ofDigitChars_toDigits (by decide) (by decide)]
  have exponent (n : ℕ) : s.exponent + n - 1 + 1 - n = s.exponent := by ring
  split
  · have noE : ∀ text : List Char, (∀ c ∈ text, c.isDigit ∨ c = '.') → 'e' ∉ text := by
      intro text plain mem
      rcases plain 'e' mem with digit | point
      · cases digit
      · cases point
    have plain : ∀ c ∈ positional (Nat.toDigits 10 s.digits)
        (s.exponent + (Nat.toDigits 10 s.digits).length - 1), c.isDigit ∨ c = '.' :=
      fun c => mem_positional digits
    rw [String.toList_ofList, Scientific.value]
    split
    · rw [readText_of_plain (noE _ plain), numeral_positional digits, value, exponent]
    next noPoint =>
      have noPoint : '.' ∉ positional (Nat.toDigits 10 s.digits)
          (s.exponent + (Nat.toDigits 10 s.digits).length - 1) := by simpa using noPoint
      rw [readText_of_plain, numeral_point_zero noPoint, numeral_positional digits, value, exponent]
      apply noE
      intro c mem
      rcases mem_append.mp mem with inside | last
      · exact plain c inside
      · simp only [mem_cons, not_mem_nil, or_false] at last
        rcases last with rfl | rfl
        · exact .inr rfl
        · exact .inl (by decide)
  · rw [String.toList_ofList, readText_exponentForm digits Nat.toDigits_ne_nil, value, exponent,
      Scientific.value]

lemma Unsigned.beq_self (u : Unsigned x) : x == x := by
  have number := u.isNaN
  rw [Float.isNaN_eq_decide_eq_nan, decide_eq_false_iff_not] at number
  exact Float.beq_self_iff.mpr number

/-- Only the text of zero shows a zero. -/
lemma readText_eq_zero_iff (u : Unsigned x) : readText (shortText x).toList = 0 ↔ (x == 0.0) := by
  cases zero : x == 0.0 with
  | true =>
    have text : readText ['0', '.', '0'] = 0 := by
      rw [readText_of_plain (by decide)]
      have split := @numeral_of_point ['0'] ['0'] (by decide)
      exact split.trans (by norm_num [Nat.ofDigitChars_cons])
    simp [shortText_eq u, zero, text]
  | false =>
    have canonical := canonical_ofFloat zero u
    rw [readText_shortText u zero]
    simp only [Bool.false_eq_true, iff_false]
    -- the interval of a positive number lies above zero
    intro none
    have low := (shortest_rounds canonical).low canonical
    have one : (1 : ℚ) ≤ (ofFloat x).mantissa := by exact_mod_cast canonical.positive
    have unit : (0 : ℚ) < 2 ^ (ofFloat x).exponent / 4 := by positivity
    rw [none] at low
    split at low <;> nlinarith

/-- Two finite numbers with one text are equal. -/
lemma shortText_injective (left : Unsigned x) (right : Unsigned y)
    (same : shortText x = shortText y) : x == y := by
  have zeros : (x == 0.0) = (y == 0.0) := by
    rw [Bool.eq_iff_iff, ← readText_eq_zero_iff left, ← readText_eq_zero_iff right, same]
  cases xZero : x == 0.0 with
  | true =>
    rw [xZero] at zeros
    exact PartialEquivBEq.trans xZero (PartialEquivBEq.symm zeros.symm)
  | false =>
    -- both texts show a quotient that rounds to either number
    rw [xZero] at zeros
    have texts := congrArg (fun s => readText s.toList) same
    simp only [readText_shortText left xZero, readText_shortText right zeros.symm] at texts
    have xCanonical := canonical_ofFloat xZero left
    have yCanonical := canonical_ofFloat zeros.symm right
    have rounds := shortest_rounds xCanonical
    rw [texts] at rounds
    have eq := rounds.unique xCanonical yCanonical (shortest_rounds yCanonical)
    rw [ofFloat_injective left right eq]
    exact right.beq_self

/-- The text of a fraction shows that it is one. -/
lemma shortText_not_digits (u : Unsigned x) : ¬ ∀ c ∈ (shortText x).toList, c.isDigit := by
  intro digits
  have pointless : '.' ∉ (shortText x).toList := not_mem_of_digits digits (by decide)
  have plain : 'e' ∉ (shortText x).toList := not_mem_of_digits digits (by decide)
  rw [shortText_eq u] at pointless plain
  split at pointless
  · exact pointless (by decide)
  next nonzero =>
    rw [if_neg nonzero] at plain
    dsimp only at pointless plain
    split at pointless
    · split at pointless
      next point => exact pointless (by simpa using point)
      next => exact pointless (by simp)
    next large =>
      rw [if_neg large] at plain
      apply plain
      rw [String.toList_ofList, exponentForm_eq Nat.toDigits_ne_nil]
      exact mem_append_right _ mem_cons_self

/-! ### The characters of a number -/

/-- A digit leads, and besides digits there are a point and an exponent with its sign. -/
structure NumberText (cs : List Char) : Prop where
  first : ∃ c rest, cs = c :: rest ∧ c.isDigit = true
  chars : ∀ c ∈ cs, c.isDigit = true ∨ c ∈ ['.', 'e', '+', '-']

lemma numberText_digits (some : ds ≠ []) (digits : ∀ c ∈ ds, c.isDigit) : NumberText ds := by
  obtain ⟨d, rest, rfl⟩ := exists_cons_of_ne_nil some
  exact ⟨⟨d, rest, rfl, digits d mem_cons_self⟩, fun c mem => .inl (digits c mem)⟩

lemma NumberText.append {more : List Char} (number : NumberText cs)
    (chars : ∀ c ∈ more, c.isDigit ∨ c ∈ ['.', 'e', '+', '-']) :
    NumberText (cs ++ more) := by
  obtain ⟨c, rest, rfl, digit⟩ := number.first
  refine ⟨⟨c, rest ++ more, rfl, digit⟩, fun d mem => ?_⟩
  rcases mem_append.mp mem with inside | later
  · exact number.chars d inside
  · exact chars d later

lemma numberText_positional (some : ds ≠ []) (digits : ∀ c ∈ ds, c.isDigit) (e : Int) :
    NumberText (positional ds e) := by
  constructor
  · obtain ⟨d, rest, rfl⟩ := exists_cons_of_ne_nil some
    have digit := digits d mem_cons_self
    unfold positional
    split
    · split
      · exact ⟨d, _, rfl, digit⟩
      · exact ⟨d, _, rfl, digit⟩
    · exact ⟨'0', _, rfl, by decide⟩
  · intro c mem
    rcases mem_positional digits mem with digit | rfl
    · exact .inl digit
    · exact .inr (by decide)

lemma mem_exponentText (mem : c ∈ exponentText e) : c.isDigit ∨ c ∈ ['.', 'e', '+', '-'] := by
  rw [exponentText, mem_cons] at mem
  rcases mem with rfl | mem
  · right
    split <;> decide
  · left
    rcases mem_append.mp mem with fill | digit
    · rw [eq_of_mem_replicate fill]
      decide
    · exact Nat.isDigit_of_mem_toDigits (by decide) (by decide) digit

lemma numberText_shortText (u : Unsigned x) : NumberText (shortText x).toList := by
  rw [shortText_eq u]
  split
  · exact ⟨⟨'0', ['.', '0'], by decide, by decide⟩, by simp⟩
  · generalize shortest (ofFloat x) = s
    have digits : ∀ c ∈ Nat.toDigits 10 s.digits, c.isDigit :=
      fun c => Nat.isDigit_of_mem_toDigits (by decide) (by decide)
    dsimp only
    split
    · rw [String.toList_ofList]
      have number := numberText_positional Nat.toDigits_ne_nil digits
      split
      · exact number _
      · exact (number _).append (by simp)
    · rw [String.toList_ofList, exponentForm_eq Nat.toDigits_ne_nil]
      apply (numberText_positional Nat.toDigits_ne_nil digits 0).append
      intro c mem
      rcases mem_cons.mp mem with rfl | mem
      · exact .inr (by decide)
      · exact mem_exponentText mem

end ModelFormula.Decimal
