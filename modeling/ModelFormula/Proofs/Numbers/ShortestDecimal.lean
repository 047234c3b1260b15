import Mathlib
import ModelFormula.Decimal.Shortest

/-!
# Shortest decimals tell numbers apart

The shortest decimal of a number lies in the interval of quotients that round to it. Seventeen digits
are always enough to find one, and no quotient lies in the intervals of two numbers of the format.
-/
namespace ModelFormula.Decimal

open List

variable {b : Binary} {q : ℚ}

/-! ### Values -/

/-- The number as a fraction. -/
def Binary.value (b : Binary) : ℚ := b.mantissa * 2 ^ b.exponent

def Scientific.value (s : Scientific) : ℚ := s.digits * 10 ^ s.exponent

lemma Binary.quotient_pos (b : Binary) : 0 < b.quotient.2 := by
  unfold quotient
  split
  · exact Nat.one_pos
  · exact Nat.two_pow_pos _

lemma Binary.quotient_num_pos (pos : 0 < b.mantissa) : 0 < b.quotient.1 := by
  unfold quotient
  split
  · exact Nat.mul_pos pos (Nat.two_pow_pos _)
  · exact pos

lemma Binary.quotient_value (b : Binary) : (b.quotient.1 : ℚ) / b.quotient.2 = b.value := by
  unfold quotient value
  split
  next e eq => simp [eq]
  next e eq => simp [eq, zpow_negSucc, div_eq_mul_inv]

lemma inUnits_pos (pos : 0 < den) (num : Nat) (e : Int) : 0 < (inUnits num den e).2 := by
  unfold inUnits
  split
  · exact Nat.mul_pos pos (Nat.pow_pos (by decide))
  · exact pos

lemma inUnits_value (num den : Nat) (e : Int) :
    ((inUnits num den e).1 : ℚ) / (inUnits num den e).2 = num / den / 10 ^ e := by
  unfold inUnits
  split
  next e => simp [div_div]
  next e =>
    rw [zpow_negSucc]
    simp only [Nat.pow_eq, Nat.cast_mul, Nat.cast_pow, Nat.cast_ofNat]
    field_simp

/-- The denominator does not depend on the numerator. -/
lemma inUnits_den (num num' den : Nat) (e : Int) :
    (inUnits num den e).2 = (inUnits num' den e).2 := by
  unfold inUnits
  cases e <;> rfl

/-! ### The interval of a number -/

/-- The numbers of the format: the mantissa has 53 bits, all of which are used unless the exponent is
the least one. -/
structure Binary.Canonical (b : Binary) : Prop where
  positive : 0 < b.mantissa
  small : b.mantissa < 2 ^ 53
  least : -1074 ≤ b.exponent
  full : 2 ^ 52 ≤ b.mantissa ∨ b.exponent = -1074

/-- The quotients that round to a number; the ends belong to the interval if the mantissa is even. -/
def Rounds (b : Binary) (q : ℚ) : Prop :=
  let u : ℚ := 2 ^ b.exponent / 4
  let low : ℚ := ((roundingInterval b).1 : ℚ) * u
  let high : ℚ := ((roundingInterval b).2 : ℚ) * u
  if b.mantissa % 2 = 0 then low ≤ q ∧ q ≤ high else low < q ∧ q < high

lemma roundingInterval_low (canonical : b.Canonical) : ((roundingInterval b).1 : ℚ) =
      4 * b.mantissa - if b.mantissa = 2 ^ 52 ∧ b.exponent ≠ -1074 then 1 else 2 := by
  have pos := canonical.positive
  simp only [roundingInterval, Nat.pow_eq]
  split
  · rw [Nat.cast_sub (by omega)]
    push_cast
    ring
  · rw [Nat.cast_sub (by omega)]
    push_cast
    ring

lemma roundingInterval_high (b : Binary) : ((roundingInterval b).2 : ℚ) = 4 * b.mantissa + 2 := by
  simp [roundingInterval]

lemma Rounds.low (canonical : b.Canonical) (rounds : Rounds b q) :
    (4 * b.mantissa - if b.mantissa = 2 ^ 52 ∧ b.exponent ≠ -1074 then 1 else 2) *
      (2 ^ b.exponent / 4) ≤ q := by
  rw [Rounds, roundingInterval_low canonical] at rounds
  split at rounds
  · exact rounds.1
  · exact rounds.1.le

lemma Rounds.high (rounds : Rounds b q) : q ≤ (4 * b.mantissa + 2) * (2 ^ b.exponent / 4) := by
  rw [Rounds, roundingInterval_high] at rounds
  split at rounds
  · exact rounds.2
  · exact rounds.2.le

/-- An odd number does not have the ends of its interval. -/
lemma Rounds.lt_high (odd : b.mantissa % 2 = 1) (rounds : Rounds b q) :
    q < (4 * b.mantissa + 2) * (2 ^ b.exponent / 4) := by
  rw [Rounds, roundingInterval_high, if_neg (by omega)] at rounds
  exact rounds.2

lemma Rounds.gt_low (canonical : b.Canonical) (odd : b.mantissa % 2 = 1) (rounds : Rounds b q) :
    (4 * b.mantissa - if b.mantissa = 2 ^ 52 ∧ b.exponent ≠ -1074 then 1 else 2) *
      (2 ^ b.exponent / 4) < q := by
  rw [Rounds, roundingInterval_low canonical, if_neg (by omega)] at rounds
  exact rounds.1

/-- No quotient rounds to a number and to one with a larger exponent. -/
lemma Rounds.not_exponent_lt (left : b.Canonical) (right : c.Canonical) (first : Rounds b q)
    (second : Rounds c q) : ¬ b.exponent < c.exponent := by
  intro less
  have unit : (0 : ℚ) < 2 ^ b.exponent / 4 := by positivity
  have wider : 2 * ((2 : ℚ) ^ b.exponent / 4) ≤ 2 ^ c.exponent / 4 := by
    have power : (2 : ℚ) ^ (b.exponent + 1) ≤ 2 ^ c.exponent :=
      zpow_le_zpow_right₀ (by norm_num) (by omega)
    rw [zpow_add_one₀ (by norm_num)] at power
    linarith
  -- the larger number uses all bits, and only the first of such mantissas has a narrow lower half
  have full : 2 ^ 52 ≤ c.mantissa := right.full.resolve_right (by have := left.least; omega)
  have above : (2 ^ 54 - 1 : ℚ) ≤
      4 * c.mantissa - if c.mantissa = 2 ^ 52 ∧ c.exponent ≠ -1074 then 1 else 2 := by
    split
    next least =>
      rw [least.1]
      norm_num
    next more =>
      have next : 2 ^ 52 + 1 ≤ c.mantissa := by
        have lower : c.exponent ≠ -1074 := by have := left.least; omega
        have other : c.mantissa ≠ 2 ^ 52 := fun eq => more ⟨eq, lower⟩
        omega
      have cast : ((2 ^ 52 + 1 : ℕ) : ℚ) ≤ c.mantissa := by exact_mod_cast next
      push_cast at cast
      linarith
  have reached : (2 ^ 55 - 2) * ((2 : ℚ) ^ b.exponent / 4) ≤ q := by
    calc (2 ^ 55 - 2) * ((2 : ℚ) ^ b.exponent / 4)
        = (2 ^ 54 - 1) * (2 * ((2 : ℚ) ^ b.exponent / 4)) := by ring
      _ ≤ (2 ^ 54 - 1) * (2 ^ c.exponent / 4) := by
        exact mul_le_mul_of_nonneg_left wider (by norm_num)
      _ ≤ _ := mul_le_mul_of_nonneg_right above (by positivity)
      _ ≤ q := second.low right
  rcases Nat.lt_or_ge b.mantissa (2 ^ 53 - 1) with lower | last
  · have cast : (b.mantissa : ℚ) ≤ (2 ^ 53 - 2 : ℕ) := by exact_mod_cast Nat.le_sub_one_of_lt lower
    push_cast at cast
    have bound : (4 * b.mantissa + 2) * ((2 : ℚ) ^ b.exponent / 4) <
        (2 ^ 55 - 2) * (2 ^ b.exponent / 4) :=
      mul_lt_mul_of_pos_right (by linarith) unit
    linarith [first.high]
  · have eq : b.mantissa = 2 ^ 53 - 1 := by have := left.small; omega
    have strict := first.lt_high (by rw [eq]; decide)
    rw [eq] at strict
    push_cast at strict
    norm_num at strict reached
    linarith

lemma Rounds.not_mantissa_lt (right : c.Canonical) (first : Rounds b q) (second : Rounds c q)
    (same : b.exponent = c.exponent) : ¬ b.mantissa < c.mantissa := by
  intro less
  have unit : (0 : ℚ) < 2 ^ b.exponent / 4 := by positivity
  have next : (b.mantissa : ℚ) + 1 ≤ c.mantissa := by exact_mod_cast less
  have below : (4 * b.mantissa + 2 : ℚ) ≤
      4 * c.mantissa - if c.mantissa = 2 ^ 52 ∧ c.exponent ≠ -1074 then 1 else 2 := by
    split <;> linarith
  have meet := mul_le_mul_of_nonneg_right below unit.le
  have low := second.low right
  have high := first.high
  rw [same] at meet high
  -- the intervals of neighbours meet in one end, which only the even one of them has
  rcases Nat.mod_two_eq_zero_or_one b.mantissa with even | odd
  · rcases Nat.mod_two_eq_zero_or_one c.mantissa with even' | odd'
    · have two : (b.mantissa : ℚ) + 2 ≤ c.mantissa := by
        have : b.mantissa + 2 ≤ c.mantissa := by omega
        exact_mod_cast this
      have apart : (4 * b.mantissa + 2 : ℚ) <
          4 * c.mantissa - if c.mantissa = 2 ^ 52 ∧ c.exponent ≠ -1074 then 1 else 2 := by
        split <;> linarith
      have strict := mul_lt_mul_of_pos_right apart unit
      rw [same] at strict
      linarith
    · have strict := second.gt_low right odd'
      linarith
  · have strict := first.lt_high odd
    rw [same] at strict
    linarith

/-- The intervals of two numbers have nothing in common. -/
lemma Rounds.unique (left : b.Canonical) (right : c.Canonical) (first : Rounds b q)
    (second : Rounds c q) : b = c := by
  have exponents : b.exponent = c.exponent := by
    have := first.not_exponent_lt left right second
    have := second.not_exponent_lt right left first
    omega
  have mantissas : b.mantissa = c.mantissa := by
    have := first.not_mantissa_lt right second exponents
    have := second.not_mantissa_lt left first exponents.symm
    omega
  cases b
  cases c
  simp_all

/-! ### Grids of decimals -/

/-- A number of quarters of the last place, in units of a power of ten, over `unitsDen`. -/
def unitsOf (b : Binary) (e : Int) (n : Nat) : Nat :=
  let scale := ({ b with mantissa := 1 } : Binary).quotient
  (inUnits (n * scale.1) (4 * scale.2) e).1

def unitsDen (b : Binary) (e : Int) : Nat :=
  let scale := ({ b with mantissa := 1 } : Binary).quotient
  (inUnits ((roundingInterval b).1 * scale.1) (4 * scale.2) e).2

lemma unitsDen_pos (b : Binary) (e : Int) : 0 < unitsDen b e :=
  inUnits_pos (Nat.mul_pos (by decide) (Binary.quotient_pos _)) _ e

lemma unitsOf_eq (b : Binary) (e : Int) (n : Nat) :
    (unitsOf b e n : ℚ) * 10 ^ e = n * (2 ^ b.exponent / 4) * unitsDen b e := by
  have denPos : (0 : ℚ) < unitsDen b e := by exact_mod_cast unitsDen_pos b e
  have tenPos : (0 : ℚ) < 10 ^ e := by positivity
  have value := Binary.quotient_value { b with mantissa := 1 }
  simp only [Binary.value, Nat.cast_one, one_mul] at value
  rw [← div_eq_div_iff denPos.ne' tenPos.ne', unitsDen, unitsOf, inUnits_den _ (n * _),
    inUnits_value, ← value]
  push_cast
  field_simp

/-- Whether a point of the grid qualifies. -/
def onGrid (b : Binary) (e : Int) (d : Nat) : Bool :=
  if b.mantissa % 2 = 0 then
    unitsOf b e (roundingInterval b).1 ≤ d * unitsDen b e &&
      d * unitsDen b e ≤ unitsOf b e (roundingInterval b).2
  else
    unitsOf b e (roundingInterval b).1 < d * unitsDen b e &&
      d * unitsDen b e < unitsOf b e (roundingInterval b).2

lemma onGrid_iff (b : Binary) (e : Int) (d : Nat) : onGrid b e d ↔ Rounds b (d * 10 ^ e) := by
  have denPos : (0 : ℚ) < unitsDen b e := by exact_mod_cast unitsDen_pos b e
  have tenPos : (0 : ℚ) < 10 ^ e := by positivity
  -- multiplied by the unit on one side and by the denominator on the other
  have le (n : Nat) : unitsOf b e n ≤ d * unitsDen b e ↔
      (n : ℚ) * (2 ^ b.exponent / 4) ≤ d * 10 ^ e := by
    rw [← mul_le_mul_iff_left₀ denPos, ← unitsOf_eq, ← Nat.cast_le (α := ℚ),
      ← mul_le_mul_iff_left₀ tenPos]
    push_cast
    ring_nf
  have ge (n : Nat) : d * unitsDen b e ≤ unitsOf b e n ↔
      (d : ℚ) * 10 ^ e ≤ n * (2 ^ b.exponent / 4) := by
    rw [← mul_le_mul_iff_left₀ denPos, ← unitsOf_eq, ← Nat.cast_le (α := ℚ),
      ← mul_le_mul_iff_left₀ tenPos]
    push_cast
    ring_nf
  rw [onGrid, Rounds]
  split
  · simp only [Bool.and_eq_true, decide_eq_true_eq, le, ge]
  · simp only [Bool.and_eq_true, decide_eq_true_eq, ← not_le, le, ge]

lemma gridPoint?_eq (b : Binary) (k : Int) (count : Nat) : gridPoint? b k count =
      let e := k + 1 - count
      let floor := unitsOf b e (4 * b.mantissa) / unitsDen b e
      let rest := unitsOf b e (4 * b.mantissa) % unitsDen b e
      let down := onGrid b e floor && floor != 0
      let up := onGrid b e (floor + 1)
      if down && up then
        if 2 * rest < unitsDen b e then some ⟨floor, e⟩
        else if unitsDen b e < 2 * rest then some ⟨floor + 1, e⟩
        else some ⟨if floor % 2 = 0 then floor else floor + 1, e⟩
      else if down then some ⟨floor, e⟩
      else if up then some ⟨floor + 1, e⟩
      else none := rfl

/-- A point that is found rounds to the number. -/
lemma gridPoint?_rounds {k : Int} {count : Nat} {s : Scientific}
    (found : gridPoint? b k count = some s) : Rounds b s.value := by
  rw [gridPoint?_eq] at found
  dsimp only at found
  -- whichever of the two points is taken has passed the test
  split at found
  next both =>
    simp only [Bool.and_eq_true] at both
    obtain ⟨⟨down, _⟩, up⟩ := both
    split at found
    · cases found
      exact (onGrid_iff _ _ _).mp down
    · split at found
      · cases found
        exact (onGrid_iff _ _ _).mp up
      · split at found <;> cases found
        · exact (onGrid_iff _ _ _).mp down
        · exact (onGrid_iff _ _ _).mp up
  next =>
    split at found
    next down =>
      cases found
      simp only [Bool.and_eq_true] at down
      exact (onGrid_iff _ _ _).mp down.1
    next =>
      split at found
      next up =>
        cases found
        exact (onGrid_iff _ _ _).mp up
      next => cases found

/-- The leading digit. -/
lemma pow_leadingExponent_le (numPos : 0 < num) (denPos : 0 < den) :
    (10 : ℚ) ^ leadingExponent num den ≤ num / den := by
  have den' : (0 : ℚ) < den := by exact_mod_cast denPos
  have num' : (0 : ℚ) < num := by exact_mod_cast numPos
  unfold leadingExponent
  split
  next large =>
    -- the quotient has as many digits as the power
    have digits := @Nat.length_toDigits_pos 10 (num / den)
    obtain ⟨n, count⟩ : ∃ n, (Nat.toDigits 10 (num / den)).length = n + 1 :=
      ⟨_, (Nat.succ_pred_eq_of_pos digits).symm⟩
    have power : 10 ^ n ≤ num / den := by
      by_contra small
      rcases Nat.eq_zero_or_pos n with rfl | pos
      · have : 1 ≤ num / den := (Nat.one_le_div_iff denPos).mpr large
        simp at small
        omega
      · have short := (Nat.length_toDigits_le_iff (b := 10) (by decide) pos).mpr (not_le.mp small)
        omega
    rw [count]
    push_cast
    rw [add_sub_cancel_right, zpow_natCast, le_div_iff₀ den']
    have := (Nat.le_div_iff_mul_le denPos).mp power
    exact_mod_cast this
  next small =>
    have count : 0 < (Nat.toDigits 10 (den / num)).length := Nat.length_toDigits_pos
    dsimp only
    split
    next exact =>
      obtain ⟨n, digits⟩ : ∃ n, (Nat.toDigits 10 (den / num)).length = n + 1 :=
        ⟨_, (Nat.succ_pred_eq_of_pos count).symm⟩
      rw [digits, Nat.add_sub_cancel, Nat.pow_eq] at exact
      rw [digits, le_div_iff₀ den', ← exact]
      have exponent : (1 : ℤ) - ((n + 1 : ℕ) : ℤ) = -(n : ℤ) := by
        push_cast
        ring
      rw [exponent, zpow_neg, zpow_natCast]
      push_cast
      field_simp
      exact le_rfl
    next =>
      have short := (Nat.length_toDigits_le_iff (b := 10) (n := den / num) (by decide) count).mp
        le_rfl
      rw [Nat.div_lt_iff_lt_mul numPos] at short
      rw [zpow_neg, zpow_natCast, inv_le_comm₀ (by positivity) (by positivity), inv_div,
        div_le_iff₀ num']
      exact_mod_cast short.le

/-- The two points of the grid around the number. -/
lemma floor_bounds (b : Binary) (e : Int) :
    let floor := unitsOf b e (4 * b.mantissa) / unitsDen b e
    (floor : ℚ) * 10 ^ e ≤ b.value ∧ b.value < (floor + 1) * 10 ^ e := by
  intro floor
  have denPos : (0 : ℚ) < unitsDen b e := by exact_mod_cast unitsDen_pos b e
  have tenPos : (0 : ℚ) < 10 ^ e := by positivity
  have units : (unitsOf b e (4 * b.mantissa) : ℚ) * 10 ^ e = b.value * unitsDen b e := by
    rw [unitsOf_eq, Binary.value]
    push_cast
    ring
  have below : floor * unitsDen b e ≤ unitsOf b e (4 * b.mantissa) := Nat.div_mul_le_self _ _
  have above : unitsOf b e (4 * b.mantissa) < (floor + 1) * unitsDen b e :=
    Nat.lt_mul_of_div_lt (Nat.lt_succ_self _) (unitsDen_pos b e)
  have below' : (floor : ℚ) * unitsDen b e ≤ unitsOf b e (4 * b.mantissa) := by exact_mod_cast below
  have above' : (unitsOf b e (4 * b.mantissa) : ℚ) < (floor + 1) * unitsDen b e := by
    exact_mod_cast above
  constructor
  · rw [← mul_le_mul_iff_left₀ denPos, ← units]
    have := mul_le_mul_of_nonneg_right below' tenPos.le
    linarith
  · rw [← mul_lt_mul_iff_left₀ denPos, ← units]
    have := mul_lt_mul_of_pos_right above' tenPos
    linarith

/-- A quotient that does not round to the number lies on the far side of an end of its interval. -/
lemma le_low_of_not_rounds (misses : ¬ Rounds b q) (below : q ≤ b.value) :
    q ≤ ((roundingInterval b).1 : ℚ) * (2 ^ b.exponent / 4) := by
  by_contra! inside
  have unit : (0 : ℚ) < 2 ^ b.exponent / 4 := by positivity
  have high : q < ((roundingInterval b).2 : ℚ) * (2 ^ b.exponent / 4) := by
    rw [roundingInterval_high]
    rw [Binary.value] at below
    linarith
  apply misses
  rw [Rounds]
  split
  · exact ⟨inside.le, high.le⟩
  · exact ⟨inside, high⟩

lemma high_le_of_not_rounds (canonical : b.Canonical) (misses : ¬ Rounds b q)
    (above : b.value ≤ q) : ((roundingInterval b).2 : ℚ) * (2 ^ b.exponent / 4) ≤ q := by
  by_contra! inside
  have unit : (0 : ℚ) < 2 ^ b.exponent / 4 := by positivity
  have low : ((roundingInterval b).1 : ℚ) * (2 ^ b.exponent / 4) < q := by
    rw [roundingInterval_low canonical]
    rw [Binary.value] at above
    split <;> linarith
  apply misses
  rw [Rounds]
  split
  · exact ⟨low.le, inside.le⟩
  · exact ⟨low, inside⟩

/-- Seventeen digits are enough: neighbours on that grid are nearer to each other than the ends of
the interval are. -/
lemma gridPoint?_seventeen (canonical : b.Canonical) (leading : (10 : ℚ) ^ k ≤ b.value) :
    gridPoint? b k 17 ≠ none := by
  intro missed
  have unit : (0 : ℚ) < 2 ^ b.exponent / 4 := by positivity
  rw [gridPoint?_eq] at missed
  dsimp only at missed
  have spacing : (10 : ℚ) ^ 16 * 10 ^ (k + 1 - ((17 : ℕ) : ℤ)) ≤ b.value := by
    rw [← zpow_natCast, ← zpow_add₀ (by norm_num)]
    have exponent : ((16 : ℕ) : ℤ) + (k + 1 - ((17 : ℕ) : ℤ)) = k := by
      push_cast
      ring
    rwa [exponent]
  generalize k + 1 - ((17 : ℕ) : ℤ) = e at missed spacing
  obtain ⟨below, above⟩ := floor_bounds b e
  generalize unitsOf b e (4 * b.mantissa) / unitsDen b e = floor at missed below above
  have tenPos : (0 : ℚ) < 10 ^ e := by positivity
  have nonzero : floor ≠ 0 := by
    rintro rfl
    norm_num at above
    linarith
  -- neither neighbour qualifies, so the interval lies between them
  have outside : onGrid b e floor = false ∧ onGrid b e (floor + 1) = false := by
    split at missed
    · split at missed
      · cases missed
      · split at missed <;> cases missed
    · split at missed
      · cases missed
      · split at missed
        · cases missed
        next notDown notUp => simp_all
  have left : ¬ Rounds b (floor * 10 ^ e) := by
    rw [← onGrid_iff, outside.1]
    exact Bool.false_ne_true
  have right : ¬ Rounds b (((floor + 1 : ℕ) : ℚ) * 10 ^ e) := by
    rw [← onGrid_iff, outside.2]
    exact Bool.false_ne_true
  push_cast at right
  have low := le_low_of_not_rounds left below
  have high := high_le_of_not_rounds canonical right above.le
  rw [roundingInterval_low canonical] at low
  rw [roundingInterval_high] at high
  have small : (b.mantissa : ℚ) < 2 ^ 53 := by exact_mod_cast canonical.small
  have quarters : (10 : ℚ) ^ 16 * 10 ^ e ≤ 4 * b.mantissa * (2 ^ b.exponent / 4) := by
    rw [Binary.value] at spacing
    linarith
  split at low
  next least =>
    rw [least.1] at quarters low high
    have : 3 * ((2 : ℚ) ^ b.exponent / 4) ≤ 10 ^ e := by linarith
    push_cast at quarters
    linarith
  next =>
    have wide : 4 * ((2 : ℚ) ^ b.exponent / 4) ≤ 10 ^ e := by linarith
    have narrow : 4 * b.mantissa * ((2 : ℚ) ^ b.exponent / 4) < 4 * 2 ^ 53 * (2 ^ b.exponent / 4) :=
      mul_lt_mul_of_pos_right (by linarith) unit
    linarith

/-! ### Zeros at the end -/

lemma pow_zeros_dvd (pos : 0 < n) :
    10 ^ ((Nat.toDigits 10 n).reverse.takeWhile (· == '0')).length ∣ n := by
  induction n using Nat.strong_induction_on with
  | _ n ih =>
    rcases Nat.lt_or_ge n 10 with small | large
    · have digit : (n.digitChar == '0') = false := by simpa using pos.ne'
      rw [Nat.toDigits_of_lt_base small]
      simp [digit]
    · rw [Nat.toDigits_of_base_le (by decide) large, reverse_concat, takeWhile_cons]
      by_cases zero : n % 10 = 0
      · have digit : (n % 10).digitChar == '0' := by simpa using zero
        have inner := ih (n / 10) (by omega) (by omega)
        rw [if_pos digit, length_cons, pow_succ]
        obtain ⟨m, quotient⟩ := inner
        refine ⟨m, ?_⟩
        calc n = n / 10 * 10 := (Nat.div_mul_cancel (Nat.dvd_of_mod_eq_zero zero)).symm
          _ = _ := by
            conv_lhs => rw [quotient]
            ring
      · have digit : ((n % 10).digitChar == '0') = false := by simpa using zero
        simp [digit]

lemma Scientific.trim_value (s : Scientific) : s.trim.value = s.value := by
  unfold trim value
  dsimp only
  split
  · rfl
  next nonzero =>
    obtain ⟨m, digits⟩ := pow_zeros_dvd (Nat.pos_of_ne_zero nonzero)
    generalize ((Nat.toDigits 10 s.digits).reverse.takeWhile (· == '0')).length = zeros at digits ⊢
    rw [digits, Nat.pow_eq, Nat.mul_div_cancel_left _ (Nat.pow_pos (by decide)),
      zpow_add₀ (by norm_num), zpow_natCast]
    push_cast
    ring

/-- The shortest decimal of a number rounds to it. -/
lemma shortest_rounds (canonical : b.Canonical) : Rounds b (shortest b).value := by
  have numPos := Binary.quotient_num_pos canonical.positive
  have leading := pow_leadingExponent_le numPos b.quotient_pos
  rw [b.quotient_value] at leading
  have last := gridPoint?_seventeen canonical leading
  unfold shortest
  dsimp only
  cases search : (List.range 17).findSome? fun i =>
      gridPoint? b (leadingExponent b.quotient.1 b.quotient.2) (i + 1) with
  | none =>
    rw [findSome?_eq_none_iff] at search
    exact absurd (search 16 (by decide)) last
  | some s =>
    obtain ⟨i, _, found⟩ := exists_of_findSome?_eq_some search
    rw [Scientific.trim_value]
    exact gridPoint?_rounds found

end ModelFormula.Decimal
