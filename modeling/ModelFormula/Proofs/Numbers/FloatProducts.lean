import ModelFormula.Proofs.Numbers.FloatOrder

/-!
# Products of fractions

The product of two whole numbers is exact as long as it has at most 53 binary digits, and so is any
product with one. Whether a zero is negative makes no difference to a product but in the sign of a
zero.
-/
namespace ModelFormula.Decimal

variable {k m n : Nat} {s : Sign} {e : Int} {x y : Float} {b : Binary}

open Float.Model Float.Model.UnpackedFloat UnpackedFloat Format

/-! ### Rounding nothing away -/

lemma shiftRight_exact (divides : 2 ^ k ∣ m) :
    (⟨m, false, false⟩ : ExtendedMantissa) >>> k = ⟨m / 2 ^ k, false, false⟩ := by
  induction k with
  | zero => simp [HShiftRight.hShiftRight, Nat.repeat]
  | succ k ih =>
    have half : 2 ∣ m / 2 ^ k := by
      rw [pow_succ] at divides
      exact Nat.dvd_div_of_mul_dvd divides
    have step : (⟨m, false, false⟩ : ExtendedMantissa) >>> (k + 1) =
        ((⟨m, false, false⟩ : ExtendedMantissa) >>> k).shiftRightOne := rfl
    rw [step, ih (dvd_trans (pow_dvd_pow 2 (Nat.le_succ k)) divides)]
    simp only [ExtendedMantissa.shiftRightOne, Nat.mod_eq_zero_of_dvd half, Nat.div_div_eq_div_mul,
      pow_succ, bne_self_eq_false, Bool.or_self]

lemma targetExponent_eq (t : Int) : binary64.targetExponent t = max (t - 53) (-1074) := by
  rw [targetExponent]
  rfl

lemma bounds_of_log2 (digits : m.log2 = 52 + k) : 2 ^ 52 ≤ m / 2 ^ k ∧ m / 2 ^ k < 2 ^ 53 := by
  have nonzero : m ≠ 0 := by
    rintro rfl
    rw [Nat.log2_zero] at digits
    omega
  obtain ⟨low, high⟩ := (Nat.log2_eq_iff nonzero).mp digits
  constructor
  · rwa [Nat.le_div_iff_mul_le (by positivity), ← pow_add]
  · rw [Nat.div_lt_iff_lt_mul (by positivity), ← pow_add]
    exact lt_of_lt_of_eq high (by ring)

/-- Zeros at the end of a mantissa of too many digits are dropped, and nothing else. -/
lemma roundWithAccuracy_exact (nonzero : m ≠ 0) (divides : 2 ^ k ∣ m)
    (target : max (((m / 2 ^ k).log2 : Int) + 1 + (e + k) - 53) (-1074) = e + k) : ∃ pos,
      roundWithAccuracy binary64 s m e .exact = .finite s (m / 2 ^ k) (e + k) pos := by
  have least : 2 ^ k ≤ m := Nat.le_of_dvd (Nat.pos_of_ne_zero nonzero) divides
  have pos : m / 2 ^ k ≠ 0 := (Nat.div_pos least (by positivity)).ne'
  have rest : (m / 2 ^ k).log2 + k = m.log2 := by
    rw [Nat.log2_eq_log_two, Nat.log2_eq_log_two, Nat.log_div_base_pow]
    exact Nat.sub_add_cancel (Nat.le_log_of_pow_le (by norm_num) least)
  refine ⟨Nat.pos_of_ne_zero pos, ?_⟩
  have first : shiftToTargetExponent binary64 m e .exact = (⟨m / 2 ^ k, false, false⟩, e + k) := by
    have amount : (max ((m.log2 : Int) + 1 + e - 53) (-1074) - e).toNat = k := by omega
    simp only [shiftToTargetExponent, shiftToExponent, totalExponent, targetExponent_eq, amount,
      ExtendedMantissa.ofMantissaAndAccuracy, shiftRight_exact divides]
  have second : shiftToTargetExponent binary64 (m / 2 ^ k) (e + k) .exact =
      (⟨m / 2 ^ k, false, false⟩, e + k) := by
    simp only [shiftToTargetExponent, shiftToExponent, totalExponent, targetExponent_eq, target,
      sub_self, ExtendedMantissa.ofMantissaAndAccuracy]
    simp [HShiftRight.hShiftRight, Nat.repeat]
  have rounded : (⟨m / 2 ^ k, false, false⟩ : ExtendedMantissa).roundedMantissa = m / 2 ^ k := rfl
  simp only [roundWithAccuracy, first, rounded, second, dif_neg pos]

/-- Packing keeps a full mantissa with an exponent of the format. -/
lemma unpack_pack (pos : 0 < m) (full : 2 ^ 52 ≤ m) (small : m < 2 ^ 53) (low : -1074 ≤ e)
    (high : e ≤ 971) :
    (Float.Model.pack (.finite s m e pos)).unpack = .finite s m e pos := by
  have digits : m.log2 + 1 = binary64.mantissaBits := by
    rw [(Nat.log2_eq_iff pos.ne').mpr ⟨full, small⟩]
    rfl
  have bias : (binary64.exponentBias : Int) = 1023 := by decide
  obtain ⟨biased, eq⟩ : ∃ biased : Nat, e + 1075 = biased := ⟨(e + 1075).toNat, by omega⟩
  have exponent : (e + (binary64.exponentBias : Int) + (52 : Nat)).toNat = biased := by omega
  -- a full mantissa keeps its digits but the first, which the exponent stands for
  have packed : UnpackedFloat.pack binary64 (.finite s m e pos) =
      packComponents binary64 s (BitVec.ofNat _ biased) (BitVec.ofNat _ m) := by
    simp only [UnpackedFloat.pack, exponent, digits, if_true]
    rw [if_neg (by norm_num; omega)]
  show UnpackedFloat.unpack binary64 (UnpackedFloat.pack binary64 _) = _
  rw [packed]
  have notLast : (BitVec.ofNat 11 biased) ≠ -1#11 := by
    rw [← BitVec.toNat_inj.ne]
    simp
    omega
  have notFirst : (BitVec.ofNat 11 biased) ≠ 0#11 := by
    rw [← BitVec.toNat_inj.ne]
    simp
    omega
  simp only [UnpackedFloat.unpack, unpackExponent_packComponents, unpackMantissa_packComponents,
    unpackSign_packComponents, Sign.ofBitVec_toBitVec]
  rw [if_neg notLast, if_neg notFirst]
  congr 1
  · rw [toNat_leading, BitVec.toNat_ofNat]
    omega
  · rw [BitVec.toNat_ofNat, bias]
    push_cast
    omega

/-! ### Products of whole numbers -/

/-- A whole number of at most 53 digits, written with a long mantissa, ends in as many zeros as there
are digits too many. -/
lemma trailing_zeros (long : 2 ^ 104 ≤ m) (pos : 0 < n) (small : n ≤ 2 ^ 53)
    (value : (m : ℚ) * 2 ^ e = n) :
    ∃ k, m.log2 = 52 + k ∧ 2 ^ k ∣ m ∧ -1074 ≤ e + k ∧ e + k ≤ 971 := by
  have nonzero : m ≠ 0 := by
    rintro rfl
    norm_num at long
  -- the exponent is negative, since the mantissa alone is too large
  obtain ⟨d, rfl⟩ : ∃ d : Nat, e = -(d : Int) := by
    refine ⟨(-e).toNat, ?_⟩
    by_contra other
    have natural : e = (e.toNat : Int) := by omega
    rw [natural, zpow_natCast] at value
    have whole : m * 2 ^ e.toNat = n := by exact_mod_cast value
    have larger : m ≤ m * 2 ^ e.toNat := Nat.le_mul_of_pos_right m (by positivity)
    omega
  have whole : m = n * 2 ^ d := by
    rw [zpow_neg, zpow_natCast, ← div_eq_mul_inv, div_eq_iff (by positivity)] at value
    exact_mod_cast value
  obtain ⟨low, high⟩ := (Nat.log2_eq_iff nonzero).mp rfl
  generalize m.log2 = digits at low high
  have least : 104 ≤ digits := by
    by_contra less
    have := Nat.pow_le_pow_right (n := 2) (by norm_num) (show digits + 1 ≤ 104 by omega)
    omega
  have most : digits ≤ 53 + d := by
    refine (Nat.pow_le_pow_iff_right (a := 2) (by norm_num)).mp ?_
    calc 2 ^ digits ≤ m := low
      _ = n * 2 ^ d := whole
      _ ≤ 2 ^ 53 * 2 ^ d := Nat.mul_le_mul_right _ small
      _ = 2 ^ (53 + d) := (pow_add 2 53 d).symm
  have zeros : d ≤ digits := by
    refine Nat.le_of_lt_succ ((Nat.pow_lt_pow_iff_right (a := 2) (by norm_num)).mp ?_)
    calc 2 ^ d ≤ n * 2 ^ d := Nat.le_mul_of_pos_left _ pos
      _ = m := whole.symm
      _ < 2 ^ (digits + 1) := high
  refine ⟨digits - 52, by omega, ?_, by omega, by omega⟩
  rcases Nat.lt_or_eq_of_le most with less | eq
  · rw [whole]
    exact dvd_mul_of_dvd_right (pow_dvd_pow 2 (by omega)) n
  · -- only the largest number has one digit more, and it is a power of two
    have largest : n = 2 ^ 53 := by
      refine le_antisymm small (Nat.le_of_mul_le_mul_right ?_ (show 0 < 2 ^ d by positivity))
      rw [← pow_add, ← eq, ← whole]
      exact low
    rw [whole, largest, ← pow_add]
    exact pow_dvd_pow 2 (by omega)

lemma unpack_mul (x y : Float) : (x * y).toModel.unpack = (Float.Model.pack
    (mul binary64 x.toModel.unpack y.toModel.unpack)).unpack := rfl

lemma value_of_zero (shape : x.toModel.unpack = .zero s) : x.isFinite ∧ exactValue x = 0 := by
  have parts := parts_unpack x
  rw [shape] at parts
  cases parts with
  | zero finite none => exact ⟨finite, exactValue_of_mantissa none⟩

lemma value_of_finite (shape : x.toModel.unpack = .finite s m e pos) :
    x.isFinite ∧ exactValue x = withSign s (m * 2 ^ e) := by
  have parts := parts_unpack x
  rw [shape] at parts
  cases parts with
  | finite finite =>
    refine ⟨finite, ?_⟩
    rw [exactValue, signOf, Binary.value]
    split <;> simp [withSign]

lemma withSign_mul (s t : Sign) (q r : ℚ) :
    withSign (s * t) (q * r) = withSign s q * withSign t r := by
  cases s <;> cases t
  · show q * r = -q * -r
    ring
  · show -(q * r) = -q * r
    ring
  · show -(q * r) = q * -r
    ring
  · rfl

lemma abs_withSign (s : Sign) (q : ℚ) : |withSign s q| = |q| := by
  cases s <;> simp [withSign]

/-- A finite fraction is a zero or has a canonical mantissa and exponent. -/
lemma shape_of_finite (finite : x.isFinite) :
    (∃ s, x.toModel.unpack = .zero s) ∨ ∃ s b, ∃ canonical : Binary.Canonical b,
      x.toModel.unpack = .finite s b.mantissa b.exponent canonical.positive := by
  have status : x.toModel.unpack.isFinite := finite
  have parts := parts_unpack x
  generalize x.toModel.unpack = u at status parts
  cases parts with
  | nan | infinite => cases status
  | zero => exact .inl ⟨_, rfl⟩
  | finite _ pos => exact .inr ⟨_, _, canonical_of_mantissa pos, rfl⟩

/-- A whole number but zero has a full mantissa. -/
lemma Binary.Canonical.full_of_whole (canonical : b.Canonical) (whole : b.value = n) :
    2 ^ 52 ≤ b.mantissa := by
  rcases canonical.full with full | least
  · exact full
  · have pos : (0 : ℚ) < n := whole ▸ value_pos canonical.positive
    have one : (1 : ℚ) ≤ n := by exact_mod_cast pos
    have tiny : b.value < 1 := by
      have small : (b.mantissa : ℚ) < 2 ^ 53 := by exact_mod_cast canonical.small
      rw [Binary.value, least]
      calc (b.mantissa : ℚ) * 2 ^ (-1074 : ℤ) < 2 ^ 53 * 2 ^ (-1074 : ℤ) :=
            mul_lt_mul_of_pos_right small (by positivity)
        _ = 2 ^ ((53 : ℕ) + (-1074) : ℤ) := by rw [zpow_add₀ (by norm_num), zpow_natCast]
        _ < 1 := zpow_lt_one_of_neg₀ (by norm_num) (by norm_num)
    rw [whole] at tiny
    linarith

lemma Binary.Canonical.value_eq_natAbs (canonical : b.Canonical) {n : Int}
    (whole : (n : ℚ) = withSign s (b.mantissa * 2 ^ b.exponent)) : b.value = n.natAbs := by
  have pos := value_pos canonical.positive
  rw [Nat.cast_natAbs, Int.cast_abs, whole, abs_withSign, ← Binary.value, abs_of_pos pos]

lemma unpack_pack_zero (s : Sign) : (Float.Model.pack (.zero s)).unpack = .zero s :=
  unpack_packedZero

/-- The product of two full mantissas is exact if it is a whole number of at most 53 digits. -/
lemma value_mul {t : Sign} {c : Binary} (left : b.Canonical) (right : c.Canonical)
    (shape : x.toModel.unpack = .finite s b.mantissa b.exponent left.positive)
    (shape' : y.toModel.unpack = .finite t c.mantissa c.exponent right.positive)
    (long : 2 ^ 104 ≤ b.mantissa * c.mantissa) (pos : 0 < n) (small : n ≤ 2 ^ 53)
    (product : ((b.mantissa * c.mantissa : Nat) : ℚ) * 2 ^ (b.exponent + c.exponent) = n) :
    (x * y).isFinite ∧ exactValue (x * y) = exactValue x * exactValue y := by
  obtain ⟨k, digits, divides, low, high⟩ := trailing_zeros long pos small product
  obtain ⟨fullRest, smallRest⟩ := bounds_of_log2 digits
  have digits : (b.mantissa * c.mantissa / 2 ^ k).log2 = 52 :=
    (Nat.log2_eq_iff (by omega)).mpr ⟨fullRest, smallRest⟩
  obtain ⟨rest, rounded⟩ := roundWithAccuracy_exact (s := s * t) (e := b.exponent + c.exponent)
    (by omega) divides (by rw [digits]; omega)
  have unpacked : (x * y).toModel.unpack = .finite (s * t) (b.mantissa * c.mantissa / 2 ^ k)
      (b.exponent + c.exponent + k) rest := by
    rw [unpack_mul, shape, shape', UnpackedFloat.mul, rounded,
      unpack_pack rest fullRest smallRest low high]
  obtain ⟨done, eq⟩ := value_of_finite unpacked
  refine ⟨done, ?_⟩
  -- the zeros that the mantissa loses are made up for by the exponent
  have exact : ((b.mantissa * c.mantissa / 2 ^ k : Nat) : ℚ) * 2 ^ (b.exponent + c.exponent + k) =
      b.mantissa * 2 ^ b.exponent * (c.mantissa * 2 ^ c.exponent) := by
    rw [Nat.cast_div divides (by positivity), zpow_add₀ (by norm_num), zpow_add₀ (by norm_num),
      zpow_natCast]
    push_cast
    field_simp
  rw [eq, (value_of_finite shape).2, (value_of_finite shape').2, ← withSign_mul, exact]

/-- The product of whole numbers is exact unless it has more than 53 digits. -/
lemma intEqFloat_mul {m n : Int} (left : Literal.intEqFloat m x)
    (right : Literal.intEqFloat n y) (small : (m * n).natAbs ≤ 2 ^ 53) :
    Literal.intEqFloat (m * n) (x * y) := by
  rw [Literal.intEqFloat_iff] at left right ⊢
  obtain ⟨finite, first⟩ := left
  obtain ⟨finite', second⟩ := right
  have zero {s : Sign} (shape : mul binary64 x.toModel.unpack
      y.toModel.unpack = .zero s) : (x * y).isFinite ∧ exactValue (x * y) = 0 :=
    value_of_zero (by rw [unpack_mul, shape, unpack_pack_zero])
  push_cast
  rw [first, second]
  -- a factor that is zero makes the product zero; otherwise both mantissas are full
  rcases shape_of_finite finite with ⟨s, shape⟩ | ⟨s, b, canonical, shape⟩ <;>
    rcases shape_of_finite finite' with ⟨t, shape'⟩ | ⟨t, c, canonical', shape'⟩
  · obtain ⟨done, product⟩ := zero (s := s * t) (by rw [shape, shape']; rfl)
    exact ⟨done, by rw [product, (value_of_zero shape).2, zero_mul]⟩
  · obtain ⟨done, product⟩ := zero (s := s * t) (by rw [shape, shape']; rfl)
    exact ⟨done, by rw [product, (value_of_zero shape).2, zero_mul]⟩
  · obtain ⟨done, product⟩ := zero (s := s * t) (by rw [shape, shape']; rfl)
    exact ⟨done, by rw [product, (value_of_zero shape').2, mul_zero]⟩
  · obtain ⟨-, value⟩ := value_of_finite shape
    obtain ⟨-, value'⟩ := value_of_finite shape'
    have whole := canonical.value_eq_natAbs (first.trans value)
    have whole' := canonical'.value_eq_natAbs (second.trans value')
    have full := canonical.full_of_whole whole
    have full' := canonical'.full_of_whole whole'
    have product : ((b.mantissa * c.mantissa : Nat) : ℚ) * 2 ^ (b.exponent + c.exponent) =
        (m * n).natAbs := by
      rw [Int.natAbs_mul, Nat.cast_mul, Nat.cast_mul, ← whole, ← whole', Binary.value, Binary.value,
        zpow_add₀ (by norm_num)]
      ring
    have long : 2 ^ 104 ≤ b.mantissa * c.mantissa := by
      calc 2 ^ 104 = 2 ^ 52 * 2 ^ 52 := by norm_num
        _ ≤ b.mantissa * c.mantissa := Nat.mul_le_mul full full'
    have pos : 0 < (m * n).natAbs := by
      have : (0 : ℚ) < (m * n).natAbs := by
        rw [← product]
        have := Nat.mul_pos canonical.positive canonical'.positive
        positivity
      exact_mod_cast this
    exact (value_mul canonical canonical' shape shape' long pos small product).imp id Eq.symm

/-! ### Products with one -/

lemma mul_eq (x y : Float) : x * y = .ofModel (Float.Model.pack
    (mul binary64 x.toModel.unpack y.toModel.unpack)) := rfl

lemma pack_unpack_self (x : Float) : Float.ofModel (Float.Model.pack x.toModel.unpack) = x := by
  obtain ⟨⟨bits, valid⟩⟩ := x
  rw [Float.ofModel.injEq, Float.Model.mk.injEq]
  exact UInt64.toBitVec_inj.mp (pack_unpack_of_valid valid)

lemma mul_one_canonical (canonical : b.Canonical) (s : Sign) :
    mul binary64 (.finite .positive (2 ^ 52) (-52) (by decide))
        (.finite s b.mantissa b.exponent canonical.positive) =
      .finite s b.mantissa b.exponent canonical.positive := by
  have cancel : 2 ^ 52 * b.mantissa / 2 ^ 52 = b.mantissa := Nat.mul_div_cancel_left _ (by decide)
  have back : -52 + b.exponent + (52 : Nat) = b.exponent := by omega
  have nonzero := Nat.mul_ne_zero (show 2 ^ 52 ≠ 0 by decide) canonical.positive.ne'
  have digits : b.mantissa.log2 < 53 := (Nat.log2_lt canonical.positive.ne').mpr canonical.small
  -- a mantissa that is not full has the least exponent
  have target : max ((b.mantissa.log2 : Int) + 1 + b.exponent - 53) (-1074) = b.exponent := by
    have least := canonical.least
    rcases canonical.full with full | lowest
    · have := (Nat.le_log2 canonical.positive.ne').mpr full
      omega
    · omega
  obtain ⟨_, rounded⟩ := roundWithAccuracy_exact (s := s) (e := -52 + b.exponent) nonzero
    (Nat.dvd_mul_right (2 ^ 52) b.mantissa) (by rw [cancel, back, target])
  simp only [cancel, back] at rounded
  cases s <;> exact rounded

/-- Any fraction, also one that is infinite or no number, is kept by a product with one. -/
lemma float_one_mul (x : Float) : 1 * x = x := by
  have one : (1 : Float).toModel.unpack = .finite .positive (2 ^ 52) (-52) (by decide) := by
    rw [show (1 : Float) = .ofModel (Float.Model.pack (.finite .positive (2 ^ 52) (-52) (by decide)))
      by decide +kernel]
    exact unpack_pack _ (by decide) (by decide) (by decide) (by decide)
  have same : mul binary64 (1 : Float).toModel.unpack x.toModel.unpack = x.toModel.unpack := by
    have sign (s : Sign) : .positive * s = s := by cases s <;> rfl
    have parts := parts_unpack x
    generalize x.toModel.unpack = u at parts
    rw [one]
    cases parts with
    | nan => rfl
    | infinite | zero => rw [UnpackedFloat.mul, sign]
    | finite _ pos => exact mul_one_canonical (canonical_of_mantissa pos) _
  rw [mul_eq, same, pack_unpack_self]

/-! ### Zeros of either sign -/

lemma unpack_zero : (0 : Float).toModel.unpack = .zero .positive := by
  rw [show (0 : Float) = .ofModel (Float.Model.pack (.zero .positive)) by decide +kernel]
  exact unpack_pack_zero _

lemma intEqFloat_zero_mul (finite : x.isFinite) : Literal.intEqFloat 0 (0 * x) := by
  have zero : ∃ s, (0 * x).toModel.unpack = .zero s := by
    rw [unpack_mul, unpack_zero]
    rcases shape_of_finite finite with ⟨s, shape⟩ | ⟨s, b, canonical, shape⟩
    · exact ⟨.positive * s, by rw [shape, UnpackedFloat.mul, unpack_pack_zero]⟩
    · exact ⟨.positive * s, by rw [shape, UnpackedFloat.mul, unpack_pack_zero]⟩
  obtain ⟨s, shape⟩ := zero
  obtain ⟨done, value⟩ := value_of_zero shape
  exact Literal.intEqFloat_iff.mpr ⟨done, by rw [value, Int.cast_zero]⟩

/-- The same fraction, or fractions that are equal as numbers. -/
def Agrees (x y : Float) : Prop := x = y ∨ (x == y) = true

lemma Agrees.trans (first : Agrees x y) (second : Agrees y z) : Agrees x z := by
  rcases first with rfl | eq
  · exact second
  · rcases second with rfl | eq'
    · exact .inr eq
    · exact .inr (BEq.trans eq eq')

lemma Agrees.symm (agrees : Agrees x y) : Agrees y x :=
  agrees.imp Eq.symm BEq.symm

lemma packed_zeros (s t : Sign) :
    Agrees (.ofModel (Float.Model.pack (.zero s))) (.ofModel (Float.Model.pack (.zero t))) := by
  cases s <;> cases t <;> exact .inr (by decide +kernel)

lemma zero_mul_agrees (x : Float) : Agrees (0 * x) (-0 * x) ∧ Agrees (x * 0) (x * -0) := by
  have minus : (-0 : Float).toModel.unpack = .zero .negative := by
    rw [show (-0 : Float) = .ofModel (Float.Model.pack (.zero .negative)) by decide +kernel]
    exact unpack_pack_zero _
  rw [mul_eq, mul_eq, mul_eq, mul_eq, unpack_zero, minus]
  cases x.toModel.unpack with
  | infinity | notANumber => exact ⟨.inl rfl, .inl rfl⟩
  | zero s | finite s => exact ⟨packed_zeros _ _, packed_zeros _ _⟩

/-- Products of factors that agree agree. -/
lemma Agrees.mul (first : Agrees u v) (second : Agrees x y) : Agrees (u * x) (v * y) := by
  have left : Agrees (u * x) (v * x) := by
    rcases first with rfl | eq
    · exact .inl rfl
    -- fractions that are equal and not the same are the two zeros
    · obtain ⟨_, _, rfl | ⟨rfl, rfl⟩ | ⟨rfl, rfl⟩⟩ := Float.beq_iff_ne_nan_and_eq.mp eq
      · exact .inl rfl
      · exact (zero_mul_agrees x).1
      · exact (zero_mul_agrees x).1.symm
  have right : Agrees (v * x) (v * y) := by
    rcases second with rfl | eq
    · exact .inl rfl
    · obtain ⟨_, _, rfl | ⟨rfl, rfl⟩ | ⟨rfl, rfl⟩⟩ := Float.beq_iff_ne_nan_and_eq.mp eq
      · exact .inl rfl
      · exact (zero_mul_agrees v).2
      · exact (zero_mul_agrees v).2.symm
  exact left.trans right

/-!
### Whole numbers as fractions

A whole number of at most 53 binary digits is a fraction, so it is not rounded when it is made one.
-/

/-- Bits whose exponent is not the last one are those of a fraction. -/
lemma toNat_toBits_ofBits {n : Nat} (small : n < 2047 * 2 ^ 52) :
    (Float.ofBits n.toUInt64).toBits.toNat = n := by
  have size : n.toUInt64.toNat = n := by
    rw [Nat.toUInt64_eq, UInt64.toNat_ofNat']
    omega
  have number : @isNaNBits Format.binary64 n.toUInt64.toBitVec = false := by
    have exponent := toNat_unpackExponent n.toUInt64.toBitVec
    rw [UInt64.toNat_toBitVec, size] at exponent
    rw [isNaNBits, decide_eq_false_iff_not]
    -- bits of what is no number have the last exponent, all ones
    rintro ⟨last, -⟩
    rw [last] at exponent
    simp at exponent
    omega
  have packed := @pack_unpack Format.binary64 n.toUInt64.toBitVec
  rw [number] at packed
  have bits : (Float.ofBits n.toUInt64).toBits.toBitVec =
      UnpackedFloat.pack Format.binary64 (UnpackedFloat.unpack Format.binary64
        n.toUInt64.toBitVec) := rfl
  rw [← UInt64.toNat_toBitVec, bits, packed]
  simpa using size

lemma roundDiv_exact {num den : Nat} (pos : 0 < den) (divides : den ∣ num) :
    roundDiv num den = num / den := by
  simp [roundDiv, Nat.mod_eq_zero_of_dvd divides, pos]

/-- The bits of a full mantissa and an exponent of the format are those of their number. -/
lemma value_ofBits {m biased : Nat} (full : 2 ^ 52 ≤ m) (small : m < 2 ^ 53)
    (low : 0 < biased) (high : biased < 2047) {x : Float}
    (bits : x = Float.ofBits (biased * 2 ^ 52 + (m - 2 ^ 52)).toUInt64) :
    x.isFinite ∧ exactValue x = m * 2 ^ ((biased : Int) - 1075) := by
  have number : x.toBits.toNat = biased * 2 ^ 52 + (m - 2 ^ 52) := by
    rw [bits]
    exact toNat_toBits_ofBits (by omega)
  have exponent : x.toBits.toNat / 2 ^ 52 % 2 ^ 11 = biased := by omega
  constructor
  · refine isFinite_of_exponent fun last => ?_
    have field := toNat_unpackExponent (bitsOf x)
    rw [toNat_bitsOf, exponent, last] at field
    simp at field
    omega
  · have shape := ofFloat_normal (x := x) (by omega)
    have sign : signBit x = false := by
      rw [signBit, decide_eq_false_iff_not, Nat.pow_eq]
      omega
    have mantissa : 2 ^ 52 + x.toBits.toNat % 2 ^ 52 = m := by omega
    rw [exponent, mantissa] at shape
    simp [exactValue, sign, shape, Binary.value]

lemma roundAt_neg (n k : Nat) : roundAt n 1 (-(k : Int)) = n * 2 ^ k := by
  cases k with
  | zero => simp [roundAt, roundDiv_exact]
  | succ k =>
    have shape : -((k + 1 : Nat) : Int) = Int.negSucc k := rfl
    rw [shape]
    simp [roundAt, roundDiv_exact]

lemma scaled_bounds {n d : Nat} (digits : n.log2 = d) (pos : 0 < n) (small : d ≤ 52) :
    2 ^ 52 ≤ n * 2 ^ (52 - d) ∧ n * 2 ^ (52 - d) < 2 ^ 53 := by
  obtain ⟨low, high⟩ := (Nat.log2_eq_iff pos.ne').mp digits
  constructor
  · calc 2 ^ 52 = 2 ^ d * 2 ^ (52 - d) := by rw [← pow_add]; congr 1; omega
      _ ≤ n * 2 ^ (52 - d) := Nat.mul_le_mul_right _ low
  · calc n * 2 ^ (52 - d) < 2 ^ (d + 1) * 2 ^ (52 - d) :=
          Nat.mul_lt_mul_of_pos_right high (by positivity)
      _ = 2 ^ 53 := by rw [← pow_add]; congr 1; omega

/-- A whole number of at most 53 digits is not rounded. -/
lemma nearest_eq {n d : Nat} (digits : n.log2 = d) (pos : 0 < n) (small : d ≤ 52) :
    nearest n 1 = Float.ofBits ((1023 + d) * 2 ^ 52 + (n * 2 ^ (52 - d) - 2 ^ 52)).toUInt64 := by
  obtain ⟨full, short⟩ := scaled_bounds digits pos small
  have long : ¬ n * 2 ^ (53 - d) < 2 ^ 53 := by
    rw [show 53 - d = 52 - d + 1 by omega, pow_succ, ← Nat.mul_assoc]
    omega
  have guess : max ((n.log2 : Int) - (Nat.log2 1 : Nat) - 53) (-1074) = -((53 - d : Nat) : Int) := by
    rw [digits, show Nat.log2 1 = 0 from rfl]
    omega
  have next : -((53 - d : Nat) : Int) + 1 = -((52 - d : Nat) : Int) := by omega
  have biased : (-((52 - d : Nat) : Int) + 1075).toNat = 1023 + d := by omega
  rw [nearest, if_neg (by omega)]
  simp only [guess, roundAt_neg, Nat.pow_eq, if_neg long, next,
    if_neg (Nat.not_lt.mpr full), biased]
  rw [if_neg (by omega)]

/-- A whole number of at most 53 digits is a fraction. -/
lemma value_nearest {n : Nat} (pos : 0 < n) (small : n ≤ 2 ^ 53) :
    (nearest n 1).isFinite ∧ exactValue (nearest n 1) = n := by
  -- only the largest of these numbers has 54 digits, and it is a single case
  rcases Nat.lt_or_eq_of_le small with less | rfl
  · obtain ⟨low, _⟩ := (Nat.log2_eq_iff pos.ne').mp rfl
    have digits : n.log2 ≤ 52 := by
      have := (Nat.pow_lt_pow_iff_right (a := 2) (by norm_num)).mp (low.trans_lt less)
      omega
    obtain ⟨full, short⟩ := scaled_bounds rfl pos digits
    obtain ⟨finite, value⟩ := value_ofBits full short (by omega) (by omega)
      (nearest_eq rfl pos digits)
    refine ⟨finite, ?_⟩
    have exponent : ((1023 + n.log2 : Nat) : Int) - 1075 = -((52 - n.log2 : Nat) : Int) := by omega
    rw [value, exponent, zpow_neg, zpow_natCast]
    push_cast
    field_simp
  · have whole : Literal.intEqFloat (2 ^ 53 : Nat) (nearest (2 ^ 53) 1) := by decide +kernel
    obtain ⟨finite, exact⟩ := Literal.intEqFloat_iff.mp whole
    exact ⟨finite, by rw [← exact]; norm_cast⟩

lemma Binary.Canonical.exponent_le {b : Binary} (canonical : b.Canonical) {n : Nat}
    (whole : b.value = n) (small : n ≤ 2 ^ 53) : b.exponent ≤ 971 := by
  by_contra large
  have mantissa : (1 : ℚ) ≤ b.mantissa := by exact_mod_cast canonical.positive
  have huge : (2 : ℚ) ^ 54 ≤ 2 ^ b.exponent := by
    rw [← zpow_natCast]
    exact zpow_le_zpow_right₀ (by norm_num) (by push_cast; omega)
  have value : (2 : ℚ) ^ 54 ≤ b.value := by
    rw [Binary.value]
    nlinarith
  have bound : b.value ≤ 2 ^ 53 := by
    rw [whole]
    exact_mod_cast small
  norm_num at value bound
  linarith

lemma value_neg {x : Float} {s : Sign} {b : Binary} (canonical : b.Canonical)
    (full : 2 ^ 52 ≤ b.mantissa) (high : b.exponent ≤ 971)
    (shape : x.toModel.unpack = .finite s b.mantissa b.exponent canonical.positive) :
    (-x).isFinite ∧ exactValue (-x) = -exactValue x := by
  have negated : (-x).toModel.unpack = .finite (-s) b.mantissa b.exponent canonical.positive := by
    have unpacked : (-x).toModel.unpack = (Float.Model.pack x.toModel.unpack.neg).unpack := rfl
    rw [unpacked, shape]
    exact unpack_pack canonical.positive full canonical.small canonical.least high
  obtain ⟨finite, value⟩ := value_of_finite negated
  refine ⟨finite, ?_⟩
  rw [value, (value_of_finite shape).2]
  cases s
  · exact (neg_neg _).symm
  · rfl

/-- A whole number of at most 53 digits is exactly a fraction. -/
lemma intEqFloat_ofInt {n : Int} (small : n.natAbs ≤ 2 ^ 53) :
    Literal.intEqFloat n (ofInt n) := by
  rcases eq_or_ne n 0 with rfl | nonzero
  · decide +kernel
  · obtain ⟨finite, value⟩ := value_nearest (Int.natAbs_pos.mpr nonzero) small
    rw [Literal.intEqFloat_iff, ofInt]
    split
    · next negative =>
      have sign : (n : ℚ) = -exactValue (nearest n.natAbs 1) := by
        rw [value, Nat.cast_natAbs, Int.cast_abs, abs_of_neg (by exact_mod_cast negative), neg_neg]
      rcases shape_of_finite finite with ⟨s, shape⟩ | ⟨s, b, canonical, shape⟩
      · rw [(value_of_zero shape).2, neg_zero, Int.cast_eq_zero] at sign
        exact absurd sign nonzero
      · have whole := canonical.value_eq_natAbs (n := n.natAbs)
          (by rw [← (value_of_finite shape).2, value]; rfl)
        have full := canonical.full_of_whole whole
        obtain ⟨finite, value⟩ := value_neg canonical full (canonical.exponent_le whole small) shape
        exact ⟨finite, by rw [value, sign]⟩
    · next pos =>
      refine ⟨finite, ?_⟩
      rw [value, Nat.cast_natAbs, Int.cast_abs, abs_of_nonneg]
      exact_mod_cast Int.not_lt.mp pos

end ModelFormula.Decimal
