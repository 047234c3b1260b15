import ModelFormula.Proofs.Calls.Equality
import ModelFormula.Proofs.Numbers.DecimalText

/-!
# Equality carries over

For literals transitivity rests on a comparison of an integer with a fraction that does not round:
two finite fractions are equal if they stand for the same number.
-/
namespace ModelFormula

variable {x : Float}

namespace Decimal

/-! ### The number that a fraction stands for -/

def exactValue (x : Float) : ℚ := (if signBit x then -1 else 1) * (Binary.ofFloat x).value

lemma canonical_of_mantissa (pos : 0 < (Binary.ofFloat x).mantissa) :
    (Binary.ofFloat x).Canonical := by
  have bound : x.toBits.toNat % 2 ^ 52 < 2 ^ 52 := Nat.mod_lt _ (by positivity)
  simp only [Binary.ofFloat, Nat.pow_eq] at pos ⊢
  split at pos <;> rename_i biased <;> simp only [biased, if_true, if_false]
  · constructor <;> dsimp only at pos ⊢ <;> omega
  · constructor <;> dsimp only at pos ⊢ <;> omega

/-- A number rounds to itself. -/
lemma Binary.Canonical.rounds_value (canonical : b.Canonical) : Rounds b b.value := by
  have unit : (0 : ℚ) < 2 ^ b.exponent / 4 := by positivity
  have middle : b.value = 4 * b.mantissa * (2 ^ b.exponent / 4) := by
    rw [Binary.value]
    ring
  have low : ((roundingInterval b).1 : ℚ) * (2 ^ b.exponent / 4) < b.value := by
    rw [roundingInterval_low canonical, middle]
    apply mul_lt_mul_of_pos_right _ unit
    split <;> linarith
  have high : b.value < ((roundingInterval b).2 : ℚ) * (2 ^ b.exponent / 4) := by
    rw [roundingInterval_high, middle]
    apply mul_lt_mul_of_pos_right _ unit
    linarith
  rw [Rounds]
  split
  · exact ⟨low.le, high.le⟩
  · exact ⟨low, high⟩

lemma beq_zero_of_mantissa (zero : (Binary.ofFloat x).mantissa = 0) : x == 0.0 := by
  have bound := x.toBits.toNat_lt
  have bits : x.toBits.toNat = 0 ∨ x.toBits.toNat = 2 ^ 63 := by
    simp only [Binary.ofFloat, Nat.pow_eq] at zero
    split at zero <;> dsimp only at zero <;> omega
  have either : x = 0.0 ∨ x = -0.0 := by
    rcases bits with plus | minus
    · left
      apply Float.toBits_inj.mp
      apply UInt64.toNat_inj.mp
      rw [plus]
      decide +kernel
    · right
      apply Float.toBits_inj.mp
      apply UInt64.toNat_inj.mp
      rw [minus]
      decide +kernel
  rcases either with rfl | rfl <;> decide +kernel

lemma eq_of_ofFloat (signs : signBit x = signBit y) (same : Binary.ofFloat x = Binary.ofFloat y) :
    x = y := by
  have xBits := x.toBits.toNat_lt
  have yBits := y.toBits.toNat_lt
  apply Float.toBits_inj.mp
  apply UInt64.toNat_inj.mp
  simp only [signBit, Nat.pow_eq, decide_eq_decide] at signs
  simp only [Binary.ofFloat, Nat.pow_eq] at same
  split at same <;> split at same <;> simp only [Binary.mk.injEq] at same <;> omega

lemma value_pos {b : Binary} (pos : 0 < b.mantissa) : 0 < b.value := by
  rw [Binary.value]
  positivity

lemma ne_nan_of_finite (finite : x.isFinite) : x ≠ Float.nan := by
  rintro rfl
  exact absurd finite (by decide +kernel)

lemma exactValue_of_mantissa (zero : (Binary.ofFloat x).mantissa = 0) : exactValue x = 0 := by
  simp [exactValue, Binary.value, zero]

lemma exactValue_ne_zero (pos : 0 < (Binary.ofFloat x).mantissa) : exactValue x ≠ 0 := by
  have := value_pos pos
  rw [exactValue]
  split <;> simp <;> exact this.ne'

/-- Finite fractions that stand for the same number are equal. -/
lemma beq_of_exactValue (left : x.isFinite) (same : exactValue x = exactValue y) : x == y := by
  rcases Nat.eq_zero_or_pos (Binary.ofFloat x).mantissa with zero | pos
  · -- both are zeros, of whatever sign
    have other : (Binary.ofFloat y).mantissa = 0 := by
      by_contra some
      apply exactValue_ne_zero (Nat.pos_of_ne_zero some)
      rw [← same, exactValue_of_mantissa zero]
    exact BEq.trans (beq_zero_of_mantissa zero) (BEq.symm (beq_zero_of_mantissa other))
  · have other : 0 < (Binary.ofFloat y).mantissa := by
      by_contra none
      apply exactValue_ne_zero pos
      rw [same, exactValue_of_mantissa (by omega)]
    have xPos := value_pos pos
    have yPos := value_pos other
    have parts : signBit x = signBit y ∧ (Binary.ofFloat x).value = (Binary.ofFloat y).value := by
      simp only [exactValue] at same
      cases hx : signBit x <;> cases hy : signBit y <;> simp [hx, hy] at same ⊢ <;> linarith
    have rounds := (canonical_of_mantissa other).rounds_value
    rw [← parts.2] at rounds
    have eq : x = y := by
      apply eq_of_ofFloat parts.1
      exact Rounds.unique (canonical_of_mantissa pos) (canonical_of_mantissa other)
        (canonical_of_mantissa pos).rounds_value rounds
    rw [← eq]
    exact Float.beq_self_iff.mpr (ne_nan_of_finite left)

lemma of_beq (eq : x == y) (finite : x.isFinite) :
    y.isFinite ∧ exactValue x = exactValue y := by
  obtain ⟨_, _, rfl | ⟨rfl, rfl⟩ | ⟨rfl, rfl⟩⟩ := Float.beq_iff_ne_nan_and_eq.mp eq
  · exact ⟨finite, rfl⟩
  · constructor
    · decide +kernel
    · rw [exactValue_of_mantissa (by decide +kernel), exactValue_of_mantissa (by decide +kernel)]
  · constructor
    · decide +kernel
    · rw [exactValue_of_mantissa (by decide +kernel), exactValue_of_mantissa (by decide +kernel)]

end Decimal

/-! ### Literals -/

namespace Literal

open Decimal

lemma intEqFloat_iff : intEqFloat n x ↔ x.isFinite ∧ (n : ℚ) = exactValue x := by
  have den : ((Binary.ofFloat x).quotient.2 : ℚ) ≠ 0 := by
    exact_mod_cast (Binary.quotient_pos _).ne'
  have compared : compareInt n x = .eq ↔ (n : ℚ) = exactValue x := by
    rw [exactValue, ← Binary.quotient_value, compareInt, compare_eq_iff_eq, ← Rat.intCast_inj]
    cases signBit x <;> simp [← neg_div, eq_div_iff den]
  simp [intEqFloat, compared]

lemma intEqFloat_of_beq (first : intEqFloat n x) (second : x == y) : intEqFloat n y := by
  obtain ⟨finite, exact⟩ := intEqFloat_iff.mp first
  obtain ⟨finite, same⟩ := of_beq second finite
  exact intEqFloat_iff.mpr ⟨finite, exact.trans same⟩

lemma beq_trans {u v w : Literal} (first : u == v) (second : v == w) : u == w := by
  change u.same v = true at first
  change v.same w = true at second
  change u.same w
  cases u <;> cases v <;> cases w <;> simp only [Literal.same, Bool.false_eq_true] at first second ⊢
  case int.int.int => exact BEq.trans first second
  case int.int.float => exact eq_of_beq first ▸ second
  case int.float.int =>
    have same := (intEqFloat_iff.mp first).2.trans (intEqFloat_iff.mp second).2.symm
    exact beq_iff_eq.mpr (by exact_mod_cast same)
  case int.float.float => exact intEqFloat_of_beq first second
  case float.int.int => exact eq_of_beq second ▸ first
  case float.int.float =>
    obtain ⟨finite, left⟩ := intEqFloat_iff.mp first
    obtain ⟨_, right⟩ := intEqFloat_iff.mp second
    exact beq_of_exactValue finite (left.symm.trans right)
  case float.float.int => exact intEqFloat_of_beq second (BEq.symm first)
  case float.float.float => exact BEq.trans first second
  case text.text.text => exact BEq.trans first second

lemma option_beq_trans {u v w : Option Literal} (first : u == v)
    (second : v == w) : u == w := by
  cases u <;> cases v <;> cases w <;> simp at first second ⊢
  exact beq_trans first second

end Literal

/-! ### Calls -/

lemma forall₂_trans {α : Type} {R : α → α → Prop} {xs ys zs : List α}
    (first : List.Forall₂ R xs ys) (second : List.Forall₂ R ys zs)
    (trans : ∀ x ∈ xs, ∀ y z, R x y → R y z → R x z) : List.Forall₂ R xs zs := by
  induction first generalizing zs with
  | nil =>
    cases second
    exact .nil
  | cons head _ ih =>
    obtain ⟨here, there⟩ := List.forall_mem_cons.mp trans
    cases second with
    | cons head' rest => exact .cons (here _ _ head head') (ih rest there)

namespace CallExpr

lemma same_trans {e d c : CallExpr} (first : same e d = .ok true) (second : same d c = .ok true) :
    same e c = .ok true := by
  induction e generalizing d c with
  | unary sign e ih =>
    obtain ⟨d, rfl, left⟩ := same_unary_iff.mp first
    obtain ⟨c, rfl, right⟩ := same_unary_iff.mp second
    exact same_unary_iff.mpr ⟨c, rfl, ih left right⟩
  | binary op l r ihl ihr =>
    obtain ⟨l', r', rfl, left, right⟩ := same_binary_iff.mp first
    obtain ⟨l'', r'', rfl, left', right'⟩ := same_binary_iff.mp second
    exact same_binary_iff.mpr ⟨l'', r'', rfl, ihl left left', ihr right right'⟩
  | name s =>
    obtain rfl := same_name_iff.mp first
    exact second
  | value v x =>
    obtain ⟨w, rfl, left⟩ := same_value_iff.mp first
    obtain ⟨u, rfl, right⟩ := same_value_iff.mp second
    exact same_value_iff.mpr ⟨u, rfl, Literal.beq_trans left right⟩
  | call f args named ihArgs ihNamed =>
    obtain ⟨args', named', rfl, args₁, count₁, found₁⟩ := same_call_iff.mp first
    obtain ⟨args'', named'', rfl, args₂, count₂, found₂⟩ := same_call_iff.mp second
    refine same_call_iff.mpr ⟨args'', named'', rfl, ?_, count₁.trans count₂, ?_⟩
    · apply forall₂_trans args₁ args₂
      intro e mem d c
      exact ihArgs e mem
    · -- a keyword leads to the second call, and from there with the same name to the third
      intro p mem
      obtain ⟨q, found, eq⟩ := found₁ p mem
      have key : q.1 = p.1 := by simpa using List.find?_some found
      obtain ⟨r, found', eq'⟩ := found₂ q (List.mem_of_find?_eq_some found)
      rw [key] at found'
      exact ⟨r, found', ihNamed p mem eq eq'⟩

end CallExpr

end ModelFormula

/-!
### Fractions taken apart

A fraction is either no number, infinite, or a sign with a mantissa and an exponent. The operations
on fractions work on these parts; here they are read off the bits.
-/

namespace ModelFormula.Decimal

open Float.Model Float.Model.UnpackedFloat Binary

/-! ### Parts -/

def signOf (x : Float) : Sign := if signBit x then .negative else .positive

lemma toNat_unpackMantissa (b : BitVec Format.binary64.numBits) :
    (unpackMantissa b).toNat = b.toNat % 2 ^ 52 := by
  rw [unpackMantissa_def]
  simp

lemma toNat_unpackExponent (b : BitVec Format.binary64.numBits) :
    (unpackExponent b).toNat = b.toNat / 2 ^ 52 % 2 ^ 11 := by
  rw [unpackExponent_def]
  simp [Nat.shiftRight_eq_div_pow]

/-- The bits of a fraction. -/
def bitsOf (x : Float) : BitVec Format.binary64.numBits := x.toModel.toBits.toBitVec

lemma toNat_bitsOf (x : Float) : (bitsOf x).toNat = x.toBits.toNat := rfl

lemma ofBitVec_unpackSign (x : Float) : Sign.ofBitVec (unpackSign (bitsOf x)) = signOf x := by
  have bound := x.toBits.toNat_lt
  have bit : (unpackSign (bitsOf x)).toNat = x.toBits.toNat / 2 ^ 63 := by
    rw [unpackSign_def]
    simp [toNat_bitsOf, Nat.shiftRight_eq_div_pow]
    omega
  have zero : unpackSign (bitsOf x) = 0#1 ↔ x.toBits.toNat / 2 ^ 63 = 0 := by
    rw [← BitVec.toNat_inj, bit]
    simp
  simp only [Sign.ofBitVec, zero, signOf, signBit, Nat.pow_eq, decide_eq_true_eq]
  split <;> split <;> first | rfl | omega

/-- The digits behind the leading one. -/
lemma toNat_leading (v : BitVec 52) : (1#1 ++ v).toNat = 2 ^ 52 + v.toNat := by
  have leading : (1#1).toNat <<< 52 = 2 ^ 52 := by decide
  have apart := Nat.two_pow_add_eq_or_of_lt v.isLt 1
  rw [Nat.mul_one] at apart
  rw [BitVec.toNat_append, leading, apart]

variable {x : Float}

/-- A fraction whose exponent is not the last one is finite. -/
lemma isFinite_of_exponent (high : unpackExponent (bitsOf x) ≠ -1#_) : x.isFinite := by
  show (UnpackedFloat.unpack Format.binary64 (bitsOf x)).isFinite
  rw [UnpackedFloat.unpack, if_neg high]
  split
  · split <;> rfl
  · rfl

/-- A fraction in its parts. -/
inductive Parts (x : Float) : UnpackedFloat → Prop
  | nan (none : x.isNaN = true) : Parts x .notANumber
  | infinite (infinite : x.isInf = true) : Parts x (.infinity (signOf x))
  | zero (finite : x.isFinite = true) (none : (ofFloat x).mantissa = 0) : Parts x (.zero (signOf x))
  | finite (finite : x.isFinite = true) (positive : 0 < (ofFloat x).mantissa) :
      Parts x (.finite (signOf x) (ofFloat x).mantissa (ofFloat x).exponent positive)

lemma ofFloat_subnormal (low : x.toBits.toNat / 2 ^ 52 % 2 ^ 11 = 0) :
    ofFloat x = ⟨x.toBits.toNat % 2 ^ 52, -1074⟩ := by
  simp only [ofFloat, Nat.pow_eq, if_pos low]

lemma ofFloat_normal (normal : x.toBits.toNat / 2 ^ 52 % 2 ^ 11 ≠ 0) :
    ofFloat x = ⟨2 ^ 52 + x.toBits.toNat % 2 ^ 52,
      ((x.toBits.toNat / 2 ^ 52 % 2 ^ 11 : Nat) : Int) - 1075⟩ := by
  simp only [ofFloat, Nat.pow_eq, if_neg normal]

lemma Parts.of_finite (pos : 0 < m) (finite : x.isFinite)
    (eq : ofFloat x = ⟨m, e⟩) : Parts x (.finite (signOf x) m e pos) := by
  obtain ⟨rfl, rfl⟩ := (Binary.mk.injEq _ _ _ _).mp eq.symm
  exact .finite finite pos

lemma parts_unpack (x : Float) : Parts x x.toModel.unpack := by
  have mantissa := toNat_unpackMantissa (bitsOf x)
  have exponent := toNat_unpackExponent (bitsOf x)
  rw [toNat_bitsOf] at mantissa exponent
  have none : unpackMantissa (bitsOf x) = 0#_ ↔ x.toBits.toNat % 2 ^ 52 = 0 := by
    rw [← BitVec.toNat_inj, mantissa]
    simp
  have low : unpackExponent (bitsOf x) = 0#_ ↔ x.toBits.toNat / 2 ^ 52 % 2 ^ 11 = 0 := by
    rw [← BitVec.toNat_inj, exponent]
    simp
  -- the fields of the bits decide: the last exponent, the exponent zero, and all others
  have unpacked : x.toModel.unpack = UnpackedFloat.unpack Format.binary64 (bitsOf x) := rfl
  have infinite : x.isInf = x.toModel.unpack.isInf := rfl
  have nan : x.isNaN = x.toModel.unpack.isNaN := rfl
  have bias : (Format.binary64.exponentBias : Int) = 1023 := by decide
  rw [unpacked] at infinite nan ⊢
  unfold UnpackedFloat.unpack at infinite nan ⊢
  simp only [ofBitVec_unpackSign] at infinite nan ⊢
  split
  · split
    · exact .infinite (by simp_all [UnpackedFloat.isInf])
    · exact .nan (by simp_all [UnpackedFloat.isNaN])
  · next high =>
    have some := isFinite_of_exponent high
    split
    · next subnormal =>
      have shape := ofFloat_subnormal (low.mp subnormal)
      split
      next zero => exact .zero some (by rw [shape, none.mp zero])
      · refine Parts.of_finite _ some (shape.trans ?_)
        rw [mantissa, exponent, low.mp subnormal, bias]
        simp
    · next normal =>
      -- a normal fraction has a leading digit that is not written
      refine Parts.of_finite _ some ((ofFloat_normal (mt low.mpr normal)).trans ?_)
      rw [toNat_leading, mantissa, exponent, bias]
      norm_num

/-!
### The order of fractions

Fractions that are numbers are ordered as the numbers that they stand for, with the infinite ones at
the ends.
-/

/-- Numbers in canonical form are ordered by their exponents, then by their mantissas. -/
lemma Binary.Canonical.value_lt {b c : Binary} (left : b.Canonical) (right : c.Canonical)
    (lower : b.exponent < c.exponent) : b.value < c.value := by
  have full : 2 ^ 52 ≤ c.mantissa := by
    rcases right.full with full | least
    · exact full
    -- the least exponent has nothing below it
    · have := left.least
      omega
  have small : (b.mantissa : ℚ) < 2 ^ 53 := by exact_mod_cast left.small
  have large : (2 : ℚ) ^ 52 ≤ c.mantissa := by exact_mod_cast full
  calc b.value < 2 ^ 53 * 2 ^ b.exponent := by
        rw [Binary.value]
        exact mul_lt_mul_of_pos_right small (by positivity)
    _ = 2 ^ 52 * 2 ^ (b.exponent + 1) := by
        rw [zpow_add_one₀ (by norm_num)]
        ring
    _ ≤ 2 ^ 52 * 2 ^ c.exponent := by
        apply mul_le_mul_of_nonneg_left _ (by positivity)
        exact zpow_le_zpow_right₀ (by norm_num) (by omega)
    _ ≤ c.value := by
        rw [Binary.value]
        exact mul_le_mul_of_nonneg_right large (by positivity)

lemma Binary.Canonical.compare_eq {b c : Binary} (left : b.Canonical) (right : c.Canonical) :
    (compare b.exponent c.exponent).then (compare b.mantissa c.mantissa) =
      compare b.value c.value := by
  rcases lt_trichotomy b.exponent c.exponent with lower | same | higher
  · rw [compare_lt_iff_lt.mpr lower, compare_lt_iff_lt.mpr (left.value_lt right lower)]
    rfl
  · -- with one exponent the mantissas count the same unit
    have unit : (0 : ℚ) < 2 ^ c.exponent := by positivity
    rw [compare_eq_iff_eq.mpr same, Binary.value, Binary.value, same]
    rcases lt_trichotomy b.mantissa c.mantissa with less | eq | more
    · have : (b.mantissa : ℚ) < c.mantissa := by exact_mod_cast less
      rw [compare_lt_iff_lt.mpr less, compare_lt_iff_lt.mpr (mul_lt_mul_of_pos_right this unit)]
      rfl
    · rw [compare_eq_iff_eq.mpr eq, compare_eq_iff_eq.mpr (by rw [eq])]
      rfl
    · have : (c.mantissa : ℚ) < b.mantissa := by exact_mod_cast more
      rw [compare_gt_iff_gt.mpr more, compare_gt_iff_gt.mpr (mul_lt_mul_of_pos_right this unit)]
      rfl
  · rw [compare_gt_iff_gt.mpr higher, compare_gt_iff_gt.mpr (right.value_lt left higher)]
    rfl

/-- The place of a fraction in the order: infinite ones stand at the ends. -/
def place (x : Float) : ℤ ×ₗ ℚ :=
  if x.isInf then toLex (if signBit x then -1 else 1, 0) else toLex (0, exactValue x)

lemma place_of_finite (finite : x.isFinite) : place x = toLex (0, exactValue x) := by
  have some : x.isInf = false := by
    have status : x.toModel.unpack.isFinite := finite
    show x.toModel.unpack.isInf = false
    cases shape : x.toModel.unpack <;> simp_all [UnpackedFloat.isFinite, UnpackedFloat.isInf]
  simp [place, some]

/-- The number with the given sign. -/
def withSign (s : Sign) (q : ℚ) : ℚ :=
  match s with
  | .negative => -q
  | .positive => q

/-- The three shapes of a fraction that is a number, each with its place. -/
inductive Placed : UnpackedFloat → ℤ ×ₗ ℚ → Prop
  | infinite (s : Sign) : Placed (.infinity s) (toLex (s.apply 1, 0))
  | zero (s : Sign) : Placed (.zero s) (toLex (0, 0))
  | finite (s : Sign) (b : Binary) (canonical : b.Canonical) :
      Placed (.finite s b.mantissa b.exponent canonical.positive) (toLex (0, withSign s b.value))

lemma placed_unpack (number : x.isNaN = false) : Placed x.toModel.unpack (place x) := by
  have parts := parts_unpack x
  generalize x.toModel.unpack = u at parts
  cases parts with
  | nan none => cases none.symm.trans number
  | infinite infinite =>
    have here : place x = toLex ((signOf x).apply 1, 0) := by
      rw [place, if_pos infinite, signOf]
      split <;> rfl
    rw [here]
    exact .infinite _
  | zero finite none =>
    rw [place_of_finite finite, exactValue_of_mantissa none]
    exact .zero _
  | finite finite pos =>
    have here : exactValue x = withSign (signOf x) (Binary.ofFloat x).value := by
      rw [exactValue, signOf]
      split <;> simp [withSign]
    rw [place_of_finite finite, here]
    exact .finite _ _ (canonical_of_mantissa pos)

lemma compare_toLex (q r : ℚ) :
    compare (toLex ((0 : ℤ), q)) (toLex ((0 : ℤ), r)) = compare q r := by
  rcases lt_trichotomy q r with less | eq | more
  · rw [compare_lt_iff_lt.mpr less, compare_lt_iff_lt, Prod.Lex.toLex_lt_toLex]
    exact .inr ⟨rfl, less⟩
  · rw [eq, compare_eq_iff_eq.mpr rfl, compare_eq_iff_eq.mpr rfl]
  · rw [compare_gt_iff_gt.mpr more, compare_gt_iff_gt, Prod.Lex.toLex_lt_toLex]
    exact .inr ⟨rfl, more⟩

lemma compare_neg (q r : ℚ) : compare (-q) (-r) = (compare q r).swap := by
  rcases lt_trichotomy q r with less | eq | more
  · rw [compare_lt_iff_lt.mpr less, compare_gt_iff_gt.mpr (neg_lt_neg less)]
    rfl
  · rw [eq, compare_eq_iff_eq.mpr rfl, compare_eq_iff_eq.mpr rfl]
    rfl
  · rw [compare_gt_iff_gt.mpr more, compare_lt_iff_lt.mpr (neg_lt_neg more)]
    rfl

lemma lt_toLex {m n : ℤ} {q r : ℚ} (less : m < n) : toLex (m, q) < toLex (n, r) :=
  Prod.Lex.toLex_lt_toLex.mpr (.inl less)

variable {q : ℤ ×ₗ ℚ}

lemma some_lt (less : p < q) : some Ordering.lt = some (compare p q) :=
  congrArg some (compare_lt_iff_lt.mpr less).symm

lemma some_gt (more : q < p) : some Ordering.gt = some (compare p q) :=
  congrArg some (compare_gt_iff_gt.mpr more).symm

lemma some_eq (p : ℤ ×ₗ ℚ) : some Ordering.eq = some (compare p p) :=
  congrArg some (compare_eq_iff_eq.mpr rfl).symm

/-- Fractions in parts compare as their places do. -/
lemma Placed.compare_eq {u v : UnpackedFloat} (left : Placed u p) (right : Placed v q) :
    u.compare v = some (compare p q) := by
  cases left with
  | infinite s =>
    cases right with
    | infinite t =>
      cases s <;> cases t
      · exact some_eq _
      · exact some_lt (lt_toLex (by decide))
      · exact some_gt (lt_toLex (by decide))
      · exact some_eq _
    | zero | finite =>
      cases s
      · exact some_lt (lt_toLex (by decide))
      · exact some_gt (lt_toLex (by decide))
  | zero s =>
    cases right with
    | infinite t =>
      cases t
      · exact some_gt (lt_toLex (by decide))
      · exact some_lt (lt_toLex (by decide))
    | zero t => exact some_eq _
    | finite t c canonical =>
      have pos := value_pos canonical.positive
      rw [compare_toLex]
      cases t
      · rw [compare_gt_iff_gt.mpr (by simpa [withSign] using pos)]
        rfl
      · rw [compare_lt_iff_lt.mpr (by simpa [withSign] using pos)]
        rfl
  | finite s b canonical =>
    have pos := value_pos canonical.positive
    cases right with
    | infinite t =>
      cases t
      · exact some_gt (lt_toLex (by decide))
      · exact some_lt (lt_toLex (by decide))
    | zero t =>
      rw [compare_toLex]
      cases s
      · rw [compare_lt_iff_lt.mpr (by simpa [withSign] using pos)]
        rfl
      · rw [compare_gt_iff_gt.mpr (by simpa [withSign] using pos)]
        rfl
    | finite t c canonical' =>
      have pos' := value_pos canonical'.positive
      -- with unlike signs zero lies between the two, otherwise their magnitudes decide
      have magnitudes := canonical.compare_eq canonical'
      rw [compare_toLex]
      cases s <;> cases t <;> simp only [withSign]
      · rw [compare_neg, ← magnitudes]
        rfl
      · rw [compare_lt_iff_lt.mpr (by linarith)]
        rfl
      · rw [compare_gt_iff_gt.mpr (by linarith)]
        rfl
      · rw [← magnitudes]
        rfl

section

variable {y : Float} (left : x.isNaN = false) (right : y.isNaN = false)
include left right

/-- How two fractions that are numbers compare. -/
lemma compare_unpack :
    x.toModel.unpack.compare y.toModel.unpack = some (compare (place x) (place y)) :=
  (placed_unpack left).compare_eq (placed_unpack right)

lemma lt_iff_place : x < y ↔ place x < place y := by
  have less : x < y ↔ (x.toModel.unpack.compare y.toModel.unpack == some .lt) := decide_eq_true_iff
  rw [less, compare_unpack left right]
  simp [compare_lt_iff_lt]

lemma beq_iff_place : (x == y) ↔ place x = place y := by
  have eq : (x == y) = (x.toModel.unpack.compare y.toModel.unpack == some .eq) := rfl
  rw [eq, compare_unpack left right]
  simp [compare_eq_iff_eq]

end

end ModelFormula.Decimal
