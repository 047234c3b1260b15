import ModelFormula.Proofs.Numbers.FloatOrder

/-!
# The order of levels

Texts and numbers have places in a linear order. Where values can be compared at all they compare as
their places do, and they are equal if they have one place.
-/
namespace ModelFormula

open Decimal Binary

namespace Decimal

lemma compareInt_eq (n : Int) (x : Float) : compareInt n x = compare (n : ℚ) (exactValue x) := by
  have den : (0 : ℚ) < (ofFloat x).quotient.2 := by exact_mod_cast quotient_pos _
  have value : exactValue x = (if signBit x then -((ofFloat x).quotient.1 : ℤ)
      else (ofFloat x).quotient.1 : ℤ) / ((ofFloat x).quotient.2 : ℚ) := by
    rw [exactValue, ← quotient_value]
    split <;> simp [neg_div]
  rw [value, compareInt]
  dsimp only
  -- both sides compare two quotients, the program after multiplying with the denominator
  generalize (if signBit x then -((ofFloat x).quotient.1 : ℤ)
    else (ofFloat x).quotient.1 : ℤ) = exact
  generalize (ofFloat x).quotient.2 = d at den
  rcases lt_trichotomy (n * d) exact with less | eq | more
  · rw [compare_lt_iff_lt.mpr less, compare_lt_iff_lt.mpr]
    rw [lt_div_iff₀ den]
    exact_mod_cast less
  · rw [compare_eq_iff_eq.mpr eq, compare_eq_iff_eq.mpr]
    rw [eq_div_iff den.ne']
    exact_mod_cast eq
  · rw [compare_gt_iff_gt.mpr more, compare_gt_iff_gt.mpr]
    rw [div_lt_iff₀ den]
    exact_mod_cast more

variable {x : Float}

lemma isFinite_of (number : x.isNaN = false) (bounded : x.isInf = false) : x.isFinite := by
  have parts := parts_unpack x
  generalize x.toModel.unpack = u at parts
  cases parts with
  | nan none => cases none.symm.trans number
  | infinite infinite => cases infinite.symm.trans bounded
  | zero finite | finite finite => exact finite

lemma place_zero : place 0.0 = toLex (0, 0) := by
  rw [place_of_finite (by decide +kernel), exactValue_of_mantissa (by decide +kernel)]

/-- An infinite fraction lies on the same side of every finite number. -/
lemma infinite_side (infinite : x.isInf) (q r : ℚ) :
    (toLex ((0 : ℤ), q) < place x ↔ toLex ((0 : ℤ), r) < place x) ∧
      (place x < toLex ((0 : ℤ), q) ↔ place x < toLex ((0 : ℤ), r)) := by
  rw [place, if_pos infinite]
  constructor
  · simp only [Prod.Lex.toLex_lt_toLex]
    split <;> simp
  · simp only [Prod.Lex.toLex_lt_toLex]
    split <;> simp

lemma whole_lt_place (n : Int) (number : x.isNaN = false) :
    (if x.isNaN then false else if x.isInf then decide (0.0 < x) else compareInt n x == .lt) =
      true ↔ toLex ((0 : ℤ), (n : ℚ)) < place x := by
  rw [if_neg (Bool.eq_false_iff.mp number)]
  split
  · next infinite =>
    -- for an infinite fraction zero stands in for the whole number
    rw [decide_eq_true_iff, lt_iff_place (by decide +kernel) number, place_zero]
    exact (infinite_side infinite 0 n).1
  · next bounded =>
    rw [place_of_finite (isFinite_of number (by simpa using bounded)), compareInt_eq,
      ← compare_toLex, beq_iff_eq, compare_lt_iff_lt]

lemma place_lt_whole (n : Int) (number : x.isNaN = false) :
    (if x.isNaN then false else if x.isInf then decide (x < 0.0) else compareInt n x == .gt) =
      true ↔ place x < toLex ((0 : ℤ), (n : ℚ)) := by
  rw [if_neg (Bool.eq_false_iff.mp number)]
  split
  · next infinite =>
    rw [decide_eq_true_iff, lt_iff_place number (by decide +kernel), place_zero]
    exact (infinite_side infinite 0 n).2
  · next bounded =>
    rw [place_of_finite (isFinite_of number (by simpa using bounded)), compareInt_eq,
      ← compare_toLex, beq_iff_eq, compare_gt_iff_gt]

lemma whole_eq_place (number : x.isNaN = false) :
    Literal.intEqFloat n x ↔ toLex ((0 : ℤ), (n : ℚ)) = place x := by
  rw [Literal.intEqFloat_iff]
  cases bounded : x.isInf with
  | true =>
    -- the first coordinate of its place tells an infinite fraction from all numbers
    have infinite : x.isFinite = false := by
      by_contra finite
      have other := place_of_finite (by simpa using finite)
      rw [place, if_pos bounded] at other
      split at other <;> cases congrArg (fun p => (ofLex p).1) other
    rw [place, if_pos bounded]
    simp only [infinite, Bool.false_eq_true, false_and, false_iff]
    split <;> exact fun same => by cases congrArg (fun p => (ofLex p).1) same
  | false =>
    have finite := isFinite_of number bounded
    simp [place_of_finite finite, finite]

end Decimal

namespace Datum

/-- Texts and numbers can be levels. -/
def isLevel : Datum → Bool
  | text _ | bool _ | int _ => true
  | float x => !x.isNaN
  | _ => false

/-- The place of a text or a number in their order. -/
def rank : Datum → String ⊕ₗ ℤ ×ₗ ℚ
  | text s => Sum.inlₗ s
  | float x => Sum.inrₗ (Decimal.place x)
  | d => Sum.inrₗ (toLex (0, d.int?.getD 0))

/-- The three sorts of levels: texts, fractions, and what counts as an integer. -/
inductive Ranked : Datum → String ⊕ₗ ℤ ×ₗ ℚ → Prop
  | text (s : String) : Ranked (.text s) (Sum.inlₗ s)
  | float {x : Float} (number : x.isNaN = false) : Ranked (.float x) (Sum.inrₗ (Decimal.place x))
  | bool (b : Bool) : Ranked (.bool b) (Sum.inrₗ (toLex (0, ofBool b)))
  | int (n : Int) : Ranked (.int n) (Sum.inrₗ (toLex (0, n)))

lemma ranked_rank (level : x.isLevel) : Ranked x x.rank := by
  cases x with
  | text s => exact .text s
  | bool b => exact .bool b
  | int n => exact .int n
  | float v => exact .float (by simpa [isLevel] using level)
  | null | complex | list | record => cases level

/-- Values that can be compared compare as their places do. -/
lemma less?_eq {x y : Datum} (left : x.isLevel) (right : y.isLevel)
    (done : x.less? y = some b) : b ↔ x.rank < y.rank := by
  have first := ranked_rank left
  have second := ranked_rank right
  generalize x.rank = p at first
  generalize y.rank = q at second
  have whole (m n : ℤ) : decide (m < n) ↔
      Sum.inrₗ (α := String) (toLex ((0 : ℤ), (m : ℚ))) < Sum.inrₗ (toLex ((0 : ℤ), (n : ℚ))) := by
    rw [Sum.Lex.inr_lt_inr_iff, Prod.Lex.toLex_lt_toLex, decide_eq_true_iff]
    simp
  -- a text is compared only with texts, a number with all numbers
  cases first with
  | text s =>
    cases second with
    | text t =>
      cases done
      rw [decide_eq_true_iff, Sum.Lex.inl_lt_inl_iff]
    | float | bool | int => cases done
  | @float v number =>
    cases second with
    | text t => cases done
    | float number' =>
      cases done
      rw [decide_eq_true_iff, lt_iff_place number number', Sum.Lex.inr_lt_inr_iff]
    | bool b | int n =>
      cases done
      exact (place_lt_whole _ number).trans Sum.Lex.inr_lt_inr_iff.symm
  | bool b | int n =>
    cases second with
    | text t => cases done
    | float number =>
      cases done
      exact (whole_lt_place _ number).trans Sum.Lex.inr_lt_inr_iff.symm
    | bool | int =>
      cases done
      exact whole _ _

/-- Values are equal if they have one place. -/
lemma beq_iff_rank {x y : Datum} (left : x.isLevel) (right : y.isLevel) :
    (x == y) ↔ x.rank = y.rank := by
  have first := ranked_rank left
  have second := ranked_rank right
  generalize x.rank = p at first
  generalize y.rank = q at second
  change x.same y ↔ p = q
  have whole (m n : ℤ) : (m == n) ↔
      Sum.inrₗ (α := String) (toLex ((0 : ℤ), (m : ℚ))) = Sum.inrₗ (toLex ((0 : ℤ), (n : ℚ))) := by
    simp [Sum.inrₗ]
  have apart (s : String) (r : ℤ ×ₗ ℚ) : (false ↔ Sum.inlₗ s = Sum.inrₗ r) ∧
      (false ↔ Sum.inrₗ r = Sum.inlₗ s) := by
    simp [Sum.inlₗ, Sum.inrₗ]
  cases first with
  | text s =>
    cases second with
    | text t => simp [same, Sum.inlₗ]
    | float | bool | int => exact (apart s _).1
  | @float v number =>
    cases second with
    | text t => exact (apart t _).2
    | float number' => simp [same, Sum.inrₗ, beq_iff_place number number']
    | bool b | int n => simp [same, Sum.inrₗ, whole_eq_place number, eq_comm]
  | bool b =>
    cases second with
    | text t => exact (apart t _).2
    | float number => simp [same, Sum.inrₗ, whole_eq_place number]
    | bool c => cases b <;> cases c <;> simp [same, Sum.inrₗ, ofBool]
    | int n => exact (whole n (ofBool b)).trans eq_comm
  | int n =>
    cases second with
    | text t => exact (apart t _).2
    | float number => simp [same, Sum.inrₗ, whole_eq_place number]
    | bool b => exact whole n (ofBool b)
    | int m => exact whole n m

end Datum

namespace Levels

open Datum

/-- Levels are ordered by their places. -/
lemma below_iff {x y : Datum} (left : x.isLevel) (right : y.isLevel)
    (done : below x y = .ok b) : b ↔ x.rank < y.rank := by
  have ordered (done : below.order x y = .ok b) : b ↔ x.rank < y.rank := by
    unfold below.order at done
    split at done
    · next compared =>
      cases done
      exact less?_eq left right compared
    · cases done
  -- fractions are compared apart, because of those that are no number
  unfold below at done
  split at done
  · next v w =>
    have number : v.isNaN = false := by simpa [isLevel] using left
    have number' : w.isNaN = false := by simpa [isLevel] using right
    cases done
    rw [number', Bool.false_and, Bool.or_false, decide_eq_true_iff, lt_iff_place number number']
    exact Sum.Lex.inr_lt_inr_iff.symm
  · next w _ =>
    have number : w.isNaN = false := by simpa [isLevel] using right
    rw [if_neg (Bool.eq_false_iff.mp number)] at done
    exact ordered done
  · next v _ =>
    have number : v.isNaN = false := by simpa [isLevel] using left
    rw [if_neg (Bool.eq_false_iff.mp number)] at done
    exact ordered done
  · exact ordered done

/-!
### Finding a level

The levels of a column increase. So the binary search finds the place of a cell that is one of them,
and a search from the front for an equal level finds the same place.
-/

open List

/-- Texts and numbers in increasing order. -/
structure Increasing (levels : List Datum) : Prop where
  proper : ∀ x ∈ levels, x.isLevel = true
  sorted : levels.Pairwise fun x y => x.rank < y.rank

variable {levels : Array Datum} {x : Datum}

lemma Increasing.tail {levels : List Datum} (increasing : Increasing (x :: levels)) :
    Increasing levels :=
  ⟨fun y mem => increasing.proper y (mem_cons_of_mem x mem), (pairwise_cons.mp increasing.sorted).2⟩

/-! ### The levels of a column -/

/-- A value put in its place: the levels still increase, and only its place is new. -/
lemma insert_increasing {levels after : List Datum} (increasing : Increasing levels)
    (level : x.isLevel) (done : insert levels x = .ok after) :
    Increasing after ∧ (∃ y ∈ after, y.rank = x.rank) ∧
      (∀ y ∈ after, y = x ∨ y ∈ levels) ∧ levels ⊆ after := by
  induction levels generalizing after with
  | nil =>
    cases done
    exact ⟨⟨by simpa using level, pairwise_singleton _ _⟩, ⟨x, by simp, rfl⟩, by simp, by simp⟩
  | cons y rest ih =>
    have first := increasing.proper y mem_cons_self
    obtain ⟨least, _⟩ := pairwise_cons.mp increasing.sorted
    obtain ⟨before, compared, done⟩ := bind_eq_ok.mp done
    have before_iff := below_iff level first compared
    split at done
    next lower =>
      cases done
      have lower := before_iff.mp lower
      refine ⟨⟨forall_mem_cons.mpr ⟨level, increasing.proper⟩,
        pairwise_cons.mpr ⟨?_, increasing.sorted⟩⟩, ⟨x, by simp, rfl⟩, ?_, ?_⟩
      · rw [forall_mem_cons]
        exact ⟨lower, fun z mem => lower.trans (least z mem)⟩
      · simp
      · exact subset_cons_self _ _
    next notLower =>
      obtain ⟨behind, compared', done⟩ := bind_eq_ok.mp done
      have behind_iff := below_iff first level compared'
      split at done
      next higher =>
        obtain ⟨others, inserted, done⟩ := bind_eq_ok.mp done
        cases done
        obtain ⟨sorted, ⟨z, mem, same⟩, old, kept⟩ := ih increasing.tail inserted
        refine ⟨⟨forall_mem_cons.mpr ⟨first, sorted.proper⟩, pairwise_cons.mpr ⟨?_, sorted.sorted⟩⟩,
          ⟨z, mem_cons_of_mem y mem, same⟩, ?_, cons_subset_cons y kept⟩
        · intro w inside
          rcases old w inside with rfl | before
          · exact behind_iff.mp higher
          · exact least w before
        · intro w inside
          rcases mem_cons.mp inside with rfl | later
          · simp
          · rcases old w later with rfl | before
            · simp
            · simp [before]
      next notHigher =>
        -- neither below nor above: the level is there already
        cases done
        have eq : y.rank = x.rank :=
          le_antisymm (not_lt.mp (mt before_iff.mpr notLower))
            (not_lt.mp (mt behind_iff.mpr notHigher))
        exact ⟨increasing, ⟨y, mem_cons_self, eq⟩, fun _ inside => .inr inside, Subset.refl _⟩

/-- The levels of a column increase, and the place of every cell is among theirs. -/
lemma ofCells_increasing {cells levels : List Datum} (proper : ∀ x ∈ cells, x.isLevel)
    (done : ofCells cells = .ok levels) :
    Increasing levels ∧ ∀ x ∈ cells, ∃ y ∈ levels, y.rank = x.rank := by
  -- one step puts a cell in, so after the run all cells are in and none has gone
  have run : ∀ (before : List Datum), Increasing before → cells.foldlM insert before = .ok levels →
      Increasing levels ∧ before ⊆ levels ∧ ∀ x ∈ cells, ∃ y ∈ levels, y.rank = x.rank := by
    clear done
    induction cells with
    | nil =>
      intro before increasing done
      cases done
      exact ⟨increasing, Subset.refl _, by simp⟩
    | cons x cells ih =>
      intro before increasing done
      obtain ⟨first, others⟩ := forall_mem_cons.mp proper
      obtain ⟨after, inserted, done⟩ := bind_eq_ok.mp done
      obtain ⟨sorted, ⟨y, mem, same⟩, _, kept⟩ := insert_increasing increasing first inserted
      obtain ⟨whole, later, found⟩ := ih others after sorted done
      refine ⟨whole, Subset.trans kept later, forall_mem_cons.mpr ⟨?_, found⟩⟩
      exact ⟨y, later mem, same⟩
  obtain ⟨increasing, _, found⟩ := run [] ⟨by simp, Pairwise.nil⟩ done
  exact ⟨increasing, found⟩

/-! ### Binary search -/

/-- All levels in front of the place lie below the key, and none from it on. -/
def Splits (levels : Array Datum) (key : Datum) (low high : Nat) : Prop :=
  ∀ (i : Nat) (level : Datum), levels[i]? = some level →
    (i < low → level.rank < key.rank) ∧ (high ≤ i → ¬ level.rank < key.rank)

lemma Increasing.rank_lt (increasing : Increasing levels.toList) {i j : Nat}
    (first : levels[i]? = some x) (second : levels[j]? = some y) (less : i < j) :
    x.rank < y.rank := by
  rw [← Array.getElem?_toList] at first second
  obtain ⟨inside, rfl⟩ := List.getElem?_eq_some_iff.mp first
  obtain ⟨inside', rfl⟩ := List.getElem?_eq_some_iff.mp second
  exact List.pairwise_iff_getElem.mp increasing.sorted i j inside inside' less

lemma search_splits {key : Datum} (increasing : Increasing levels.toList)
    (level : key.isLevel) (range : low ≤ high) (bound : high ≤ levels.size)
    (splits : Splits levels key low high) (done : search levels key low high = .ok i) :
    Splits levels key i i := by
  rw [search] at done
  split at done
  · next ordered =>
    have inside : (low + high) / 2 < levels.size := by omega
    dsimp only at done
    rw [Array.getElem?_eq_getElem inside] at done
    generalize middle : levels[(low + high) / 2] = level' at done
    have at' : levels[(low + high) / 2]? = some level' := by
      rw [Array.getElem?_eq_getElem inside, middle]
    obtain ⟨before, compared, done⟩ := bind_eq_ok.mp done
    have mem : level' ∈ levels.toList := by
      rw [← middle]
      exact Array.getElem_mem_toList inside
    have before_iff := below_iff (increasing.proper _ mem) level compared
    split at done
    next lower =>
      -- whatever stands in front of a level below the key lies below it as well
      refine search_splits increasing level (by omega) bound ?_ done
      intro j other found
      refine ⟨fun front => ?_, (splits j other found).2⟩
      rcases Nat.lt_or_eq_of_le (Nat.le_of_lt_succ front) with less | same
      · exact (increasing.rank_lt found at' less).trans (before_iff.mp lower)
      · rw [same, at', Option.some.injEq] at found
        exact found ▸ before_iff.mp lower
    next notLower =>
      refine search_splits increasing level (by omega) (by omega) ?_ done
      intro j other found
      refine ⟨(splits j other found).1, fun back => ?_⟩
      rcases Nat.lt_or_eq_of_le back with less | same
      · exact fun below => notLower (before_iff.mpr
          ((increasing.rank_lt at' found less).trans below))
      · rw [← same, at', Option.some.injEq] at found
        exact found ▸ mt before_iff.mpr notLower
  · next empty =>
    cases done
    have same : low = high := by omega
    rwa [← same] at splits
termination_by high - low

/-- The binary search finds the first level that is equal to a cell. -/
lemma findIdx?_of_lowerBound {levels : List Datum} (increasing : Increasing levels)
    (level : x.isLevel) (known : ∃ y ∈ levels, y.rank = x.rank)
    (done : lowerBound levels x = .ok i) : levels.findIdx? (· == x) = some i := by
  have splits : Splits levels.toArray x i i := by
    refine search_splits (by simpa using increasing) level (Nat.zero_le _) (by simp) ?_ done
    intro j other found
    refine ⟨fun front => absurd front (Nat.not_lt_zero j), fun back => ?_⟩
    obtain ⟨inside, _⟩ := Array.getElem?_eq_some_iff.mp found
    rw [size_toArray] at inside
    omega
  obtain ⟨y, mem, same⟩ := known
  obtain ⟨j, inside, rfl⟩ := getElem_of_mem mem
  -- the level of the cell stands neither in front of the place nor behind it
  have placed (k : Nat) (bound : k < levels.length) := splits k levels[k] (by simp [bound])
  have here : j = i := by
    rcases Nat.lt_trichotomy j i with front | eq | back
    · exact absurd ((placed j inside).1 front) (by simp [same])
    · exact eq
    · have earlier := pairwise_iff_getElem.mp increasing.sorted i j (by omega) inside back
      exact absurd (same ▸ earlier) ((placed i (by omega)).2 (Nat.le_refl i))
  subst here
  refine findIdx?_eq_some_iff_getElem.mpr ⟨inside, ?_, fun k front => ?_⟩
  · exact (beq_iff_rank (increasing.proper _ mem) level).mpr same
  · have less := (placed k (by omega)).1 front
    rw [beq_iff_rank (increasing.proper _ (getElem_mem _)) level]
    exact less.ne

end Levels

end ModelFormula
