import Mathlib.Data.List.Forall2
import ModelFormula.Polynomial

/-!
# The memory of orthogonal polynomials

Begun again with all that it has remembered, the recurrence gives the same polynomials and learns
nothing. Where all coefficients are known, the value at a point depends on that point alone.
-/
namespace ModelFormula.Polynomial

open List

section Order

variable {K : Type} {known : List (Nat × K)}

/-- What the first memory knows the second knows too. -/
structure Memory.Le (m n : Memory K) : Prop where
  alpha : ∀ i a, known? m.alpha i = some a → known? n.alpha i = some a
  norms : ∀ i a, known? m.norms i = some a → known? n.norms i = some a

lemma Memory.Le.refl (m : Memory K) : m.Le m := ⟨fun _ _ => id, fun _ _ => id⟩

lemma Memory.Le.trans {m n o : Memory K} (first : m.Le n) (second : n.Le o) : m.Le o :=
  ⟨fun i a found => second.alpha i a (first.alpha i a found),
    fun i a found => second.norms i a (first.norms i a found)⟩

lemma known?_append {a : K} (more : List (Nat × K)) (found : known? known i = some a) :
    known? (known ++ more) i = some a := by
  obtain ⟨p, first, rfl⟩ := Option.map_eq_some_iff.mp found
  simp [known?, find?_append, first]

lemma known?_append_self {a : K} (unknown : known? known k = none) :
    known? (known ++ [(k, a)]) k = some a := by
  have absent : known.find? (·.1 == k) = none := Option.map_eq_none_iff.mp unknown
  simp [known?, find?_append, absent]

/-- All that polynomials up to a degree need is known. -/
structure Knows (degree : Nat) (m : Memory K) : Prop where
  alpha : ∀ i < degree, ∃ a, known? m.alpha i = some a
  norms : ∀ i ≤ degree, ∃ n, known? m.norms i = some n

end Order

variable {K : Type} [Scalar K] {α β : Type}

section Coefficients

variable (total : Summation K) (xs p : List K) (k : Nat) (m : Memory K)

lemma alphaOf_of_known {a : K} (found : known? m.alpha k = some a) :
    alphaOf total xs p k m = (a, m) := by
  simp [alphaOf, found]

lemma alphaOf_le : m.Le (alphaOf total xs p k m).2 := by
  unfold alphaOf
  split
  · exact Memory.Le.refl m
  · exact ⟨fun _ _ => known?_append _, fun _ _ => id⟩

lemma alphaOf_known :
    known? (alphaOf total xs p k m).2.alpha k = some (alphaOf total xs p k m).1 := by
  unfold alphaOf
  split
  next found => exact found
  next unknown => exact known?_append_self unknown

lemma normOf_of_known {n : K} (found : known? m.norms k = some n) : normOf p k m = (n, m) := by
  simp [normOf, found]

lemma normOf_le : m.Le (normOf p k m).2 := by
  unfold normOf
  split
  · exact Memory.Le.refl m
  · exact ⟨fun _ _ => id, fun _ _ => known?_append _⟩

lemma normOf_known : known? (normOf p k m).2.norms k = some (normOf p k m).1 := by
  unfold normOf
  split
  next found => exact found
  next unknown => exact known?_append_self unknown

end Coefficients

/-! ### Begun again -/

section Settling

variable {K : Type}

/-- The computation only adds to the memory, and begun again with at least what it has left behind it
gives the same and adds nothing. -/
structure Settles (f : Memory K → α × Memory K) (m : Memory K) : Prop where
  grows : m.Le (f m).2
  again : ∀ n, (f m).2.Le n → f n = ((f m).1, n)

lemma settles_pure (a : α) (m : Memory K) : Settles (fun m => (a, m)) m :=
  ⟨Memory.Le.refl m, fun _ _ => rfl⟩

lemma Settles.bind {f : Memory K → α × Memory K} {m : Memory K} (first : Settles f m)
    (g : α → Memory K → β × Memory K) (second : Settles (g (f m).1) (f m).2) :
    Settles (fun m => g (f m).1 (f m).2) m := by
  refine ⟨first.grows.trans second.grows, fun n above => ?_⟩
  rw [first.again n (second.grows.trans above)]
  exact second.again n above

end Settling

lemma settles_alphaOf (total : Summation K) (xs p : List K) (k : Nat) (m : Memory K) :
    Settles (alphaOf total xs p k) m :=
  ⟨alphaOf_le total xs p k m, fun n above =>
    alphaOf_of_known total xs p k n (above.alpha k _ (alphaOf_known total xs p k m))⟩

lemma settles_normOf (p : List K) (k : Nat) (m : Memory K) : Settles (normOf p k) m :=
  ⟨normOf_le p k m, fun n above => normOf_of_known p k n (above.norms k _ (normOf_known p k m))⟩

/-- The part of the recurrence that takes the polynomial before the last one into account. -/
def corrected (p o : List K) (k : Nat) (q : List K) (m : Memory K) : List K × Memory K :=
  let (n, m) := normOf p k m
  let (n', m) := normOf o (k - 1) m
  (zipWith (fun u v => u - n / n' * v) q o, m)

lemma settles_corrected (p o : List K) (k : Nat) (q : List K) (m : Memory K) :
    Settles (corrected p o k q) m := by
  apply (settles_normOf p k m).bind fun n m =>
    let (n', m) := normOf o (k - 1) m
    (zipWith (fun u v => u - n / n' * v) q o, m)
  apply (settles_normOf o (k - 1) _).bind fun n' m => (zipWith (fun u v => u - _ / n' * v) q o, m)
  exact settles_pure _ _

lemma settles_next (total : Summation K) (xs : List K) (k : Nat) (before : Option (List K))
    (p : List K) (m : Memory K) : Settles (next total xs k before p) m := by
  cases before with
  | none =>
    apply (settles_alphaOf total xs p k m).bind fun a m =>
      (zipWith (fun x v => (x - a) * v) xs p, m)
    exact settles_pure _ _
  | some o =>
    apply (settles_alphaOf total xs p k m).bind fun a m =>
      corrected p o k (zipWith (fun x v => (x - a) * v) xs p) m
    exact settles_corrected p o k _ _

lemma settles_following (total : Summation K) (xs : List K) (n k : Nat)
    (before : Option (List K)) (p : List K) (m : Memory K) :
    Settles (following total xs n k before p) m := by
  induction n generalizing k before p m with
  | zero => exact settles_pure [] m
  | succ n ih =>
    apply (settles_next total xs k before p m).bind fun q m =>
      (q :: (following total xs n (k + 1) (some p) q m).1,
        (following total xs n (k + 1) (some p) q m).2)
    apply (ih (k + 1) (some p) _ _).bind fun rest m => (_ :: rest, m)
    exact settles_pure _ _

/-- Takes the norm of one more polynomial. -/
def addNorm (state : List K × Memory K) (item : List K × Nat) : List K × Memory K :=
  let (n, m) := normOf item.1 item.2 state.2
  (state.1 ++ [n], m)

lemma settles_addNorms (items : List (List K × Nat)) (ns : List K) (m : Memory K) :
    Settles (fun m => items.foldl addNorm (ns, m)) m := by
  induction items generalizing ns m with
  | nil => exact settles_pure ns m
  | cons item items ih =>
    apply (settles_normOf item.1 item.2 m).bind fun n m => items.foldl addNorm (ns ++ [n], m)
    exact ih _ _

lemma settles_allNorms (ps : List (List K)) (m : Memory K) : Settles (allNorms ps) m :=
  settles_addNorms ps.zipIdx [] m

lemma settles_monic (total : Summation K) (xs : List K) (degree : Nat) (m : Memory K) :
    Settles (monic total xs degree) m := by
  apply (settles_following total xs degree 0 none _ m).bind fun rest m => (_ :: rest, m)
  exact settles_pure _ _

/-- The polynomials after the first, divided by the roots of the norms. -/
def divided (root : K → K) (ps : List (List K)) (ns : List K) : List (List K) :=
  (zipWith (fun p n => p.map (· / root n)) ps ns).drop 1

section

variable (root : K → K) (total : Summation K) (xs : List K) (degree : Nat) (m : Memory K)

lemma scaled_eq : scaled root total xs degree m =
      let (ps, m) := monic total xs degree m
      let (ns, m) := allNorms ps m
      (divided root ps ns, m) := rfl

lemma settles_scaled : Settles (scaled root total xs degree) m := by
  have norms (ps : List (List K)) (m : Memory K) :
      Settles (fun m => (divided root ps (allNorms ps m).1, (allNorms ps m).2)) m :=
    (settles_allNorms ps m).bind (fun ns m => (divided root ps ns, m)) (settles_pure _ _)
  exact (settles_monic total xs degree m).bind
    (fun ps m => (divided root ps (allNorms ps m).1, (allNorms ps m).2)) (norms _ _)

/-- The polynomials of the points that were seen first are the same when they are computed again. -/
lemma scaled_again : scaled root total xs degree (scaled root total xs degree m).2 =
      scaled root total xs degree m :=
  (settles_scaled root total xs degree m).again _ (Memory.Le.refl _)

end

/-! ### What is known afterwards -/

section

variable (total : Summation K) (xs : List K)

lemma next_knows (k : Nat) (before : Option (List K)) (p : List K) (m : Memory K) :
    ∃ a, known? (next total xs k before p m).2.alpha k = some a := by
  have known := alphaOf_known total xs p k m
  cases before with
  | none => exact ⟨_, known⟩
  | some o => exact ⟨_, (settles_corrected p o k _ _).grows.alpha k _ known⟩

lemma following_knows (n k : Nat) (before : Option (List K)) (p : List K) (m : Memory K)
    (low : k ≤ i) (high : i < k + n) :
    ∃ a, known? (following total xs n k before p m).2.alpha i = some a := by
  induction n generalizing k before p m with
  | zero => omega
  | succ n ih =>
    by_cases first : i = k
    · subst first
      obtain ⟨a, known⟩ := next_knows total xs i before p m
      exact ⟨a, (settles_following total xs n (i + 1) (some p) _ _).grows.alpha i a known⟩
    · exact ih (k + 1) (some p) _ _ (by omega) (by omega)

lemma length_following (n k : Nat) (before : Option (List K)) (p : List K) (m : Memory K) :
    (following total xs n k before p m).1.length = n := by
  induction n generalizing k before p m with
  | zero => rfl
  | succ n ih => exact congrArg (· + 1) (ih (k + 1) (some p) _ _)

lemma length_monic (degree : Nat) (m : Memory K) :
    (monic total xs degree m).1.length = degree + 1 :=
  congrArg (· + 1) (length_following total xs degree 0 none _ m)

end

lemma addNorms_knows (items : List (List K × Nat)) (ns : List K) (m : Memory K)
    {item : List K × Nat} (mem : item ∈ items) :
    ∃ n, known? (items.foldl addNorm (ns, m)).2.norms item.2 = some n := by
  induction items generalizing ns m with
  | nil => cases mem
  | cons first items ih =>
    rcases mem_cons.mp mem with rfl | later
    · exact ⟨_, (settles_addNorms items _ _).grows.norms _ _ (normOf_known item.1 item.2 m)⟩
    · exact ih _ _ later

lemma allNorms_knows {ps : List (List K)} (m : Memory K) (bound : i < ps.length) :
    ∃ n, known? (allNorms ps m).2.norms i = some n := by
  have mem : (ps[i], i) ∈ ps.zipIdx := mk_mem_zipIdx_iff_getElem?.mpr (getElem?_eq_getElem bound)
  exact addNorms_knows ps.zipIdx [] m mem

lemma scaled_knows (root : K → K) (total : Summation K) (xs : List K) (degree : Nat)
    (m : Memory K) : Knows degree (scaled root total xs degree m).2 := by
  rw [scaled_eq]
  constructor
  · intro i small
    obtain ⟨a, known⟩ : ∃ a, known? (monic total xs degree m).2.alpha i = some a :=
      following_knows total xs degree 0 none _ m (Nat.zero_le i) (by omega)
    exact ⟨a, (settles_allNorms _ _).grows.alpha i a known⟩
  · intro i small
    apply allNorms_knows
    rw [length_monic]
    omega

/-! ### Points apart -/

section Rows

variable {xs xs' : List K} {r r' : Nat} {m : Memory K} {degree : Nat}
  {before before' : Option (List K)}

lemma next_none_of_known (total : Summation K) {p : List K} {a : K}
    (alpha : known? m.alpha k = some a) :
    next total xs k none p m = (zipWith (fun x v => (x - a) * v) xs p, m) := by
  simp only [next, alphaOf_of_known _ _ _ _ _ alpha]

lemma next_some_of_known (total : Summation K) {p o : List K} {a n n' : K}
    (alpha : known? m.alpha k = some a) (norm : known? m.norms k = some n)
    (norm' : known? m.norms (k - 1) = some n') :
    next total xs k (some o) p m =
      (zipWith (fun u v => u - n / n' * v) (zipWith (fun x v => (x - a) * v) xs p) o, m) := by
  simp only [next, alphaOf_of_known _ _ _ _ _ alpha, normOf_of_known _ _ _ norm,
    normOf_of_known _ _ _ norm']

lemma next_rows (total total' : Summation K) (knows : Knows degree m) (points : xs[r]? = xs'[r']?)
    (bound : k < degree) {p p' : List K} (here : p[r]? = p'[r']?)
    (earlier : Option.Rel (fun o o' => o[r]? = o'[r']?) before before') :
    ∃ q q', next total xs k before p m = (q, m) ∧ next total' xs' k before' p' m = (q', m) ∧
      q[r]? = q'[r']? := by
  obtain ⟨a, alpha⟩ := knows.alpha k bound
  obtain ⟨s, norm⟩ := knows.norms k (by omega)
  obtain ⟨s', norm'⟩ := knows.norms (k - 1) (by omega)
  cases earlier with
  | none =>
    refine ⟨_, _, next_none_of_known total alpha, next_none_of_known total' alpha, ?_⟩
    simp only [getElem?_zipWith, points, here]
  | some related =>
    refine ⟨_, _, next_some_of_known total alpha norm norm',
      next_some_of_known total' alpha norm norm', ?_⟩
    simp only [getElem?_zipWith, points, here, related]

/-- Where all is known, the memory stays, and equal points have equal values. -/
lemma following_rows (total total' : Summation K) (knows : Knows degree m)
    (points : xs[r]? = xs'[r']?) (bound : k + n ≤ degree) {p p' : List K} (here : p[r]? = p'[r']?)
    (earlier : Option.Rel (fun o o' => o[r]? = o'[r']?) before before') :
    (following total xs n k before p m).2 = m ∧ (following total' xs' n k before' p' m).2 = m ∧
      Forall₂ (fun q q' => q[r]? = q'[r']?) (following total xs n k before p m).1
        (following total' xs' n k before' p' m).1 := by
  induction n generalizing k before before' p p' with
  | zero => exact ⟨rfl, rfl, .nil⟩
  | succ n ih =>
    obtain ⟨q, q', left, right, value⟩ :=
      next_rows total total' knows points (by omega : k < degree) here earlier
    obtain ⟨stays, stays', rest⟩ := ih (k := k + 1) (by omega) value (.some here)
    simp only [following, left, right]
    exact ⟨stays, stays', .cons value rest⟩

lemma addNorms_of_known (items : List (List K × Nat)) (ns : List K)
    (known : ∀ item ∈ items, ∃ n, known? m.norms item.2 = some n) :
    items.foldl addNorm (ns, m) = (ns ++ items.filterMap (known? m.norms ·.2), m) := by
  induction items generalizing ns with
  | nil => simp
  | cons item items ih =>
    obtain ⟨⟨n, found⟩, others⟩ := forall_mem_cons.mp known
    rw [foldl_cons, addNorm, normOf_of_known _ _ _ found, ih _ others]
    simp [found]

/-- Where the norms are known, they do not depend on the polynomials. -/
lemma allNorms_of_known {ps : List (List K)} (knows : Knows degree m)
    (long : ps.length = degree + 1) :
    allNorms ps m = ((range (degree + 1)).filterMap (known? m.norms), m) := by
  have places : (range (degree + 1)).filterMap (known? m.norms) =
      ps.zipIdx.filterMap (known? m.norms ·.2) := by
    rw [← long, range_eq_range', ← zipIdx_map_snd 0 ps, filterMap_map]
    rfl
  rw [places]
  refine addNorms_of_known ps.zipIdx [] fun item mem => ?_
  have bound := snd_lt_of_mem_zipIdx mem
  exact knows.norms item.2 (by omega)

/-- Where all is known, the memory stays, and equal points have equal values in all columns. -/
lemma scaled_rows (root : K → K) (total total' : Summation K) (knows : Knows degree m)
    (points : xs[r]? = xs'[r']?) :
    (scaled root total xs degree m).2 = m ∧
      Forall₂ (fun q q' => q[r]? = q'[r']?) (scaled root total xs degree m).1
        (scaled root total' xs' degree m).1 := by
  have ones : (xs.map fun _ => (Scalar.ofNat 1 : K))[r]? =
      (xs'.map fun _ => (Scalar.ofNat 1 : K))[r']? := by
    simp only [getElem?_map, points]
  obtain ⟨stays, stays', rest⟩ :=
    following_rows total total' knows points (Nat.le_of_eq (Nat.zero_add degree)) ones .none
  have monicStays : (monic total xs degree m).2 = m := stays
  have monicStays' : (monic total' xs' degree m).2 = m := stays'
  have values : Forall₂ (fun q q' => q[r]? = q'[r']?) (monic total xs degree m).1
      (monic total' xs' degree m).1 := .cons ones rest
  have norms := allNorms_of_known knows (length_monic total xs degree m)
  have norms' := allNorms_of_known knows (length_monic total' xs' degree m)
  simp only [scaled_eq, monicStays, monicStays', norms, norms', true_and, divided]
  generalize (range (degree + 1)).filterMap (known? m.norms) = ns
  generalize (monic total xs degree m).1 = ps at values
  generalize (monic total' xs' degree m).1 = ps' at values
  apply forall₂_drop
  clear norms norms'
  induction values generalizing ns with
  | nil => exact .nil
  | cons first _ ih =>
    cases ns with
    | nil => exact .nil
    | cons n ns => exact .cons (by simp only [getElem?_map, first]) (ih ns)

end Rows

end ModelFormula.Polynomial
