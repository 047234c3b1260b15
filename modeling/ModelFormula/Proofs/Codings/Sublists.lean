import Mathlib
import ModelFormula.Sublists

/-! The sorted sublists of a list are its sublists, by size and within one size in the lexicographic
order of the positions that they take; numbering, recursion and sorting find the same. Those of a
list without repetitions are its subsets. -/
namespace ModelFormula

open List

variable {α : Type} {xs : List α}

/-- Within one size only the order differs from that of `List.sublistsLen`. -/
lemma sublistsOfSize_perm (n : Nat) (xs : List α) :
    (sublistsOfSize n xs).Perm (xs.sublistsLen n) := by
  induction xs generalizing n with
  | nil => cases n <;> simp [sublistsOfSize]
  | cons x xs ih =>
    cases n with
    | zero => simp [sublistsOfSize]
    | succ n =>
      rw [sublistsOfSize, sublistsLen_succ_cons]
      exact (((ih n).map _).append (ih (n + 1))).trans perm_append_comm

lemma mem_sublistsOfSize {xs ys : List α} :
    ys ∈ sublistsOfSize n xs ↔ ys.Sublist xs ∧ ys.length = n := by
  rw [(sublistsOfSize_perm n xs).mem_iff, mem_sublistsLen]

lemma sublistsOfSize_map {β : Type} (f : α → β) (n : Nat) (xs : List α) :
    sublistsOfSize n (xs.map f) = (sublistsOfSize n xs).map (·.map f) := by
  induction xs generalizing n with
  | nil => cases n <;> rfl
  | cons x xs ih =>
    cases n with
    | zero => rfl
    | succ n => simp [sublistsOfSize, ih, Function.comp_def]

/-- Sublists of an increasing list that take earlier items come first. -/
lemma sublistsOfSize_pairwise {xs : List Nat} (increasing : xs.Pairwise (· < ·)) (n : Nat) :
    (sublistsOfSize n xs).Pairwise (· < ·) := by
  induction xs generalizing n with
  | nil => cases n <;> simp [sublistsOfSize]
  | cons x xs ih =>
    obtain ⟨first, rest⟩ := pairwise_cons.mp increasing
    cases n with
    | zero => simp [sublistsOfSize]
    | succ n =>
      rw [sublistsOfSize, pairwise_append]
      refine ⟨?_, ih rest (n + 1), ?_⟩
      · rw [pairwise_map]
        exact (ih rest n).imp fun less => cons_lt_cons_iff.mpr (.inr ⟨rfl, less⟩)
      · -- a list that takes the head is before one that begins later
        intro p taken q later
        obtain ⟨p, _, rfl⟩ := mem_map.mp taken
        obtain ⟨below, long⟩ := mem_sublistsOfSize.mp later
        cases q with
        | nil => simp at long
        | cons y q =>
          have inside : y ∈ xs := below.subset mem_cons_self
          exact cons_lt_cons_iff.mpr (.inl (first y inside))

lemma sortedSublists_perm (xs : List α) : (sortedSublists xs).Perm xs.sublists' := by
  refine Perm.trans ?_ (range_bind_sublistsLen_perm xs)
  exact Perm.flatMap_left _ fun n _ => sublistsOfSize_perm n xs

@[simp]
lemma mem_sortedSublists {xs ys : List α} : ys ∈ sortedSublists xs ↔ ys.Sublist xs := by
  rw [(sortedSublists_perm xs).mem_iff, mem_sublists']

lemma nodup_sortedSublists (nodup : xs.Nodup) : (sortedSublists xs).Nodup :=
  (sortedSublists_perm xs).nodup_iff.mpr (nodup_sublists'.mpr nodup)

/-- One list of items is shorter than the other, or as long and its numbers come first in the
lexicographic order. -/
def Precedes (f : α → Nat) (ys zs : List α) : Prop :=
  ys.length < zs.length ∨ ys.length = zs.length ∧ ys.map f < zs.map f

lemma sortedSublists_pairwise {f : α → Nat} (increasing : (xs.map f).Pairwise (· < ·)) :
    (sortedSublists xs).Pairwise (Precedes f) := by
  rw [sortedSublists, pairwise_flatMap]
  constructor
  · intro n _
    have positions := sublistsOfSize_pairwise increasing n
    rw [sublistsOfSize_map, pairwise_map] at positions
    refine positions.imp_of_mem fun left right less => .inr ⟨?_, less⟩
    rw [(mem_sublistsOfSize.mp left).2, (mem_sublistsOfSize.mp right).2]
  · refine pairwise_lt_range.imp fun less ys left zs right => .inl ?_
    rwa [(mem_sublistsOfSize.mp left).2, (mem_sublistsOfSize.mp right).2]

/-! ### Sorting numbered items -/

/-- A stable sort keeps the order of the items that it does not tell apart. -/
lemma filter_mergeSort {le : α → α → Bool} (trans : ∀ a b c, le a b → le b c → le a c)
    (total : ∀ a b, le a b || le b a) {p : α → Bool} (ties : ∀ a b, p a → p b → le a b) :
    (xs.mergeSort le).filter p = xs.filter p := by
  have sorted : (xs.filter p).Pairwise (le · ·) :=
    pairwise_of_forall_mem_list fun a left b right =>
      ties a b (of_mem_filter left) (of_mem_filter right)
  -- what is sorted already stays a sublist, and no further item passes
  have kept := (sublist_mergeSort trans total sorted filter_sublist).filter p
  rw [filter_filter] at kept
  simp only [Bool.and_self] at kept
  exact (kept.eq_of_length ((mergeSort_perm xs le).filter p).length_eq.symm).symm

/-- Numbered items are known by their numbers. -/
lemma numbered_inj {ys zs : List (α × Nat)} (left : ys.Sublist xs.zipIdx)
    (right : zs.Sublist xs.zipIdx) (eq : ys.map (·.2) = zs.map (·.2)) : ys = zs := by
  -- each item stands at its number in the whole list
  have restore {us : List (α × Nat)} (sublist : us.Sublist xs.zipIdx) :
      us.map some = (us.map (·.2)).map (xs.zipIdx[·]?) := by
    rw [map_map]
    refine map_congr_left fun p mem => ?_
    simp [mk_mem_zipIdx_iff_getElem?.mp (sublist.subset mem)]
  refine map_injective_iff.mpr (Option.some_injective _) ?_
  rw [restore left, restore right, eq]

lemma pairwise_mergeSort_key {β : Type} [LinearOrder β] (key : α → β) {le : α → α → Bool}
    (order : ∀ a b, le a b ↔ key a ≤ key b) (xs : List α) :
    (xs.mergeSort le).Pairwise fun a b => key a ≤ key b := by
  simp only [← order]
  refine pairwise_mergeSort ?_ ?_ xs
  · simpa only [order] using fun _ _ _ => le_trans
  · simpa [order] using fun _ _ => le_total _ _

/-- Sorting by the numbers and then by the size leaves the sorted sublists. -/
lemma mergeSort_numbered {us : List (List (α × Nat))} {le : List (α × Nat) → _ → Bool}
    (order : ∀ ys zs, le ys zs ↔ ys.map (·.2) ≤ zs.map (·.2)) (perm : us.Perm xs.zipIdx.sublists') :
    ((us.mergeSort le).mergeSort fun ys zs => ys.length ≤ zs.length) = sortedSublists xs.zipIdx := by
  have byNumber := pairwise_mergeSort_key _ order us
  generalize first : us.mergeSort le = vs at byNumber
  have all : vs.Perm (sortedSublists xs.zipIdx) :=
    (first ▸ mergeSort_perm us _).trans (perm.trans (sortedSublists_perm _).symm)
  have bySize := pairwise_mergeSort_key length (fun _ _ => decide_eq_true_iff) vs
  generalize second : vs.mergeSort (fun ys zs => decide (ys.length ≤ zs.length)) = ws at bySize
  have perm : ws.Perm (sortedSublists xs.zipIdx) := (second ▸ mergeSort_perm vs _).trans all
  -- the second sort is stable, so that lists of one size are still ordered by their numbers
  have stable : ws.Pairwise fun ys zs => ys.length = zs.length → ys.map (·.2) ≤ zs.map (·.2) := by
    refine pairwise_iff_forall_sublist.mpr fun {ys zs} pair long => ?_
    have kept := pair.filter (·.length = zs.length)
    rw [← second, filter_mergeSort (by simpa using fun _ _ _ => le_trans)
      (by simpa using fun _ _ => le_total _ _) (by simp +contextual)] at kept
    simp only [long, decide_true, filter_cons_of_pos, filter_nil] at kept
    exact pairwise_iff_forall_sublist.mp byNumber (kept.trans filter_sublist)
  refine perm.eq_of_pairwise ?_ (bySize.and stable) ?_
  · rintro ys zs left right ⟨short, le⟩ ⟨short', le'⟩
    exact numbered_inj (mem_sortedSublists.mp (perm.mem_iff.mp left)) (mem_sortedSublists.mp right)
      (le_antisymm (le (by omega)) (le' (by omega)))
  · have increasing : (xs.zipIdx.map (·.2)).Pairwise (· < ·) := by
      simpa [zipIdx_map_snd] using pairwise_lt_range'
    refine (sortedSublists_pairwise increasing).imp ?_
    rintro ys zs (less | ⟨long, less⟩)
    · exact ⟨less.le, by omega⟩
    · exact ⟨long.le, fun _ => less.le⟩

lemma sortedSubsets_of_split (split : (splitSubsets xs.zipIdx).Perm xs.zipIdx.sublists') :
    sortedSubsets xs = sortedSublists xs := by
  rw [sortedSubsets, mergeSort_numbered ?_ split]
  · simp [sortedSublists, map_flatMap, ← sublistsOfSize_map]
  · simp [← not_lt]

lemma splitSubsets_perm (xs : List α) : (splitSubsets xs).Perm xs.sublists' := by
  -- the items of the recursive call have a number more, so that the induction is on the length
  induction n : xs.length generalizing α with
  | zero => simp [eq_nil_of_length_eq_zero n, splitSubsets]
  | succ n ih =>
    obtain ⟨x, xs, rfl⟩ := exists_cons_of_length_eq_add_one n
    rw [splitSubsets, sortedSubsets_of_split (ih _ (by simpa using n)), sublists'_cons]
    refine (flatMap_append_perm _ (fun ys => [ys]) (fun ys => [x :: ys])).symm.trans ?_
    simpa [← map_eq_flatMap] using (sortedSublists_perm xs).append ((sortedSublists_perm xs).map _)

/-- Numbering, recursion and the two sorts give the sorted sublists. -/
lemma sortedSubsets_eq (xs : List α) : sortedSubsets xs = sortedSublists xs :=
  sortedSubsets_of_split (splitSubsets_perm _)

variable [DecidableEq α]

/-- A sublist of a list without repetitions is known by its set of items. -/
lemma sublist_eq_of_toFinset {xs ys zs : List α} (nodup : xs.Nodup) (left : ys.Sublist xs)
    (right : zs.Sublist xs) (eq : ys.toFinset = zs.toFinset) : ys = zs := by
  refine (nodup.perm_iff_eq_of_sublist left right).mp ?_
  apply (perm_ext_iff_of_nodup (nodup.sublist left) (nodup.sublist right)).mpr
  intro x
  rw [← mem_toFinset, eq, mem_toFinset]

lemma exists_sublist_toFinset {S : Finset α} (subset : S ⊆ xs.toFinset) :
    ∃ ys : List α, ys.Sublist xs ∧ ys.toFinset = S := by
  refine ⟨xs.filter (· ∈ S), filter_sublist, ?_⟩
  ext x
  simp only [mem_toFinset, mem_filter, decide_eq_true_eq, and_iff_right_iff_imp]
  exact fun mem => mem_toFinset.mp (subset mem)

/-- The items of a list stand at increasing positions. -/
lemma pairwise_idxOf (nodup : xs.Nodup) : (xs.map xs.idxOf).Pairwise (· < ·) := by
  rw [pairwise_map, pairwise_iff_getElem]
  intro i j left right less
  rwa [nodup.idxOf_getElem i left, nodup.idxOf_getElem j right]

/-- Items that differ from each other have one sorted subset for each of their sets, `2 ^ n` in all,
each in the order of the list. Shorter ones come first, and of one size those whose positions do. -/
theorem sortedSubsets_enumerate {xs : List α} (nodup : xs.Nodup) :
    (∀ S ⊆ xs.toFinset, ∃! ys, ys ∈ sortedSubsets xs ∧ ys.toFinset = S) ∧
      (sortedSubsets xs).Nodup ∧ (sortedSubsets xs).length = 2 ^ xs.length ∧
      (∀ ys ∈ sortedSubsets xs, ys.Sublist xs) ∧
      (sortedSubsets xs).Pairwise (Precedes xs.idxOf) := by
  rw [sortedSubsets_eq]
  refine ⟨fun S subset => ?_, nodup_sortedSublists nodup, ?_,
    fun ys => mem_sortedSublists.mp, sortedSublists_pairwise (pairwise_idxOf nodup)⟩
  · obtain ⟨ys, sublist, rfl⟩ := exists_sublist_toFinset subset
    refine ⟨ys, ⟨mem_sortedSublists.mpr sublist, rfl⟩, ?_⟩
    rintro zs ⟨member, eq⟩
    exact sublist_eq_of_toFinset nodup (mem_sortedSublists.mp member) sublist eq
  · rw [(sortedSublists_perm xs).length_eq, length_sublists']

/-- Four items have the pair of the last two behind all pairs with the first. -/
theorem sortedSubsets_enumerate_four :
    ["d", "a", "c", "b"].Nodup ∧ (sortedSubsets ["d", "a", "c", "b"]).length = 16 ∧
      ∃! ys, ys ∈ sortedSubsets ["d", "a", "c", "b"] ∧ ys.toFinset = {"b", "d"} := by
  have nodup : ["d", "a", "c", "b"].Nodup := by decide
  obtain ⟨each, _, count, _⟩ := sortedSubsets_enumerate nodup
  exact ⟨nodup, count, each _ (by decide)⟩

/-!
### Choices by number

Choices of one item from each of several lists are numbered in a mixed base: the digits are the
places of the items, and the last digit varies fastest.
-/

variable {α β : Type} {xss : List (List α)}

/-- The digits of a number in a mixed base, the last of which varies fastest. -/
def digits : List Nat → Nat → List Nat
  | [], _ => []
  | _ :: bases, k => k / bases.prod :: digits bases (k % bases.prod)

/-- The items at the given places, one from each list. -/
def picks : List (List α) → List Nat → Option (List α)
  | [], [] => some []
  | xs :: xss, j :: js => do return (← xs[j]?) :: (← picks xss js)
  | _, _ => none

example : (List.range 6).map (digits [2, 3]) = [[0, 0], [0, 1], [0, 2], [1, 0], [1, 1], [1, 2]] := by
  decide

lemma picks_cons (xs : List α) (xss : List (List α)) (j : Nat) (js : List Nat) :
    picks (xs :: xss) (j :: js) = xs[j]?.bind fun x => (picks xss js).map (x :: ·) := by
  rw [picks]
  cases xs[j]? with
  | none => rfl
  | some x => cases picks xss js <;> rfl

lemma length_choices (xss : List (List α)) :
    (choices xss).length = (xss.map List.length).prod := by
  induction xss with
  | nil => rfl
  | cons xs xss ih =>
    rw [choices, map_cons, prod_cons, length_flatMap]
    simp [ih]

/-- Parts of one length, one after the other: the place of an item is that of its part and that within
the part. -/
lemma getElem?_flatMap_of_length {f : α → List β} {xs : List α} (pos : 0 < n)
    (each : ∀ x ∈ xs, (f x).length = n) (k : Nat) :
    (xs.flatMap f)[k]? = xs[k / n]?.bind fun x => (f x)[k % n]? := by
  induction xs generalizing k with
  | nil => simp
  | cons x xs ih =>
    obtain ⟨first, others⟩ := forall_mem_cons.mp each
    rw [flatMap_cons]
    rcases Nat.lt_or_ge k n with inside | behind
    · rw [getElem?_append_left (by omega), Nat.div_eq_of_lt inside, Nat.mod_eq_of_lt inside]
      rfl
    · obtain ⟨l, rfl⟩ := Nat.exists_eq_add_of_le behind
      rw [getElem?_append_right (by omega), first, Nat.add_sub_cancel_left, ih others,
        Nat.add_div_left _ pos, Nat.add_mod_left]
      rfl

/-- The choice with a number has the items at its digits. -/
lemma getElem?_choices (bound : k < (xss.map List.length).prod) :
    (choices xss)[k]? = picks xss (digits (xss.map List.length) k) := by
  induction xss generalizing k with
  | nil =>
    obtain rfl : k = 0 := by simpa using bound
    rfl
  | cons xs xss ih =>
    rw [map_cons, prod_cons] at bound
    have pos : 0 < (xss.map List.length).prod := by
      apply Nat.pos_of_ne_zero
      intro zero
      simp [zero] at bound
    rw [choices, getElem?_flatMap_of_length pos (by simp [length_choices]), map_cons,
      digits, picks_cons]
    congr 1
    funext x
    rw [getElem?_map, ih (Nat.mod_lt _ pos)]

lemma exists_picks (bound : k < (xss.map List.length).prod) :
    ∃ xs, picks xss (digits (xss.map List.length) k) = some xs := by
  rw [← getElem?_choices bound]
  exact ⟨_, getElem?_eq_getElem (by rwa [length_choices])⟩

/-- Lists that take no part in a choice are left out of it. -/
lemma choices_filterMap (xss : List (Option (List α))) : choices (xss.filterMap id) =
      (choices (xss.map fun xs? => (xs?.map (·.map some)).getD [none])).map (·.filterMap id) := by
  induction xss with
  | nil => rfl
  | cons xs? xss ih =>
    cases xs? with
    | none => simpa [choices, Function.comp_def] using ih
    | some xs =>
      have first : (some xs :: xss).filterMap id = xs :: xss.filterMap id := rfl
      rw [first, choices, ih, map_cons, choices, Option.map_some,
        Option.getD_some, map_flatMap, flatMap_map]
      congr 1
      funext x
      simp [Function.comp_def]

end ModelFormula
