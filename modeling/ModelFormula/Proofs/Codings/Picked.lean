import ModelFormula.Proofs.Codings.Families

/-!
# Renaming factors

Which codings are chosen depends on the names of the factors only through their equality: a renaming
that tells the same names apart gives the same codings, renamed.
-/
namespace ModelFormula

open List

lemma sortedSublists_map {α β : Type} (f : α → β) (xs : List α) :
    sortedSublists (xs.map f) = (sortedSublists xs).map (·.map f) := by
  simp [sortedSublists, sublistsOfSize_map, map_flatMap]

namespace Coding

variable {α β κ : Type}

def Factor.map (f : α → β) (x : Factor α) : Factor β := ⟨f x.name, x.spansIntercept⟩

def Subterm.map (f : α → β) (s : Subterm α) : Subterm β := ⟨s.factors.map (Factor.map f)⟩

def Flags.rename (f : α → β) (c : Flags α) : Flags β := c.map fun p => (f p.1, p.2)

lemma Subterm.coding_map (f : α → β) (s : Subterm α) : (s.map f).coding = s.coding.rename f := by
  simp [coding, map, Flags.rename, Factor.map]

variable [BEq α] [BEq β] {f : α → β}

/-- The renaming tells the same names apart. -/
def Apart (f : α → β) : Prop := ∀ x y, (f x == f y) = (x == y)

lemma Factor.beq_eq (a b : Factor α) :
    (a == b) = (a.name == b.name && a.spansIntercept == b.spansIntercept) := rfl

lemma Apart.factor (apart : Apart f) : Apart (Factor.map f) := by
  intro x y
  simp only [Factor.beq_eq, Factor.map, apart x.name y.name]

lemma Apart.contains (apart : Apart f) (xs : List α) (y : α) :
    (xs.map f).contains (f y) = xs.contains y := by
  induction xs with
  | nil => rfl
  | cons x xs ih => simp [contains_cons, apart y x, ih]

lemma Apart.eraseDups (apart : Apart f) (xs : List α) :
    (xs.map f).eraseDups = xs.eraseDups.map f := by
  -- `eraseDups` goes on with a filtered list, so the induction is on the length
  induction hn : xs.length using Nat.strongRecOn generalizing xs with
  | ind n ih =>
    cases xs with
    | nil => simp
    | cons x xs =>
      have shorter : (xs.filter fun y => !y == x).length < n := by
        have := length_filter_le (fun y => !y == x) xs
        rw [length_cons] at hn
        omega
      have others : (xs.map f).filter (fun y => !y == f x) = (xs.filter fun y => !y == x).map f := by
        simp [filter_map, Function.comp_def, apart _ x]
      rw [map_cons, eraseDups_cons, eraseDups_cons, others, ih _ shorter _ rfl, map_cons]

namespace Subterm

variable (apart : Apart f)
include apart

lemma ofFactors_map (factors : List (Factor α)) :
    ofFactors (factors.map (Factor.map f)) = (ofFactors factors).map f := by
  simp [ofFactors, map, apart.factor.eraseDups]

lemma includes_map (a b : Subterm α) : (a.map f).includes (b.map f) = a.includes b := by
  simp only [includes, map, all_map, Function.comp_def]
  simp only [apart.factor.contains]

lemma same_map (a b : Subterm α) : (a.map f).same (b.map f) = a.same b := by
  rw [same, same, includes_map apart]
  simp [map]

lemma canAbsorb_map (a b : Subterm α) : (a.map f).canAbsorb (b.map f) = a.canAbsorb b := by
  rw [canAbsorb, canAbsorb, includes_map apart]
  simp [map]

lemma absorb_map (a b : Subterm α) : (a.map f).absorb (b.map f) = (a.absorb b).map (map f) := by
  have lacking : (a.map f).factors.filter (!(b.map f).factors.contains ·) =
      (a.factors.filter (!b.factors.contains ·)).map (Factor.map f) := by
    simp only [map, filter_map, Function.comp_def]
    simp only [apart.factor.contains]
  have full (x : Factor α) : (b.map f).factors.contains ⟨f x.name, true⟩ =
      b.factors.contains ⟨x.name, true⟩ :=
    apart.factor.contains b.factors ⟨x.name, true⟩
  rw [absorb, absorb, lacking]
  cases a.factors.filter (!b.factors.contains ·) with
  | nil => rfl
  | cons x rest =>
    cases rest with
    | nil =>
      simp only [map_cons, map_nil, Factor.map, full]
      split
      · rfl
      · split <;> simp [Except.map, map, Factor.map]
    | cons => rfl

end Subterm

omit [BEq β] in
lemma merge_eq (subterms : List (Subterm α)) : merge subterms = (mergeOnce subterms).bind fun
      | none => .ok subterms
      | some merged => merge merged := by
  rw [merge]
  split
  next found => rw [found]; rfl
  next found => rw [found]; rfl
  next found => rw [found]; rfl

section Merging

variable (apart : Apart f)
include apart

lemma absorbInto_map (short : Subterm α) (rest : List (Subterm α)) :
    absorbInto (short.map f) (rest.map (Subterm.map f)) =
      (absorbInto short rest).map (Option.map (List.map (Subterm.map f))) := by
  induction rest with
  | nil => rfl
  | cons long rest ih =>
    simp only [map_cons, absorbInto, Subterm.canAbsorb_map apart]
    split
    · rw [Subterm.absorb_map apart]
      cases long.absorb short <;> rfl
    · rw [ih]
      cases absorbInto short rest with
      | error fault => rfl
      | ok found => cases found <;> rfl

lemma mergeOnce_map (subterms : List (Subterm α)) : mergeOnce (subterms.map (Subterm.map f)) =
      (mergeOnce subterms).map (Option.map (List.map (Subterm.map f))) := by
  induction subterms with
  | nil => rfl
  | cons s rest ih =>
    simp only [map_cons, mergeOnce, absorbInto_map apart, ih]
    cases absorbInto s rest with
    | error fault => rfl
    | ok found =>
      cases found with
      | some merged => rfl
      | none =>
        cases mergeOnce rest with
        | error fault => rfl
        | ok found => cases found <;> rfl

lemma merge_map (subterms : List (Subterm α)) :
    merge (subterms.map (Subterm.map f)) = (merge subterms).map (List.map (Subterm.map f)) := by
  induction subterms using merge.induct with
  | case1 subterms fault found =>
    rw [merge_eq, merge_eq subterms, mergeOnce_map apart, found]
    rfl
  | case2 subterms found =>
    rw [merge_eq, merge_eq subterms, mergeOnce_map apart, found]
    rfl
  | case3 subterms merged found ih =>
    rw [merge_eq, merge_eq subterms, mergeOnce_map apart, found]
    exact ih

lemma unused_map (used : List (Subterm α)) (factors : List α) :
    unused (used.map (Subterm.map f)) (factors.map f) =
      (unused used factors).map (Subterm.map f) := by
  have plain : (fun names : List β => Subterm.ofFactors (names.map fun name => ⟨name, false⟩)) ∘
      (·.map f) = Subterm.map f ∘
        fun names : List α => Subterm.ofFactors (names.map fun name => ⟨name, false⟩) := by
    funext names
    simp only [Function.comp_apply, ← Subterm.ofFactors_map apart]
    simp [Factor.map, Function.comp_def]
  have known : (fun s => !(used.map (Subterm.map f)).any (·.same s)) ∘ Subterm.map f =
      fun s => !used.any (·.same s) := by
    funext s
    simp [any_map, Function.comp_def, Subterm.same_map apart]
  rw [unused, unused, sortedSublists_map, map_map, plain, ← map_map, filter_map, known]

lemma pick_go_map (used : List (Subterm α)) (group : List (κ × List α)) :
    pick.go (used.map (Subterm.map f)) (group.map fun t => (t.1, t.2.map f)) =
      (pick.go used group).map (List.map fun t => (t.1, t.2.map (Flags.rename f))) := by
  induction group generalizing used with
  | nil => rfl
  | cons t rest ih =>
    simp only [map_cons, pick.go, unused_map apart, merge_map apart, ← map_append, ih]
    cases merge (unused used t.2) with
    | error fault => rfl
    | ok merged =>
      simp only [Except.map, bind, Except.bind]
      cases pick.go (used ++ unused used t.2) rest with
      | error fault => rfl
      | ok picked => simp [pure, Except.pure, Function.comp_def, Subterm.coding_map]

/-- Renaming the factors renames the codings. -/
lemma pick_map (group : List (κ × List α)) : pick (group.map fun t => (t.1, t.2.map f)) =
      (pick group).map (List.map fun t => (t.1, t.2.map (Flags.rename f))) :=
  pick_go_map apart [] group

end Merging

/-!
### Subterms in use

Names of factors count up to their equality. A subterm of a term is unused exactly if no earlier term
has all of its names, so the terms in front of a term decide on what is new in it.
-/

/-- No two of the names are equal. -/
def NamesApart (xs : List α) : Prop := xs.Pairwise fun x y => (x == y) = false

/-- Each name of the first list equals one of the second. -/
def NamesBelow (xs ys : List α) : Prop := ∀ x ∈ xs, ∃ y ∈ ys, (x == y) = true

variable {xs ys : List α}

lemma NamesBelow.of_subset (below : NamesBelow ys zs) (subset : xs ⊆ ys) : NamesBelow xs zs :=
  fun x mem => below x (subset mem)

lemma NamesBelow.mono (below : NamesBelow xs ys) (subset : ys ⊆ zs) : NamesBelow xs zs := by
  intro x mem
  obtain ⟨y, among, eq⟩ := below x mem
  exact ⟨y, subset among, eq⟩

variable [PartialEquivBEq α]

lemma NamesBelow.trans (first : NamesBelow xs ys) (second : NamesBelow ys zs) :
    NamesBelow xs zs := by
  intro x mem
  obtain ⟨y, among, eq⟩ := first x mem
  obtain ⟨z, inside, eq'⟩ := second y among
  exact ⟨z, inside, BEq.trans eq eq'⟩

/-- Different names need different places. -/
lemma NamesBelow.length_le (apart : NamesApart xs) (below : NamesBelow xs ys) :
    xs.length ≤ ys.length := by
  induction xs generalizing ys with
  | nil => exact Nat.zero_le _
  | cons x xs ih =>
    obtain ⟨fresh, apart⟩ := pairwise_cons.mp apart
    obtain ⟨y, among, eq⟩ := below x mem_cons_self
    have rest : NamesBelow xs (ys.filter fun z => !(x == z)) := by
      intro x' mem
      obtain ⟨y', among', eq'⟩ := below x' (mem_cons_of_mem x mem)
      refine ⟨y', mem_filter.mpr ⟨among', ?_⟩, eq'⟩
      -- a place that both would take makes them equal
      rw [Bool.not_eq_true']
      by_contra taken
      have same : x == x' := BEq.trans (Bool.of_not_eq_false taken) (BEq.symm eq')
      rw [fresh x' mem] at same
      cases same
    have fewer : (ys.filter fun z => !(x == z)).length < ys.length := by
      apply length_filter_lt_length_iff_exists.mpr
      exact ⟨y, among, by simp [eq]⟩
    exact Nat.succ_le_of_lt (Nat.lt_of_le_of_lt (ih apart rest) fewer)

/-- The names of the second list that are equal to one of the first. -/
lemma exists_sublist_same (apart : NamesApart xs) (apart' : NamesApart ys)
    (below : NamesBelow xs ys) :
    ∃ zs, zs.Sublist ys ∧ NamesBelow xs zs ∧ NamesBelow zs xs ∧ zs.length = xs.length := by
  let zs := ys.filter fun y => xs.any (· == y)
  have sublist : zs.Sublist ys := filter_sublist
  have up : NamesBelow xs zs := by
    intro x mem
    obtain ⟨y, among, eq⟩ := below x mem
    exact ⟨y, mem_filter.mpr ⟨among, any_eq_true.mpr ⟨x, mem, eq⟩⟩, eq⟩
  have down : NamesBelow zs xs := by
    intro y mem
    obtain ⟨x, among, eq⟩ := any_eq_true.mp (mem_filter.mp mem).2
    exact ⟨x, among, BEq.symm eq⟩
  refine ⟨zs, sublist, up, down, ?_⟩
  exact Nat.le_antisymm (down.length_le (apart'.sublist sublist)) (up.length_le apart)

/-! ### What is in use -/

/-- Each of the factors reduced. -/
def plain (names : List α) : Subterm α := ⟨names.map fun name => ⟨name, false⟩⟩

omit [PartialEquivBEq α] in
lemma same_plain_iff : (plain xs).same (plain ys) ↔ xs.length = ys.length ∧ NamesBelow ys xs := by
  simp [Subterm.same, Subterm.includes, NamesBelow, plain, Factor.beq_eq]

/-- The subterms in use are those of the earlier terms, up to equality of names. -/
def InUse (used : List (Subterm α)) (earlier : List (List α)) : Prop :=
  ∀ names, NamesApart names →
    (used.any (·.same (plain names)) = true ↔ ∃ factors ∈ earlier, NamesBelow names factors)

variable {used : List (Subterm α)} {earlier : List (List α)} {factors : List α}

lemma ofFactors_of_apart {names : List α} (apart : NamesApart names) :
    Subterm.ofFactors (names.map fun name => ⟨name, false⟩) = plain names := by
  rw [Subterm.ofFactors, plain]
  congr 1
  induction names with
  | nil => rfl
  | cons x names ih =>
    obtain ⟨fresh, apart⟩ := pairwise_cons.mp apart
    have kept : (names.map fun name => (⟨name, false⟩ : Factor α)).filter
        (fun f => !f == ⟨x, false⟩) = names.map fun name => ⟨name, false⟩ := by
      apply filter_eq_self.mpr
      intro f mem
      obtain ⟨y, among, rfl⟩ := mem_map.mp mem
      rw [Factor.beq_eq, BEq.comm, fresh y among]
      rfl
    rw [map_cons, eraseDups_cons, kept, ih apart]

section

variable (inUse : InUse used earlier) (apart : NamesApart factors)
include inUse apart

lemma mem_unused {s : Subterm α} :
    s ∈ unused used factors ↔ ∃ names, names.Sublist factors ∧ s = plain names ∧
      ∀ other ∈ earlier, ¬ NamesBelow names other := by
  rw [unused, mem_filter, mem_map, Bool.not_eq_true']
  constructor
  · rintro ⟨⟨names, listed, rfl⟩, free⟩
    have sublist := mem_sortedSublists.mp listed
    rw [ofFactors_of_apart (apart.sublist sublist)] at free ⊢
    refine ⟨names, sublist, rfl, fun other mem below => ?_⟩
    rw [(inUse names (apart.sublist sublist)).mpr ⟨other, mem, below⟩] at free
    cases free
  · rintro ⟨names, sublist, rfl, free⟩
    refine ⟨⟨names, mem_sortedSublists.mpr sublist, ofFactors_of_apart (apart.sublist sublist)⟩, ?_⟩
    by_contra taken
    obtain ⟨other, mem, below⟩ :=
      (inUse names (apart.sublist sublist)).mp (Bool.of_not_eq_false taken)
    exact free other mem below

/-- A term adds its own factors to those in use. -/
lemma InUse.append : InUse (used ++ unused used factors) (factors :: earlier) := by
  intro names apart'
  rw [any_append, Bool.or_eq_true, inUse names apart', any_eq_true]
  constructor
  · rintro (⟨other, mem, below⟩ | ⟨s, mem, same⟩)
    · exact ⟨other, mem_cons_of_mem _ mem, below⟩
    · obtain ⟨part, sublist, rfl, _⟩ := (mem_unused inUse apart).mp mem
      obtain ⟨_, below⟩ := same_plain_iff.mp same
      exact ⟨factors, mem_cons_self, below.mono sublist.subset⟩
  · rintro ⟨other, mem, below⟩
    rcases mem_cons.mp mem with rfl | old
    · by_cases seen : ∃ other ∈ earlier, NamesBelow names other
      · exact .inl seen
      · -- otherwise its own factors with these names are among the new subterms
        obtain ⟨part, sublist, up, down, size⟩ := exists_sublist_same apart' apart below
        refine .inr ⟨plain part, (mem_unused inUse apart).mpr ⟨part, sublist, rfl, ?_⟩,
          same_plain_iff.mpr ⟨size, up⟩⟩
        intro other mem below
        exact seen ⟨other, mem, up.trans below⟩
    · exact .inl ⟨other, old, below⟩

/-- Nothing of a term is unused exactly if an earlier term has all of its factors. -/
lemma unused_eq_nil : unused used factors = [] ↔ ∃ other ∈ earlier, NamesBelow factors other := by
  rw [eq_nil_iff_forall_not_mem]
  constructor
  · intro none
    by_contra free
    push Not at free
    exact none _ ((mem_unused inUse apart).mpr ⟨factors, Sublist.refl _, rfl, free⟩)
  · rintro ⟨other, mem, below⟩ s inside
    obtain ⟨names, sublist, _, free⟩ := (mem_unused inUse apart).mp inside
    exact free other mem (below.of_subset sublist.subset)

end

/-!
### What the codings of a group stand for

The subterms of a term that no earlier term has are its new factor sets, each by itself. Merging
keeps them, so the codings of a group stand for every factor set of a term once, in the first term
that has it.
-/

variable {α : Type} [DecidableEq α] {factors : List α}
variable {earlier : List (Finset α)} {used : List (Subterm α)}

omit [DecidableEq α] in
lemma eraseDups_of_nodup [BEq α] [LawfulBEq α] {xs : List α} (nodup : xs.Nodup) :
    xs.eraseDups = xs := by
  induction xs with
  | nil => rfl
  | cons x xs ih =>
    obtain ⟨fresh, nodup⟩ := nodup_cons.mp nodup
    have kept : xs.filter (fun y => !y == x) = xs := by
      apply filter_eq_self.mpr
      intro y mem
      simpa using fun eq : y = x => fresh (eq ▸ mem)
    rw [eraseDups_cons, kept, ih nodup]

omit [DecidableEq α] in
lemma coding_plain (names : List α) : (plain names).coding = names.map (·, false) := by
  simp [plain, Subterm.coding]

/-- A subterm whose factors are all reduced is a single set. -/
lemma mem_family_plain {names : List α} {S : Finset α} :
    S ∈ family (plain names).coding ↔ S = names.toFinset := by
  have lower : reduced (plain names).coding = names.toFinset := by
    ext x
    simp [mem_reduced, coding_plain]
  have upper : full (plain names).coding = ∅ := by
    ext x
    simp [mem_full, coding_plain]
  rw [mem_family, lower, upper, Finset.union_empty]
  exact ⟨fun both => both.2.antisymm both.1, fun eq => eq ▸ ⟨subset_rfl, subset_rfl⟩⟩

/-- The factor sets of a term that are inside no earlier one. -/
def New (earlier : List (Finset α)) (factors : List α) (S : Finset α) : Prop :=
  S ⊆ factors.toFinset ∧ ∀ E ∈ earlier, ¬ S ⊆ E

instance (earlier : List (Finset α)) (factors : List α) (S : Finset α) :
    Decidable (New earlier factors S) := inferInstanceAs (Decidable (_ ∧ _))

/-- What lies above a new set is new. -/
lemma New.above {S T : Finset α} (isNew : New earlier factors S)
    (above : S ⊆ T) (inside : T ⊆ factors.toFinset) : New earlier factors T :=
  ⟨inside, fun E mem below => isNew.2 E mem (above.trans below)⟩

/-- The sublists of the factors of a term whose sets are new. -/
def newLists (earlier : List (Finset α)) (factors : List α) : List (List α) :=
  (sortedSublists factors).filter fun names => New earlier factors names.toFinset

lemma mem_newLists {factors names : List α} : names ∈ newLists earlier factors ↔
      names.Sublist factors ∧ New earlier factors names.toFinset := by
  simp [newLists]

lemma namesApart_iff {names : List α} : NamesApart names ↔ names.Nodup := by
  simp [NamesApart, Nodup]

lemma namesBelow_iff {xs ys : List α} : NamesBelow xs ys ↔ xs.toFinset ⊆ ys.toFinset := by
  simp [NamesBelow, Finset.subset_iff]

lemma unused_eq (inUse : InUse used lists) (nodup : factors.Nodup) :
    unused used factors = (newLists (lists.map toFinset) factors).map plain := by
  have apart {names : List α} (mem : names ∈ sortedSublists factors) : NamesApart names :=
    namesApart_iff.mpr (nodup.sublist (mem_sortedSublists.mp mem))
  have plainly : (sortedSublists factors).map (fun names =>
      Subterm.ofFactors (names.map fun name => (⟨name, false⟩ : Factor α))) =
      (sortedSublists factors).map plain :=
    map_congr_left fun names mem => ofFactors_of_apart (apart mem)
  rw [unused, plainly, filter_map, newLists]
  congr 1
  apply filter_congr
  intro names mem
  have inside : names.toFinset ⊆ factors.toFinset :=
    namesBelow_iff.mp fun x among => ⟨x, (mem_sortedSublists.mp mem).subset among, by simp⟩
  rw [Bool.eq_iff_iff]
  simp only [Function.comp_apply, Bool.not_eq_true', decide_eq_true_eq, New, inside, true_and]
  rw [← Bool.not_eq_true, inUse names (apart mem)]
  simp [namesBelow_iff]

lemma represents_unused (inUse : InUse used lists) (distinct : factors.Nodup) :
    Represents ((unused used factors).map Subterm.coding) (New (lists.map toFinset) factors) := by
  rw [unused_eq inUse distinct, map_map]
  refine ⟨?_, ?_, ?_⟩
  · intro c mem
    obtain ⟨names, inside, rfl⟩ := mem_map.mp mem
    have nodup := distinct.sublist (mem_newLists.mp inside).1
    simpa [coding_plain, Function.comp_def] using nodup
  · rw [pairwise_map]
    have nodup : (newLists (lists.map toFinset) factors).Nodup :=
      (nodup_sortedSublists distinct).filter _
    refine nodup.imp_of_mem ?_
    intro xs ys left right different
    rw [Finset.disjoint_left]
    intro S inLeft inRight
    refine different (sublist_eq_of_toFinset distinct (mem_newLists.mp left).1
      (mem_newLists.mp right).1 ?_)
    exact (mem_family_plain.mp inLeft).symm.trans (mem_family_plain.mp inRight)
  · intro S
    constructor
    · rintro ⟨c, mem, inside⟩
      obtain ⟨names, listed, rfl⟩ := mem_map.mp mem
      rw [mem_family_plain.mp inside]
      exact (mem_newLists.mp listed).2
    · intro isNew
      obtain ⟨names, sublist, rfl⟩ := exists_sublist_toFinset isNew.1
      exact ⟨_, mem_map_of_mem (mem_newLists.mpr ⟨sublist, isNew⟩), mem_family_plain.mpr rfl⟩

/-! ### A whole group -/

/-- The codings of what is new in a term. -/
def newCodings (earlier : List (Finset α)) (factors : List α) : Except Fault (List (Flags α)) :=
  (merge ((newLists earlier factors).map plain)).map (·.map Subterm.coding)

/-- Codings of the terms of a group, each standing for what is new in its term. -/
inductive Picked {κ : Type} : List (Finset α) → List (κ × List α) → List (κ × List (Flags α)) → Prop
  | nil (earlier : List (Finset α)) : Picked earlier [] []
  | cons {earlier : List (Finset α)} {name : κ} {factors : List α} {cs : List (Flags α)}
      {group : List (κ × List α)} {codings : List (κ × List (Flags α))}
      (coded : newCodings earlier factors = .ok cs)
      (represents : Represents cs (New earlier factors))
      (rest : Picked (factors.toFinset :: earlier) group codings) :
      Picked earlier ((name, factors) :: group) ((name, cs) :: codings)

variable {κ : Type} {codings : List (κ × List (Flags α))} {group : List (κ × List α)}

lemma picked_go (inUse : InUse used lists) (group : List (κ × List α))
    (distinct : ∀ t ∈ group, t.2.Nodup) :
    ∃ codings, pick.go used group = .ok codings ∧ Picked (lists.map toFinset) group codings := by
  induction group generalizing used lists with
  | nil => exact ⟨[], rfl, .nil _⟩
  | cons t group ih =>
    obtain ⟨name, factors⟩ := t
    have nodup := distinct (name, factors) mem_cons_self
    -- the used subterms grow by the new ones of this term, which is what the rest begins with
    obtain ⟨merged, ended, represents⟩ := merge_represents _ (represents_unused inUse nodup)
    obtain ⟨codings, done, picked⟩ := ih (inUse.append (namesApart_iff.mpr nodup))
      fun t mem => distinct t (mem_cons_of_mem _ mem)
    refine ⟨(name, merged.map Subterm.coding) :: codings, ?_, .cons ?_ represents picked⟩
    · simp [pick.go, ended, done, bind, Except.bind, pure, Except.pure]
    · rw [newCodings, ← unused_eq inUse nodup, ended]
      rfl

lemma picked_pick (group : List (κ × List α)) (nodup : ∀ t ∈ group, t.2.Nodup) :
    ∃ codings, pick group = .ok codings ∧ Picked [] group codings :=
  picked_go (by simp [InUse] : InUse [] []) group nodup

lemma Picked.names_eq (picked : Picked earlier group codings) :
    codings.map (·.1) = group.map (·.1) := by
  induction picked with
  | nil => rfl
  | cons _ _ _ ih => simp [ih]

/-- The codings of a term are those of what is new after the terms in front of it. -/
lemma Picked.coded (picked : Picked earlier group codings) {t : κ × List (Flags α)}
    (mem : t ∈ codings) :
    ∃ before factors after, group = before ++ (t.1, factors) :: after ∧
      newCodings ((before.map (·.2.toFinset)).reverse ++ earlier) factors = .ok t.2 := by
  induction picked with
  | nil => cases mem
  | @cons earlier name factors cs group codings coded _ _ ih =>
    rcases mem_cons.mp mem with rfl | later
    · exact ⟨[], factors, group, rfl, coded⟩
    · obtain ⟨before, factors', after, rfl, coded⟩ := ih later
      exact ⟨(name, factors) :: before, factors', after, rfl, by simpa using coded⟩

lemma Represents.congr {cs : List (Flags α)} {wanted other : Finset α → Prop}
    (represents : Represents cs wanted) (same : ∀ S, wanted S ↔ other S) : Represents cs other :=
  ⟨represents.keys_nodup, represents.disjoint, fun S => (represents.covers S).trans (same S)⟩

/-- What is new in a term is what no term in front of it has. -/
lemma Picked.coded_at (picked : Picked earlier group codings) {name : κ}
    (found : group[i]? = some (name, factors)) :
    let before := ((group.take i).map (·.2.toFinset)).reverse ++ earlier
    ∃ cs, codings[i]? = some (name, cs) ∧ newCodings before factors = .ok cs ∧
      Represents cs (New before factors) := by
  induction picked generalizing i with
  | nil => simp at found
  | @cons earlier first factors' cs group codings coded represents _ ih =>
    cases i with
    | zero =>
      simp only [getElem?_cons_zero, Option.some.injEq, Prod.mk.injEq] at found
      obtain ⟨rfl, rfl⟩ := found
      exact ⟨cs, rfl, coded, represents⟩
    | succ i =>
      obtain ⟨ds, placed, coded, represents⟩ := ih (by simpa using found)
      exact ⟨ds, by simpa using placed, by simpa using coded, by simpa using represents⟩

lemma Picked.countP (picked : Picked earlier group codings) (S : Finset α) :
    (codings.flatMap (·.2)).countP (fun c => decide (S ∈ family c)) =
      if (∃ t ∈ group, S ⊆ t.2.toFinset) ∧ ∀ E ∈ earlier, ¬ S ⊆ E then 1 else 0 := by
  induction picked with
  | nil => simp
  | @cons earlier name factors cs group codings _ represents _ ih =>
    -- the set is counted in the first term that has it and, being taken then, in no later one
    rw [flatMap_cons, countP_append, represents.countP S, ih]
    by_cases inside : S ⊆ factors.toFinset
    · have first : New earlier factors S ↔ ∀ E ∈ earlier, ¬ S ⊆ E := and_iff_right inside
      simp [first, inside]
    · have notFirst : ¬ New earlier factors S := fun isNew => inside isNew.1
      rw [if_neg notFirst, Nat.zero_add]
      exact if_congr (by simp [inside]) rfl rfl

/-- Choosing codings never fails. The codings of a term stand for exactly those of its factor sets
that are inside no earlier term, each of them once; so over the whole group every factor set of a
term is represented exactly once. -/
theorem pick_partitions (group : List (κ × List α)) (distinct : ∀ t ∈ group, t.2.Nodup) :
    ∃ codings, pick group = .ok codings ∧ codings.map (·.1) = group.map (·.1) ∧
      (∀ i name factors, group[i]? = some (name, factors) →
        ∃ cs, codings[i]? = some (name, cs) ∧ Represents cs fun S =>
          S ⊆ factors.toFinset ∧ ∀ t ∈ group.take i, ¬ S ⊆ t.2.toFinset) ∧
      ∀ S, (∃ t ∈ group, S ⊆ t.2.toFinset) →
        (codings.flatMap (·.2)).countP (fun c => decide (S ∈ family c)) = 1 := by
  obtain ⟨codings, done, picked⟩ := picked_pick group distinct
  refine ⟨codings, done, picked.names_eq, ?_, ?_⟩
  · intro i name factors found
    obtain ⟨cs, placed, _, represents⟩ := picked.coded_at found
    exact ⟨cs, placed, represents.congr fun S => by
      simp only [New, append_nil, mem_reverse, forall_mem_map]⟩
  · intro S inside
    rw [picked.countP S, if_pos ⟨inside, by simp⟩]

/-- With an intercept, a term of three factors and an overlapping one, the set of the two inner
factors is represented once. -/
theorem pick_partitions_overlapping :
    (∀ t ∈ [("1", []), ("a:b:c", ["a", "b", "c"]), ("d:b", ["d", "b"])], t.2.Nodup) ∧
    ∃ codings, pick [("1", []), ("a:b:c", ["a", "b", "c"]), ("d:b", ["d", "b"])] = .ok codings ∧
      (codings.flatMap (·.2)).countP (fun c => decide ({"b", "c"} ∈ family c)) = 1 := by
  refine ⟨by decide, ?_⟩
  obtain ⟨codings, done, -, -, once⟩ := pick_partitions
    [("1", []), ("a:b:c", ["a", "b", "c"]), ("d:b", ["d", "b"])] (by decide)
  exact ⟨codings, done, once _ ⟨("a:b:c", ["a", "b", "c"]), by decide, by decide⟩⟩

/-!
### The order of the codings of a term

A subterm that absorbs another one keeps its place and its factors, and the other disappears. So the
codings of a term have the factors of some of its new sublists, in the order of these, and the
longest sublist is always among them: it is the term itself.
-/

variable {α κ : Type} [DecidableEq α] {earlier : List (Finset α)} {factors : List α}

/-- The factors that a coding mentions. -/
def keys (c : Flags α) : Finset α := (c.map (·.1)).toFinset

lemma keys_plain (names : List α) : keys (plain names).coding = names.toFinset := by
  rw [keys, coding_plain]
  simp [Function.comp_def]

/-! ### Merging -/

/-- What absorbs has the same factors afterwards. -/
lemma absorb_names {long short grown : Subterm α} (properLong : long.Proper)
    (properShort : short.Proper) (can : long.canAbsorb short)
    (absorbed : long.absorb short = .ok grown) :
    (grown.factors.map (·.name)).Perm (long.factors.map (·.name)) := by
  obtain ⟨⟨x, spans⟩, only, perm⟩ := Subterm.factors_perm_of_canAbsorb properLong properShort can
  have names := perm.map Factor.name
  rw [map_append] at names
  -- no factor of the smaller subterm has the name of the further one
  have fresh : (⟨x, true⟩ : Factor α) ∉ short.factors := by
    have nodup := nodup_append.mp (names.nodup_iff.mp properLong)
    exact fun mem => nodup.2.2 x (mem_map_of_mem mem) x (by simp) rfl
  simp only [Subterm.absorb, only, contains_iff_mem, fresh, if_false] at absorbed
  split at absorbed
  · cases absorbed
  · cases absorbed
    rw [map_append]
    exact names.symm

/-- After merging, the factors of some subterms are left, in order and with those of the last. -/
lemma merge_keys {subterms merged : List (Subterm α)} (proper : ∀ s ∈ subterms, s.Proper)
    (done : merge subterms = .ok merged) :
    (merged.map (keys ·.coding)).Sublist (subterms.map (keys ·.coding)) ∧
      (merged.map (keys ·.coding)).getLast? = (subterms.map (keys ·.coding)).getLast? := by
  fun_induction merge subterms with
  | case1 => cases done
  | case2 => cases done; exact ⟨Sublist.refl _, rfl⟩
  | case3 subterms next found ih =>
    obtain ⟨start, short, before, long, after, grown, rfl, can, absorbed, rfl⟩ :=
      mergeOnce_inv found
    have names := absorb_names (proper long (by simp)) (proper short (by simp)) can absorbed
    have same : keys grown.coding = keys long.coding := by
      simpa [keys, Subterm.coding_keys] using toFinset_eq_of_perm _ _ names
    obtain ⟨sublist, last⟩ := ih (by
      intro s mem
      simp only [mem_append, mem_cons] at mem
      rcases mem with early | middle | rfl | late
      · exact proper s (by simp [early])
      · exact proper s (by simp [middle])
      · exact names.nodup_iff.mpr (proper long (by simp))
      · exact proper s (by simp [late])) done
    constructor
    · refine sublist.trans ?_
      simp only [map_append, map_cons, same]
      exact (Sublist.refl _).append (sublist_cons_self _ _)
    · rw [last]
      simp [same, getLast?_append, getLast?_cons]

/-! ### What is merged -/

/-- The longest new sublist has all factors, if anything is new. -/
lemma getLast?_newLists (isNew : New earlier factors factors.toFinset) :
    (newLists earlier factors).getLast? = some factors := by
  have whole : sublistsOfSize factors.length factors = [factors] := by
    have perm := sublistsOfSize_perm factors.length factors
    rw [sublistsLen_length] at perm
    exact perm_singleton.mp perm
  rw [newLists, sortedSublists, range_succ, flatMap_append, filter_append]
  simp [whole, isNew]

lemma newLists_eq_nil : newLists earlier factors = [] ↔ ∃ E ∈ earlier, factors.toFinset ⊆ E := by
  constructor
  · intro none
    by_contra free
    push Not at free
    have isNew : New earlier factors factors.toFinset := ⟨Finset.Subset.refl _, free⟩
    have last := getLast?_newLists isNew
    simp [none] at last
  · rintro ⟨E, mem, inside⟩
    refine eq_nil_iff_forall_not_mem.mpr fun names listed => ?_
    have isNew := (mem_newLists.mp listed).2
    exact isNew.2 E mem (isNew.1.trans inside)

/-- The sets of the new sublists differ and do not become smaller. -/
lemma newLists_pairwise (nodup : factors.Nodup) :
    ((newLists earlier factors).map toFinset).Pairwise fun S T => S ≠ T ∧ S.card ≤ T.card := by
  rw [pairwise_map]
  have ordered :=
    (sortedSublists_pairwise (pairwise_idxOf nodup)).and (nodup_sortedSublists nodup)
  refine (ordered.sublist filter_sublist).imp_of_mem ?_
  rintro ys zs left right ⟨precedes, different⟩
  have below := (mem_newLists.mp left).1
  have below' := (mem_newLists.mp right).1
  refine ⟨fun eq => different (sublist_eq_of_toFinset nodup below below' eq), ?_⟩
  rw [toFinset_card_of_nodup (nodup.sublist below),
    toFinset_card_of_nodup (nodup.sublist below')]
  rcases precedes with shorter | ⟨long, _⟩
  · exact shorter.le
  · exact long.le

/-- No two codings mention the same factors, and none mentions fewer than one before it. The last
one mentions all factors of the term, and every other one some only. -/
structure Ladder (factors : List α) (cs : List (Flags α)) : Prop where
  ordered : cs.Pairwise fun c d => keys c ≠ keys d ∧ (keys c).card ≤ (keys d).card
  last : cs ≠ [] → ∃ front own, cs = front ++ [own] ∧ keys own = factors.toFinset ∧
    ∀ c ∈ front, keys c ⊂ factors.toFinset

lemma ladder_of_newCodings (nodup : factors.Nodup) {cs : List (Flags α)}
    (coded : newCodings earlier factors = .ok cs) :
    (cs = [] ↔ ∃ E ∈ earlier, factors.toFinset ⊆ E) ∧ Ladder factors cs := by
  rw [newCodings] at coded
  cases ended : merge ((newLists earlier factors).map plain) with
  | error fault => simp [ended, Except.map] at coded
  | ok merged =>
    obtain rfl : merged.map Subterm.coding = cs := by simpa [ended, Except.map] using coded
    have proper : ∀ s ∈ (newLists earlier factors).map plain, s.Proper := by
      intro s mem
      obtain ⟨names, listed, rfl⟩ := mem_map.mp mem
      simpa [Subterm.Proper, plain, Function.comp_def] using
        nodup.sublist (mem_newLists.mp listed).1
    obtain ⟨sublist, last⟩ := merge_keys proper ended
    simp only [map_map, Function.comp_def, keys_plain] at sublist last
    have ordered := (newLists_pairwise nodup).sublist sublist
    rw [← newLists_eq_nil]
    rcases eq_nil_or_concat merged with rfl | ⟨front, own, rfl⟩
    · have none : newLists earlier factors = [] := by simpa [getLast?_eq_none_iff] using last.symm
      exact ⟨by simp [none], .nil, by simp⟩
    · rw [concat_eq_append] at sublist last ordered ⊢
      have filled : newLists earlier factors ≠ [] := by
        rintro none
        simp [none] at last
      have whole : keys own.coding = factors.toFinset := by
        have isNew : New earlier factors factors.toFinset :=
          ⟨Finset.Subset.refl _, fun E mem inside => filled (newLists_eq_nil.mpr ⟨E, mem, inside⟩)⟩
        simpa [getLast?_newLists isNew] using last
      rw [pairwise_map] at ordered
      refine ⟨by simp [filled], pairwise_map.mpr ordered, fun _ =>
        ⟨front.map Subterm.coding, own.coding, by simp, whole, fun c mem => ?_⟩⟩
      obtain ⟨s, inside, rfl⟩ := mem_map.mp mem
      -- a coding in front has the factors of a new sublist, and they are not those of the last
      obtain ⟨names, listed, eq⟩ :=
        mem_map.mp (sublist.subset (mem_map_of_mem (mem_append_left _ inside)))
      have different := ((pairwise_append.mp ordered).2.2 s inside own (by simp)).1
      rw [whole] at different
      rw [← eq] at different ⊢
      exact (mem_newLists.mp listed).2.1.ssubset_of_ne different

/-- Codings are chosen for all terms. A term is left without any exactly if one earlier term has all
its factors, and otherwise its last coding is that of the term itself. -/
theorem pick_ladder {group : List (κ × List α)} (distinct : ∀ t ∈ group, t.2.Nodup) :
    ∃ codings, pick group = .ok codings ∧ codings.length = group.length ∧
      ∀ i name factors, group[i]? = some (name, factors) → ∃ cs, codings[i]? = some (name, cs) ∧
        (cs = [] ↔ ∃ t ∈ group.take i, factors.toFinset ⊆ t.2.toFinset) ∧ Ladder factors cs := by
  obtain ⟨codings, done, picked⟩ := picked_pick group distinct
  refine ⟨codings, done, by simpa using congrArg length picked.names_eq, ?_⟩
  intro i name factors found
  obtain ⟨cs, placed, coded, _⟩ := picked.coded_at found
  obtain ⟨none, ladder⟩ := ladder_of_newCodings (distinct _ (mem_of_getElem? found)) coded
  refine ⟨cs, placed, none.trans ?_, ladder⟩
  simp only [append_nil, mem_reverse, mem_map, exists_exists_and_eq_and]

/-- A pair of factors that stands there turned around is left without codings. -/
theorem pick_ladder_turned :
    (∀ t ∈ [("a:b", ["a", "b"]), ("b:a", ["b", "a"])], t.2.Nodup) ∧
    ∃ codings, pick [("a:b", ["a", "b"]), ("b:a", ["b", "a"])] = .ok codings ∧
      codings[1]? = some ("b:a", []) := by
  have distinct : ∀ t ∈ [("a:b", ["a", "b"]), ("b:a", ["b", "a"])], t.2.Nodup := by decide
  obtain ⟨codings, done, _, each⟩ := pick_ladder distinct
  obtain ⟨cs, placed, none, _⟩ := each 1 "b:a" ["b", "a"] rfl
  refine ⟨distinct, codings, done, ?_⟩
  rw [placed, none.mpr ⟨("a:b", ["a", "b"]), by decide, by decide⟩]

end Coding

end ModelFormula
