import ModelFormula.Proofs.Codings.Picked
import ModelFormula.Proofs.Codings.Widths

/-!
# Columns and subspaces

A factor set stands for a subspace, and the columns of a coded term are those of the sets that its
coding stands for. A group coded by first codings has at most the columns of all its factor sets,
and exactly those if every term has a single coding.
-/
namespace ModelFormula.Coding

open List

variable {α κ : Type} [DecidableEq α] (n : α → Nat)
variable {c : Flags α} {x : α} {S : Finset α} {sets : List (List α)}

/-- The columns of the subspace of a factor set, of whose factors the levels are counted. -/
def columns (S : Finset α) : Nat := ∏ x ∈ S, (n x - 1)

lemma mem_family_append_reduced (fresh : x ∉ c.map (·.1)) (S : Finset α) :
    S ∈ family (c ++ [(x, false)]) ↔ ∃ T ∈ family c, T ∪ {x} = S := by
  have outside : x ∉ reduced c ∪ full c := by rwa [← keys_eq_union, mem_toFinset]
  simp only [mem_family, reduced_append_reduced, full_append_reduced]
  constructor
  · rintro ⟨lower, upper⟩
    refine ⟨S.erase x, ⟨?_, ?_⟩, ?_⟩ <;> grind
  · rintro ⟨T, ⟨lower, upper⟩, rfl⟩
    grind

lemma columns_union (outside : x ∉ S) : columns n (S ∪ {x}) = columns n S * (n x - 1) := by
  rw [columns, Finset.prod_union (by simpa using outside), Finset.prod_singleton, columns]

lemma not_mem_of_family (fresh : x ∉ c.map (·.1)) (mem : S ∈ family c) : x ∉ S := by
  have outside : x ∉ reduced c ∪ full c := by rwa [← keys_eq_union, mem_toFinset]
  exact fun inside => outside ((mem_family.mp mem).2 inside)

lemma sum_family_append_reduced (fresh : x ∉ c.map (·.1)) :
    ∑ S ∈ family (c ++ [(x, false)]), columns n S = (∑ S ∈ family c, columns n S) * (n x - 1) := by
  have image : family (c ++ [(x, false)]) = (family c).image (· ∪ {x}) := by
    ext S
    rw [mem_family_append_reduced fresh, Finset.mem_image]
  rw [image, Finset.sum_image, Finset.sum_mul]
  · exact Finset.sum_congr rfl fun S mem => columns_union n (not_mem_of_family fresh mem)
  · intro S left T right eq
    have erased {U : Finset α} (mem : U ∈ family c) : (U ∪ {x}).erase x = U := by
      rw [Finset.union_comm, ← Finset.insert_eq, Finset.erase_insert (not_mem_of_family fresh mem)]
    rw [← erased left, ← erased right]
    exact congrArg (·.erase x) eq

/-- A coded term has the columns of the sets that its coding stands for. -/
lemma sum_family (keys : (c.map (·.1)).Nodup) (several : ∀ p ∈ c, 1 ≤ n p.1) :
    ∑ S ∈ family c, columns n S = (c.map fun p => codedWidth p.2 (n p.1)).prod := by
  -- by the last factor: a reduced one multiplies the columns, a full one adds the sets without it
  induction c using List.reverseRecOn with
  | nil => simp [family, reduced, full, columns]
  | append_singleton c p ih =>
    obtain ⟨x, b⟩ := p
    rw [map_append, nodup_append] at keys
    have fresh : x ∉ c.map (·.1) := fun mem => keys.2.2 x mem x (by simp) rfl
    have before := ih keys.1 fun p mem => several p (mem_append_left _ mem)
    have pos : 1 ≤ n x := several (x, b) (by simp)
    rw [map_append, prod_append, ← before]
    cases b with
    | false => simp [sum_family_append_reduced n fresh, codedWidth]
    | true =>
      have split : family (c ++ [(x, true)]) = family c ∪ family (c ++ [(x, false)]) := by
        ext S
        rw [mem_family_append_full fresh, Finset.mem_union]
      rw [split, Finset.sum_union (disjoint_family_append_reduced fresh),
        sum_family_append_reduced n fresh]
      simp only [codedWidth, map_cons, map_nil, prod_singleton, if_true]
      obtain ⟨k, eq⟩ : ∃ k, n x = k + 1 := ⟨n x - 1, by omega⟩
      rw [eq, Nat.add_sub_cancel, Nat.mul_succ, Nat.add_comm]

/-! ### A term by its first coding -/

/-- Whether a coding lets a factor span the intercept. -/
def spans (c : Flags α) (x : α) : Bool := ((c.find? (·.1 == x)).map (·.2)).getD false

lemma spans_iff (keys : (c.map (·.1)).Nodup) (x : α) : spans c x ↔ x ∈ full c := by
  rw [mem_full]
  induction c with
  | nil => simp [spans]
  | cons p c ih =>
    obtain ⟨fresh, others⟩ := nodup_cons.mp keys
    obtain ⟨k, b⟩ := p
    by_cases same : k = x
    · subst same
      have absent : (k, true) ∉ c := fun mem => fresh (mem_map.mpr ⟨_, mem, rfl⟩)
      simp [spans, absent, eq_comm]
    · have later : spans ((k, b) :: c) x = spans c x := by simp [spans, same]
      rw [later, ih others]
      simp [Ne.symm same]

/-- All factors of a term; those that the coding does not mention are reduced. -/
def completed (c : Flags α) (factors : List α) : Flags α := factors.map fun x => (x, spans c x)

lemma keys_completed (c : Flags α) (factors : List α) :
    (completed c factors).map (·.1) = factors := by
  simp [completed, Function.comp_def]

/-- The columns of a term whose factors are coded as the coding says. -/
def codedColumns (c : Flags α) (factors : List α) : Nat :=
  (factors.map fun x => codedWidth (spans c x) (n x)).prod

lemma codedColumns_eq {factors : List α} (nodup : factors.Nodup)
    (several : ∀ x ∈ factors, 1 ≤ n x) :
    codedColumns n c factors = ∑ S ∈ family (completed c factors), columns n S := by
  rw [sum_family n (by rwa [keys_completed])]
  · simp [codedColumns, completed, codedWidth, Function.comp_def]
  · intro p mem
    obtain ⟨x, inside, rfl⟩ := mem_map.mp mem
    exact several x inside

/-- The new factor sets of a term. -/
def newSets (earlier : List (Finset α)) (factors : List α) : Finset (Finset α) :=
  factors.toFinset.powerset.filter (New earlier factors)

lemma mem_newSets {earlier : List (Finset α)} {factors : List α} :
    S ∈ newSets earlier factors ↔ New earlier factors S := by
  simp only [newSets, Finset.mem_filter, Finset.mem_powerset, and_iff_right_iff_imp]
  exact And.left

section Term

variable {earlier : List (Finset α)} {factors : List α} {rest : List (Flags α)}
  (represents : Represents (c :: rest) (New earlier factors))
include represents

lemma new_of_family (mem : S ∈ family c) : New earlier factors S :=
  (represents.covers S).mp ⟨c, mem_cons_self, mem⟩

lemma keys_subset : reduced c ∪ full c ⊆ factors.toFinset := by
  have whole : reduced c ∪ full c ∈ family c := by simp [mem_family]
  exact (new_of_family represents whole).1

lemma mem_family_completed : S ∈ family (completed c factors) ↔
    factors.toFinset \ full c ⊆ S ∧ S ⊆ factors.toFinset := by
  have keys := represents.keys_nodup c mem_cons_self
  have spanned (x : α) : spans c x = false ↔ x ∉ full c := by
    rw [← spans_iff keys, Bool.not_eq_true]
  have lower : reduced (completed c factors) = factors.toFinset \ full c := by
    ext x
    simp [mem_reduced, completed, spanned]
  have all : reduced (completed c factors) ∪ full (completed c factors) = factors.toFinset := by
    rw [← keys_eq_union, keys_completed]
  rw [mem_family, all, lower]

lemma reduced_subset : reduced c ⊆ factors.toFinset \ full c := by
  have keys := represents.keys_nodup c mem_cons_self
  intro x mem
  refine Finset.mem_sdiff.mpr ⟨keys_subset represents (Finset.mem_union_left _ mem), ?_⟩
  intro inside
  have eq := inj_on_of_nodup_map keys (mem_reduced.mp mem) (mem_full.mp inside) rfl
  simp at eq

lemma family_completed_subset : family (completed c factors) ⊆ newSets earlier factors := by
  intro S mem
  obtain ⟨lower, upper⟩ := (mem_family_completed represents).mp mem
  have below := (reduced_subset represents).trans lower
  exact mem_newSets.mpr ((new_of_family represents (reduced_mem_family c)).above below upper)

/-- The completed coding stands for all new sets only if it is the only one. -/
lemma family_completed_eq_iff :
    family (completed c factors) = newSets earlier factors ↔ rest = [] := by
  have keys := represents.keys_nodup c mem_cons_self
  -- in both directions the coding mentions all factors, and its own family is that of all of them
  have complete (lower : factors.toFinset \ full c ⊆ reduced c) :
      family (completed c factors) = family c := by
    have eq := lower.antisymm (reduced_subset represents)
    have whole : reduced c ∪ full c = factors.toFinset := by
      rw [← eq]
      exact Finset.sdiff_union_of_subset ((Finset.subset_union_right).trans (keys_subset represents))
    ext S
    rw [mem_family_completed represents, mem_family, whole, eq]
  constructor
  · intro eq
    have isNew := mem_newSets.mpr (new_of_family represents (reduced_mem_family c))
    rw [← eq, mem_family_completed represents] at isNew
    rw [complete isNew.1] at eq
    -- a second coding would stand for a new set that the first one has already
    by_contra other
    obtain ⟨d, mem⟩ := exists_mem_of_ne_nil rest other
    have inside : reduced d ∈ family c := by
      rw [eq, mem_newSets, ← represents.covers]
      exact ⟨d, mem_cons_of_mem c mem, reduced_mem_family d⟩
    have disjoint := (pairwise_cons.mp represents.disjoint).1 d mem
    exact Finset.disjoint_left.mp disjoint inside (reduced_mem_family d)
  · rintro rfl
    have all : ∀ S, S ∈ family c ↔ S ∈ newSets earlier factors := by
      intro S
      rw [mem_newSets, ← represents.covers]
      simp
    -- the only coding has the largest set, so it mentions every factor
    have whole : factors.toFinset ∈ family c := by
      rw [all, mem_newSets]
      have isNew := new_of_family represents (reduced_mem_family c)
      exact isNew.above isNew.1 subset_rfl
    rw [complete ?_]
    · exact Finset.ext all
    · intro x mem
      obtain ⟨inside, outside⟩ := Finset.mem_sdiff.mp mem
      exact (Finset.mem_union.mp ((mem_family.mp whole).2 inside)).resolve_right outside

omit represents in
lemma columns_pos {factors : List α} (several : ∀ x ∈ factors, 2 ≤ n x)
    (inside : S ⊆ factors.toFinset) : 0 < columns n S := by
  refine Finset.prod_pos fun x mem => ?_
  have := several x (mem_toFinset.mp (inside mem))
  omega

omit represents in
/-- Leaving out a set leaves out columns. -/
lemma sum_columns_eq_iff {A B : Finset (Finset α)} (subset : A ⊆ B)
    (pos : ∀ S ∈ B, 0 < columns n S) :
    ∑ S ∈ A, columns n S = ∑ S ∈ B, columns n S ↔ A = B := by
  refine ⟨fun eq => ?_, fun eq => by rw [eq]⟩
  by_contra different
  obtain ⟨S, inside, outside⟩ := Finset.exists_of_ssubset (subset.ssubset_of_ne different)
  have less := Finset.sum_lt_sum_of_subset (f := columns n) subset inside outside
    (pos S inside) fun _ _ _ => Nat.zero_le _
  omega

lemma codedColumns_le (nodup : factors.Nodup) (several : ∀ x ∈ factors, 2 ≤ n x) :
    codedColumns n c factors ≤ ∑ S ∈ newSets earlier factors, columns n S ∧
      (codedColumns n c factors = ∑ S ∈ newSets earlier factors, columns n S ↔ rest = []) := by
  have subset := family_completed_subset represents
  rw [codedColumns_eq n nodup fun x mem => (several x mem).trans' (by omega),
    ← family_completed_eq_iff represents]
  refine ⟨Finset.sum_le_sum_of_subset subset, sum_columns_eq_iff n subset fun S isNew => ?_⟩
  exact columns_pos n several (mem_newSets.mp isNew).1

end Term

/-! ### A group -/

/-- All subsets of the given factor lists. -/
def subspaces (sets : List (List α)) : Finset (Finset α) :=
  sets.toFinset.biUnion fun names => names.toFinset.powerset

lemma mem_subspaces : S ∈ subspaces sets ↔ ∃ names ∈ sets, S ⊆ names.toFinset := by
  simp [subspaces]

lemma toFinset_subset {xs ys : List α} : xs.toFinset ⊆ ys.toFinset ↔ xs ⊆ ys := by
  simp only [Finset.subset_iff, mem_toFinset]
  rfl

lemma subspaces_subset (inside : ∀ xs ∈ sets, ∃ ys ∈ wider, xs ⊆ ys) :
    subspaces sets ⊆ subspaces wider := by
  intro S mem
  obtain ⟨xs, listed, below⟩ := mem_subspaces.mp mem
  obtain ⟨ys, found, subset⟩ := inside xs listed
  exact mem_subspaces.mpr ⟨ys, found, below.trans (toFinset_subset.mpr subset)⟩

/-- No subset is missing if and only if none of the wider lists is. -/
lemma subspaces_eq_iff (inside : ∀ xs ∈ sets, ∃ ys ∈ wider, xs ⊆ ys) :
    subspaces sets = subspaces wider ↔ ∀ ys ∈ wider, ∃ xs ∈ sets, ys ⊆ xs := by
  constructor
  · intro eq ys listed
    have mem : ys.toFinset ∈ subspaces sets := by
      rw [eq]
      exact mem_subspaces.mpr ⟨ys, listed, subset_rfl⟩
    obtain ⟨xs, found, below⟩ := mem_subspaces.mp mem
    exact ⟨xs, found, toFinset_subset.mp below⟩
  · intro covered
    exact (subspaces_subset inside).antisymm (subspaces_subset covered)

/-- The factor sets of a group that no earlier term has. -/
def remaining (earlier : List (Finset α)) (sets : List (List α)) : Finset (Finset α) :=
  (subspaces sets).filter fun S => ∀ E ∈ earlier, ¬ S ⊆ E

lemma remaining_cons (earlier : List (Finset α)) (factors : List α) (sets : List (List α)) :
    remaining earlier (factors :: sets) =
      newSets earlier factors ∪ remaining (factors.toFinset :: earlier) sets := by
  ext S
  simp only [remaining, Finset.mem_filter, mem_subspaces, Finset.mem_union, mem_newSets, New,
    exists_mem_cons_iff, forall_mem_cons]
  tauto

lemma disjoint_remaining (earlier : List (Finset α)) (factors : List α) (sets : List (List α)) :
    Disjoint (newSets earlier factors) (remaining (factors.toFinset :: earlier) sets) := by
  rw [Finset.disjoint_left]
  intro S isNew later
  simp only [remaining, Finset.mem_filter, forall_mem_cons] at later
  exact later.2.1 (mem_newSets.mp isNew).1

/-- The columns of a group whose terms are coded by the first of their codings. -/
def groupColumns (first : κ → Flags α) (group : List (κ × List α)) : Nat :=
  (group.map fun t => codedColumns n (first t.1) t.2).sum

/-- The columns of a group are at most those of its factor sets; none is lost only if every term has
a single coding. -/
lemma Picked.groupColumns_le {earlier : List (Finset α)} {group : List (κ × List α)}
    {codings : List (κ × List (Flags α))} (picked : Picked earlier group codings)
    {first : κ → Flags α} (heads : ∀ t ∈ codings, ∃ rest, t.2 = first t.1 :: rest)
    (distinct : ∀ t ∈ group, t.2.Nodup) (several : ∀ t ∈ group, ∀ x ∈ t.2, 2 ≤ n x) :
    groupColumns n first group ≤ ∑ S ∈ remaining earlier (group.map (·.2)), columns n S ∧
      (groupColumns n first group = ∑ S ∈ remaining earlier (group.map (·.2)), columns n S ↔
        ∀ t ∈ codings, t.2.length = 1) := by
  induction picked with
  | nil => simp [groupColumns, remaining, subspaces]
  | @cons earlier name factors cs group codings _ represents _ ih =>
    obtain ⟨⟨rest, eq⟩, heads⟩ := forall_mem_cons.mp heads
    obtain ⟨nodup, distinct⟩ := forall_mem_cons.mp distinct
    obtain ⟨enough, several⟩ := forall_mem_cons.mp several
    obtain ⟨upper, exact⟩ := ih heads distinct several
    simp only at eq
    subst eq
    obtain ⟨bound, single⟩ := codedColumns_le n represents nodup enough
    -- both sides split into the first term and the rest, and a sum is exact only if both parts are
    have sum : groupColumns n first ((name, factors) :: group) =
        codedColumns n (first name) factors + groupColumns n first group := by
      simp [groupColumns]
    have length : (first name :: rest).length = 1 ↔ rest = [] := by simp
    rw [sum, map_cons, remaining_cons, Finset.sum_union (disjoint_remaining _ _ _),
      forall_mem_cons, length, ← single, ← exact]
    dsimp only
    omega

end ModelFormula.Coding
