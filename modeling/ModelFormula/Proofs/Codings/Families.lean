import ModelFormula.Coding
import ModelFormula.Proofs.Codings.Sublists

/-!
# The subspaces that codings stand for

A coding stands for a family of factor sets: its reduced factors are in every set of the family, its
full factors may be in or out. Merging keeps the families of the subterms disjoint and their union
unchanged.
-/
namespace ModelFormula.Coding

open Finset Subterm

deriving instance ReflBEq, LawfulBEq for Factor

variable {α : Type} [DecidableEq α] {c : Flags α} {wanted : Finset α → Prop} {cs : List (Flags α)}
  {x : α}

/-- The factors that a coding reduces. -/
def reduced (c : Flags α) : Finset α := ((c.filter fun p => !p.2).map (·.1)).toFinset

/-- The factors that a coding lets span the intercept. -/
def full (c : Flags α) : Finset α := ((c.filter fun p => p.2).map (·.1)).toFinset

/-- The factor sets whose subspaces a coding stands for. -/
def family (c : Flags α) : Finset (Finset α) := (full c).powerset.image (reduced c ∪ ·)

lemma mem_reduced : x ∈ reduced c ↔ (x, false) ∈ c := by
  simp [reduced]

lemma mem_full : x ∈ full c ↔ (x, true) ∈ c := by
  simp [full]

/-- A family is the interval between the reduced factors and all factors of the coding. -/
lemma mem_family {S : Finset α} : S ∈ family c ↔ reduced c ⊆ S ∧ S ⊆ reduced c ∪ full c := by
  simp only [family, mem_image, mem_powerset]
  constructor
  · rintro ⟨Y, inside, rfl⟩
    exact ⟨subset_union_left, union_subset_union_right inside⟩
  · rintro ⟨lower, upper⟩
    refine ⟨S \ reduced c, ?_, union_sdiff_of_subset lower⟩
    intro x mem
    obtain ⟨inS, outside⟩ := mem_sdiff.mp mem
    exact (mem_union.mp (upper inS)).resolve_left outside

lemma reduced_mem_family (c : Flags α) : reduced c ∈ family c :=
  mem_family.mpr ⟨subset_rfl, subset_union_left⟩

lemma reduced_perm {c d : Flags α} (perm : c.Perm d) : reduced c = reduced d := by
  ext x
  rw [mem_reduced, mem_reduced, perm.mem_iff]

lemma full_perm {c d : Flags α} (perm : c.Perm d) : full c = full d := by
  ext x
  rw [mem_full, mem_full, perm.mem_iff]

lemma family_perm {c d : Flags α} (perm : c.Perm d) : family c = family d := by
  rw [family, family, reduced_perm perm, full_perm perm]

/-- The codings stand for exactly the given sets, and for none of them twice. -/
structure Represents (cs : List (Flags α)) (wanted : Finset α → Prop) : Prop where
  keys_nodup : ∀ c ∈ cs, (c.map (·.1)).Nodup
  disjoint : cs.Pairwise fun c d => Disjoint (family c) (family d)
  covers : ∀ S, (∃ c ∈ cs, S ∈ family c) ↔ wanted S

lemma Represents.perm {cs ds : List (Flags α)} (perm : cs.Perm ds)
    (represents : Represents cs wanted) : Represents ds wanted where
  keys_nodup c mem := represents.keys_nodup c (perm.mem_iff.mpr mem)
  disjoint := (perm.pairwise_iff fun h => h.symm).mp represents.disjoint
  covers S := by simpa only [perm.mem_iff] using represents.covers S

/-- Disjoint families share no set. -/
lemma countP_family_le_one (disjoint : cs.Pairwise fun c d => Disjoint (family c) (family d))
    (S : Finset α) : cs.countP (fun c => decide (S ∈ family c)) ≤ 1 := by
  induction cs with
  | nil => simp
  | cons c cs ih =>
    obtain ⟨apart, disjoint⟩ := List.pairwise_cons.mp disjoint
    by_cases mem : S ∈ family c
    · have others : cs.countP (fun c => decide (S ∈ family c)) = 0 := by
        apply List.countP_eq_zero.mpr
        intro d inside
        simpa using disjoint_left.mp (apart d inside) mem
      rw [List.countP_cons, others]
      simp [mem]
    · rw [List.countP_cons]
      simpa [mem] using ih disjoint

/-- Every wanted set is in exactly one family. -/
lemma Represents.countP (represents : Represents cs wanted) (S : Finset α) [Decidable (wanted S)] :
    cs.countP (fun c => decide (S ∈ family c)) = if wanted S then 1 else 0 := by
  have bounded := countP_family_le_one represents.disjoint S
  have pos : 0 < cs.countP (fun c => decide (S ∈ family c)) ↔ wanted S := by
    rw [← represents.covers, List.countP_pos_iff]
    simp
  split
  next holds => have := pos.mpr holds; omega
  next fails => have := mt pos.mp fails; omega

/-! ### One merge -/

lemma reduced_append_full (c : Flags α) (x : α) : reduced (c ++ [(x, true)]) = reduced c := by
  simp [reduced]

lemma full_append_full (c : Flags α) (x : α) : full (c ++ [(x, true)]) = full c ∪ {x} := by
  simp [full]

lemma reduced_append_reduced (c : Flags α) (x : α) :
    reduced (c ++ [(x, false)]) = reduced c ∪ {x} := by
  simp [reduced]

lemma full_append_reduced (c : Flags α) (x : α) : full (c ++ [(x, false)]) = full c := by
  simp [full]

lemma keys_eq_union (c : Flags α) : (c.map (·.1)).toFinset = reduced c ∪ full c := by
  ext x
  simp [mem_reduced, mem_full]

/-- If a reduced factor becomes full, the coding takes up the sets that lack the factor. -/
lemma mem_family_append_full (fresh : x ∉ c.map (·.1)) (S : Finset α) :
    S ∈ family (c ++ [(x, true)]) ↔ S ∈ family c ∨ S ∈ family (c ++ [(x, false)]) := by
  have outside : x ∉ reduced c ∪ full c := by rwa [← keys_eq_union, List.mem_toFinset]
  simp only [mem_family, reduced_append_full, full_append_full, reduced_append_reduced,
    full_append_reduced]
  -- a set with the factor can only be in the second family, one without it only in the first
  by_cases mem : x ∈ S
  · have notBelow : ¬ S ⊆ reduced c ∪ full c := fun below => outside (below mem)
    grind
  · grind

lemma disjoint_family_append_reduced (fresh : x ∉ c.map (·.1)) :
    Disjoint (family c) (family (c ++ [(x, false)])) := by
  have outside : x ∉ reduced c ∪ full c := by rwa [← keys_eq_union, List.mem_toFinset]
  rw [disjoint_left]
  intro S short long
  simp only [mem_family, reduced_append_reduced] at short long
  exact outside (short.2 (long.1 (by simp)))

namespace Subterm

/-- The names of the factors are different from each other. -/
def Proper (s : Subterm α) : Prop := (s.factors.map (·.name)).Nodup

omit [DecidableEq α] in
lemma coding_keys (s : Subterm α) : s.coding.map (·.1) = s.factors.map (·.name) := by
  simp [coding]

omit [DecidableEq α] in
lemma coding_append (s : Subterm α) (x : α) (spans : Bool) :
    coding ⟨s.factors ++ [⟨x, spans⟩]⟩ = s.coding ++ [(x, spans)] := by
  simp [coding]

omit [DecidableEq α] in
lemma Proper.factors_nodup {s : Subterm α} (proper : s.Proper) : s.factors.Nodup :=
  List.Nodup.of_map _ proper

variable {long short : Subterm α}

/-- A subterm that can absorb another has its factors and one more. -/
lemma factors_perm_of_canAbsorb (properLong : long.Proper) (properShort : short.Proper)
    (can : long.canAbsorb short) :
    ∃ f, long.factors.filter (!short.factors.contains ·) = [f] ∧
      long.factors.Perm (short.factors ++ [f]) := by
  simp only [canAbsorb, includes, Bool.and_eq_true, beq_iff_eq, List.all_eq_true,
    List.contains_iff_mem] at can
  obtain ⟨size, inside⟩ := can
  -- the larger subterm splits into the factors of the smaller one and the single further one
  have shared : (long.factors.filter (short.factors.contains ·)).Perm short.factors := by
    apply (List.perm_ext_iff_of_nodup (properLong.factors_nodup.filter _)
      properShort.factors_nodup).mpr
    intro f
    simp only [List.mem_filter, List.contains_iff_mem]
    exact ⟨fun both => both.2, fun mem => ⟨inside f mem, mem⟩⟩
  have split := List.filter_append_perm (short.factors.contains ·) long.factors
  have perm := (shared.append_right _).symm.trans split
  have one : (long.factors.filter (!short.factors.contains ·)).length = 1 := by
    have := perm.length_eq
    rw [List.length_append] at this
    omega
  obtain ⟨f, only⟩ := List.length_eq_one_iff.mp one
  rw [only] at perm
  exact ⟨f, only, perm.symm⟩

/-- Between disjoint subterms absorbing never fails: the further factor is new and reduced. -/
lemma absorb_ok (properLong : long.Proper) (properShort : short.Proper)
    (disjoint : Disjoint (family short.coding) (family long.coding))
    (can : long.canAbsorb short) :
    ∃ x, x ∉ short.coding.map (·.1) ∧ long.coding.Perm (short.coding ++ [(x, false)]) ∧
      long.absorb short = .ok ⟨short.factors ++ [⟨x, true⟩]⟩ := by
  obtain ⟨⟨x, spans⟩, only, perm⟩ := factors_perm_of_canAbsorb properLong properShort can
  have coded : long.coding.Perm (short.coding ++ [(x, spans)]) := by
    simpa [coding] using perm.map fun f => (f.name, f.spansIntercept)
  have fresh : x ∉ short.coding.map (·.1) := by
    have names := (perm.map Factor.name).nodup_iff.mp properLong
    rw [List.map_append, List.nodup_append] at names
    rw [coding_keys]
    exact fun mem => names.2.2 x mem x (by simp) rfl
  have notFull : spans = false := by
    by_contra spansIntercept
    rw [Bool.not_eq_false] at spansIntercept
    subst spansIntercept
    -- the larger subterm would already stand for everything that the smaller one does
    refine disjoint_left.mp disjoint (reduced_mem_family short.coding) ?_
    rw [family_perm coded, mem_family_append_full fresh]
    exact Or.inl (reduced_mem_family short.coding)
  subst notFull
  refine ⟨x, fresh, coded, ?_⟩
  have absent : (⟨x, true⟩ : Factor α) ∉ short.factors := by
    rw [coding_keys] at fresh
    exact fun mem => fresh (List.mem_map_of_mem mem)
  simp only [absorb, only, Bool.false_eq_true, if_false, List.contains_iff_mem, absent]

end Subterm

/-! ### Merging until nothing can be merged -/

omit [DecidableEq α] in
/-- What a merge does: a later subterm absorbs an earlier one, which disappears. -/
lemma absorbInto_inv [BEq α] {short : Subterm α} {rest merged : List (Subterm α)}
    (absorbed : absorbInto short rest = .ok (some merged)) :
    ∃ before long after grown, rest = before ++ long :: after ∧ long.canAbsorb short ∧
      long.absorb short = .ok grown ∧ merged = before ++ grown :: after := by
  induction rest generalizing merged with
  | nil => simp [absorbInto] at absorbed
  | cons long rest ih =>
    simp only [absorbInto, bind, Except.bind, pure, Except.pure] at absorbed
    split at absorbed
    next can =>
      split at absorbed
      next => cases absorbed
      next grown taken =>
        cases absorbed
        exact ⟨[], long, rest, grown, rfl, can, taken, rfl⟩
    next =>
      split at absorbed
      next => cases absorbed
      next found inner =>
        simp only [Except.ok.injEq, Option.map_eq_some_iff] at absorbed
        obtain ⟨tail, rfl, rfl⟩ := absorbed
        obtain ⟨before, taker, after, grown, rfl, can, taken, rfl⟩ := ih inner
        exact ⟨long :: before, taker, after, grown, rfl, can, taken, rfl⟩

omit [DecidableEq α] in
lemma mergeOnce_inv [BEq α] {subterms merged : List (Subterm α)}
    (found : mergeOnce subterms = .ok (some merged)) :
    ∃ start short before long after grown,
      subterms = start ++ short :: (before ++ long :: after) ∧ long.canAbsorb short ∧
      long.absorb short = .ok grown ∧ merged = start ++ (before ++ grown :: after) := by
  induction subterms generalizing merged with
  | nil => simp [mergeOnce] at found
  | cons s rest ih =>
    simp only [mergeOnce, bind, Except.bind, pure, Except.pure] at found
    split at found
    next => cases found
    next result absorbed =>
      split at found
      next tail =>
        cases found
        obtain ⟨before, long, after, grown, rfl, can, taken, rfl⟩ := absorbInto_inv absorbed
        exact ⟨[], s, before, long, after, grown, rfl, can, taken, rfl⟩
      next =>
        split at found
        next => cases found
        next inner =>
          simp only [Except.ok.injEq, Option.map_eq_some_iff] at found
          obtain ⟨tail, rfl, rfl⟩ := found
          obtain ⟨start, short, before, long, after, grown, rfl, can, taken, rfl⟩ := ih inner
          exact ⟨s :: start, short, before, long, after, grown, rfl, can, taken, rfl⟩

lemma absorbInto_ok {short : Subterm α} {rest : List (Subterm α)}
    (absorbs : ∀ long ∈ rest, long.canAbsorb short → ∃ s, long.absorb short = .ok s) :
    ∃ result, absorbInto short rest = .ok result := by
  induction rest with
  | nil => exact ⟨none, rfl⟩
  | cons long rest ih =>
    simp only [absorbInto]
    split
    next can =>
      obtain ⟨s, taken⟩ := absorbs long List.mem_cons_self can
      simp [taken, bind, Except.bind, pure, Except.pure]
    next =>
      obtain ⟨result, inner⟩ := ih fun l mem => absorbs l (List.mem_cons_of_mem _ mem)
      simp [inner, bind, Except.bind, pure, Except.pure]

variable {subterms : List (Subterm α)}

lemma mergeOnce_ok (absorbs : subterms.Pairwise fun short long =>
      long.canAbsorb short → ∃ s, long.absorb short = .ok s) :
    ∃ result, mergeOnce subterms = .ok result := by
  induction subterms with
  | nil => exact ⟨none, rfl⟩
  | cons s rest ih =>
    obtain ⟨first, others⟩ := List.pairwise_cons.mp absorbs
    obtain ⟨result, absorbed⟩ := absorbInto_ok first
    cases result with
    | some tail => exact ⟨some tail, by simp [mergeOnce, absorbed, bind, Except.bind]; rfl⟩
    | none =>
      obtain ⟨found, inner⟩ := ih others
      exact ⟨found.map (s :: ·), by simp [mergeOnce, absorbed, inner, bind, Except.bind]; rfl⟩

/-- The merged coding takes the place of the two that it was made from. -/
lemma Represents.absorb {short long : Flags α} {others : List (Flags α)} {x : α}
    (represents : Represents (short :: long :: others) wanted) (fresh : x ∉ short.map (·.1))
    (perm : long.Perm (short ++ [(x, false)])) :
    Represents ((short ++ [(x, true)]) :: others) wanted := by
  obtain ⟨keys, disjoint, covers⟩ := represents
  have joined : ∀ S, S ∈ family (short ++ [(x, true)]) ↔ S ∈ family short ∨ S ∈ family long := by
    intro S
    rw [family_perm perm]
    exact mem_family_append_full fresh S
  obtain ⟨fromShort, rest⟩ := List.pairwise_cons.mp disjoint
  obtain ⟨fromLong, rest⟩ := List.pairwise_cons.mp rest
  refine ⟨?_, List.pairwise_cons.mpr ⟨?_, rest⟩, ?_⟩
  · intro c mem
    rcases List.mem_cons.mp mem with rfl | mem
    · rw [List.map_append]
      refine (keys short List.mem_cons_self).append (List.nodup_singleton x) ?_
      exact List.disjoint_singleton.mpr fresh
    · exact keys c (List.mem_cons_of_mem _ (List.mem_cons_of_mem _ mem))
  · intro c mem
    rw [disjoint_left]
    intro S inside
    rcases (joined S).mp inside with inShort | inLong
    · exact disjoint_left.mp (fromShort c (List.mem_cons_of_mem _ mem)) inShort
    · exact disjoint_left.mp (fromLong c mem) inLong
  · intro S
    rw [← covers S]
    simp only [List.exists_mem_cons_iff, joined, or_assoc]

/-- A merge never fails, and what the subterms stand for stays the same. -/
lemma mergeOnce_represents (represents : Represents (subterms.map coding) wanted) :
    ∃ result, mergeOnce subterms = .ok result ∧
      ∀ merged, result = some merged → Represents (merged.map coding) wanted := by
  have proper : ∀ s ∈ subterms, s.Proper := by
    intro s mem
    rw [Proper, ← coding_keys]
    exact represents.keys_nodup _ (List.mem_map_of_mem mem)
  have disjoint := List.pairwise_map.mp represents.disjoint
  -- disjointness is what rules the fault of absorbing out
  have absorbs : subterms.Pairwise fun short long => long.canAbsorb short →
      ∃ s, long.absorb short = .ok s := by
    refine disjoint.imp_of_mem ?_
    intro short long inShort inLong apart can
    obtain ⟨x, -, -, taken⟩ := absorb_ok (proper long inLong) (proper short inShort) apart can
    exact ⟨_, taken⟩
  obtain ⟨result, found⟩ := mergeOnce_ok absorbs
  refine ⟨result, found, ?_⟩
  rintro merged rfl
  obtain ⟨start, short, before, long, after, grown, rfl, can, taken, rfl⟩ := mergeOnce_inv found
  have apart : Disjoint (family short.coding) (family long.coding) := by
    have tail := (List.pairwise_append.mp disjoint).2.1
    exact (List.pairwise_cons.mp tail).1 long (by simp)
  obtain ⟨x, fresh, perm, grew⟩ :=
    absorb_ok (proper long (by simp)) (proper short (by simp)) apart can
  rw [grew] at taken
  cases taken
  -- order does not matter to what is represented, so both subterms are moved to the front
  have front (s : Subterm α) : (start ++ (before ++ s :: after)).Perm
      (s :: (start ++ (before ++ after))) :=
    (List.perm_middle.append_left start).trans List.perm_middle
  have moved := List.perm_middle.trans ((front long).cons short)
  have joined := (represents.perm (moved.map coding)).absorb fresh perm
  rw [← coding_append] at joined
  exact joined.perm ((front ⟨short.factors ++ [⟨x, true⟩]⟩).map coding).symm

/-- Merging ends without a fault and keeps what the subterms stand for. -/
lemma merge_represents (subterms : List (Subterm α))
    (represents : Represents (subterms.map coding) wanted) :
    ∃ merged, merge subterms = .ok merged ∧ Represents (merged.map coding) wanted := by
  fun_induction merge subterms with
  -- the recursion of `merge`: each round keeps what is represented, and none can fail
  | case1 subterms fault failed =>
    obtain ⟨result, found, -⟩ := mergeOnce_represents represents
    rw [found] at failed
    cases failed
  | case2 subterms ended => exact ⟨subterms, rfl, represents⟩
  | case3 subterms merged found ih =>
    obtain ⟨result, found', kept⟩ := mergeOnce_represents represents
    rw [found] at found'
    cases found'
    exact ih (kept merged rfl)

end ModelFormula.Coding
