import ModelFormula.Proofs.Codings.ExtraTerms

/-!
# Codings of at most two factors

The new sets of a term of at most two factors form one coding, unless the empty set is taken and
neither factor is: then the second factor has a coding of its own.
-/
namespace ModelFormula.Coding

open List

variable {α κ : Type} [DecidableEq α] {earlier : List (Finset α)} {factors : List α} {a b : α}
  {cs : List (Flags α)}

/-- The empty set is taken, but neither of two factors is. -/
def Lacking (earlier : List (Finset α)) (factors : List α) : Prop :=
  earlier ≠ [] ∧ factors.length = 2 ∧ ∀ E ∈ earlier, ∀ x ∈ factors, x ∉ E

/-- Some earlier term has the factor. -/
def Taken (earlier : List (Finset α)) (x : α) : Prop := ∃ E ∈ earlier, x ∈ E

lemma new_empty : New earlier factors ∅ ↔ earlier = [] := by
  simp [New, eq_nil_iff_forall_not_mem]

lemma new_singleton (inside : a ∈ factors) : New earlier factors {a} ↔ ¬ Taken earlier a := by
  simp [New, Taken, inside]

omit [DecidableEq α] in
lemma lacking_pair : Lacking earlier [a, b] ↔
    earlier ≠ [] ∧ ¬ Taken earlier a ∧ ¬ Taken earlier b := by
  simp [Lacking, Taken, forall_and]

/-! ### Merging -/

lemma merge_alone : merge [plain [], plain [a]] = .ok [⟨[⟨a, true⟩]⟩] := by
  simp [merge_eq, mergeOnce, absorbInto, Subterm.canAbsorb, Subterm.includes, Subterm.absorb,
    plain, bind, Except.bind, pure, Except.pure]

lemma merge_pair (different : a ≠ b) :
    merge [plain [], plain [a], plain [b], plain [a, b]] = .ok [⟨[⟨a, true⟩, ⟨b, true⟩]⟩] ∧
      merge [plain [a], plain [b], plain [a, b]] = .ok [plain [b], ⟨[⟨a, false⟩, ⟨b, true⟩]⟩] ∧
      merge [plain [a], plain [a, b]] = .ok [⟨[⟨a, false⟩, ⟨b, true⟩]⟩] ∧
      merge [plain [b], plain [a, b]] = .ok [⟨[⟨b, false⟩, ⟨a, true⟩]⟩] := by
  refine ⟨?_, ?_, ?_, ?_⟩ <;>
    simp [merge_eq, mergeOnce, absorbInto, Subterm.canAbsorb, Subterm.includes, Subterm.absorb,
      plain, different, different.symm, bind, Except.bind, pure, Except.pure, Factor.beq_eq]

lemma merge_length_le {subterms merged : List (Subterm α)} (done : merge subterms = .ok merged) :
    merged.length ≤ subterms.length := by
  fun_induction merge subterms with
  | case1 => cases done
  | case2 => cases done; exact Nat.le_refl _
  | case3 subterms next found ih =>
    have shorter := mergeOnce_length found
    have rest := ih done
    omega

lemma newCodings_length_le (coded : newCodings earlier factors = .ok cs) :
    cs.length ≤ (newLists earlier factors).length := by
  unfold newCodings at coded
  cases done : merge ((newLists earlier factors).map plain) with
  | error fault => simp [done, Except.map] at coded
  | ok merged =>
    have shorter := merge_length_le done
    simp only [done, Except.map, Except.ok.injEq] at coded
    simpa [← coded] using shorter

/-! ### The codings of a term -/

lemma newCodings_eq {lists : List (List α)} {merged : List (Subterm α)}
    (left : newLists earlier factors = lists) (done : merge (lists.map plain) = .ok merged) :
    newCodings earlier factors = .ok (merged.map Subterm.coding) := by
  rw [newCodings, left, done]
  rfl

lemma newLists_alone (earlier : List (Finset α)) (a : α) : newLists earlier [a] =
    [[], [a]].filter fun names => New earlier [a] names.toFinset := rfl

lemma newLists_pair (earlier : List (Finset α)) (a b : α) : newLists earlier [a, b] =
    [[], [a], [b], [a, b]].filter fun names => New earlier [a, b] names.toFinset := rfl

lemma newCodings_alone (coded : newCodings earlier [a] = .ok cs) : cs.length ≤ 1 := by
  by_cases unused : earlier = []
  · have left : newLists earlier [a] = [[], [a]] := by simp [newLists_alone, unused, New]
    cases (newCodings_eq left merge_alone).symm.trans coded
    simp
  · refine (newCodings_length_le coded).trans ?_
    rw [newLists_alone, filter_cons_of_neg (by simpa [new_empty] using unused)]
    exact length_filter_le _ [[a]]

lemma newCodings_pair (different : a ≠ b) (coded : newCodings earlier [a, b] = .ok cs) :
    cs.length ≤ 1 ∧ ¬ Lacking earlier [a, b] ∨
      Lacking earlier [a, b] ∧ cs.dropLast = [[(b, false)]] := by
  obtain ⟨all, both, first, second⟩ := merge_pair different
  have aNew : New earlier [a, b] {a} ↔ ¬ Taken earlier a := new_singleton (by simp)
  have bNew : New earlier [a, b] {b} ↔ ¬ Taken earlier b := new_singleton (by simp)
  have pairNew : ¬ Taken earlier a ∨ ¬ Taken earlier b → New earlier [a, b] {a, b} := by
    rintro (free | free)
    · exact New.above (aNew.mpr free) (by simp) (by simp)
    · exact New.above (bNew.mpr free) (by simp) (by simp)
  by_cases unused : earlier = []
  · have left : newLists earlier [a, b] = [[], [a], [b], [a, b]] := by
      simp [newLists_pair, unused, New]
    cases (newCodings_eq left all).symm.trans coded
    exact .inl (by simp [lacking_pair, unused])
  · have noEmpty : ¬ New earlier [a, b] ∅ := fun isNew => unused (new_empty.mp isNew)
    -- the factors that are not taken are left, and with one of them the pair
    by_cases aTaken : Taken earlier a <;> by_cases bTaken : Taken earlier b
    · have left : newLists earlier [a, b] = [[a, b]].filter fun names =>
          New earlier [a, b] names.toFinset := by
        simp [newLists_pair, filter_cons, noEmpty, aNew, bNew, aTaken, bTaken]
      refine .inl ⟨(newCodings_length_le coded).trans ?_, by simp [lacking_pair, aTaken]⟩
      rw [left]
      exact length_filter_le _ [[a, b]]
    · have left : newLists earlier [a, b] = [[b], [a, b]] := by
        simp [newLists_pair, noEmpty, aNew, bNew, aTaken, bTaken, pairNew]
      cases (newCodings_eq left second).symm.trans coded
      exact .inl (by simp [lacking_pair, aTaken])
    · have left : newLists earlier [a, b] = [[a], [a, b]] := by
        simp [newLists_pair, noEmpty, aNew, bNew, aTaken, bTaken, pairNew]
      cases (newCodings_eq left first).symm.trans coded
      exact .inl (by simp [lacking_pair, bTaken])
    · have left : newLists earlier [a, b] = [[a], [b], [a, b]] := by
        simp [newLists_pair, noEmpty, aNew, bNew, aTaken, bTaken, pairNew]
      cases (newCodings_eq left both).symm.trans coded
      exact .inr ⟨lacking_pair.mpr ⟨unused, aTaken, bTaken⟩, by simp [coding_plain]⟩

/-- A term of at most two factors has one coding at most, unless both its factors are lacking. -/
lemma newCodings_small (small : factors.length ≤ 2) (distinct : factors.Nodup)
    (coded : newCodings earlier factors = .ok cs) :
    cs.length ≤ 1 ∧ ¬ Lacking earlier factors ∨
      Lacking earlier factors ∧ ∃ x ∈ factors, cs.dropLast = [[(x, false)]] := by
  match factors with
  | [] =>
    refine .inl ⟨(newCodings_length_le coded).trans ?_, by simp [Lacking]⟩
    exact length_filter_le _ [[]]
  | [a] => exact .inl ⟨newCodings_alone coded, by simp [Lacking]⟩
  | [a, b] =>
    -- merging absorbs the first factor into the pair, so it is the second that stays behind
    have different : a ≠ b := by simpa using distinct
    exact (newCodings_pair different coded).imp_right fun both => ⟨both.1, b, by simp, both.2⟩
  | _ :: _ :: _ :: _ => simp at small

end ModelFormula.Coding

/-!
### Models with at most two factors in a term

A term of two factors of which none was coded before gets a term for its second factor, right in
front of it. In the enlarged model every term has at most one coding.
-/
namespace ModelFormula.Model

open List Coding Effect

variable {f : Frame} {levels : String → List Datum} {σ τ : Store} {m m' n n' : Model}
variable {e : Effect} {post pre : List Effect} {picked : List (String × List (Flags String))}

/-! ### Equal effects -/

lemma labels_eq_of_same (left : ∀ c ∈ as, c.IsFactor f levels)
    (right : ∀ c ∈ bs, c.IsFactor f levels) (size : as.length = bs.length)
    (same : sameListM.go (Component.same kinds) as bs = .ok true) :
    as.map Component.label = bs.map Component.label := by
  induction as generalizing bs with
  | nil => rw [length_eq_zero_iff.mp size.symm]
  | cons a as ih =>
    cases bs with
    | nil => cases size
    | cons b bs =>
      obtain ⟨first, left⟩ := forall_mem_cons.mp left
      obtain ⟨second, right⟩ := forall_mem_cons.mp right
      obtain ⟨x, r, atom, -⟩ := first
      obtain ⟨y, s, atom', -⟩ := second
      simp only [sameListM.go, Component.same, atom, atom', ok_bind, text_beq] at same
      split at same
      · cases same
      · next eq =>
        have names : x = y := by
          simp only [Bool.not_eq_true', Bool.not_eq_false, Bool.and_eq_true, beq_iff_eq] at eq
          exact eq.1.2
        have rest := ih left right (by simpa using size) same
        simp [rest, Component.label, Component.name, atom, atom', names]

/-- Equal effects have the same factors. -/
lemma factors_eq_of_same {d : Effect} (left : ∀ c ∈ d.held, c.IsFactor f levels)
    (right : ∀ c ∈ e.held, c.IsFactor f levels) (same : d.same kinds e = .ok true) :
    d.factors = e.factors := by
  cases d with
  | term t =>
    cases e with
    | term u =>
      simp only [Effect.same, Term.same, sameListM] at same
      split at same
      · cases same
      next size => exact labels_eq_of_same left right (by simpa [Effect.held] using size) same
    | intercept | negated => cases same
  | intercept | negated => cases e <;> first | rfl | cases same

/-! ### Codings of small terms -/

lemma dropLast_eq_nil {α : Type} {xs : List α} (short : xs.length ≤ 1) : xs.dropLast = [] := by
  rw [← length_eq_zero_iff, length_dropLast]
  omega

/-- The factor lists of the terms that a name needs besides its own. -/
def furtherLists (picked : List (String × List (Flags String))) (name : String) :
    List (List String) :=
  (((picked.find? (·.1 == name)).map (·.2)).getD []).dropLast.map (·.map (·.1))

section Small

variable (codes : Picked [] m.factorGroup picked) (names : NamesTell m.common)
  (small : ∀ e ∈ m.common, e.factors.length ≤ 2) (distinct : ∀ e ∈ m.common, e.factors.Nodup)

include codes in
lemma furtherLists_eq (mem : t ∈ picked) :
    furtherLists picked t.1 = t.2.dropLast.map (·.map (·.1)) := by
  simp [furtherLists, find?_of_mem (nodup_picked codes.names_eq) mem]

include codes names small distinct in
/-- An effect has at most one coding, or else one for its second factor and one for both. -/
lemma small_codings (mem : e ∈ m.common) :
    ∃ cs, (e.name, cs) ∈ picked ∧ (cs.length ≤ 1 ∧ furtherLists picked e.name = [] ∨
      e.factors.length = 2 ∧ ∃ x ∈ e.factors, cs.dropLast = [[(x, false)]] ∧
        furtherLists picked e.name = [[x]]) := by
  obtain ⟨cs, bound⟩ := exists_picked codes.names_eq mem
  obtain ⟨before, factors, after, group, coded⟩ := codes.coded bound
  obtain ⟨d, inside, entry⟩ := (mem_factorGroup names).mp
    (show (e.name, factors) ∈ m.factorGroup by simp [group])
  obtain ⟨name, rfl⟩ := Prod.mk.inj entry
  rw [names d inside e mem name.symm] at coded
  have plan := furtherLists_eq codes bound
  refine ⟨cs, bound, ?_⟩
  rcases newCodings_small (small e mem) (distinct e mem) coded with
    ⟨short, -⟩ | ⟨⟨-, pair, -⟩, x, factor, further⟩
  · exact .inl ⟨short, by simp [plan, dropLast_eq_nil short]⟩
  · exact .inr ⟨pair, x, factor, further, by simp [plan, further]⟩

include codes names small distinct in
lemma length_furtherLists (mem : e ∈ m.common) (among : xs ∈ furtherLists picked e.name) :
    xs.length = 1 := by
  obtain ⟨cs, -, ⟨-, none⟩ | ⟨-, x, -, -, single⟩⟩ := small_codings codes names small distinct mem
  · simp [none] at among
  · simp [mem_singleton.mp (single ▸ among)]

end Small

/-! ### The order of added terms -/

/-- Effects with others in front of each, whose factors are as planned. -/
inductive Widened (plan : Effect → List (List String)) : List Effect → List Effect → Prop
  | nil : Widened plan [] []
  | cons {e : Effect} {added es es' : List Effect} (planned : added.map factors = plan e)
      (rest : Widened plan es es') : Widened plan (e :: es) (added ++ e :: es')

namespace Widened

variable {plan : Effect → List (List String)} {es es' : List Effect}

lemma subset (widened : Widened plan es es') : es ⊆ es' := by
  induction widened with
  | nil => exact Subset.refl _
  | cons _ _ ih =>
    refine cons_subset.mpr ⟨by simp, ?_⟩
    exact Subset.trans ih fun d mem => by simp [mem]

lemma mem (widened : Widened plan es es') {d : Effect} (mem : d ∈ es') :
    d ∈ es ∨ ∃ e ∈ es, d.factors ∈ plan e := by
  induction widened with
  | nil => cases mem
  | @cons e added es es' planned _ ih =>
    rcases mem_append.mp mem with new | old
    · refine .inr ⟨e, mem_cons_self, ?_⟩
      rw [← planned]
      exact mem_map_of_mem new
    · rcases mem_cons.mp old with rfl | later
      · exact .inl mem_cons_self
      · rcases ih later with inside | ⟨c, inside, among⟩
        · exact .inl (mem_cons_of_mem _ inside)
        · exact .inr ⟨c, mem_cons_of_mem _ inside, among⟩

lemma split (widened : Widened plan (pre ++ e :: post) es') :
    ∃ pre' added post', es' = (pre' ++ added) ++ e :: post' ∧ Widened plan pre pre' ∧
      added.map factors = plan e := by
  induction pre generalizing es' with
  | nil =>
    cases widened with
    | @cons _ added _ post' planned _ => exact ⟨[], added, post', rfl, .nil, planned⟩
  | cons d pre ih =>
    cases widened with
    | @cons _ first _ _ planned rest =>
      obtain ⟨pre', added, post', rfl, front, own⟩ := ih rest
      exact ⟨first ++ d :: pre', added, post', by simp, .cons planned front, own⟩

lemma concat (widened : Widened plan es es') (planned : added.map factors = plan e) :
    Widened plan (es ++ [e]) (es' ++ (added ++ [e])) := by
  induction widened with
  | nil => exact .cons planned .nil
  | @cons d first es es' front _ ih =>
    rw [cons_append, append_assoc, cons_append]
    exact .cons front ih

end Widened

variable {cs : List (Flags String)}

/-- A term of several factors gets one for a single factor right in front of it. -/
lemma addExtraFor_single {t : Term} (enlarged : Enlarged f levels m n σ)
    (mem : .term t ∈ m.common) (inside : x ∈ (term t).factors)
    (further : cs.dropLast = [[(x, false)]]) (common : n.common = pre ++ .term t :: post)
    (alone : ∀ d ∈ pre ++ post, d.factors ≠ (term t).factors)
    (ends : Ends (n.addExtraFor (.term t) (cs.map (Flags.rename .text)) (.frame f) scope) σ
      n' τ) : ∃ u, n'.common = pre ++ u :: .term t :: post ∧ u.factors = [x] := by
  have kept := enlarged.keeps mem
  rw [addExtraFor, ← map_dropLast, further] at ends
  simp only [map_cons, map_nil, foldlM_cons, foldlM_nil] at ends
  obtain ⟨_, step, rfl⟩ := ends_bind_pure.mp ends
  obtain ⟨u, ρ, extra, step⟩ := ends_bind.mp step
  obtain ⟨es, done, step⟩ := ends_withKinds_bind.mp step
  obtain ⟨rfl, rfl⟩ := ends_pure.mp step
  obtain ⟨prepared, names⟩ := extraTerm_prepared enlarged.prepared kept extra
  obtain ⟨pre', e, post', split, rfl, same⟩ := insertBefore_inv done
  have among : e ∈ n.common := by simp [split]
  have eq : e.factors = (term t).factors :=
    factors_eq_of_same (enlarged.prepared.factors e among) (enlarged.prepared.factors _ kept) same
  -- no other effect has the factors of the term, so it is the one that was found
  obtain ⟨rfl, rfl, rfl⟩ := (append_cons_inj_of_notMem
    (fun first => alone e (mem_append_left _ first) eq)
    (fun later => alone e (mem_append_right _ later) eq)).mp (common.symm.trans split)
  refine ⟨.term u, rfl, ?_⟩
  have single : ((term t).factors.filter fun y =>
      (Flags.rename Literal.text [(x, false)]).any (·.1 == .text y)) = [x] := by
    have only : ((term t).factors.filter fun y =>
        (Flags.rename Literal.text [(x, false)]).any (·.1 == .text y)) =
        (term t).factors.filter (· == x) := by
      refine filter_congr fun y _ => ?_
      simp [Flags.rename, text_beq, Bool.beq_comm]
    rw [only, filter_beq, count_eq_one_of_mem (enlarged.prepared.distinct _ kept) inside]
    rfl
  rw [single] at names
  cases prepared.typed (.term u) mem_cons_self with
  | term _ _ nonempty _ =>
    refine names.eq_of_length_le ?_
    rw [factors, length_map]
    exact length_pos_iff.mpr nonempty

/-- Adding the terms that are needed puts them right in front of those that need them. -/
lemma addExtraTerms_widened (prepared : Prepared f levels σ m)
    (codes : Picked [] m.factorGroup picked) (names : NamesTell m.common)
    (small : ∀ e ∈ m.common, e.factors.length ≤ 2)
    (apart : m.common.Pairwise fun d e => d.factors ≠ e.factors)
    (ends : Ends (m.addExtraTerms (textCodings picked) (.frame f) scope) σ m' τ) :
    Widened (fun e => furtherLists picked e.name) m.common m'.common := by
  -- what is done is widened, and what is left stands behind it as before
  have progress := progress_of_foldlM (I := fun done n σ => Enlarged f levels m n σ ∧
    ∀ rest, m.common = done ++ rest → ∃ es', n.common = es' ++ rest ∧
      Widened (fun e => furtherLists picked e.name) done es') ends ?_
    ⟨.refl prepared, fun rest all => ⟨[], all, .nil⟩⟩
  · obtain ⟨es', common, widened⟩ := progress.2 [] (by simp)
    rwa [common, append_nil]
  · intro done e _ split n n' σ τ step before
    obtain ⟨enlarged, place⟩ := before
    have mem : e ∈ m.common := by simp [split]
    obtain ⟨cs, inside, needs⟩ := small_codings codes names small prepared.distinct mem
    simp only [codingsOf?_eq (nodup_picked codes.names_eq) inside] at step
    refine ⟨addExtraFor_enlarged enlarged mem step, fun rest all => ?_⟩
    obtain ⟨es', common, widened⟩ := place (e :: rest) (by simpa using all)
    rcases needs with ⟨short, plan⟩ | ⟨pair, x, factor, further, plan⟩
    · rw [addExtraFor, ← map_dropLast, dropLast_eq_nil short] at step
      obtain ⟨rfl, rfl⟩ := ends_pure.mp step
      exact ⟨es' ++ ([] ++ [e]), by simp [common], widened.concat plan.symm⟩
    · cases e with
      | intercept | negated => cases pair
      | term t =>
        have alone : ∀ d ∈ es' ++ rest, d.factors ≠ (term t).factors := by
          rw [all, append_assoc, singleton_append, pairwise_append, pairwise_cons] at apart
          obtain ⟨-, ⟨behind, -⟩, front⟩ := apart
          intro d among
          rcases mem_append.mp among with first | later
          · rcases widened.mem first with old | ⟨c, old, planned⟩
            · exact front d old _ mem_cons_self
            · intro eq
              have length := length_furtherLists codes names small prepared.distinct
                (by simp [all, old]) planned
              rw [eq, pair] at length
              cases length
          · exact (behind d later).symm
        obtain ⟨u, common', factors⟩ :=
          addExtraFor_single enlarged mem factor further common alone step
        exact ⟨es' ++ ([u] ++ [.term t]), by simp [common'],
          widened.concat (by simp [plan, factors])⟩

/-! ### The codings of the enlarged model -/

/-- The codings of an effect are those of what is new after the effects in front of it. -/
lemma coded_after (codes : Picked [] m.factorGroup picked) (names : NamesTell m.common)
    (common : m.common = pre ++ e :: post) (fresh : ∀ d ∈ pre, d.name ≠ e.name)
    (mem : (e.name, cs) ∈ picked) :
    ∃ earlier, (∀ S, S ∈ earlier ↔ ∃ d ∈ pre, S = d.factors.toFinset) ∧
      newCodings earlier e.factors = .ok cs := by
  obtain ⟨before, factors, after, group, coded⟩ := codes.coded mem
  obtain ⟨before', after', group', front⟩ := factorGroup_split common names fresh
  have keys := nodup_factorGroup m
  rw [group, map_append, map_cons, nodup_append, nodup_cons] at keys
  obtain ⟨-, ⟨notAfter, -⟩, notBefore⟩ := keys
  have first : (e.name, e.factors) ∉ before := fun bound =>
    notBefore e.name (mem_map_of_mem bound) e.name mem_cons_self rfl
  have last : (e.name, e.factors) ∉ after := fun bound => notAfter (mem_map.mpr ⟨_, bound, rfl⟩)
  -- a name is bound once, so both places are the same
  obtain ⟨rfl, entry, rfl⟩ := (append_cons_inj_of_notMem first last).mp (group.symm.trans group')
  obtain ⟨-, rfl⟩ := Prod.mk.inj entry
  refine ⟨_, fun S => ?_, coded⟩
  simp only [append_nil, mem_reverse, mem_map, front]
  constructor
  · rintro ⟨_, ⟨d, inside, rfl⟩, rfl⟩
    exact ⟨d, inside, rfl⟩
  · rintro ⟨d, inside, rfl⟩
    exact ⟨_, ⟨d, inside, rfl⟩, rfl⟩

/-- With the planned terms in front of it an effect lacks no factors any more. -/
lemma Widened.not_lacking (front : Widened plan pre pre') (planned : added.map factors = plan e)
    (before : ∀ S, S ∈ earlier ↔ ∃ d ∈ pre, S = d.factors.toFinset)
    (now : ∀ S, S ∈ earlier' ↔ ∃ d ∈ pre' ++ added, S = d.factors.toFinset)
    (needs : plan e = [] ∧ ¬ Lacking earlier e.factors ∨ ∃ x ∈ e.factors, plan e = [[x]]) :
    ¬ Lacking earlier' e.factors := by
  rintro ⟨taken, pair, lacking⟩
  rcases needs with ⟨none, enough⟩ | ⟨x, inside, single⟩
  · rw [none, map_eq_nil_iff] at planned
    subst planned
    refine enough ⟨?_, pair, fun E mem => ?_⟩
    -- if nothing was coded before the effect, nothing stands in front of it now
    · rintro rfl
      obtain ⟨S, mem⟩ := exists_mem_of_ne_nil _ taken
      obtain ⟨d, among, -⟩ := (now S).mp mem
      cases pre with
      | nil => cases front; cases among
      | cons c pre => cases (before c.factors.toFinset).mpr ⟨c, mem_cons_self, rfl⟩
    · obtain ⟨d, among, rfl⟩ := (before E).mp mem
      exact lacking _ ((now _).mpr ⟨d, mem_append_left _ (front.subset among), rfl⟩)
  · rw [single] at planned
    -- the planned term has one of the factors, so that factor is not lacking
    obtain ⟨u, rfl, factors⟩ := map_eq_singleton_iff.mp planned
    refine lacking _ ((now _).mpr ⟨u, by simp, rfl⟩) x inside ?_
    simp [factors]

/-- After terms for lacking factors were added, every term has at most one coding. -/
lemma length_codings_le_one (first : Picked [] m.factorGroup picked)
    (second : Picked [] m'.factorGroup picked') (names : NamesTell m'.common)
    (small : ∀ e ∈ m'.common, e.factors.length ≤ 2) (distinct : ∀ e ∈ m'.common, e.factors.Nodup)
    (apart : m.common.Pairwise fun d e => d.factors ≠ e.factors)
    (widened : Widened (fun e => furtherLists picked e.name) m.common m'.common) :
    ∀ t ∈ picked', t.2.length ≤ 1 := by
  have kept := widened.subset
  have told : NamesTell m.common := names.subset kept
  have single {e : Effect} (mem : e ∈ m.common) {xs : List String}
      (among : xs ∈ furtherLists picked e.name) : xs.length = 1 :=
    length_furtherLists first told (fun e old => small e (kept old))
      (fun e old => distinct e (kept old)) mem among
  intro t mem
  obtain ⟨before, factors, after, group, coded⟩ := second.coded mem
  obtain ⟨e, inside, entry⟩ := (mem_factorGroup names).mp
    (show (t.1, factors) ∈ m'.factorGroup by simp [group])
  obtain ⟨name, rfl⟩ := Prod.mk.inj entry
  rcases newCodings_small (small e inside) (distinct e inside) coded with
    ⟨short, -⟩ | ⟨⟨-, pair, -⟩, -⟩
  · exact short
  -- only an effect of two factors can lack them, and such an effect was there before
  have old : e ∈ m.common := by
    rcases widened.mem inside with old | ⟨d, among, planned⟩
    · exact old
    · have length := single among planned
      omega
  obtain ⟨pre, post, common⟩ := append_of_mem old
  rw [common] at widened
  obtain ⟨pre', added, post', common', front, planned⟩ := widened.split
  have others : ∀ d ∈ pre, d.factors ≠ e.factors := by
    rw [common, pairwise_append] at apart
    exact fun d among => apart.2.2 d among e mem_cons_self
  have fresh : ∀ d ∈ pre, d.name ≠ e.name := fun d among eq =>
    others d among (told d (by simp [common, among]) e old eq)
  have fresh' : ∀ d ∈ pre' ++ added, d.name ≠ e.name := by
    intro d among eq
    have factors := names d (by rw [common']; exact mem_append_left _ among) e inside eq
    rcases mem_append.mp among with early | new
    · rcases front.mem early with before | ⟨c, before, planned⟩
      · exact others d before factors
      · have length := single (by simp [common, before]) planned
        rw [factors] at length
        omega
    · have length := single old (planned ▸ mem_map_of_mem new)
      rw [factors] at length
      omega
  obtain ⟨cs, bound⟩ := exists_picked first.names_eq old
  obtain ⟨earlier, before, coded⟩ := coded_after first told common fresh bound
  obtain ⟨earlier', now, coded'⟩ :=
    coded_after second names common' fresh' (by rw [← name]; exact mem)
  have needs : furtherLists picked e.name = [] ∧ ¬ Lacking earlier e.factors ∨
      ∃ x ∈ e.factors, furtherLists picked e.name = [[x]] := by
    rw [furtherLists_eq first bound]
    rcases newCodings_small (small e inside) (distinct e inside) coded with
      ⟨short, enough⟩ | ⟨-, x, factor, further⟩
    · exact .inl ⟨by simp [dropLast_eq_nil short], enough⟩
    · exact .inr ⟨x, factor, by simp [further]⟩
  rcases newCodings_small (small e inside) (distinct e inside) coded' with
    ⟨short, -⟩ | ⟨lacking, -⟩
  · exact short
  · exact absurd lacking (front.not_lacking planned before now needs)

end ModelFormula.Model
