import ModelFormula.Proofs.Designs.ColumnCount

/-!
# Terms without a coding

A term is left without codings if one earlier term of its group has all of its factors; then the
whole model cannot be evaluated.
-/
namespace ModelFormula

open List Coding

variable {α : Type} {σ : Store} {m : Model} {cs : Codings} {groups : List CodingGroup}

namespace Coding

/-! ### Merging leaves something -/

section Merging

variable [BEq α]

lemma merge_eq_nil {subterms merged : List (Subterm α)} (done : merge subterms = .ok merged) :
    merged = [] ↔ subterms = [] := by
  fun_induction merge subterms with
  | case1 => cases done
  | case2 =>
    cases done
    rfl
  | case3 subterms next found ih =>
    -- one merge takes two subterms, so something is left
    obtain ⟨start, short, before, long, after, grown, rfl, _, _, rfl⟩ := mergeOnce_inv found
    rw [ih done]
    simp

end Merging

/-! ### Factors that an earlier term has -/

section Picking

variable {κ : Type} [BEq α] {used : List (Subterm α)} {factors : List α}

lemma keys_pick_go {group : List (κ × List α)} {picked : List (κ × List (Flags α))}
    (done : pick.go used group = .ok picked) : picked.map (·.1) = group.map (·.1) := by
  induction group generalizing used picked with
  | nil =>
    cases done
    rfl
  | cons t group ih =>
    obtain ⟨merged, _, done⟩ := bind_eq_ok.mp done
    obtain ⟨rest, later, done⟩ := bind_eq_ok.mp done
    cases done
    simp [ih later]

/-- The subterms in use after some terms of a group. -/
def usedAfter (used : List (Subterm α)) (front : List (κ × List α)) : List (Subterm α) :=
  front.foldl (fun used t => used ++ unused used t.2) used

/-- A term of a group has the merged codings of what the terms in front of it do not use. -/
lemma pick_go_entry {front back : List (κ × List α)} {name : κ}
    {picked : List (κ × List (Flags α))}
    (done : pick.go used (front ++ (name, factors) :: back) = .ok picked) :
    ∃ left merged right, picked = left ++ (name, merged.map Subterm.coding) :: right ∧
      right.map (·.1) = back.map (·.1) ∧
      merge (unused (usedAfter used front) factors) = .ok merged := by
  induction front generalizing used picked with
  | nil =>
    obtain ⟨merged, ended, done⟩ := bind_eq_ok.mp done
    obtain ⟨rest, later, done⟩ := bind_eq_ok.mp done
    cases done
    exact ⟨[], merged, rest, rfl, keys_pick_go later, ended⟩
  | cons t front ih =>
    obtain ⟨merged, ended, done⟩ := bind_eq_ok.mp done
    obtain ⟨rest, later, done⟩ := bind_eq_ok.mp done
    cases done
    obtain ⟨left, own, right, rfl, keys, merges⟩ := ih later
    exact ⟨_ :: left, own, right, rfl, keys, merges⟩

variable [PartialEquivBEq α]

lemma InUse.usedAfter (inUse : InUse used earlier) {front : List (κ × List α)}
    (apart : ∀ t ∈ front, NamesApart t.2) :
    InUse (usedAfter used front) ((front.map (·.2)).reverse ++ earlier) := by
  induction front generalizing used earlier with
  | nil => exact inUse
  | cons t front ih =>
    obtain ⟨own, others⟩ := forall_mem_cons.mp apart
    have after := ih (inUse.append own) others
    rw [map_cons, reverse_cons, append_assoc]
    exact after

/-- A term is left without codings exactly if one in front of it has all its factors. -/
lemma merged_eq_nil_iff {front : List (κ × List α)} {merged : List (Subterm α)}
    (apart : ∀ t ∈ front, NamesApart t.2) (own : NamesApart factors)
    (done : merge (unused (usedAfter [] front) factors) = .ok merged) :
    merged = [] ↔ ∃ t ∈ front, NamesBelow factors t.2 := by
  have nothing : InUse ([] : List (Subterm α)) [] := by
    intro names _
    simp
  rw [merge_eq_nil done, unused_eq_nil (nothing.usedAfter apart) own, append_nil]
  constructor
  · rintro ⟨_, mem, below⟩
    obtain ⟨t, among, rfl⟩ := mem_map.mp (mem_reverse.mp mem)
    exact ⟨t, among, below⟩
  · rintro ⟨t, among, below⟩
    exact ⟨t.2, mem_reverse.mpr (mem_map_of_mem among), below⟩

end Picking

end Coding

/-! ### The groups of a model -/

lemma Literal.partialEquiv : PartialEquivBEq Literal where
  symm eq := by
    rw [Literal.beq_comm]
    exact eq
  trans := Literal.beq_trans

namespace Model

open Coding (NamesApart NamesBelow)

variable {name : String} {acc : List (Literal × α)} {factors : List Literal} {value : α}

lemma mem_keys_assign (mem : k ∈ (assign key value acc).map (·.1)) :
    k = key ∨ k ∈ acc.map (·.1) := by
  induction acc with
  | nil => exact .inl (by simpa [assign] using mem)
  | cons p acc ih =>
    rw [assign] at mem
    split at mem
    · exact .inr mem
    · rcases mem_cons.mp mem with rfl | later
      · exact .inr mem_cons_self
      · exact (ih later).imp_right (mem_cons_of_mem _)

/-- Binding a key keeps the keys apart. -/
lemma namesApart_assign (apart : NamesApart (acc.map (·.1))) :
    NamesApart ((assign key value acc).map (·.1)) := by
  induction acc with
  | nil => simp [assign, NamesApart]
  | cons p acc ih =>
    obtain ⟨fresh, others⟩ := pairwise_cons.mp apart
    rw [assign]
    split
    · exact apart
    next different =>
      apply pairwise_cons.mpr
      constructor
      · intro k mem
        rcases mem_keys_assign mem with rfl | old
        · exact Bool.of_not_eq_true different
        · exact fresh k old
      · exact ih others

/-- The components that a shape tells apart. -/
def TermShape.Apart : TermShape → Prop
  | .single _ => True
  | .interaction kinds => NamesApart (kinds.map (·.1))

lemma apart_shape (σ : Store) (e : Effect) : (shape σ e).Apart := by
  have bound : ∀ (cs : List Component) (acc : List (Literal × Option Kind)),
      NamesApart (acc.map (·.1)) →
      NamesApart ((cs.foldl (fun acc c => assign c.name (σ.component c.slot).kind acc) acc).map
        (·.1)) := by
    intro cs
    induction cs with
    | nil => exact fun _ apart => apart
    | cons c cs ih => exact fun _ apart => ih _ (namesApart_assign apart)
  unfold shape
  split
  · exact bound _ [] Pairwise.nil
  · trivial

lemma apart_shapes : ∀ p ∈ shapes σ m, p.2.Apart := by
  rw [shapes_eq]
  intro p mem
  obtain ⟨q, _, rfl⟩ := mem_map.mp mem
  exact apart_shape σ q.2

lemma apart_categoricGroup {shapes : List (String × TermShape)} (apart : ∀ p ∈ shapes, p.2.Apart) :
    ∀ t ∈ categoricGroup shapes, NamesApart t.2 := by
  intro t mem
  obtain ⟨⟨name, s⟩, own, entry⟩ := mem_filterMap.mp mem
  have shapeApart := apart _ own
  dsimp only at entry
  split at entry
  · cases entry
    exact pairwise_singleton _ _
  · cases entry
    exact Pairwise.nil
  · cases entry
  · split at entry
    · cases entry
      exact shapeApart
    · cases entry

lemma apart_updateGroup {numeric : List Literal} {change : CodingGroup → CodingGroup}
    {groups : List (List Literal × CodingGroup)}
    (changed : ∀ group : CodingGroup, (∀ t ∈ group, NamesApart t.2) →
      ∀ t ∈ change group, NamesApart t.2)
    (apart : ∀ g ∈ groups, ∀ t ∈ g.2, NamesApart t.2) :
    ∀ g ∈ updateGroup numeric change groups, ∀ t ∈ g.2, NamesApart t.2 := by
  induction groups with
  | nil =>
    intro g mem
    rw [mem_singleton.mp mem]
    exact changed [] (by simp)
  | cons first groups ih =>
    obtain ⟨own, others⟩ := forall_mem_cons.mp apart
    rw [updateGroup]
    split
    · exact forall_mem_cons.mpr ⟨changed _ own, others⟩
    · exact forall_mem_cons.mpr ⟨own, ih others⟩

lemma apart_numericGroups {shapes : List (String × TermShape)}
    {groups : List (List Literal × CodingGroup)} (apart : ∀ p ∈ shapes, p.2.Apart)
    (done : numericGroups shapes = .ok groups) : ∀ g ∈ groups, ∀ t ∈ g.2, NamesApart t.2 := by
  refine foldlM_invariant (I := fun groups => ∀ g ∈ groups, ∀ t ∈ g.2, NamesApart t.2) (by simp)
    ?_ done
  rintro ⟨name, s⟩ mem before after held step
  have shapeApart := apart _ mem
  dsimp only at step
  split at step
  · cases step
    exact held
  next kinds =>
    split at step
    · cases step
      exact held
    · obtain ⟨part, _, step⟩ := bind_eq_ok.mp step
      cases step
      apply apart_updateGroup _ held
      intro group own t among
      have factors : NamesApart (namesOfKind .categoric kinds) :=
        shapeApart.sublist (filter_sublist.map _)
      rcases mem_assign among with rfl | old
      · exact factors
      · split at old
        · rcases mem_assign old with rfl | old
          · exact Pairwise.nil
          · exact own t old
        · exact own t old

lemma apart_codingGroups (grouped : codingGroups σ m = .ok groups) :
    ∀ group ∈ groups, ∀ t ∈ group, NamesApart t.2 := by
  obtain ⟨numeric, done, grouped⟩ := bind_eq_ok.mp grouped
  cases grouped
  rw [forall_mem_cons]
  constructor
  · exact apart_categoricGroup apart_shapes
  · intro group mem
    obtain ⟨g, own, rfl⟩ := mem_map.mp mem
    exact apart_numericGroups apart_shapes done g own

/-! ### Looking a coding up -/

lemma find?_assign {acc : List (String × α)} : (assign key value acc).find? (·.1 == name) =
      if key = name then some (key, value) else acc.find? (·.1 == name) := by
  induction acc with
  | nil => by_cases eq : key = name <;> simp [assign, eq]
  | cons p acc ih =>
    obtain ⟨k, v⟩ := p
    rw [assign]
    split
    next same =>
      obtain rfl := eq_of_beq same
      by_cases eq : k = name <;> simp [eq]
    next different =>
      have other : k ≠ key := by simpa using different
      by_cases eq : key = name
      · subst eq
        simp [other, ih]
      · by_cases first : k = name <;> simp [first, eq, ih]

/-- Of several bindings of a key the last counts. -/
lemma find?_foldl_assign (items acc : List (String × α)) (name : String) :
    (items.foldl (fun acc p => assign p.1 p.2 acc) acc).find? (·.1 == name) =
      (items.reverse.find? (·.1 == name)).or (acc.find? (·.1 == name)) := by
  induction items generalizing acc with
  | nil => rfl
  | cons p items ih =>
    obtain ⟨k, v⟩ := p
    rw [foldl_cons, ih, find?_assign, reverse_cons, find?_append, Option.or_assoc]
    congr 1
    by_cases eq : k = name <;> simp [eq]

lemma codingsOf?_eq_last (grouped : codingGroups σ m = .ok groups)
    (done : codings σ m = .ok cs) (name : String) :
    ∃ picked, List.Forall₂ (fun group ps => pick group = .ok ps) groups picked ∧
      codingsOf? cs name = (picked.flatten.reverse.find? (·.1 == name)).map (·.2) := by
  rw [codings, grouped] at done
  obtain ⟨_, same, done⟩ := bind_eq_ok.mp done
  cases same
  obtain ⟨picked, picks, done⟩ := bind_eq_ok.mp done
  cases done
  refine ⟨picked, (mapM_ok_iff _ _ _).mp picks, ?_⟩
  have last := find?_foldl_assign picked.flatten [] name
  rw [codingsOf?, last]
  simp

/-- The entry that decides on a name, with those in front of it in its group: it is the last one in
its group that has the name, and no later group has the name. -/
def Decides (groups : List CodingGroup) (name : String) (front : CodingGroup)
    (factors : List Literal) : Prop :=
  ∃ before back after, groups = before ++ (front ++ (name, factors) :: back) :: after ∧
    name ∉ back.map (·.1) ∧ ∀ group ∈ after, name ∉ group.map (·.1)

lemma exists_last {P : α → Prop} [DecidablePred P] {xs : List α} (some : ∃ x ∈ xs, P x) :
    ∃ front x back, xs = front ++ x :: back ∧ P x ∧ ∀ y ∈ back, ¬ P y := by
  induction xs with
  | nil => simp at some
  | cons x xs ih =>
    by_cases later : ∃ y ∈ xs, P y
    · obtain ⟨front, y, back, rfl, holds, none⟩ := ih later
      exact ⟨x :: front, y, back, rfl, holds, none⟩
    · obtain ⟨y, mem, holds⟩ := some
      rcases mem_cons.mp mem with rfl | inside
      · exact ⟨[], y, xs, rfl, holds, fun z among own => later ⟨z, among, own⟩⟩
      · exact absurd ⟨y, inside, holds⟩ later

lemma exists_decides (named : ∃ group ∈ groups, name ∈ group.map (·.1)) :
    ∃ front factors, Decides groups name front factors := by
  obtain ⟨before, group, after, rfl, own, none⟩ := exists_last named
  obtain ⟨t, mem, eq⟩ := mem_map.mp own
  obtain ⟨front, ⟨_, factors⟩, back, rfl, rfl, last⟩ :=
    exists_last (P := fun t : String × List Literal => t.1 = name) ⟨t, mem, eq⟩
  refine ⟨front, factors, before, back, after, rfl, ?_, none⟩
  rintro again
  obtain ⟨u, inside, eq⟩ := mem_map.mp again
  exact last u inside eq

lemma forall₂_split {β : Type} {R : α → β → Prop} {before after : List α} {x : α} {ys : List β}
    (all : List.Forall₂ R (before ++ x :: after) ys) :
    ∃ left y right, ys = left ++ y :: right ∧ R x y ∧ List.Forall₂ R after right := by
  induction before generalizing ys with
  | nil =>
    cases all with
    | cons first others => exact ⟨[], _, _, rfl, first, others⟩
  | cons z before ih =>
    cases all with
    | cons _ others =>
      obtain ⟨left, y, right, rfl, holds, rest⟩ := ih others
      exact ⟨_ :: left, y, right, rfl, holds, rest⟩

/-- No codings are under a name that no group has. -/
lemma not_mem_picked (picks : List.Forall₂ (fun group ps => pick group = .ok ps) groups picked)
    (absent : ∀ group ∈ groups, name ∉ group.map (·.1)) :
    ∀ t ∈ picked.flatten, (t.1 == name) = false := by
  induction picks with
  | nil => simp
  | @cons group ps groups picked first _ ih =>
    obtain ⟨here, later⟩ := forall_mem_cons.mp absent
    rw [flatten_cons, forall_mem_append]
    constructor
    · intro t mem
      have key : t.1 ∈ group.map (·.1) := by
        rw [← keys_pick_go first]
        exact mem_map_of_mem mem
      simpa using fun eq : t.1 = name => here (eq ▸ key)
    · exact ih later

/-- What a deciding entry is given is what is looked up. -/
lemma codingsOf?_of_decides (grouped : codingGroups σ m = .ok groups)
    (done : codings σ m = .ok cs) (decides : Decides groups name front factors) :
    ∃ merged, codingsOf? cs name = some (merged.map Subterm.coding) ∧
      merge (unused (usedAfter [] front) factors) = .ok merged := by
  obtain ⟨picked, picks, lookup⟩ := codingsOf?_eq_last grouped done name
  obtain ⟨before, back, after, rfl, last, none⟩ := decides
  obtain ⟨early, ps, late, rfl, own, later⟩ := forall₂_split picks
  obtain ⟨left, merged, right, rfl, keys, merges⟩ := pick_go_entry own
  refine ⟨merged, ?_, merges⟩
  -- nothing behind the entry has its name, neither in its group nor in a later one
  have fresh : ∀ t ∈ right ++ late.flatten, (t.1 == name) = false := by
    rw [forall_mem_append]
    constructor
    · intro t mem
      have key : t.1 ∈ back.map (·.1) := keys ▸ mem_map_of_mem mem
      simpa using fun eq : t.1 = name => last (eq ▸ key)
    · exact not_mem_picked later none
  have behind : (right ++ late.flatten).reverse.find? (·.1 == name) = Option.none := by
    rw [find?_eq_none]
    intro t mem
    simp [fresh t (mem_reverse.mp mem)]
  have items : (early ++ (left ++ (name, merged.map Subterm.coding) :: right) :: late).flatten =
      early.flatten ++ left ++ (name, merged.map Subterm.coding) ::
        (right ++ late.flatten) := by simp
  rw [lookup, items, reverse_append, reverse_cons, append_assoc, find?_append, behind]
  simp

/-- A deciding entry is left without codings exactly if one in front of it has all its factors. -/
lemma codings_eq_nil_of_decides (grouped : codingGroups σ m = .ok groups)
    (done : codings σ m = .ok cs) (decides : Decides groups name front factors) :
    ∃ codings, codingsOf? cs name = some codings ∧
      (codings = [] ↔ ∃ t ∈ front, NamesBelow factors t.2) := by
  have := Literal.partialEquiv
  obtain ⟨merged, lookup, merges⟩ := codingsOf?_of_decides grouped done decides
  refine ⟨_, lookup, ?_⟩
  obtain ⟨before, back, after, rfl, _⟩ := decides
  have apart := apart_codingGroups grouped (front ++ (name, factors) :: back) (by simp)
  rw [map_eq_nil_iff]
  exact merged_eq_nil_iff (fun t mem => apart t (mem_append_left _ mem))
    (apart (name, factors) (by simp)) merges

/-- The name is decided on by an entry all of whose factors one in front of it has. -/
def Covered (groups : List CodingGroup) (name : String) : Prop :=
  ∃ front factors, Decides groups name front factors ∧ ∃ t ∈ front, NamesBelow factors t.2

lemma codingsOf?_eq_nil_iff (grouped : codingGroups σ m = .ok groups)
    (done : codings σ m = .ok cs) (name : String) :
    codingsOf? cs name = some [] ↔ Covered groups name := by
  constructor
  · intro empty
    have named : ∃ group ∈ groups, name ∈ group.map (·.1) := by
      by_contra absent
      push Not at absent
      obtain ⟨picked, picks, lookup⟩ := codingsOf?_eq_last grouped done name
      rw [empty, eq_comm, Option.map_eq_some_iff] at lookup
      obtain ⟨t, found, _⟩ := lookup
      have mem := mem_reverse.mp (mem_of_find?_eq_some found)
      have key := find?_some found
      rw [not_mem_picked picks absent t mem] at key
      cases key
    obtain ⟨front, factors, decides⟩ := exists_decides named
    obtain ⟨codings, lookup, covered⟩ := codings_eq_nil_of_decides grouped done decides
    rw [empty, Option.some.injEq] at lookup
    exact ⟨front, factors, decides, covered.mp lookup.symm⟩
  · rintro ⟨front, factors, decides, above⟩
    obtain ⟨codings, lookup, covered⟩ := codings_eq_nil_of_decides grouped done decides
    rw [lookup, covered.mpr above]

/-- Taking data looks up a coding for every common effect. -/
lemma encodingOf_of_setData (ends : Ends (m.setData cs) τ () τ') :
    ∀ e ∈ m.common, ∃ encoding, encodingOf cs e.name = .ok encoding := by
  obtain ⟨_, ρ, first, _⟩ := ends_bind.mp ends
  have runs : RunsAll (fun e : Effect => do e.setData (← encodingOf cs e.name)) m.common τ ρ :=
    runsAll_of_forIn (by simpa only [bind_assoc] using first)
  have found := runs.establishes (I := fun _ => True)
    (Q := fun e _ => ∃ encoding, encodingOf cs e.name = .ok encoding) ?_ trivial
  · exact found.2
  · intro e _ r r' step _
    obtain ⟨encoding, _, chosen, _⟩ := ends_bind.mp step
    exact ⟨trivial, ⟨encoding, (ends_lift.mp chosen).1⟩, fun _ _ found => found⟩

/-- The first coding of a name is looked up in vain exactly if the name is covered. A model takes its
data only if none of its common effects is. -/
theorem encodingOf_eq_error_iff {σ : Store} {m : Model} {groups : List CodingGroup} {cs : Codings}
    (grouped : codingGroups σ m = .ok groups) (done : codings σ m = .ok cs) :
    (∀ name, encodingOf cs name = .error .outOfRange ↔ Covered groups name) ∧
      (∀ name, (∃ encoding, encodingOf cs name = .ok encoding) ↔ ¬ Covered groups name) ∧
      ∀ τ τ', Ends (m.setData cs) τ () τ' → ∀ e ∈ m.common, ¬ Covered groups e.name := by
  have fails (name : String) : encodingOf cs name = .error .outOfRange ↔ Covered groups name := by
    rw [← codingsOf?_eq_nil_iff grouped done, encodingOf]
    split <;> simp_all
  have succeeds (name : String) :
      (∃ encoding, encodingOf cs name = .ok encoding) ↔ ¬ Covered groups name := by
    rw [← codingsOf?_eq_nil_iff grouped done, encodingOf]
    split <;> simp_all
  refine ⟨fails, succeeds, ?_⟩
  intro τ τ' ends e member
  exact (succeeds e.name).mp (encodingOf_of_setData ends e member)

/-! ### Terms without codings -/

/-- The model of `a:b + a`. -/
def pairAndFactor : Model where
  common := [.intercept 0,
    .term ⟨3, [⟨0, .variable (.text "a") none⟩, ⟨1, .variable (.text "b") none⟩]⟩,
    .term ⟨4, [⟨2, .variable (.text "a") none⟩]⟩]

/-- The factor of `a:b + a` is looked up in vain, and the model does not take data. -/
theorem encodingOf_eq_error_pairAndFactor :
    let σ : Store :=
      { components := Array.replicate 3 { kind := some .categoric }
        parts := #[{}, {}, {}, { kind := some .interaction }, { kind := some .categoric }] }
    let groups : List CodingGroup :=
      [[("Intercept", []), ("a:b", [.text "a", .text "b"]), ("a", [.text "a"])]]
    codingGroups σ pairAndFactor = .ok groups ∧ ∃ cs, codings σ pairAndFactor = .ok cs ∧
      encodingOf cs "a" = .error .outOfRange ∧
      ∀ τ τ', ¬ Ends (pairAndFactor.setData cs) τ () τ' := by
  intro σ groups
  have grouped : codingGroups σ pairAndFactor = .ok groups := by cbv
  have coded : (codings σ pairAndFactor).isOk := by decide +kernel
  have covered : Covered groups "a" := by
    refine ⟨[("Intercept", []), ("a:b", [.text "a", .text "b"])], [.text "a"],
      ⟨[], [], [], rfl, by simp, by simp⟩, ("a:b", [.text "a", .text "b"]), by simp, ?_⟩
    intro x member
    exact ⟨x, by simp_all, by simp_all; decide⟩
  cases done : codings σ pairAndFactor with
  | error fault =>
    rw [done] at coded
    cases coded
  | ok cs =>
    obtain ⟨fails, -, stops⟩ := encodingOf_eq_error_iff grouped done
    refine ⟨grouped, cs, rfl, (fails "a").mpr covered, ?_⟩
    intro τ τ' ends
    exact stops τ τ' ends (.term ⟨4, [⟨2, .variable (.text "a") none⟩]⟩) (by simp [pairAndFactor])
      covered

/-- What fitting does before it takes data. -/
def codedFit (m : Model) (source : DataSource) : Fit (Codings × Model × Codings) := do
  m.setKinds source ⟨[]⟩
  let first ← Fit.withStore fun σ => codings σ m
  let m' ← m.addExtraTerms first source ⟨[]⟩
  let second ← Fit.withStore fun σ => codings σ m'
  return (first, m', second)

end Model

namespace Design

/-- On complete rows a formula is fitted to the columns that it names, with whatever outcome. -/
lemma outcome_make {formula : String} {f : Frame} {action : Datum} {rows : MissingRows}
    {s : Scope Value} {names : List Literal}
    (resolved : Ends (Operand.ofFormula formula) {} (.model m) σ) (given : formula.isEmpty = false)
    (tall : f.height ≠ 0) (known : MissingRows.ofDatum? action = some rows)
    (named : m.varNames = .ok names) (complete : (f.restrict names).incomplete.all (!·)) :
    outcome (make (.text formula) (.frame f) action (.ok s)) {} =
      outcome (ofModel m (f.restrict names) s) σ := by
  have checked : Design.checked (.text formula) (.frame f) action = .ok (formula, f, rows) :=
    checked_eq.mpr ⟨⟨given, tall⟩, rows, known, rfl⟩
  have described : (Operand.model m).varNames = .ok names := named
  have kept : Ends (completeRows (f.restrict names) rows) σ (f.restrict names) σ := by
    have none : ((f.restrict names).incomplete.filter id).length = 0 := by simpa using complete
    simp [completeRows, none]
  rw [make, Ends.outcome_bind (ends_lift.mpr ⟨checked, rfl⟩),
    Ends.outcome_bind (ends_lift.mpr ⟨rfl, rfl⟩), resolved.outcome_bind,
    Ends.outcome_bind (ends_lift.mpr ⟨described, rfl⟩), kept.outcome_bind]

open Model

set_option maxRecDepth 100000 in
/-- The formula `a:b + a` has a type and codings on every term, but in the end none for `a`, and so no
design. -/
theorem make_uncoded_factor :
    let f : Frame := ⟨4, [(.text "a", ⟨.plain .object, [.text "p", .text "q", .text "p", .text "q"]⟩),
      (.text "b", ⟨.plain .object, [.text "u", .text "u", .text "v", .text "v"]⟩)]⟩
    ∃ σ σ₁ cs₁ m σ₂ cs₂, Ends (Operand.ofFormula "a:b + a") {} (.model pairAndFactor) σ ∧
      Ends (pairAndFactor.setKinds (.frame f) ⟨[]⟩) σ () σ₁ ∧ codings σ₁ pairAndFactor = .ok cs₁ ∧
      Ends (pairAndFactor.addExtraTerms cs₁ (.frame f) ⟨[]⟩) σ₁ m σ₂ ∧ codings σ₂ m = .ok cs₂ ∧
      (∃ e ∈ m.common, codingsOf? cs₂ e.name = some []) ∧
      (outcome (make (.text "a:b + a") (.frame f) (.text "drop") (.ok ⟨[]⟩)) {}).1 =
        .error .outOfRange := by
  intro f
  have resolved : Ends (Operand.ofFormula "a:b + a") {} (.model pairAndFactor) (untouched 3 5) := by
    unfold Ends
    cbv
  obtain ⟨⟨cs₁, m, cs₂⟩, τ, ends, uncoded⟩ := @exists_ends Store (Codings × Model × Codings) Bool
    (codedFit pairAndFactor (.frame f)) (untouched 3 5)
    (fun p => p.2.1.common.any fun e => (codingsOf? p.2.2 e.name).any List.isEmpty) true
    (by decide +kernel)
  obtain ⟨_, σ₁, typing, ends⟩ := ends_bind.mp ends
  obtain ⟨first, _, coding, ends⟩ := ends_bind.mp ends
  obtain ⟨coded, rfl⟩ := ends_withStore.mp coding
  obtain ⟨m', σ₂, adding, ends⟩ := ends_bind.mp ends
  obtain ⟨second, _, coding, ends⟩ := ends_bind.mp ends
  obtain ⟨recoded, rfl⟩ := ends_withStore.mp coding
  obtain ⟨equal, -⟩ := ends_pure.mp ends
  cases equal
  refine ⟨_, σ₁, cs₁, m, σ₂, cs₂, resolved, typing, coded, adding, recoded, ?_, ?_⟩
  · obtain ⟨e, member, empty⟩ := List.any_eq_true.mp uncoded
    cases found : codingsOf? cs₂ e.name with
    | none => simp [found] at empty
    | some cs =>
      simp only [found, Option.any_some, List.isEmpty_iff] at empty
      exact ⟨e, member, by rw [found, empty]⟩
  · have made := @outcome_make _ _ _ f (.text "drop") _ ⟨[]⟩ _ resolved (by decide +kernel)
      (by decide) rfl rfl (by decide +kernel)
    have fault : (outcome (ofModel pairAndFactor
        (f.restrict [.text "a", .text "b", .text "a"]) ⟨[]⟩) (untouched 3 5)).1.map
          (fun _ => ()) = .error .outOfRange := by decide +kernel
    rw [made]
    cases result : (outcome (ofModel pairAndFactor
      (f.restrict [.text "a", .text "b", .text "a"]) ⟨[]⟩) (untouched 3 5)).1 with
    | error other => simpa [result, Except.map] using fault
    | ok design => simp [result, Except.map] at fault

end Design

/-!
### Codings in full

A coding that lets all factors of a term span the intercept stands for the empty set of factors, among
others. The first term of a group uses the empty set up, and so in every coding of a later term a factor
is reduced.
-/

namespace Coding

variable {κ : Type} [BEq α]

/-- Whether the coding lets the factor span the intercept; what it does not mention does not. -/
def Flags.spans (c : Flags α) (x : α) : Bool := (c.find? (·.1 == x)).any (·.2)

/-! ### Reduced factors -/

/-- A subterm over some of the factors. -/
structure Subterm.Within (factors : List α) (s : Subterm α) : Prop where
  apart : NamesApart (s.factors.map (·.name))
  names : ∀ f ∈ s.factors, f.name ∈ factors

/-- One of the factors is reduced. -/
def Subterm.HasReduced (s : Subterm α) : Prop := ∃ f ∈ s.factors, f.spansIntercept = false

variable {factors : List α} {s short long grown : Subterm α}

section Absorbing

variable [PartialEquivBEq α]

namespace Subterm

lemma Within.eq_of_name (held : s.Within factors) {f g : Factor α} (left : f ∈ s.factors)
    (right : g ∈ s.factors) (eq : f.name == g.name) : f = g := by
  by_contra different
  have symmetric : Std.Symm fun f g : Factor α => (f.name == g.name) = false := by
    constructor
    intro f g apart
    rwa [BEq.comm]
  have apart := (pairwise_map.mp held.apart).forall left right different
  simp [eq] at apart

lemma Within.spans (held : s.Within factors) {f : Factor α} (mem : f ∈ s.factors)
    (reduced : f.spansIntercept = false) : s.coding.spans f.name = false := by
  rw [Flags.spans]
  cases found : s.coding.find? (·.1 == f.name) with
  | none => rfl
  | some p =>
    obtain ⟨g, own, rfl⟩ := mem_map.mp (mem_of_find?_eq_some found)
    have eq := find?_some found
    rw [held.eq_of_name own mem eq]
    exact reduced

omit [PartialEquivBEq α] in
/-- What absorbs another subterm keeps its factors and gets one more, which spans the intercept. -/
lemma absorb_eq (absorbed : long.absorb short = .ok grown) :
    ∃ f ∈ long.factors, short.factors.contains f = false ∧
      (grown = short ∨ grown = ⟨short.factors ++ [⟨f.name, true⟩]⟩) := by
  rw [absorb] at absorbed
  split at absorbed
  next f only =>
    have among : f ∈ long.factors.filter (!short.factors.contains ·) := by simp [only]
    obtain ⟨mem, absent⟩ := mem_filter.mp among
    split at absorbed
    · cases absorbed
    · obtain rfl := Except.ok.inj absorbed
      refine ⟨f, mem, by simpa using absent, ?_⟩
      split
      · exact .inl rfl
      · exact .inr rfl
  next => cases absorbed

omit [PartialEquivBEq α] in
lemma HasReduced.absorb (reduced : short.HasReduced) (absorbed : long.absorb short = .ok grown) :
    grown.HasReduced := by
  obtain ⟨f, mem, own⟩ := reduced
  obtain ⟨g, _, _, rfl | rfl⟩ := absorb_eq absorbed
  · exact ⟨f, mem, own⟩
  · exact ⟨f, mem_append_left _ mem, own⟩

lemma Within.absorb (left : long.Within factors) (right : short.Within factors)
    (can : long.canAbsorb short) (absorbed : long.absorb short = .ok grown) :
    grown.Within factors := by
  obtain ⟨f, mem, absent, rfl | rfl⟩ := absorb_eq absorbed
  · exact right
  have within : ∀ g ∈ short.factors, ∃ h ∈ long.factors, (g == h) := by
    rw [canAbsorb, Bool.and_eq_true, includes, all_eq_true] at can
    intro g own
    exact contains_iff_exists_mem_beq.mp (can.2 g own)
  -- a factor of that name in the smaller subterm would be the very one that it lacks
  have fresh : ∀ g ∈ short.factors, (g.name == f.name) = false := by
    intro g own
    by_contra eq
    rw [Bool.not_eq_false] at eq
    obtain ⟨h, inside, same⟩ := within g own
    rw [Factor.beq_eq, Bool.and_eq_true] at same
    obtain rfl := left.eq_of_name inside mem (BEq.trans (BEq.symm same.1) eq)
    have known : short.factors.contains h := by
      apply contains_iff_exists_mem_beq.mpr
      exact ⟨g, own, by rw [Factor.beq_eq, Bool.and_eq_true]; exact ⟨BEq.symm same.1, BEq.symm same.2⟩⟩
    rw [absent] at known
    cases known
  constructor
  · rw [map_append, NamesApart, pairwise_append]
    refine ⟨right.apart, by simp, ?_⟩
    rintro _ left' _ last
    obtain ⟨g, own, rfl⟩ := mem_map.mp left'
    obtain rfl : _ = f.name := by simpa using last
    exact fresh g own
  · intro g inside
    rcases mem_append.mp inside with own | last
    · exact right.names g own
    · obtain rfl : g = ⟨f.name, true⟩ := by simpa using last
      exact left.names f mem

end Subterm

end Absorbing

/-- What every absorption keeps holds of all subterms after merging. -/
lemma forall_merged {P : Subterm α → Prop}
    (step : ∀ long short grown : Subterm α, P long → P short → long.canAbsorb short →
      long.absorb short = .ok grown → P grown)
    {subterms merged : List (Subterm α)} (done : merge subterms = .ok merged)
    (holds : ∀ s ∈ subterms, P s) : ∀ s ∈ merged, P s := by
  fun_induction merge subterms with
  | case1 => cases done
  | case2 subterms ended =>
    cases done
    exact holds
  | case3 subterms next found ih =>
    apply ih done
    obtain ⟨start, short, before, long, after, grown, rfl, can, absorbed, rfl⟩ :=
      mergeOnce_inv found
    have own : P grown := step long short grown (holds long (by simp)) (holds short (by simp)) can
      absorbed
    intro s mem
    simp only [mem_append, mem_cons] at mem
    rcases mem with early | middle | rfl | late
    · exact holds s (by simp [early])
    · exact holds s (by simp [middle])
    · exact own
    · exact holds s (by simp [late])

variable {merged : List (Subterm α)}

/-- In every coding of a term that comes after another in its group some factor is reduced. -/
lemma exists_not_spans [PartialEquivBEq α] {front : List (κ × List α)}
    (apart : ∀ t ∈ front, NamesApart t.2) (own : NamesApart factors) (later : front ≠ [])
    (done : merge (unused (usedAfter [] front) factors) = .ok merged) :
    ∀ s ∈ merged, ∃ x ∈ factors, s.coding.spans x = false := by
  have nothing : InUse ([] : List (Subterm α)) [] := by
    intro names _
    simp
  have inUse := nothing.usedAfter apart
  have kept := forall_merged (P := fun s => s.Within factors ∧ s.HasReduced)
    (fun long short grown left right can absorbed =>
      ⟨left.1.absorb right.1 can absorbed, right.2.absorb absorbed⟩) done ?_
  · intro s mem
    obtain ⟨held, f, inside, reduced⟩ := kept s mem
    exact ⟨f.name, held.names f inside, held.spans inside reduced⟩
  · intro s mem
    obtain ⟨names, sublist, rfl, free⟩ := (mem_unused inUse own).mp mem
    refine ⟨⟨?_, ?_⟩, ?_⟩
    · have only : (plain names).factors.map (·.name) = names := by simp [plain, Function.comp_def]
      rw [only]
      exact own.sublist sublist
    · intro f inside
      obtain ⟨x, among, rfl⟩ := mem_map.mp inside
      exact sublist.subset among
    · -- the empty set is used up by the first term
      obtain ⟨t, rest, rfl⟩ := exists_cons_of_ne_nil later
      cases names with
      | nil => exact absurd (fun x mem => by cases mem) (free t.2 (by simp))
      | cons x names => exact ⟨⟨x, false⟩, by simp [plain], rfl⟩

/-- A term without factors has codings that mention nothing. -/
lemma spans_of_no_factors (done : merge (unused [] ([] : List α)) = .ok merged) :
    ∀ s ∈ merged, ∀ x, s.coding.spans x = false := by
  have kept := forall_merged (P := fun s => s.factors = []) ?_ done ?_
  · intro s mem x
    simp [Subterm.coding, kept s mem, Flags.spans]
  · intro long short grown none _ _ absorbed
    obtain ⟨f, mem, _⟩ := Subterm.absorb_eq absorbed
    simp [none] at mem
  · intro s mem
    obtain rfl : Subterm.ofFactors [] = s := by simpa [unused] using mem
    rfl

end Coding

end ModelFormula
