import ModelFormula.Proofs.Codings.TwoFactors

/-!
# The columns of a fitted model of factors

The matrix of the common effects has, for every name, the columns of the last effect of that name.
-/
namespace ModelFormula.Model

open List Operand DesignMatrix Coding

variable {f : Frame} {levels : String → List Datum} {σ τ : Store} {m : Model}
  {picked : List (String × List (Flags String))} {r : Option DesignMatrix}

/-- Components of group-specific terms. -/
def GroupComponent (m : Model) : Nat → Prop := SlotOf (m.group.flatMap GroupTerm.held)

/-- Parts of group-specific terms, and the response. -/
def OtherPart (m : Model) (s : Nat) : Prop := (∃ g ∈ m.group, s ∈ g.slots) ∨ s ∈ m.response.map Term.slot

lemma groupComponent_of_mem (mem : g ∈ m.group) (slot : SlotOf g.held s) :
    m.GroupComponent s := by
  obtain ⟨c, held, rfl⟩ := slot
  exact ⟨c, mem_flatMap.mpr ⟨g, mem, held⟩, rfl⟩

lemma not_groupComponent (separate : (model m).pool.Separate {} σ)
    (mem : c ∈ m.common.flatMap Effect.held) : ¬ m.GroupComponent c.slot := by
  rintro ⟨d, grouped, same⟩
  have own : (.atHand, c) ∈ (model m).pool.componentOwners := by
    simp only [Pool.componentOwners, mem_append, mem_map]
    exact .inl (.inl ⟨c, mem, rfl⟩)
  have other : (.grouped, d) ∈ (model m).pool.componentOwners := by
    simp only [Pool.componentOwners, mem_append, mem_map]
    exact .inl (.inr ⟨d, grouped, rfl⟩)
  exact separate.components.apart own other (by simp) rfl same

lemma not_otherPart (separate : (model m).pool.Separate {} σ) (mem : e ∈ m.common)
    (slot : s ∈ e.slot?) : ¬ m.OtherPart s := by
  have own : (.atHand, .effect e) ∈ (model m).pool.partOwners := by
    simp [Pool.partOwners, pool, effects, mem]
  rintro (⟨g, among, set⟩ | given)
  · obtain ⟨x, other, owns⟩ := Pool.exists_owner_of_slots (p := (model m).pool) among set
    exact separate.parts.apart own other (by simp) slot owns
  · obtain ⟨t, response, rfl⟩ := Option.mem_map.mp given
    have other : (.response, .effect (.term t)) ∈ (model m).pool.partOwners := by
      have listed := (in_pool (.model m)).response t response
      simp [Pool.partOwners, listed]
    exact separate.parts.apart own other (by simp) slot rfl

/-! ### Typing -/

lemma setKinds_prepared (factors : m.OfFactors f levels) (separate : (model m).pool.Separate {} σ)
    (ends : Ends (m.setKinds (.frame f) scope) σ () τ) : Prepared f levels τ m := by
  obtain ⟨_, ρ, first, ends⟩ := ends_bind.mp ends
  obtain ⟨_, second, _⟩ := ends_bind_pure.mp ends
  have plain : ∀ e ∈ m.common, ∀ c ∈ e.held, c.IsVariable := fun e mem c held => by
    obtain ⟨n, r, atom, _⟩ := factors.factors e mem c held
    exact ⟨_, r, atom⟩
  have common := setCommon_known separate (Subset.refl _) (subset_append_left _ _) plain
    (runsAll_of_forIn first)
  -- what happens to group-specific terms leaves the common ones known
  have changes : Changes m.GroupComponent m.OtherPart ρ _ :=
    relates_forIn m.group (fun g mem => (g.confined_setKind _ _).mono
      (fun _ => groupComponent_of_mem mem) fun _ slot => .inl ⟨g, mem, slot⟩) ρ _ _ second
  have roles := relates_forIn m.common (fun e _ => e.keeping_setKind _ _) σ _ ρ first
  have roles' := relates_forIn m.group (fun g _ => g.keeping_setKind _ _) ρ _ _ second
  refine ⟨⟨(separate.refit roles).refit roles', Subset.refl _, subset_append_left _ _, plain,
    fun e mem => ?_, fun e mem => (common e mem).2⟩, factors⟩
  have before := (common e mem).1
  refine before.of_eq (fun c held => (before.knows c held).of_eq (changes.component _ ?_))
    fun s slot => changes.part s (not_otherPart separate mem slot)
  exact not_groupComponent separate (mem_flatMap.mpr ⟨e, mem, held⟩)

/-! ### Data -/

/-- The first coding that a name has. -/
def firstCoding (picked : List (String × List (Flags String))) (name : String) : Flags String :=
  ((picked.find? (·.1 == name)).bind (·.2.head?)).getD []

lemma firstCoding_eq (keys : (picked.map (·.1)).Nodup) (mem : (name, c :: rest) ∈ picked) :
    firstCoding picked name = c := by
  simp [firstCoding, find?_of_mem keys mem]

/-- The columns of an effect that takes the given coding. -/
def effectColumns (levels : String → List Datum) (c : Flags String) (e : Effect) : Nat :=
  codedColumns (fun n => (levels n).length) c e.factors

/-- With data, every effect has the columns of the first coding of its name, and there is one. -/
lemma setData_columns (prepared : Prepared f levels σ m)
    (names : picked.map (·.1) = m.factorGroup.map (·.1))
    (ends : Ends (m.setData (textCodings picked)) σ () τ) :
    (∀ t ∈ picked, ∃ rest, t.2 = firstCoding picked t.1 :: rest) ∧
      ∀ e ∈ m.common, ∃ b, e.data? τ = .ok (some b) ∧ columnCount b =
        effectColumns levels (firstCoding picked e.name) e := by
  have keys := nodup_picked names
  -- whatever encoding an effect is given is the first coding of its name
  have chosen : ∀ e ∈ m.common, ∀ encoding, encodingOf (textCodings picked) e.name = .ok encoding →
      (∃ rest, (e.name, firstCoding picked e.name :: rest) ∈ picked) ∧
        ∀ x, encoding.flag (.text x) = .ok (.bool (spans (firstCoding picked e.name) x)) := by
    intro e mem encoding done
    obtain ⟨cs, inside⟩ := exists_picked names mem
    obtain ⟨c, rest, rfl, flags⟩ := encodingOf_eq keys inside done
    rw [firstCoding_eq keys inside]
    exact ⟨⟨rest, inside⟩, flags⟩
  have apart := apart_of_separate prepared.separate (subset_append_left m.common _)
  obtain ⟨_, ρ, first, ends⟩ := ends_bind.mp ends
  obtain ⟨_, second, _⟩ := ends_bind_pure.mp ends
  have data := data_of_setDatas apart.coherent prepared.factors apart.distinct
    (fun e => encodingOf (textCodings picked) e.name)
    (fun e => spans (firstCoding picked e.name))
    (fun e mem encoding done c held => by
      rw [(prepared.factors e mem c held).name.1]
      exact (chosen e mem encoding done).2 c.label) prepared.typed
    (runsAll_of_forIn (by simpa only [bind_assoc] using first))
  constructor
  · intro t mem
    obtain ⟨e, common, name⟩ := exists_common names mem
    obtain ⟨encoding, done⟩ := (data e common).1
    obtain ⟨rest, placed⟩ := (chosen e common encoding done).1
    rw [name] at placed
    have found := find?_of_mem keys mem
    rw [find?_of_mem keys placed, Option.some.injEq] at found
    exact ⟨rest, by rw [← found]⟩
  · intro e mem
    -- the group-specific terms take their data later, but in slots of their own
    have others : Changes m.GroupComponent m.OtherPart ρ τ := by
      have loop : Confined m.GroupComponent m.OtherPart (forIn m.group PUnit.unit fun g _ => do
          (do g.setData (.uniform (← Fit.withKinds fun kinds => groupSpans kinds m g)))
          pure (.yield PUnit.unit)) := by
        refine relates_forIn m.group fun g mem => (relates_withStore _).bind fun _ => ?_
        exact (g.confined_setData _).mono (fun _ => groupComponent_of_mem mem)
          fun _ slot => .inl ⟨g, mem, slot⟩
      simp only [bind_assoc] at loop
      exact loop ρ _ τ second
    rw [Effect.data?_of_eq fun s slot => others.part s (not_otherPart prepared.separate mem slot)]
    exact (data e mem).2

/-! ### Fitting -/

/-- Codings can be chosen for a prepared model. -/
lemma Prepared.exists_codings (prepared : Prepared f levels σ m) :
    ∃ picked, pick m.factorGroup = .ok picked ∧ Picked [] m.factorGroup picked ∧
      codings σ m = .ok (textCodings picked) := by
  have nodup : ∀ t ∈ m.factorGroup, t.2.Nodup := by
    intro t mem
    obtain ⟨p, inside, rfl⟩ := mem_map.mp mem
    exact prepared.distinct _ (mem_common_of_byName inside).1
  obtain ⟨picked, done, codes⟩ := picked_pick m.factorGroup nodup
  exact ⟨picked, done, codes,
    codings_eq prepared.typed prepared.factors prepared.distinct done codes.names_eq⟩

/-- What fitting a model of factors leaves: the terms that its first codings need are added, and the
effects have the data of the codings that are chosen then. -/
structure Fitted (f : Frame) (levels : String → List Datum) (m m' : Model)
    (first picked : List (String × List (Flags String))) (τ : Store) : Prop where
  coded : Picked [] m.factorGroup first
  adds : ∃ scope σ ρ, Prepared f levels σ m ∧ Enlarged f levels m m' ρ ∧
    Ends (m.addExtraTerms (textCodings first) (.frame f) scope) σ m' ρ
  done : pick m'.factorGroup = .ok picked
  recoded : Picked [] m'.factorGroup picked
  heads : ∀ t ∈ picked, ∃ rest, t.2 = firstCoding picked t.1 :: rest
  data : ∀ e ∈ m'.common, ∃ b, e.data? τ = .ok (some b) ∧ columnCount b =
    effectColumns levels (firstCoding picked e.name) e

lemma exists_fitted (factors : m.OfFactors f levels) (separate : (model m).pool.Separate {} σ)
    (ends : Ends (m.fit (.frame f) scope) σ m' τ) :
    ∃ first picked, Fitted f levels m m' first picked τ := by
  obtain ⟨_, σ₁, typing, ends⟩ := ends_bind.mp ends
  obtain ⟨codings₁, chosen₁, ends⟩ := ends_withStore_bind.mp ends
  obtain ⟨n, ρ, adding, ends⟩ := ends_bind.mp ends
  obtain ⟨codings₂, chosen₂, ends⟩ := ends_withStore_bind.mp ends
  obtain ⟨_, data, rfl⟩ := ends_bind_pure.mp ends
  have prepared := setKinds_prepared factors separate typing
  have enlarged := addExtraTerms_enlarged prepared adding
  obtain ⟨first, -, coded, eq₁⟩ := prepared.exists_codings
  obtain ⟨picked, done, recoded, eq₂⟩ := enlarged.prepared.exists_codings
  cases eq₁.symm.trans chosen₁
  cases eq₂.symm.trans chosen₂
  obtain ⟨heads, data⟩ := setData_columns enlarged.prepared recoded.names_eq data
  exact ⟨first, picked, coded, ⟨scope, σ₁, ρ, prepared, enlarged, adding⟩, done, recoded, heads,
    data⟩

/-- Terms of at most two factors have a single coding in the end, and none is displaced. -/
lemma Fitted.single (fitted : Fitted f levels m m' first picked τ)
    (small : ∀ e ∈ m.common, e.factors.length ≤ 2)
    (clean : ∀ e ∈ m.common, ∀ n ∈ e.factors, CleanName n)
    (apart : m.common.Pairwise fun d e => d.factors ≠ e.factors) :
    (∀ t ∈ picked, t.2.length = 1) ∧ ∀ e ∈ m.common, ∃ t ∈ m'.factorGroup, e.factors ⊆ t.2 := by
  obtain ⟨scope, σ, ρ, prepared, enlarged, adding⟩ := fitted.adds
  have names : NamesTell m'.common := by
    refine namesTell_of_clean enlarged.prepared.typed fun e mem n inside => ?_
    obtain ⟨d, among, subset⟩ := enlarged.inside e mem
    exact clean d among n (subset inside)
  -- a term that was added is inside one that was there, so it is as small
  have small' : ∀ e ∈ m'.common, e.factors.length ≤ 2 := by
    intro e mem
    obtain ⟨d, among, subset⟩ := enlarged.inside e mem
    have fewer := ((enlarged.prepared.distinct e mem).subperm subset).length_le
    exact fewer.trans (small d among)
  have widened := addExtraTerms_widened prepared fitted.coded (names.subset enlarged.keeps) small
    apart adding
  have short := length_codings_le_one fitted.coded fitted.recoded names small'
    enlarged.prepared.distinct apart widened
  refine ⟨fun t mem => ?_, fun e mem => ?_⟩
  · obtain ⟨rest, eq⟩ := fitted.heads t mem
    have atMost := short t mem
    rw [eq, length_cons] at atMost ⊢
    omega
  · exact ⟨_, (mem_factorGroup names).mpr ⟨e, enlarged.keeps mem, rfl⟩, Subset.refl _⟩

/-! ### The matrix of the common effects -/

lemma ofParts_common (m : Model) : DesignMatrix.ofParts (m.common.map .effect) =
    .ok { parts := m.byName.map (fun p => (p.1, Part.effect p.2)) } := by
  have named : (m.common.map Part.effect).mapM (fun p => do return (← p.name, p)) =
      (.ok (m.common.map fun e => (e.name, Part.effect e)) : Except Fault _) := by
    rw [mapM_map]
    exact mapM_eq_map fun _ _ => rfl
  rw [DesignMatrix.ofParts, named, byName, ← foldl_assign_map Part.effect m.common []]
  simp only [ok_bind, pure_ok, foldl_map, map_nil]

/-- An evaluated matrix is the stack of the data of its parts. -/
lemma evaluate_stacks {d d' : DesignMatrix} (evaluated : d.evaluate σ = .ok d') :
    ∃ blocks b, List.Forall₂ (fun p c => p.2.data? σ = .ok (some c)) d.parts blocks ∧
      Block.stack blocks = .ok b ∧ d'.parts = d.parts ∧ d'.matrix = some b := by
  obtain ⟨named, mapped, evaluated⟩ := bind_eq_ok.mp evaluated
  obtain ⟨b, stacked, evaluated⟩ := bind_eq_ok.mp evaluated
  cases evaluated
  refine ⟨named.map (·.2), b, ?_, stacked, rfl, rfl⟩
  rw [forall₂_map_right_iff]
  refine ((mapM_ok_iff _ _ _).mp mapped).imp fun p q done => ?_
  obtain ⟨_ | c, found, done⟩ := bind_eq_ok.mp done <;> cases done
  exact found

lemma evaluate_columns {d d' : DesignMatrix} (evaluated : d.evaluate σ = .ok d') :
    ∃ blocks b, List.Forall₂ (fun p c => p.2.data? σ = .ok (some c)) d.parts blocks ∧
      d'.matrix = some b ∧
      columnCount b = (blocks.map columnCount).sum := by
  obtain ⟨blocks, b, found, stacked, _, matrix⟩ := evaluate_stacks evaluated
  exact ⟨blocks, b, found, matrix, stack_width stacked⟩

lemma blocks_columns {ps : List (String × Effect)} {blocks : List Block} {w : Effect → Nat}
    (data : ∀ p ∈ ps, ∃ b, p.2.data? σ = .ok (some b) ∧ columnCount b = w p.2)
    (found : List.Forall₂ (fun p c => p.2.data? σ = .ok (some c)) ps blocks) :
    blocks.map columnCount = ps.map fun p => w p.2 := by
  induction found with
  | nil => rfl
  | @cons p c ps blocks first _ ih =>
    obtain ⟨⟨b, own, width⟩, others⟩ := forall_mem_cons.mp data
    rw [first, Except.ok.injEq, Option.some.injEq] at own
    rw [map_cons, map_cons, ih others, own, width]

/-- The number of columns of a matrix, if there is one. -/
def columnsOf (r : Option DesignMatrix) : Nat :=
  ((r.bind (·.matrix)).map columnCount).getD 0

/-- Assembling a matrix only looks at the store. -/
lemma ends_matrixOf {parts : List Part} (ends : Ends (Design.matrixOf parts) σ r τ) :
    τ = σ ∧ (r = none ∧ parts = [] ∨
      ∃ d d', r = some d' ∧ DesignMatrix.ofParts parts = .ok d ∧ d.evaluate σ = .ok d') := by
  unfold Design.matrixOf at ends
  split at ends
  next empty =>
    obtain ⟨rfl, rfl⟩ := ends_pure.mp ends
    exact ⟨rfl, .inl ⟨rfl, isEmpty_iff.mp empty⟩⟩
  next =>
    obtain ⟨d, assembled, ends⟩ := ends_lift_bind.mp ends
    obtain ⟨d', evaluated, ends⟩ := ends_withStore_bind.mp ends
    obtain ⟨rfl, rfl⟩ := ends_pure.mp ends
    exact ⟨rfl, .inr ⟨d, d', rfl, assembled, evaluated⟩⟩

/-- The matrix of the common effects has the columns of the effects by name. -/
lemma matrixOf_columns {w : Effect → Nat}
    (data : ∀ e ∈ m.common, ∃ b, e.data? σ = .ok (some b) ∧ DesignMatrix.columnCount b = w e)
    (ends : Ends (Design.matrixOf (m.common.map .effect)) σ r τ) :
    columnsOf r = (m.byName.map fun p => w p.2).sum := by
  obtain ⟨_, ⟨rfl, empty⟩ | ⟨d, d', rfl, assembled, evaluated⟩⟩ := ends_matrixOf ends
  · simp [columnsOf, byName, map_eq_nil_iff.mp empty]
  · rw [ofParts_common, Except.ok.injEq] at assembled
    subst assembled
    obtain ⟨blocks, b, found, matrix, sum⟩ := evaluate_columns evaluated
    have widths := blocks_columns (fun p mem => data p.2 (mem_common_of_byName mem).1)
      (forall₂_map_left_iff.mp found)
    simp [columnsOf, matrix, sum, widths]

end ModelFormula.Model
