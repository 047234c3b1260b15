import ModelFormula.Proofs.Algebra.DistinctParts
import ModelFormula.Proofs.Codings.MissingCodings
import ModelFormula.Proofs.Designs.UnnamedColumns
import ModelFormula.Proofs.Fits.RefittedParts

/-!
# A design on its own data

Evaluated anew on its own frame, a design has the same columns and entries again if terms that share
a variable ask for one coding of it. Where they ask for different ones, the coding of the last term
is left.
-/
namespace ModelFormula

open List Operand

/-! ### Entries -/

/-- Matrices of one width with equal numbers in all places. -/
def Block.SameEntries (b b' : Block) : Prop :=
  ∃ m m', b.matrix? = some m ∧ b'.matrix? = some m' ∧ m'.width = m.width ∧
    List.Forall₂ (List.Forall₂ fun x y => x = y ∨ (x == y) = true) m.rows m'.rows

lemma Echo.equal {w : Prop} {k : Nat} {d d' : CellType} {x y : Datum} (echo : Echo w k d d' x y) :
    x = y ∨ x == y := by
  cases echo with
  | bool | int => exact .inl rfl
  | whole _ _ exact => exact .inr exact
  | float agrees => exact agrees.imp (congrArg Datum.float) id

lemma Block.Echoes.sameEntries {h : Nat} {w : Prop} {k : Nat → Nat} {b b' : Block}
    (echoes : b.Echoes (.same h w) k b') : b.SameEntries b' := by
  obtain ⟨m, m', shape, shape', rows⟩ := echoes.rows
  refine ⟨m, m', shape, shape', rows.width, forall₂_iff_get.mpr ⟨?_, ?_⟩⟩
  · exact rows.height.trans rows.height'.symm
  · intro i left right
    refine (rows.rows i i _ _ rfl ?_ ?_).imp fun _ _ => Echo.equal
    · simp
    · simp

/-! ### Complete frames -/

/-- What is missing in a column is missing in its vector. -/
lemma Column.exists_of_missing {c : Column} (mem : x ∈ c.cells) (missing : x.isMissing) :
    ∃ y ∈ c.values.grid.cells, y.isLevel = false := by
  have bare : x.isLevel = false := by
    cases x <;> simp_all [Datum.isMissing, Datum.isLevel]
  obtain ⟨type, cells⟩ := c
  cases type with
  | plain | date => exact ⟨x, mem, bare⟩
  | category categories ordered =>
    refine ⟨_, mem_map_of_mem mem, ?_⟩
    -- No sort of categories makes something of what is missing, and none of them is a text.
    have sort : categoryType categories cells ≠ .text := by
      unfold categoryType
      dsimp only
      split_ifs <;> simp
    generalize categoryType categories cells = d at sort
    cases x with
    | null => cases d <;> first | rfl | contradiction
    | float x => cases d <;> first | exact bare | contradiction
    | _ => cases missing

variable {f : Frame}

/-- In a frame of clean columns no row is incomplete. -/
lemma Frame.incomplete_of_clean (clean : ∀ p ∈ f.columns, p.2.Clean f.height) :
    f.incomplete.filter id = [] := by
  rw [filter_eq_nil_iff]
  intro b mem
  obtain ⟨i, _, rfl⟩ := mem_map.mp mem
  rw [id, any_eq_true]
  rintro ⟨⟨name, c⟩, inside, gap⟩
  change ((c.cells[i]?).map Datum.isMissing).getD false = true at gap
  cases found : c.cells[i]? with
  | none => simp [found] at gap
  | some x =>
    rw [found] at gap
    obtain ⟨y, among, bare⟩ := Column.exists_of_missing (mem_of_getElem? found) gap
    have level := (clean _ inside).complete y among
    simp [bare] at level

lemma Frame.columnsNamed_congr (f : Frame) (eq : n == k) :
    f.columnsNamed n = f.columnsNamed k := by
  have back : k == n := by rwa [Literal.beq_comm]
  rw [columnsNamed, columnsNamed]
  congr 1
  apply filter_congr
  rintro ⟨name, column⟩ _
  rw [Bool.eq_iff_iff]
  exact ⟨fun same => Literal.beq_trans same eq, fun same => Literal.beq_trans same back⟩

lemma Frame.covers_restrict (clean : ∀ p ∈ f.columns, p.2.Clean f.height) :
    f.Covers (f.restrict names) := by
  refine ⟨rfl, fun n x found => ?_⟩
  have whole : f.column? n = some x := by
    by_cases known : ∃ k ∈ names, (k == n)
    · obtain ⟨k, mem, eq⟩ := known
      rwa [column?_eq, columnsNamed_restrict mem eq, columnsNamed_congr f eq, ← column?_eq] at found
    · have absent : ∀ k ∈ names, (k == n) = false := by simpa using known
      rw [column?_eq, columnsNamed_restrict_other absent] at found
      cases found
  obtain ⟨p, first, rfl⟩ := Option.map_eq_some_iff.mp whole
  exact ⟨whole, clean p (mem_of_find?_eq_some first)⟩

lemma Design.completeRows_of_clean (clean : ∀ p ∈ f.columns, p.2.Clean f.height)
    (ends : Ends (completeRows f action) σ g τ) : g = f ∧ τ = σ := by
  rw [completeRows, Frame.incomplete_of_clean clean] at ends
  obtain ⟨rfl, rfl⟩ := ends_pure.mp ends
  exact ⟨rfl, rfl⟩

/-! ### Matrices -/

namespace DesignMatrix

variable {g : Frame} {σ : Store} {m : Model} {d d' : DesignMatrix}

lemma mem_foldl_assign {α : Type} {items acc : List (String × α)} {p : String × α}
    (mem : p ∈ items.foldl (fun acc q => Model.assign q.1 q.2 acc) acc) :
    p ∈ acc ∨ p ∈ items := by
  induction items generalizing acc with
  | nil => exact .inl mem
  | cons q items ih =>
    rcases ih mem with old | later
    · rcases Model.mem_assign old with rfl | old
      · exact .inr mem_cons_self
      · exact .inl old
    · exact .inr (mem_cons_of_mem _ later)

lemma mem_of_ofParts {parts : List Part} (made : ofParts parts = .ok d) :
    ∀ q ∈ d.parts, q.2 ∈ parts := by
  obtain ⟨named, mapped, last⟩ := bind_eq_ok.mp made
  cases last
  have same : List.Forall₂ (· = ·) parts (named.map (·.2)) := by
    rw [forall₂_map_right_iff]
    refine ((mapM_ok_iff _ _ _).mp mapped).imp fun p q done => ?_
    obtain ⟨n, _, last⟩ := bind_eq_ok.mp done
    cases last
    rfl
  rw [forall₂_eq_eq_eq] at same
  intro q mem
  rcases mem_foldl_assign mem with none | inside
  · cases none
  · rw [same]
    exact mem_map_of_mem inside

/-- What a part has taken as its data. -/
def block (σ : Store) (p : Part) : Block := ((p.data? σ).toOption.getD none).getD default

lemma blocks_eq {qs : List (String × Part)}
    (found : List.Forall₂ (fun q c => q.2.data? σ = .ok (some c)) qs blocks) :
    blocks = qs.map (fun q => block σ q.2) ∧ ∀ q ∈ qs, q.2.data? σ = .ok (some (block σ q.2)) := by
  induction found with
  | nil => simp
  | @cons q c qs blocks first _ ih =>
    have own : block σ q.2 = c := by
      rw [block, first]
      rfl
    rw [map_cons, own, ← ih.1, forall_mem_cons, own]
    exact ⟨rfl, first, ih.2⟩

lemma ends_evaluateNew (matrix : d.matrix = some b)
    (each : ∀ q ∈ d.parts, Ends (q.2.newData source) σ (new q) σ)
    (done : Block.stack (d.parts.map new) = .ok b') :
    Ends (d.evaluateNew source) σ { d with matrix := some b' } σ := by
  have given : d.matrix.isNone = false := by
    rw [matrix]
    rfl
  rw [evaluateNew, given]
  refine ends_bind.mpr ⟨_, σ, ends_mapM_of_same each, ?_⟩
  exact ends_bind.mpr ⟨b', σ, ends_lift.mpr ⟨done, rfl⟩, ends_pure.mpr ⟨rfl, rfl⟩⟩

/-- A factor of the matrix is coded by whole numbers. -/
def WholeCoded (d : DesignMatrix) (σ : Store) : Prop :=
  ∃ q ∈ d.parts, ∃ c ∈ q.2.held, c.WholeCoded σ

/-- In every row the products of whole numbers are within what a fraction holds exactly. -/
def SmallProducts (d : DesignMatrix) (σ : Store) (height : Nat) : Prop :=
  ∀ q ∈ d.parts, ∀ i < height, magnitudeOf σ q.2.held i ≤ 2 ^ 53

instance (d : DesignMatrix) (σ : Store) (height : Nat) : Decidable (d.SmallProducts σ height) :=
  inferInstanceAs (Decidable (∀ q ∈ d.parts, ∀ i < height, magnitudeOf σ q.2.held i ≤ 2 ^ 53))

/-- On the frame the matrix has the same columns and entries again, and the parts and slices stay. So
does all that the store knows. -/
def Reproduces (d : DesignMatrix) (σ : Store) (f : Frame) : Prop :=
  ∃ b d' b', d.matrix = some b ∧ Ends (d.evaluateNew (.frame f)) σ d' σ ∧ d'.parts = d.parts ∧
    d'.slices = d.slices ∧ d'.matrix = some b' ∧ b.SameEntries b'

section Again

variable {flag : Nat → Bool} (known : m.Known f σ) (inside : ∀ q ∈ d.parts, q.2 ∈ m.parts)
  (current : ∀ p ∈ m.parts, p.Current f flag σ) (covers : g.Covers f)
  (evaluated : d.evaluate σ = .ok d')
include known inside current covers evaluated

/-- Products of whole numbers that a fraction holds exactly are needed only beside a coding by whole
numbers, and only in the rows of the frame. -/
lemma reproduces_of_small
    (small : d.WholeCoded σ → d.SmallProducts σ g.height) : d'.Reproduces σ g := by
  have mixed (q) (mem : q ∈ d.parts) : ∀ c ∈ q.2.held, c.WholeCoded σ → d.WholeCoded σ :=
    fun c held own => ⟨q, mem, c, held, own⟩
  have bound (whole : d.WholeCoded σ) : ∀ q ∈ d.parts, ∀ i, magnitudeOf σ q.2.held i ≤ 2 ^ 53 := by
    intro q mem
    refine magnitudeOf_le (fun c held => ?_) (current _ (inside q mem)).settled
      (fun c held => covers.alike (mixed q mem c held)) (small whole q mem)
    exact known.plain_of_mem (Model.held_subset_of_mem_parts (inside q mem) held)
  obtain ⟨blocks, b, found, stacked, parts, matrix⟩ := Model.evaluate_stacks evaluated
  obtain ⟨rfl, data⟩ := blocks_eq found
  choose! new ends echo using fun q mem =>
    Part.newData_echoes known (inside q mem) (current _ (inside q mem)) covers
      (mixed q mem) (bound · q mem) (data q mem)
  -- a column that is whole in one block becomes a fraction in a stack with fractions
  obtain ⟨b', done, echoes⟩ := Block.echoes_stack (fun q _ => magnitudeOf_pos σ q.2.held) bound echo
    stacked
  exact ⟨b, _, b', matrix, ends_evaluateNew matrix (parts ▸ ends) (parts ▸ done), rfl, rfl, rfl,
    echoes.sameEntries⟩

end Again

end DesignMatrix

/-! ### The response -/

/-- Two stores that agree on a model but for its response. -/
structure Model.Untouched (m : Model) (σ τ : Store) : Prop where
  roles : SameRoles σ τ
  components : ∀ c ∈ m.allComponents, τ.component c.slot = σ.component c.slot
  effects : ∀ e ∈ m.allEffects, ∀ s ∈ e.slot?, τ.part s = σ.part s
  groups : ∀ g ∈ m.group, τ.part g.slot = σ.part g.slot

namespace Model

variable {flag : Nat → Bool} {σ τ : Store} {m : Model}

lemma Untouched.refl (m : Model) (σ : Store) : m.Untouched σ σ :=
  ⟨Kept.refl σ, fun _ _ => rfl, fun _ _ _ _ => rfl, fun _ _ => rfl⟩

lemma Untouched.known (untouched : m.Untouched σ τ) (known : m.Known f σ) : m.Known f τ where
  separate := known.separate.refit untouched.roles
  common := known.common
  listed := known.listed
  plain := known.plain
  filled := known.filled
  effects e mem := by
    refine (known.effects e mem).of_eq (fun c held => ?_) (untouched.effects e mem)
    exact ((known.effects e mem).knows c held).of_eq
      (untouched.components c (m.held_subset_allComponents e mem held))

lemma Untouched.current (untouched : m.Untouched σ τ) (mem : p ∈ m.parts)
    (current : p.Current f flag σ) : p.Current f flag τ := by
  have same : ∀ c ∈ p.held, τ.component c.slot = σ.component c.slot := fun c held =>
    untouched.components c (held_subset_of_mem_parts mem held)
  refine current.keep (fun c held => by rw [same c held])
    (fun c held before => before.of_eq (same c held)) ?_
  rcases mem_append.mp mem with common | group
  · obtain ⟨e, inside, rfl⟩ := mem_map.mp common
    exact untouched.effects e (mem_append_left _ inside)
  · obtain ⟨g, inside, rfl⟩ := mem_map.mp group
    rintro s ⟨⟩
    exact untouched.groups g inside

lemma Untouched.sameKinds (untouched : m.Untouched σ τ) : m.SameKinds σ τ where
  components c mem := by rw [untouched.components c mem]
  parts e mem s slot := by rw [untouched.effects e (mem_append_left _ mem) s slot]

/-- The response has slots of its own. -/
lemma untouched_of_evaluate (separate : (model m).pool.Separate {} σ)
    (given : m.response = some t) (ends : Ends (ResponseMatrix.evaluate t source scope) σ r τ) :
    m.Untouched σ τ := by
  have mem : t ∈ (model m).pool.responses := (in_pool (.model m)).response t given
  have response : (.response, .effect (.term t)) ∈ (model m).pool.partOwners := by
    simp [Pool.partOwners, mem]
  have changes := ResponseMatrix.confined_evaluate t source scope σ r τ ends
  refine ⟨?_, fun c inside => ?_, fun e inside s slot => ?_, fun g inside => ?_⟩
  · obtain ⟨_, ρ, first, ends⟩ := ends_bind.mp ends
    obtain ⟨_, ρ', second, ends⟩ := ends_bind.mp ends
    have kinds : SameRoles σ ρ := (Effect.term t).keeping_setKind source scope σ () ρ first
    have data : Kept View.types (fun _ => False) ρ ρ' :=
      (Effect.term t).keeping_setData _ ρ () ρ' second
    have last : SameRoles ρ' τ :=
      (relates_get.bind fun _ => (relates_withStore _).bind fun _ => relates_pure _) ρ' r τ ends
    exact (kinds.trans data.sameRoles).trans last
  · refine changes.component _ ?_
    -- a component of the response has no slot of a common effect, nor one of a grouping
    rintro ⟨d, own, same⟩
    obtain ⟨place, other, owner⟩ := Pool.exists_component_owner (p := (model m).pool) inside
    have owner' : (.response, d) ∈ (model m).pool.componentOwners := by
      simpa [Pool.componentOwners] using ⟨t, mem, own⟩
    exact separate.components.apart owner owner' other rfl same
  · obtain ⟨place, other, owner⟩ := Pool.exists_part_owner (p := (model m).pool) inside
    refine changes.part s fun same => separate.parts.apart owner response other slot ?_
    rw [same]
    rfl
  · have owner : (.grouped, .group g) ∈ (model m).pool.partOwners := by
      simp [Pool.partOwners, pool, groups, inside]
    exact changes.part _ fun same =>
      separate.parts.apart owner response (by simp) rfl (congrArg some same.symm)

/-! ### Models that are fitted -/

lemma SameKinds.trans (first : m.SameKinds σ ρ) (second : m.SameKinds ρ τ) : m.SameKinds σ τ where
  components c mem := (second.components c mem).trans (first.components c mem)
  parts e mem s slot := (second.parts e mem s slot).trans (first.parts e mem s slot)

lemma keeping_setData (m : Model) (cs : Codings) :
    Keeping View.types m.GroupSlot (m.setData cs) := by
  have effects : Keeping View.types m.GroupSlot (forIn m.common PUnit.unit fun e _ => do
      (do Effect.setData e (← encodingOf cs e.name))
      pure (.yield PUnit.unit)) :=
    relates_forIn m.common fun e _ => (relates_lift _).bind fun _ => e.keeping_setData _
  have groups : Keeping View.types m.GroupSlot (forIn m.group PUnit.unit fun g _ => do
      (do GroupTerm.setData g (.uniform (← Fit.withKinds fun kinds => groupSpans kinds m g)))
      pure (.yield PUnit.unit)) :=
    relates_forIn m.group fun g mem => (relates_withStore _).bind fun _ =>
      g.keeping_setData _ ⟨g, mem, rfl⟩
  simp only [bind_assoc] at effects groups
  exact effects.bind fun _ => groups.bind fun _ => relates_pure _

lemma Known.sameKinds (known : m.Known f σ) (kept : Kept View.types m.GroupSlot σ τ) :
    m.SameKinds σ τ where
  components c _ := kept.kind c.slot
  parts e mem s slot := by
    refine congrArg (·.1) (kept.part s ?_)
    rintro ⟨g, among, rfl⟩
    exact (known.separate.all.grouped g among).2 e (mem_append_left _ mem) slot

lemma mem_allComponents_of_asks (asked : (c, b) ∈ m.asks σ) : c ∈ m.allComponents := by
  rcases mem_append.mp asked with common | group
  · obtain ⟨e, mem, inside⟩ := mem_flatMap.mp common
    obtain ⟨d, held, told⟩ := mem_filterMap.mp inside
    obtain ⟨_, _, same⟩ := Option.map_eq_some_iff.mp told
    cases same
    exact mem_append_left _ (mem_flatMap.mpr ⟨e, mem, held⟩)
  · obtain ⟨g, mem, inside⟩ := mem_flatMap.mp group
    refine mem_append_right _ (mem_flatMap.mpr ⟨g, mem, ?_⟩)
    rcases mem_append.mp inside with expr | factor
    · obtain ⟨d, held, spans⟩ := mem_filterMap.mp expr
      obtain ⟨_, _, same⟩ := Option.map_eq_some_iff.mp spans
      cases same
      exact mem_append_left _ held
    · obtain ⟨d, held, same⟩ := mem_map.mp factor
      cases same
      exact mem_append_right _ held

/-- A fitted model of variables is known, and all its parts are current if terms that share a variable
ask for one coding of it. -/
lemma current_of_fit (separate : (model m).pool.Separate {} σ)
    (plain : ∀ c ∈ m.allComponents, c.IsVariable) (ends : Ends (m.fit (.frame f) scope) σ m' τ) :
    m'.Known f τ ∧ ∀ υ, m'.SameKinds τ υ → m'.OneCoding υ →
      ∀ p ∈ m'.parts, p.Current f (m'.codingOf υ) τ := by
  obtain ⟨_, ρ, typed, ends⟩ := ends_bind.mp ends
  obtain ⟨first, _, ends⟩ := ends_withStore_bind.mp ends
  obtain ⟨n, ρ', extended, ends⟩ := ends_bind.mp ends
  obtain ⟨cs, coded, ends⟩ := ends_withStore_bind.mp ends
  obtain ⟨_, data, rfl⟩ := ends_bind_pure.mp ends
  obtain ⟨known, _⟩ := addExtraTerms_known (setKinds_known separate plain typed) extended
  have kept := n.keeping_setData cs ρ' () _ data
  refine ⟨known.of_kept kept, fun υ later one => ?_⟩
  -- no kind has changed since the codings were chosen, so the same ones are asked for at the end
  have same := (known.sameKinds kept).trans later
  refine (current_of_setData known (fun c b asked categoric => ?_) coded data).2
  rw [← same.asks_eq] at asked
  have kind := same.components c (mem_allComponents_of_asks asked)
  exact one.eq_codingOf asked (kind.trans categoric)

end Model

namespace Design

variable {g : Frame} {σ τ : Store} {m : Model} {design : Design}

/-- The matrix of some parts is evaluated from them. -/
lemma exists_evaluated (ends : Ends (matrixOf parts) σ r τ) (mem : d ∈ r) :
    ∃ d₀ : DesignMatrix, (∀ q ∈ d₀.parts, q.2 ∈ parts) ∧ d₀.evaluate σ = .ok d := by
  obtain ⟨_, ⟨rfl, _⟩ | ⟨d₀, d', rfl, made, evaluated⟩⟩ := Model.ends_matrixOf ends
  · cases mem
  · cases mem
    exact ⟨d₀, DesignMatrix.mem_of_ofParts made, evaluated⟩

lemma ofModel_reproduces (separate : (Operand.model m).pool.Separate {} σ)
    (plain : ∀ c ∈ m.allComponents, c.IsVariable) (covers : g.Covers f)
    (ends : Ends (ofModel m f scope) σ design τ) (one : design.model.OneCoding τ)
    (mem : d ∈ design.common ∨ d ∈ design.group)
    (small : d.WholeCoded τ → d.SmallProducts τ g.height) : d.Reproduces τ g := by
  obtain ⟨υ, fit, responded, common, group⟩ := ends_ofModel ends
  obtain ⟨known, current⟩ := Model.current_of_fit separate plain fit
  -- the response is evaluated last and leaves the other terms as they are
  have untouched : design.model.Untouched υ τ := by
    rcases responded with ⟨_, rfl⟩ | ⟨t, r, given, evaluated⟩
    · exact Model.Untouched.refl _ _
    · exact Model.untouched_of_evaluate known.separate given evaluated
  have current : ∀ p ∈ design.model.parts, p.Current f (design.model.codingOf τ) τ :=
    fun p among => untouched.current among (current τ untouched.sameKinds one p among)
  obtain ⟨d₀, inside, evaluated⟩ : ∃ d₀ : DesignMatrix,
      (∀ q ∈ d₀.parts, q.2 ∈ design.model.parts) ∧ d₀.evaluate τ = .ok d := by
    rcases mem with mem | mem
    · obtain ⟨d₀, inside, evaluated⟩ := exists_evaluated common mem
      exact ⟨d₀, fun q own => mem_append_left _ (inside q own), evaluated⟩
    · obtain ⟨d₀, inside, evaluated⟩ := exists_evaluated group mem
      exact ⟨d₀, fun q own => mem_append_right _ (inside q own), evaluated⟩
  obtain ⟨_, _, _, _, same, _⟩ := Model.evaluate_stacks evaluated
  rw [DesignMatrix.WholeCoded, DesignMatrix.SmallProducts, same] at small
  exact DesignMatrix.reproduces_of_small (untouched.known known) inside current covers evaluated small

end Design

/-! ### Formulas of variables -/

/-- No call stands in the tree, so that its terms are put together from variables. -/
def Expr.callFree : Expr → Bool
  | .grouping e | .unary _ e => e.callFree
  | .binary l _ r => l.callFree && r.callFree
  | .call _ _ => false
  | _ => true

lemma Expr.gives_of_callFree : ∀ e : Expr, e.callFree → e.Gives fun a => ∃ n r, a = .variable n r
  | .grouping e, plain | .unary _ e, plain => gives_of_callFree e plain
  | .binary l _ r, plain => by
    obtain ⟨left, right⟩ := (Bool.and_eq_true ..).mp plain
    exact ⟨gives_of_callFree l left, gives_of_callFree r right⟩
  | .call _ _, plain => by cases plain
  | .name _, _ => ⟨_, _, rfl⟩
  | .quotedName _, _ => ⟨_, _, rfl⟩
  | .subset _ _, _ | .literal _ _, _ => fun _ _ => ⟨_, _, rfl⟩
  | .assign _ _, _ => trivial

lemma Model.All.isVariable {m : Model} (all : m.All fun a => ∃ n r, a = .variable n r) :
    ∀ c ∈ m.allComponents, c.IsVariable := by
  intro c mem
  rcases mem_append.mp mem with common | group
  · obtain ⟨e, inside, held⟩ := mem_flatMap.mp common
    exact all.common e inside c held
  · obtain ⟨g, inside, held⟩ := mem_flatMap.mp group
    rcases mem_append.mp held with expr | factor
    · exact (all.group g inside).1 c expr
    · exact (all.group g inside).2 c factor

namespace Design

/-- Only a model gives a design. -/
lemma exists_resolved (made : Ends (make (.text formula) (.frame frame) action scope) σ design τ) :
    ∃ m ρ, Ends (ofFormula formula) σ (.model m) ρ := by
  obtain ⟨r, done, made⟩ := ends_lift_bind.mp made
  obtain ⟨_, rows, _, rfl⟩ := checked_eq.mp done
  obtain ⟨scope', _, made⟩ := ends_lift_bind.mp made
  obtain ⟨o, ρ, described, made⟩ := ends_bind.mp made
  obtain ⟨names, _, _, made⟩ := ends_bind.mp made
  obtain ⟨used, υ, _, made⟩ := ends_bind.mp made
  cases o with
  | model m => exact ⟨m, ρ, described⟩
  | part | response | foreign => exact (ends_throw made).elim

/-- Let a formula of variables and a frame without missing values have a design. If terms that share
a factor ask for one coding of it, each matrix of the design gives itself again on the frame: with as
many columns, equal entries and the same slices. A factor that spans the intercept is coded by whole
numbers at first and by fractions later; the products beside it must not exceed what a fraction
holds exactly. -/
theorem make_reproduces {formula : String} {tokens : List Token} {e : Expr} {f : Frame}
    {action : Datum} {scope : Except Fault (Scope Value)} {design : Design} {σ : Store}
    (scanned : Token.scan formula = .ok tokens) (parsed : Expr.parse tokens = .ok e)
    (plain : e.callFree = true) (clean : ∀ p ∈ f.columns, p.2.Clean f.height)
    (made : Ends (make (.text formula) (.frame f) action scope) {} design σ)
    (one : design.model.OneCoding σ) :
    ∀ d, d ∈ design.common ∨ d ∈ design.group →
      (d.WholeCoded σ → d.SmallProducts σ f.height) → d.Reproduces σ f := by
  intro d member small
  obtain ⟨m, ρ, resolved⟩ := exists_resolved made
  obtain ⟨_, _, _, scope', _, names, _, used, υ, completed, fit⟩ := (ends_make resolved).mp made
  have cleanUsed : ∀ p ∈ (f.restrict names).columns, p.2.Clean (f.restrict names).height :=
    fun p own => clean p (mem_of_mem_filter own)
  -- no row is left out, so the design is made of the columns that the formula names
  obtain ⟨rfl, rfl⟩ := completeRows_of_clean cleanUsed completed
  have separate := Operand.ofFormula_separate resolved
  obtain ⟨ts, t, scanned', parsed', ends⟩ := Operand.ends_ofFormula resolved
  cases scanned.symm.trans scanned'
  cases parsed.symm.trans parsed'
  obtain ⟨_, all⟩ := (Expr.returns_ofExpr e (e.gives_of_callFree plain)).returns Store.untyped_empty
    ends
  exact ofModel_reproduces separate all.isVariable (Frame.covers_restrict clean) fit one member small

/-! ### Nested factors -/

/-- A factor and a column of whole numbers. -/
def factorAndNumber : Frame :=
  ⟨3, [(.text "a", ⟨.plain .object, [.text "p", .text "q", .text "p"]⟩),
    (.text "x", ⟨.plain .int, [.int 2, .int 3, .int 5]⟩)]⟩

/-- `0 + a/x + (x|a)`, with one variable `a` in both common terms and another in both factors. -/
def nestedAndGrouped : Model :=
  let a (slot : Nat) : Component := ⟨slot, .variable (.text "a") none⟩
  let x (slot : Nat) : Component := ⟨slot, .variable (.text "x") none⟩
  { common := [.term ⟨1, [a 0]⟩, .term ⟨3, [a 0, x 1]⟩]
    group := [⟨7, .intercept 6, .term ⟨5, [a 3]⟩⟩, ⟨8, .term ⟨4, [x 2]⟩, .term ⟨5, [a 3]⟩⟩] }

set_option maxRecDepth 100000 in
lemma ofFormula_nestedAndGrouped : Ends (ofFormula "0 + a/x + (x|a)") {}
    (.model nestedAndGrouped) (untouched 4 9) := by
  unfold Ends
  cbv

/-- Without an intercept the factor and the products with it ask for all its levels, so they may share
it. -/
theorem make_reproduces_nested : ∃ design τ d d',
    Ends (make (.text "0 + a/x + (x|a)") (.frame factorAndNumber) (.text "drop") (.ok ⟨[]⟩)) {}
      design τ ∧
      design.model.OneCoding τ ∧ design.common = some d ∧ design.group = some d' ∧
      d.Reproduces τ factorAndNumber ∧ d'.Reproduces τ factorAndNumber := by
  obtain ⟨tokens, e, scanned, parsed, plain⟩ : ∃ tokens e,
      Token.scan "0 + a/x + (x|a)" = .ok tokens ∧ Expr.parse tokens = .ok e ∧ e.callFree :=
    ⟨_, _, by cbv, by cbv, by cbv⟩
  have clean : ∀ p ∈ factorAndNumber.columns, p.2.Clean factorAndNumber.height := by
    intro p member
    rcases mem_pair.mp member with rfl | rfl
    · exact clean_texts ["p", "q", "p"]
    · exact clean_ints [2, 3, 5]
  obtain ⟨design, τ, fitted, checks⟩ := @exists_ends_store Store Design Bool
    (ofModel nestedAndGrouped factorAndNumber ⟨[]⟩) (untouched 4 9)
    (fun design τ => decide (design.model.OneCoding τ ∧ design.common.isSome ∧ design.group.isSome ∧
      ∀ d ∈ design.common.toList ++ design.group.toList, d.SmallProducts τ 3)) true
    (by decide +kernel)
  obtain ⟨one, common, group, small⟩ := of_decide_eq_true checks
  obtain ⟨d, first⟩ := Option.isSome_iff_exists.mp common
  obtain ⟨d', second⟩ := Option.isSome_iff_exists.mp group
  have made : Ends (make (.text "0 + a/x + (x|a)") (.frame factorAndNumber) (.text "drop")
      (.ok ⟨[]⟩)) {} design τ := by
    rw [Ends, outcome_make ofFormula_nestedAndGrouped (by decide +kernel) (by decide) rfl rfl
      (by decide +kernel)]
    exact fitted
  have again := make_reproduces scanned parsed plain clean made one
  rw [first, second] at small
  refine ⟨design, τ, d, d', made, one, first, second, ?_, ?_⟩
  · exact again d (.inl first) fun _ => small d (by simp)
  · exact again d' (.inr second) fun _ => small d' (by simp)

/-- Two factors in all their combinations. -/
def twoFactors : Frame :=
  ⟨4, [(.text "a", ⟨.plain .object, [.text "p", .text "q", .text "p", .text "q"]⟩),
    (.text "b", ⟨.plain .object, [.text "u", .text "u", .text "v", .text "v"]⟩)]⟩

/-- `a/b`, with one variable `a` in both terms. -/
def nestedFactors : Model :=
  let a : Component := ⟨0, .variable (.text "a") none⟩
  let b : Component := ⟨1, .variable (.text "b") none⟩
  { common := [.intercept 0, .term ⟨1, [a]⟩, .term ⟨3, [a, b]⟩] }

set_option maxRecDepth 100000 in
lemma ofFormula_nestedFactors : Ends (ofFormula "a/b") {} (.model nestedFactors)
    (untouched 2 4) := by
  unfold Ends
  cbv

/-- In `a/b` the factor `a` is first coded without its first level, and the interaction asks for all of
them. On the same data the term `a` then has a column more. -/
theorem make_nestedFactors_widens : ∃ design τ d d' τ',
    Ends (make (.text "a/b") (.frame twoFactors) (.text "drop") (.ok ⟨[]⟩)) {} design τ ∧
      ¬ design.model.OneCoding τ ∧ design.common = some d ∧ Model.columnsOf (some d) = 4 ∧
      Ends (d.evaluateNew (.frame twoFactors)) τ d' τ' ∧ Model.columnsOf (some d') = 5 := by
  let again (τ : Store) (d : DesignMatrix) : Option Nat :=
    (outcome (d.evaluateNew (.frame twoFactors)) τ).1.toOption.map (Model.columnsOf <| some ·)
  obtain ⟨design, τ, fitted, checks⟩ := @exists_ends_store Store Design Bool
    (ofModel nestedFactors twoFactors ⟨[]⟩) (untouched 2 4)
    (fun design τ => decide (¬ design.model.OneCoding τ ∧
      ∃ d ∈ design.common.toList, Model.columnsOf (some d) = 4 ∧ again τ d = some 5)) true
    (by decide +kernel)
  obtain ⟨several, d, member, four, five⟩ := of_decide_eq_true checks
  obtain ⟨d', τ', evaluated, wide⟩ := exists_ends five
  refine ⟨design, τ, d, d', τ', ?_, several, Option.mem_toList.mp member, four, evaluated, wide⟩
  rw [Ends, outcome_make ofFormula_nestedFactors (by decide +kernel) (by decide) rfl rfl
    (by decide +kernel)]
  exact fitted

end Design

end ModelFormula
