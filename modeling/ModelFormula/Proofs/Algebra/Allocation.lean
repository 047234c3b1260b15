import ModelFormula.Proofs.Algebra.Footprint

/-!
# Making terms and components

A pool holds the effects and components that are at hand. Computations that only make new ones keep
it separate: a slot tells what it belongs to.
-/
namespace ModelFormula

open List Fit Component

variable {α β : Type} {Q : Pool → α → Prop}
variable {σ τ : Store} {c : Component} {cs : List Component} {s : Nat} {g : GroupTerm}

/-- The first store is unchanged in the second. -/
structure Extends (σ τ : Store) : Prop where
  componentsSize : σ.components.size ≤ τ.components.size
  partsSize : σ.parts.size ≤ τ.parts.size
  component : ∀ s < σ.components.size, τ.component s = σ.component s
  part : ∀ s < σ.parts.size, τ.part s = σ.part s

lemma Extends.refl (σ : Store) : Extends σ σ :=
  ⟨Nat.le_refl _, Nat.le_refl _, fun _ _ => rfl, fun _ _ => rfl⟩

lemma Extends.trans (first : Extends σ ρ) (second : Extends ρ τ) : Extends σ τ where
  componentsSize := Nat.le_trans first.componentsSize second.componentsSize
  partsSize := Nat.le_trans first.partsSize second.partsSize
  component s old := by
    rw [second.component s (Nat.lt_of_lt_of_le old first.componentsSize), first.component s old]
  part s old := by rw [second.part s (Nat.lt_of_lt_of_le old first.partsSize), first.part s old]

lemma extends_empty (τ : Store) : Extends {} τ :=
  ⟨Nat.zero_le _, Nat.zero_le _, fun _ old => absurd old (Nat.not_lt_zero _),
    fun _ old => absurd old (Nat.not_lt_zero _)⟩

namespace Store

def pushComponent (σ : Store) (st : State) : Store :=
  { σ with components := σ.components.push st }

def pushPart (σ : Store) : Store := { σ with parts := σ.parts.push {} }

lemma pushComponent_self (σ : Store) (st : State) :
    (σ.pushComponent st).component σ.components.size = st := by
  simp [pushComponent, component]

lemma extends_pushComponent (σ : Store) (st : State) : Extends σ (σ.pushComponent st) where
  componentsSize := by simp [pushComponent]
  partsSize := Nat.le_refl _
  component s old := by simp [pushComponent, component, Array.getElem?_push, Nat.ne_of_lt old]
  part _ _ := rfl

lemma size_pushPart (σ : Store) : σ.pushPart.parts.size = σ.parts.size + 1 := by simp [pushPart]

lemma extends_pushPart (σ : Store) : Extends σ σ.pushPart where
  componentsSize := Nat.le_refl _
  partsSize := by simp [pushPart]
  component _ _ := rfl
  part s old := by simp [pushPart, part, Array.getElem?_push, Nat.ne_of_lt old]

end Store

/-! ### Slots -/

/-- A component of the store that is not the response. -/
structure Plain (σ : Store) (c : Component) : Prop where
  bound : c.slot < σ.components.size
  isResponse : (σ.component c.slot).isResponse = false

lemma Plain.of_extends (plain : Plain σ c) (grows : Extends σ τ) : Plain τ c where
  bound := Nat.lt_of_lt_of_le plain.bound grows.componentsSize
  isResponse := by rw [grows.component _ plain.bound, plain.isResponse]

lemma Plain.of_sameRoles (plain : Plain σ c) (same : SameRoles σ τ) : Plain τ c where
  bound := by rw [same.componentsSize]; exact plain.bound
  isResponse := (same.component c.slot).trans plain.isResponse

/-- The slot tells which component it is. -/
def Coherent (cs : List Component) : Prop := ∀ c ∈ cs, ∀ d ∈ cs, c.slot = d.slot → c = d

/-- The slot tells which effect it is. -/
def DistinctSlots (es : List Effect) : Prop :=
  ∀ e ∈ es, ∀ d ∈ es, ∀ s ∈ e.slot?, s ∈ d.slot? → e = d

/-- Effects, group-specific terms and components that were made after the first store, none of which
shares a slot with another. -/
structure Apart (es : List Effect) (gs : List GroupTerm) (cs : List Component) (σ τ : Store) :
    Prop where
  parts : ∀ e ∈ es, ∀ s ∈ e.slot?, σ.parts.size ≤ s ∧ s < τ.parts.size
  distinct : DistinctSlots es
  grouped : ∀ g ∈ gs, (σ.parts.size ≤ g.slot ∧ g.slot < τ.parts.size) ∧ ∀ e ∈ es, g.slot ∉ e.slot?
  groupedDistinct : ∀ g ∈ gs, ∀ h ∈ gs, g.slot = h.slot → g = h
  components : ∀ c ∈ cs, σ.components.size ≤ c.slot ∧ Plain τ c
  coherent : Coherent cs

lemma Apart.mono (apart : Apart es gs cs σ τ) (effects : es' ⊆ es) (groups : gs' ⊆ gs)
    (components : cs' ⊆ cs) :
    Apart es' gs' cs' σ τ where
  parts e mem := apart.parts e (effects mem)
  distinct e left d right := apart.distinct e (effects left) d (effects right)
  grouped g mem := by
    obtain ⟨range, other⟩ := apart.grouped g (groups mem)
    exact ⟨range, fun e inside => other e (effects inside)⟩
  groupedDistinct g left h right := apart.groupedDistinct g (groups left) h (groups right)
  components c mem := apart.components c (components mem)
  coherent c left d right := apart.coherent c (components left) d (components right)

/-- Fitting leaves them apart. -/
lemma Apart.refit (apart : Apart es gs cs {} σ) (same : SameRoles σ τ) : Apart es gs cs {} τ where
  parts := by rw [same.partsSize]; exact apart.parts
  distinct := apart.distinct
  grouped := by rw [same.partsSize]; exact apart.grouped
  groupedDistinct := apart.groupedDistinct
  components c mem := ⟨Nat.zero_le _, (apart.components c mem).2.of_sameRoles same⟩
  coherent := apart.coherent

/-! ### Owners -/

/-- What the owner of a slot is there for. -/
inductive Place where
  | atHand
  | grouped
  | response

/-- The slots of the owners lie in a range, and none has two owners. -/
structure Owned (slot : α → Nat → Prop) (owners : List (Place × α)) (low high : Nat) : Prop where
  range : ∀ o ∈ owners, ∀ s, slot o.2 s → low ≤ s ∧ s < high
  unique : ∀ o ∈ owners, ∀ o' ∈ owners, ∀ s, slot o.2 s → slot o'.2 s → o = o'

section Owned

variable {slot : α → Nat → Prop} {owners owners' all : List (Place × α)} {low high : Nat}

lemma owned_nil : Owned slot [] low high := ⟨by simp, by simp⟩

lemma Owned.mono (owned : Owned slot owners low high) (fewer : owners' ⊆ owners) :
    Owned slot owners' low high where
  range o mem := owned.range o (fewer mem)
  unique o mem o' mem' := owned.unique o (fewer mem) o' (fewer mem')

/-- All owners may come to another place. -/
lemma Owned.move (owned : Owned slot owners low high) (place : Place)
    (each : ∀ o ∈ owners', o.1 = place ∧ ∃ before, (before, o.2) ∈ owners) :
    Owned slot owners' low high where
  range o mem := by
    obtain ⟨_, before, old⟩ := each o mem
    exact owned.range (before, o.2) old
  unique o mem o' mem' s own own' := by
    obtain ⟨here, before, old⟩ := each o mem
    obtain ⟨here', before', old'⟩ := each o' mem'
    have same := owned.unique (before, o.2) old (before', o'.2) old' s own own'
    exact Prod.ext (here.trans here'.symm) (Prod.mk.inj same).2

/-- Owners at different places have different slots. -/
lemma Owned.apart (owned : Owned slot owners low high) {o o' : Place × α} (mem : o ∈ owners)
    (mem' : o' ∈ owners) (other : o.1 ≠ o'.1) (own : slot o.2 s) : ¬ slot o'.2 s :=
  fun own' => other (congrArg Prod.fst (owned.unique o mem o' mem' s own own'))

lemma Owned.widen (owned : Owned slot owners low mid) (le : mid ≤ high) :
    Owned slot owners low high where
  range o mem s own := by
    have := owned.range o mem s own
    omega
  unique := owned.unique

/-- What was made later lies behind what was made first. -/
lemma Owned.append (first : Owned slot owners low mid) (second : Owned slot owners' mid high)
    (begun : low ≤ mid) (grows : mid ≤ high) (either : all ⊆ owners ++ owners') :
    Owned slot all low high where
  range o mem s own := by
    rcases mem_append.mp (either mem) with left | right
    · exact (first.widen grows).range o left s own
    · have := second.range o right s own
      omega
  unique o mem o' mem' s own own' := by
    rcases mem_append.mp (either mem) with left | right <;>
      rcases mem_append.mp (either mem') with left' | right'
    · exact first.unique o left o' left' s own own'
    · have := first.range o left s own
      have := second.range o' right' s own'
      omega
    · have := second.range o right s own
      have := first.range o' left' s own'
      omega
    · exact second.unique o right o' right' s own own'

/-- A new owner has the first slot behind all that exist. -/
lemma Owned.add (owned : Owned slot owners low high) (begun : low ≤ high) (new : Place × α)
    (first : ∀ s, slot new.2 s → s = high) (either : all ⊆ owners ++ [new]) :
    Owned slot all low (high + 1) := by
  refine owned.append ⟨?_, ?_⟩ begun (Nat.le_succ _) either
  · rintro o mem s own
    rw [mem_singleton] at mem
    have := first s (mem ▸ own)
    omega
  · rintro o mem o' mem' _ _ _
    rw [mem_singleton.mp mem, mem_singleton.mp mem']

end Owned

/-! ### Pools -/

/-- The slot that has the data of a part. -/
def Part.slot? : Part → Option Nat
  | .effect e => e.slot?
  | .group g => some g.slot

/-- The effects that a group-specific term consists of. -/
def GroupTerm.effects (g : GroupTerm) : List Effect := [g.expr, g.factor]

lemma GroupTerm.mem_slots : s ∈ g.slots ↔ g.slot = s ∨ ∃ e ∈ g.effects, s ∈ e.slot? := by
  simp [slots, effects, eq_comm]

/-- Effects and components at hand, with group-specific terms that were made of them, and besides
them other group-specific terms and responses. -/
structure Pool where
  effects : List Effect
  made : List GroupTerm := []
  components : List Component
  held : ∀ e ∈ effects, e.held ⊆ components
  groups : List GroupTerm := []
  responses : List Term := []

namespace Pool

def groupEffects (p : Pool) : List Effect := p.groups.flatMap GroupTerm.effects

def groupComponents (p : Pool) : List Component := p.groups.flatMap GroupTerm.held

def partOwners (p : Pool) : List (Place × Part) :=
  p.effects.map (.atHand, .effect ·) ++ p.made.map (.atHand, .group ·) ++
    p.groupEffects.map (.grouped, .effect ·) ++ p.groups.map (.grouped, .group ·) ++
    p.responses.map (.response, .effect <| .term ·)

def componentOwners (p : Pool) : List (Place × Component) :=
  p.components.map (.atHand, ·) ++ p.groupComponents.map (.grouped, ·) ++
    (p.responses.flatMap Term.components).map (.response, ·)

/-- Everything in the pool was made after the first store, and no slot has two owners. -/
structure Separate (p : Pool) (σ τ : Store) : Prop where
  grows : Extends σ τ
  parts : Owned (fun x s => s ∈ x.slot?) p.partOwners σ.parts.size τ.parts.size
  components : Owned (fun c s => c.slot = s) p.componentOwners σ.components.size τ.components.size
  plain : ∀ c ∈ p.components ++ p.groupComponents, Plain τ c

structure Within (p q : Pool) : Prop where
  effects : p.effects ⊆ q.effects
  made : p.made ⊆ q.made
  components : p.components ⊆ q.components
  groups : p.groups ⊆ q.groups
  responses : p.responses ⊆ q.responses

lemma Within.refl (p : Pool) : p.Within p :=
  ⟨Subset.refl _, Subset.refl _, Subset.refl _, Subset.refl _, Subset.refl _⟩

lemma Within.trans {p q r : Pool} (first : p.Within q) (second : q.Within r) : p.Within r :=
  ⟨Subset.trans first.effects second.effects, Subset.trans first.made second.made,
    Subset.trans first.components second.components,
    Subset.trans first.groups second.groups,
    Subset.trans first.responses second.responses⟩

variable {p q : Pool}

lemma flatMap_subset {α β : Type} {xs ys : List α} (f : α → List β) (subset : xs ⊆ ys) :
    xs.flatMap f ⊆ ys.flatMap f := by
  intro b mem
  obtain ⟨a, inside, among⟩ := mem_flatMap.mp mem
  exact mem_flatMap.mpr ⟨a, subset inside, among⟩

lemma append_subset_append {α : Type} {xs xs' ys ys' : List α} (left : xs ⊆ xs') (right : ys ⊆ ys') :
    xs ++ ys ⊆ xs' ++ ys' :=
  append_subset.mpr ⟨subset_append_of_subset_left _ left, subset_append_of_subset_right _ right⟩

lemma Within.groupEffects (within : p.Within q) : p.groupEffects ⊆ q.groupEffects :=
  flatMap_subset _ within.groups

lemma Within.groupComponents (within : p.Within q) : p.groupComponents ⊆ q.groupComponents :=
  flatMap_subset _ within.groups

lemma exists_owner_of_slots (mem : g ∈ p.groups) (slot : s ∈ g.slots) :
    ∃ x, (.grouped, x) ∈ p.partOwners ∧ s ∈ x.slot? := by
  rcases GroupTerm.mem_slots.mp slot with same | ⟨e, inside, owns⟩
  · exact ⟨.group g, by simp [partOwners, mem], congrArg some same⟩
  · have among : e ∈ p.groupEffects := mem_flatMap.mpr ⟨g, mem, inside⟩
    exact ⟨.effect e, by simp [partOwners, among], owns⟩

lemma Within.partOwners (within : p.Within q) : p.partOwners ⊆ q.partOwners := by
  refine append_subset_append (append_subset_append (append_subset_append (append_subset_append
    ?_ ?_) ?_) ?_) ?_
  · exact map_subset _ within.effects
  · exact map_subset _ within.made
  · exact map_subset _ within.groupEffects
  · exact map_subset _ within.groups
  · exact map_subset _ within.responses

lemma Within.componentOwners (within : p.Within q) : p.componentOwners ⊆ q.componentOwners :=
  append_subset_append (append_subset_append (map_subset _ within.components)
    (map_subset _ within.groupComponents))
    (map_subset _ (flatMap_subset _ within.responses))

lemma Separate.mono (separate : q.Separate σ τ) (within : p.Within q) : p.Separate σ τ where
  grows := separate.grows
  parts := separate.parts.mono within.partOwners
  components := separate.components.mono within.componentOwners
  plain c mem :=
    separate.plain c (append_subset_append within.components within.groupComponents mem)

/-- Making more keeps a pool separate. -/
lemma Separate.extend (separate : p.Separate σ ρ) (grows : Extends ρ τ) : p.Separate σ τ where
  grows := separate.grows.trans grows
  parts := separate.parts.widen grows.partsSize
  components := separate.components.widen grows.componentsSize
  plain c mem := (separate.plain c mem).of_extends grows

/-- Fitting keeps a pool separate. -/
lemma Separate.refit (separate : p.Separate {} σ) (same : SameRoles σ τ) : p.Separate {} τ where
  grows := extends_empty τ
  parts := by rw [same.partsSize]; exact separate.parts
  components := by rw [same.componentsSize]; exact separate.components
  plain c mem := (separate.plain c mem).of_sameRoles same

/-- Both pools together. -/
def append (p q : Pool) : Pool where
  effects := p.effects ++ q.effects
  made := p.made ++ q.made
  components := p.components ++ q.components
  held e mem := by
    rcases mem_append.mp mem with left | right
    · exact Subset.trans (p.held e left) (subset_append_left _ _)
    · exact Subset.trans (q.held e right) (subset_append_right _ _)
  groups := p.groups ++ q.groups
  responses := p.responses ++ q.responses

lemma within_append_left (p q : Pool) : p.Within (p.append q) :=
  ⟨subset_append_left _ _, subset_append_left _ _, subset_append_left _ _,
    subset_append_left _ _, subset_append_left _ _⟩

lemma within_append_right (p q : Pool) : q.Within (p.append q) :=
  ⟨subset_append_right _ _, subset_append_right _ _, subset_append_right _ _,
    subset_append_right _ _, subset_append_right _ _⟩

/-- What was made later lies behind what was made first. -/
lemma Separate.append (first : p.Separate σ ρ) (second : q.Separate ρ τ) :
    (p.append q).Separate σ τ where
  grows := first.grows.trans second.grows
  parts := by
    refine first.parts.append second.parts first.grows.partsSize second.grows.partsSize ?_
    intro o
    simp only [partOwners, groupEffects, Pool.append, flatMap_append, map_append, mem_append]
    tauto
  components := by
    refine first.components.append second.components first.grows.componentsSize
      second.grows.componentsSize ?_
    intro o
    simp only [componentOwners, groupComponents, Pool.append, flatMap_append, map_append,
      mem_append]
    tauto
  plain c mem := by
    have later := (first.extend second.grows).plain c
    have own := second.plain c
    simp only [groupComponents, Pool.append, flatMap_append, mem_append] at mem later own
    tauto

lemma exists_part_owner (mem : e ∈ p.effects ++ p.groupEffects) :
    ∃ place, place ≠ .response ∧ (place, .effect e) ∈ p.partOwners := by
  rcases mem_append.mp mem with left | right
  · exact ⟨.atHand, by simp, by simp [partOwners, left]⟩
  · exact ⟨.grouped, by simp, by simp [partOwners, right]⟩

lemma exists_component_owner (mem : c ∈ p.components ++ p.groupComponents) :
    ∃ place, place ≠ .response ∧ (place, c) ∈ p.componentOwners := by
  rcases mem_append.mp mem with left | right
  · exact ⟨.atHand, by simp, by simp [componentOwners, left]⟩
  · exact ⟨.grouped, by simp, by simp [componentOwners, right]⟩

/-- What is at hand and what the other group-specific terms are made of is apart. -/
lemma Separate.all (separate : p.Separate σ τ) :
    Apart (p.effects ++ p.groupEffects) p.groups (p.components ++ p.groupComponents) σ τ := by
  have group {g : GroupTerm} (mem : g ∈ p.groups) : (.grouped, .group g) ∈ p.partOwners := by
    simp [partOwners, mem]
  refine ⟨?_, ?_, ?_, ?_, ?_, ?_⟩
  · intro e mem s slot
    obtain ⟨_, _, owner⟩ := exists_part_owner mem
    exact separate.parts.range _ owner s slot
  · intro e inside d among s slot slot'
    obtain ⟨_, _, owner⟩ := exists_part_owner inside
    obtain ⟨_, _, owner'⟩ := exists_part_owner among
    cases separate.parts.unique _ owner _ owner' s slot slot'
    rfl
  · intro g mem
    refine ⟨separate.parts.range _ (group mem) _ rfl, fun e among slot => ?_⟩
    obtain ⟨_, _, owner⟩ := exists_part_owner among
    cases separate.parts.unique _ owner _ (group mem) _ slot rfl
  · intro g inside h among same
    cases separate.parts.unique _ (group inside) _ (group among) _ rfl (congrArg some same.symm)
    rfl
  · intro c mem
    obtain ⟨_, _, owner⟩ := exists_component_owner mem
    exact ⟨(separate.components.range _ owner _ rfl).1, separate.plain c mem⟩
  · intro c inside d among same
    obtain ⟨_, _, owner⟩ := exists_component_owner inside
    obtain ⟨_, _, owner'⟩ := exists_component_owner among
    cases separate.components.unique _ owner _ owner' _ same rfl
    rfl

def addEffect (p : Pool) (e : Effect) (held : e.held ⊆ p.components) : Pool :=
  { p with effects := e :: p.effects, held := forall_mem_cons.mpr ⟨held, p.held⟩ }

def addGroup (p : Pool) (g : GroupTerm) : Pool := { p with made := g :: p.made }

def addComponent (p : Pool) (c : Component) : Pool :=
  { p with
    components := c :: p.components
    held := fun e mem => Subset.trans (p.held e mem) (subset_cons_self c _) }

lemma within_addEffect (p : Pool) (e : Effect) (held : e.held ⊆ p.components) :
    p.Within (p.addEffect e held) :=
  { Within.refl p with effects := subset_cons_self _ _ }

lemma within_addGroup (p : Pool) (g : GroupTerm) : p.Within (p.addGroup g) :=
  { Within.refl p with made := subset_cons_self _ _ }

lemma within_addComponent (p : Pool) (c : Component) : p.Within (p.addComponent c) :=
  { Within.refl p with components := subset_cons_self _ _ }

/-- A new effect of components at hand. -/
lemma Separate.addEffect (separate : p.Separate σ τ) (slot : e.slot? = some τ.parts.size)
    (held : e.held ⊆ p.components) : (p.addEffect e held).Separate σ τ.pushPart := by
  have later := separate.extend τ.extends_pushPart
  refine ⟨later.grows, ?_, later.components, later.plain⟩
  rw [τ.size_pushPart]
  refine separate.parts.add separate.grows.partsSize (.atHand, .effect e) ?_ ?_
  · intro s owns
    exact (Option.mem_some_iff.mp (slot ▸ owns)).symm
  · exact cons_subset.mpr ⟨by simp, subset_append_left _ _⟩

/-- A new group-specific term. -/
lemma Separate.addGroup (separate : p.Separate σ τ) (slot : g.slot = τ.parts.size) :
    (p.addGroup g).Separate σ τ.pushPart := by
  have later := separate.extend τ.extends_pushPart
  refine ⟨later.grows, ?_, later.components, later.plain⟩
  rw [τ.size_pushPart]
  refine separate.parts.add separate.grows.partsSize (.atHand, .group g) ?_ ?_
  · intro s owns
    rw [← slot, Option.mem_some_iff.mp owns]
  · intro o
    simp only [partOwners, Pool.addGroup, map_cons, mem_append, mem_cons]
    tauto

/-- A new component. -/
lemma Separate.addComponent (separate : p.Separate σ τ) (slot : c.slot = τ.components.size)
    (plain : st.isResponse = false) : (p.addComponent c).Separate σ (τ.pushComponent st) := by
  have later := separate.extend (τ.extends_pushComponent st)
  have size : (τ.pushComponent st).components.size = τ.components.size + 1 := by
    simp [Store.pushComponent]
  refine ⟨later.grows, later.parts, ?_, forall_mem_cons.mpr ⟨⟨by omega, ?_⟩, later.plain⟩⟩
  · rw [size]
    refine separate.components.add separate.grows.componentsSize (.atHand, c) ?_ ?_
    · rintro s rfl
      exact slot
    · exact cons_subset.mpr ⟨by simp, subset_append_left _ _⟩
  · rw [slot, Store.pushComponent_self, plain]

end Pool

/-! ### Computations that make -/

lemma extends_warn (ends : Ends (warn message) σ u τ) : Extends σ τ := by
  obtain rfl := ends_modify.mp ends
  exact ⟨Nat.le_refl _, Nat.le_refl _, fun _ _ => rfl, fun _ _ => rfl⟩

/-- Begun with the pool, the computation changes nothing that exists and leaves a larger pool, with
which its result has the property. -/
def Keeps (σ : Store) (p : Pool) (x : Fit α) (Q : Pool → α → Prop) : Prop :=
  ∀ τ a υ, p.Separate σ τ → Ends x τ a υ → Extends τ υ ∧ ∃ q, p.Within q ∧ q.Separate σ υ ∧ Q q a

section Keeps

variable {p : Pool}

lemma keeps_pure {a : α} (holds : Q p a) : Keeps σ p (pure a) Q := by
  intro τ b υ separate ends
  obtain ⟨rfl, rfl⟩ := ends_pure.mp ends
  exact ⟨Extends.refl τ, p, Pool.Within.refl p, separate, holds⟩

lemma keeps_throw : Keeps σ p (throw fault : Fit α) Q :=
  fun _ _ _ _ ends => (ends_throw ends).elim

lemma keeps_lift {x : Except Fault α} (holds : ∀ a, x = .ok a → Q p a) :
    Keeps σ p (liftM x : Fit α) Q := by
  intro τ a υ separate ends
  obtain ⟨done, rfl⟩ := ends_lift.mp ends
  exact ⟨Extends.refl τ, p, Pool.Within.refl p, separate, holds a done⟩

lemma keeps_withKinds {f : Kinds → Except Fault α}
    (holds : ∀ kinds a, f kinds = .ok a → Q p a) : Keeps σ p (withKinds f) Q := by
  intro τ a υ separate ends
  obtain ⟨done, rfl⟩ := ends_withKinds.mp ends
  exact ⟨Extends.refl τ, p, Pool.Within.refl p, separate, holds _ a done⟩

lemma Keeps.bind {x : Fit α} {f : α → Fit β} {R : Pool → β → Prop}
    (first : Keeps σ p x Q) (second : ∀ q a, p.Within q → Q q a → Keeps σ q (f a) R) :
    Keeps σ p (x >>= f) R := by
  intro τ b υ separate ends
  obtain ⟨a, ρ, begins, continues⟩ := ends_bind.mp ends
  obtain ⟨grows, q, within, separate, holds⟩ := first τ a ρ separate begins
  obtain ⟨grows', r, within', separate, result⟩ := second q a within holds ρ b υ separate continues
  exact ⟨grows.trans grows', r, within.trans within', separate, result⟩

lemma Keeps.imp {x : Fit α} {Q R : Pool → α → Prop} (keeps : Keeps σ p x Q)
    (weaker : ∀ q a, p.Within q → Q q a → R q a) : Keeps σ p x R := by
  intro τ a υ separate ends
  obtain ⟨grows, q, within, separate, holds⟩ := keeps τ a υ separate ends
  exact ⟨grows, q, within, separate, weaker q a within holds⟩

/-- The items that a mapping makes, one after the other. -/
lemma keeps_mapM {xs : List α} {f : α → Fit β} {Q : Pool → α → β → Prop}
    (steady : ∀ {q r x y}, q.Within r → Q q x y → Q r x y)
    (each : ∀ x ∈ xs, ∀ q, p.Within q → Keeps σ q (f x) fun r y => Q r x y) :
    Keeps σ p (xs.mapM f) fun q ys => List.Forall₂ (Q q) xs ys := by
  induction xs generalizing p with
  | nil => exact keeps_pure .nil
  | cons x xs ih =>
    obtain ⟨first, others⟩ := forall_mem_cons.mp each
    rw [mapM_cons]
    -- what was made for the first item is still in the pool that the others leave
    refine (first p (Pool.Within.refl p)).bind fun q y within own => ?_
    refine (ih fun x mem r inside => others x mem r (within.trans inside)).bind
      fun r ys inside rest => ?_
    exact keeps_pure (.cons (steady inside own) rest)

lemma keeps_warn : Keeps σ p (warn message) fun _ _ => True := by
  intro τ a υ separate ends
  have grows := extends_warn ends
  exact ⟨grows, p, Pool.Within.refl p, separate.extend grows, trivial⟩

/-- A new part becomes an effect of components at hand. -/
lemma keeps_newSlot (effect : Nat → Effect) (slot : ∀ s, (effect s).slot? = some s)
    (held : ∀ s, (effect s).held ⊆ p.components) :
    Keeps σ p newSlot fun q s => effect s ∈ q.effects := by
  intro τ s υ separate ends
  simp only [newSlot, ends_bind, ends_get, ends_modify, ends_pure] at ends
  obtain ⟨_, _, ⟨rfl, rfl⟩, _, _, rfl, rfl, rfl⟩ := ends
  exact ⟨τ.extends_pushPart, _, p.within_addEffect _ (held _), separate.addEffect (slot _) (held _),
    mem_cons_self⟩

/-- A new part becomes a group-specific term. -/
lemma keeps_newGroupSlot (e f : Effect) :
    Keeps σ p (newGroup e f) fun q g => g ∈ q.made ∧ g.expr = e ∧ g.factor = f := by
  intro τ g υ separate ends
  simp only [newGroup, newSlot, ends_bind, ends_get, ends_modify, ends_pure] at ends
  obtain ⟨_, _, ⟨_, _, ⟨rfl, rfl⟩, _, _, rfl, rfl, rfl⟩, rfl, rfl⟩ := ends
  exact ⟨τ.extends_pushPart, _, p.within_addGroup _, separate.addGroup rfl, mem_cons_self, rfl, rfl⟩

lemma keeps_newComponent (atom : Atom) :
    Keeps σ p (newComponent atom) fun q c => c ∈ q.components := by
  intro τ c υ separate ends
  simp only [newComponent, ends_bind, ends_get, ends_modify, ends_pure] at ends
  obtain ⟨_, _, ⟨rfl, rfl⟩, _, _, rfl, rfl, rfl⟩ := ends
  exact ⟨τ.extends_pushComponent _, _, p.within_addComponent _, separate.addComponent rfl rfl,
    mem_cons_self⟩

/-- A copy differs from its original in nothing but the slot. -/
lemma keeps_copyComponent (inside : c ∈ p.components) :
    Keeps σ p (copyComponent c) fun q d => d ∈ q.components ∧ d.atom = c.atom := by
  intro τ d υ separate ends
  simp only [copyComponent, ends_bind, ends_get, ends_modify, ends_pure] at ends
  obtain ⟨_, _, ⟨rfl, rfl⟩, _, _, rfl, rfl, rfl⟩ := ends
  -- the copy takes over the state of the original, which is not a response
  have plain : (τ.components[c.slot]?.getD {}).isResponse = false :=
    (separate.plain c (mem_append_left _ inside)).isResponse
  exact ⟨τ.extends_pushComponent _, _, p.within_addComponent _, separate.addComponent rfl plain,
    mem_cons_self, rfl⟩

end Keeps

/-! ### Terms -/

lemma foldlM_distinct_sublist (before : List Component) (done : cs.foldlM (fun kept c => do
      if ← anyM (same kinds · c) kept then return kept
      return kept ++ [c]) before = (.ok kept : Except Fault _)) : kept.Sublist (before ++ cs) := by
  induction cs generalizing before with
  | nil =>
    simp only [foldlM_nil, pure, Except.pure, Except.ok.injEq] at done
    simp [done]
  | cons c cs ih =>
    rw [foldlM_cons] at done
    cases known : anyM (same kinds · c) before with
    | error fault => simp [known, bind, Except.bind] at done
    | ok b =>
      cases b with
      | true =>
        simp only [known, bind, Except.bind, pure, Except.pure, if_true] at done
        refine (ih before done).trans ?_
        exact Sublist.append (Sublist.refl _) (sublist_cons_self c cs)
      | false =>
        simp only [known, bind, Except.bind, pure, Except.pure, Bool.false_eq_true, if_false]
          at done
        simpa using ih (before ++ [c]) done

lemma distinct_sublist (done : Term.distinct kinds cs = .ok kept) : kept.Sublist cs := by
  simpa using foldlM_distinct_sublist [] done

section Makes

variable {p : Pool}

lemma keeps_newTerm (inside : cs ⊆ p.components) :
    Keeps σ p (newTerm cs) fun q t => .term t ∈ q.effects ∧ t.components.Sublist cs := by
  refine (keeps_withKinds (Q := fun _ kept => kept.Sublist cs) fun kinds kept =>
    distinct_sublist).bind fun q kept within sublist => ?_
  have held : kept ⊆ q.components :=
    Subset.trans sublist.subset (Subset.trans inside within.components)
  refine (keeps_newSlot (fun s => .term ⟨s, kept⟩) (fun _ => rfl) fun _ => held).bind
    fun r s _ made => ?_
  exact keeps_pure ⟨made, sublist⟩

lemma keeps_newIntercept : Keeps σ p newIntercept fun q e => e ∈ q.effects := by
  refine (keeps_newSlot .intercept (fun _ => rfl) fun _ => by simp [Effect.held]).bind
    fun q s _ made => ?_
  exact keeps_pure made

/-- Copies of components at hand, in the same order. -/
lemma keeps_copies (inside : cs ⊆ p.components) : Keeps σ p (cs.mapM copyComponent) fun q ds =>
      ds ⊆ q.components ∧ ds.map (·.atom) = cs.map (·.atom) := by
  have each : Keeps σ p (cs.mapM copyComponent) fun q ds =>
      List.Forall₂ (fun c d => d ∈ q.components ∧ d.atom = c.atom) cs ds := by
    refine keeps_mapM (fun within made => ⟨within.components made.1, made.2⟩) ?_
    intro c mem q within
    exact keeps_copyComponent (within.components (inside mem))
  refine each.imp fun q ds _ copied => ?_
  clear each inside
  induction copied with
  | nil => simp
  | cons first _ ih =>
    obtain ⟨subset, atoms⟩ := ih
    exact ⟨cons_subset.mpr ⟨first.1, subset⟩, by simp [first.2, atoms]⟩

end Makes

end ModelFormula
