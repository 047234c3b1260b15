import ModelFormula.Proofs.Algebra.ComparisonFaults
import ModelFormula.Proofs.Codings.Sublists

/-!
# Operators

Every operator collects effects of its operands, makes new ones from their components, or turns
effects into group-specific terms. So what it returns is made of the components of its operands and
shares no slot.
-/
namespace ModelFormula

open List Fit

variable {e : Effect} {α β : Type} {m : Model} {op : Operator} {n : Nat} {o : Operand}

open Component (unknown)
open Operand

/-- A fault that operators find themselves. -/
def Fault.Ordinary (fault : Fault) : Prop := fault.category = .value ∨ fault.category = .type

/-- Some pair of the effects has an intercept, negated or not. -/
def Crossed (as bs : List Effect) : Prop :=
  ∃ a ∈ as, ∃ b ∈ bs, a.term? = none ∨ b.term? = none

/-- The operator asks one of its operands for a part that is not there. -/
inductive Misses : Operator → Operand → Operand → Prop
  /-- Only a term can be the exponent of a term. -/
  | exponent {t : Term} {b : Operand} (other : ∀ u, b ≠ .ofTerm u) : Misses .power (.ofTerm t) b
  | behindTerm {op : Operator} {t : Term} {m : Model} (making : op ∈ [.interact, .mul, .nest])
      (crossed : Crossed [.term t] m.common) : Misses op (.ofTerm t) (.model m)
  | beforeTerm {op : Operator} {m : Model} {t : Term} (making : op ∈ [.interact, .mul])
      (word : op = .mul → t.isNumber = false) (crossed : Crossed m.common [.term t]) :
      Misses op (.model m) (.ofTerm t)
  | interaction {m n : Model} (crossed : Crossed m.common n.common) :
      Misses .interact (.model m) (.model n)
  /-- Equal models are not multiplied, and a single effect is looked at first. -/
  | product {m n : Model} (unequal : m.same unknown n = .ok false)
      (crossed : Crossed m.common n.common ∨ ∃ e, n.common = [e] ∧ e.term? = none) :
      Misses .mul (.model m) (.model n)
  | power {m : Model} {t : Term} {n : Nat} {e : Effect} (degree : Term.degree? t.components = some n)
      (high : 2 ≤ n) (several : 2 ≤ m.common.length) (mem : e ∈ m.common)
      (bare : e.term? = none) : Misses .power (.model m) (.ofTerm t)

/-- The exponent of a model is a single component, but no whole number from one on. -/
inductive Powerless : Operator → Operand → Operand → Prop
  | power {m : Model} {t : Term} {c : Component} (single : t.components = [c])
      (degree : Term.degree? [c] = none) : Powerless .power (.model m) (.ofTerm t)

variable {P : Atom → Prop} {R : Fault → Prop} {σ : Store} {p q : Pool}

/-! ### Pools of components with a property -/

/-- All components have the property, also those of the other group-specific terms. -/
structure Pool.All (P : Atom → Prop) (p : Pool) : Prop where
  components : ∀ c ∈ p.components, P c.atom
  groups : ∀ g ∈ p.groups, g.All P

lemma Pool.All.effect (all : p.All P) (inside : e ∈ p.effects) : e.All P :=
  fun c held => all.components c (p.held e inside held)

lemma Part.In.all {x : Part} (inside : x.In p) (all : p.All P) : x.All P := by
  cases x with
  | effect e => exact all.effect inside
  | group g => exact all.groups g inside

lemma Model.all_of_in (inside : (model m).In p) (all : p.All P) : m.All P :=
  ⟨fun _ mem => all.effect (inside.effects mem), fun g mem => all.groups g (inside.groups g mem)⟩

lemma Operand.All.pool (all : o.All P) : o.pool.All P := by
  match o with
  | .part (.effect e) =>
    have own : ∀ c ∈ e.held, P c.atom := all
    exact ⟨by simpa [Operand.pool, effects] using own, by simp [Operand.pool, groups]⟩
  | .part (.group g) =>
    have own : g.All P := all
    exact ⟨by simp [Operand.pool, effects], by simpa [Operand.pool, groups] using own⟩
  | .model m =>
    refine ⟨fun c mem => ?_, all.group⟩
    obtain ⟨e, among, held⟩ := mem_flatMap.mp mem
    exact all.common e among c held
  | .response _ | .foreign _ => exact all.elim

namespace Operand

/-- What an operator makes out of a pool: a part or a model without a response, which has its effects
from the pool or consists of group-specific terms. -/
inductive Fresh (q : Pool) : Operand → Prop
  | effect {e : Effect} (inside : e ∈ q.effects) : Fresh q (ofEffect e)
  | group {g : GroupTerm} (made : g.MadeOf q) : Fresh q (ofGroup g)
  | collected {m : Model} (inside : (model m).In q) (none : m.response = .none) : Fresh q (.model m)
  | grouped {gs : List GroupTerm} (made : ∀ g ∈ gs, g.MadeOf q) : Fresh q (.model (.ofGroups gs))

lemma Fresh.madeOf (fresh : o.Fresh q) : o.MadeOf q := by
  cases fresh with
  | effect inside => exact .collected (in_part.mpr inside)
  | group made => exact .grouped rfl (by simpa [groups, ofGroup] using made) rfl
  | collected inside => exact .collected inside
  | grouped made => exact .grouped rfl made rfl

lemma Fresh.free (fresh : o.Fresh q) (all : q.All P) : o.Free P := by
  have group {g : GroupTerm} (made : g.MadeOf q) : g.All P :=
    ⟨all.effect made.expr, all.effect made.factor⟩
  cases fresh with
  | effect inside => exact ⟨all.effect inside, rfl⟩
  | group made => exact ⟨group made, rfl⟩
  | collected inside none => exact ⟨Model.all_of_in inside all, none⟩
  | grouped made => exact ⟨⟨by simp [Model.ofGroups], fun g mem => group (made g mem)⟩, rfl⟩

lemma fresh_empty : (model {}).Fresh q := .collected (Model.in_ofEffects (nil_subset _)) rfl

lemma fresh_ofTerms (inside : ∀ t ∈ ts, .term t ∈ q.effects) :
    (model (.ofTerms ts)).Fresh q := .collected (Model.in_ofTerms inside) rfl

end Operand

/-! ### Computations of operators -/

/-- Begun with a pool, the computation keeps apart what it makes. Where no component has a kind it
stops only with such faults, and it makes everything of components with the property. -/
structure Works (P : Atom → Prop) (R : Fault → Prop) (σ : Store) (p : Pool) (x : Fit α)
    (Q : Pool → α → Prop) : Prop where
  keeps : Keeps σ p x Q
  runs : p.All P → Runs R x fun a => ∃ q, p.Within q ∧ q.All P ∧ Q q a

section Works

variable {Q : Pool → α → Prop}

lemma works_pure {a : α} (holds : Q p a) : Works P R σ p (pure a) Q :=
  ⟨keeps_pure holds, fun all => runs_pure ⟨p, .refl p, all, holds⟩⟩

lemma works_throw (holds : R fault) : Works P R σ p (throw fault : Fit α) Q :=
  ⟨keeps_throw, fun _ => runs_throw holds⟩

lemma works_lift {x : Except Fault α} (holds : ∀ a, x = .ok a → Q p a)
    (each : p.All P → ∀ fault, x = .error fault → R fault) : Works P R σ p (liftM x : Fit α) Q :=
  ⟨keeps_lift holds, fun all => runs_lift (fun a done => ⟨p, .refl p, all, holds a done⟩) (each all)⟩

lemma works_withKinds {f : Component.Kinds → Except Fault α}
    (holds : ∀ kinds a, f kinds = .ok a → Q p a)
    (each : p.All P → ∀ fault, f unknown = .error fault → R fault) :
    Works P R σ p (withKinds f) Q :=
  ⟨keeps_withKinds holds, fun all =>
    runs_withKinds (fun a done => ⟨p, .refl p, all, holds _ a done⟩) (each all)⟩

lemma Works.bind {x : Fit α} {f : α → Fit β} {Q' : Pool → β → Prop} (first : Works P R σ p x Q)
    (second : ∀ q a, p.Within q → Q q a → Works P R σ q (f a) Q') : Works P R σ p (x >>= f) Q' := by
  refine ⟨first.keeps.bind fun q a within holds => (second q a within holds).keeps, fun all => ?_⟩
  apply (first.runs all).bind
  rintro a ⟨q, within, all, holds⟩
  apply ((second q a within holds).runs all).imp
  rintro b ⟨r, within', result⟩
  exact ⟨r, within.trans within', result⟩

lemma Works.imp {x : Fit α} {Q' : Pool → α → Prop} (works : Works P R σ p x Q)
    (weaker : ∀ q a, p.Within q → Q q a → Q' q a) : Works P R σ p x Q' := by
  refine ⟨works.keeps.imp weaker, fun all => (works.runs all).imp ?_⟩
  rintro a ⟨q, within, all, holds⟩
  exact ⟨q, within, all, weaker q a within holds⟩

lemma works_test {f : Component.Kinds → Except Fault Bool} {x y : Fit α}
    (test : p.All P → ∀ fault, f unknown = .error fault → R fault) (first : Works P R σ p x Q)
    (second : Works P R σ p y Q) : Works P R σ p (do if ← withKinds f then x else y) Q := by
  refine (works_withKinds (Q := fun q _ => q = p) (fun _ _ _ => rfl) test).bind ?_
  rintro _ b _ rfl
  cases b with
  | true => exact first
  | false => exact second

/-- What each run of a loop makes and requires. -/
lemma works_loop {xs : List β} {f : β → Fit α} {S : β → Prop}
    (steady : ∀ {q r y}, q.Within r → Q q y → Q r y)
    (each : ∀ x ∈ xs, ∀ q, p.Within q → Works P R σ q (f x) fun r y => Q r y ∧ S x) :
    Works P R σ p (xs.mapM f) fun q ys => (∀ y ∈ ys, Q q y) ∧ ∀ x ∈ xs, S x := by
  induction xs generalizing p with
  | nil => exact works_pure ⟨by simp, by simp⟩
  | cons x xs ih =>
    obtain ⟨first, others⟩ := forall_mem_cons.mp each
    rw [mapM_cons]
    -- what was made for the first item is still in the pool that the others leave
    refine (first p (.refl p)).bind fun q y within own => ?_
    refine (ih fun x mem r inside => others x mem r (within.trans inside)).bind
      fun r ys inside rest => ?_
    exact works_pure ⟨forall_mem_cons.mpr ⟨steady inside own.1, rest.1⟩,
      forall_mem_cons.mpr ⟨own.2, rest.2⟩⟩

lemma works_newSlot (effect : Nat → Effect) (slot : ∀ s, (effect s).slot? = some s)
    (held : ∀ s, (effect s).held ⊆ p.components) :
    Works P R σ p newSlot fun q s => effect s ∈ q.effects :=
  ⟨keeps_newSlot effect slot held, fun all => runs_newSlot.imp fun s _ =>
    ⟨_, p.within_addEffect _ (held s), ⟨all.components, all.groups⟩, mem_cons_self⟩⟩

lemma works_newIntercept : Works P R σ p newIntercept fun q e => e ∈ q.effects :=
  (works_newSlot .intercept (fun _ => rfl) fun _ => by simp [Effect.held]).bind
    fun _ _ _ made => works_pure made

lemma works_newGroup (expr : e ∈ p.effects) (factor : f ∈ p.effects) :
    Works P R σ p (newGroup e f) fun q g => g.MadeOf q := by
  constructor
  · refine (keeps_newGroupSlot e f).imp ?_
    rintro q g within ⟨made, rfl, rfl⟩
    exact ⟨made, within.effects expr, within.effects factor⟩
  · exact fun all => runs_newSlot.bind fun s _ => runs_pure
      ⟨_, p.within_addGroup _, ⟨all.components, all.groups⟩, mem_cons_self, expr, factor⟩

lemma works_newComponent (holds : P atom) :
    Works P R σ p (newComponent atom) fun q c => c ∈ q.components :=
  ⟨keeps_newComponent atom, fun all => (runs_newComponent atom).imp fun c same =>
    ⟨_, p.within_addComponent c, ⟨forall_mem_cons.mpr ⟨same ▸ holds, all.components⟩, all.groups⟩,
      mem_cons_self⟩⟩

lemma works_copies (inside : cs ⊆ p.components) :
    Works P R σ p (cs.mapM copyComponent) fun q ds => ds ⊆ q.components := by
  refine (works_loop (Q := fun q d => d ∈ q.components) (S := fun _ => True)
    (fun within made => within.components made) fun c mem q within => ?_).imp fun _ _ _ all => all.1
  have own := within.components (inside mem)
  refine ⟨(keeps_copyComponent own).imp fun _ _ _ made => ⟨made.1, trivial⟩, fun all => ?_⟩
  refine (runs_copyComponent c).imp fun d same => ⟨_, q.within_addComponent d, ⟨?_, all.groups⟩,
    mem_cons_self, trivial⟩
  exact forall_mem_cons.mpr ⟨same ▸ all.components c own, all.components⟩

end Works

/-! ### Interactions and groups -/

lemma mem_pairs {as bs : List α} {p : α × α} :
    p ∈ (as.flatMap fun a => bs.map fun b => (a, b)) ↔ p.1 ∈ as ∧ p.2 ∈ bs := by
  obtain ⟨a, b⟩ := p
  simp

/-- Group-specific terms of all effects over all factors are a model of their own. -/
lemma works_groupings (left : exprs ⊆ p.effects) (right : factors ⊆ p.effects) :
    Works P R σ p (Term.groupings exprs factors) fun q gs => ∀ g ∈ gs, g.MadeOf q := by
  refine (works_loop (Q := fun q g => g.MadeOf q) (S := fun _ => True)
    (fun within made => made.mono within) fun x mem q within => ?_).imp fun _ _ _ all => all.1
  obtain ⟨first, second⟩ := mem_pairs.mp mem
  exact (works_newGroup (within.effects (left first)) (within.effects (right second))).imp
    fun _ _ _ made => ⟨made, trivial⟩

lemma works_ofGroups (left : exprs ⊆ p.effects) (right : factors ⊆ p.effects) :
    Works P R σ p (do return model (.ofGroups (← Term.groupings exprs factors))) fun q o =>
      o.Fresh q ∧ o.effects = [] :=
  (works_groupings left right).bind fun _ _ _ made => works_pure ⟨.grouped made, rfl⟩

lemma works_components (inside : e ∈ p.effects) (bare : e.term? = none → R .noAttribute) :
    Works P R σ p (liftM e.components : Fit _) fun q cs => cs ⊆ q.components ∧ e.term? ≠ none := by
  cases e with
  | term t => exact works_lift (by rintro _ ⟨⟩; exact ⟨p.held _ inside, nofun⟩) nofun
  | intercept | negated => exact works_lift nofun (by rintro _ _ ⟨⟩; exact bare rfl)

section Clash

variable (clash : Clashing P → R .noAttribute)
include clash

lemma of_returnsUnless {x : Except Fault α} (returns : ReturnsUnless (Clashing P) x) :
    ∀ fault, x = .error fault → R fault := by
  intro fault failed
  obtain ⟨rfl, clashing⟩ := returns.fault failed
  exact clash clashing

lemma works_newTerm (inside : cs ⊆ p.components) :
    Works P R σ p (newTerm cs) fun q t => .term t ∈ q.effects := by
  refine (works_withKinds (Q := fun q kept => kept ⊆ q.components)
    (fun kinds kept done => Subset.trans (distinct_sublist done).subset inside) fun all => ?_).bind
    fun q kept _ held => ?_
  · have own : ∀ c ∈ cs, P c.atom := fun c mem => all.components c (inside mem)
    exact of_returnsUnless clash
      ((Term.distinct_returns unknown cs).mono fun clash => clash.clashing own own)
  · exact (works_newSlot (fun s => .term ⟨s, kept⟩) (fun _ => rfl) fun _ => held).bind
      fun _ _ _ made => works_pure made

variable {a b : Effect}

section

variable (left : a ∈ p.effects) (right : b ∈ p.effects)
  (bare : a.term? = none ∨ b.term? = none → R .noAttribute)
include left right bare

/-- Interactions that can be made are of terms. -/
lemma works_interactionOf : Works P R σ p (Term.interactionOf a b) fun q t =>
      .term t ∈ q.effects ∧ ¬ (a.term? = none ∨ b.term? = none) := by
  refine (works_components left fun none => bare (.inl none)).bind fun q cs within first => ?_
  refine (works_components (within.effects right) fun none => bare (.inr none)).bind
    fun r ds within second => ?_
  have both := append_subset.mpr ⟨Subset.trans first.1 within.components, second.1⟩
  exact (works_newTerm clash both).imp fun _ _ _ made => ⟨made, not_or.mpr ⟨first.2, second.2⟩⟩

lemma works_copiedInteraction : Works P R σ p (Term.copiedInteraction a b) fun q t =>
      .term t ∈ q.effects ∧ ¬ (a.term? = none ∨ b.term? = none) := by
  refine (works_components left fun none => bare (.inl none)).bind fun q cs within first => ?_
  refine (works_copies first.1).bind fun r cs' within' copies => ?_
  refine (works_components (within'.effects (within.effects right)) fun none => bare (.inr none)).bind
    fun q' ds within second => ?_
  refine (works_copies second.1).bind fun r' ds' within' copies' => ?_
  have both := append_subset.mpr ⟨Subset.trans copies (within.trans within').components, copies'⟩
  exact (works_newTerm clash both).imp fun _ _ _ made => ⟨made, not_or.mpr ⟨first.2, second.2⟩⟩

end

lemma works_interactions (left : as ⊆ p.effects) (right : bs ⊆ p.effects)
    (bare : Crossed as bs → R .noAttribute) :
    Works P R σ p (Term.interactions as bs) fun q ts =>
      (∀ t ∈ ts, .term t ∈ q.effects) ∧ ¬ Crossed as bs := by
  refine (works_loop (Q := fun q t => .term t ∈ q.effects)
    (S := fun x : Effect × Effect => ¬ (x.1.term? = none ∨ x.2.term? = none))
    (fun within made => within.effects made) fun x mem q within => ?_).imp ?_
  · obtain ⟨first, second⟩ := mem_pairs.mp mem
    exact works_interactionOf clash (within.effects (left first)) (within.effects (right second))
      fun none => bare ⟨x.1, first, x.2, second, none⟩
  · rintro q ts _ ⟨all, terms⟩
    refine ⟨all, ?_⟩
    rintro ⟨a, first, b, second, none⟩
    exact terms (a, b) (mem_pairs.mpr ⟨first, second⟩) none

/-! ### Edits -/

/-- A model without a response is revised. The negated intercept cannot be added. -/
lemma works_editAll (own : (model m).In p) (none : m.response = .none)
    (parts : ∀ e ∈ edits, e.part.In p)
    (negative : .add (.effect .negated) ∈ edits → ∀ fault, fault.category = .value → R fault) :
    Works P R σ p (do return model (← withKinds (m.editAll · edits))) fun q o =>
      o.Fresh q := by
  refine (works_withKinds (Q := fun q m' => (model m').Fresh q) (fun kinds m' done => ?_)
    fun all fault failed => ?_).bind fun q m' _ fresh => works_pure fresh
  · exact .collected (Model.editAll_in own (fun x mem => parts _ mem) done)
      ((Model.editAll_response done).trans none)
  · rcases Model.editAll_fault (Model.all_of_in own all) (fun e mem => (parts e mem).all all)
      failed with ⟨mem, value⟩ | ⟨rfl, clashing⟩
    · exact negative mem fault value
    · exact clash clashing

lemma works_addTerms (own : (model m).In p) (none : m.response = .none)
    (terms : ∀ t ∈ ts, .term t ∈ p.effects) :
    Works P R σ p (do return model (← withKinds (m.editAll · (Model.addEdits ts))))
      fun q o => o.Fresh q := by
  refine works_editAll clash own none (forall_mem_map.mpr terms) fun mem => ?_
  obtain ⟨t, _, eq⟩ := mem_map.mp mem
  cases eq

end Clash

/-! ### Terms on the left -/

namespace Term

variable {t : Term}

section

variable (clash : Clashing P → R .noAttribute) (own : .term t ∈ p.effects)
include clash own

lemma sameAs_fault (right : o.In p) (all : p.All P) :
    ∀ fault, (ofTerm t).same unknown o = .error fault → R fault := by
  cases o with
  | part x =>
    exact of_returnsUnless clash (Part.same_unless (all.effect own) ((in_part.mp right).all all))
  | model | response | foreign => nofun

omit clash in
lemma in_single : (model (.ofTerms [t])).In p := Model.in_ofTerms (by simpa using own)

/-- Terms are added to a term unless calls clash. -/
lemma works_addTermsTo (terms : ∀ u ∈ us, .term u ∈ p.effects) :
    Works P R σ p (t.add (.model (.ofTerms us))) fun q o => o.Fresh q := by
  apply works_test (sameAs_fault clash own (Model.in_ofTerms terms)) (works_pure (.effect own))
  have edits : (Model.ofTerms us).parts.map Model.Edit.add = Model.addEdits us := by
    simp [Model.parts, Model.ofTerms, Model.addEdits]
  dsimp only
  rw [edits]
  exact works_addTerms clash (in_single own) rfl terms

/-- A model to the right of an operator that makes interactions. -/
lemma works_operate_model (making : op ∈ [.interact, .mul, .nest]) (right : (model m).In p)
    (bare : Crossed [.term t] m.common → R .noAttribute) :
    Works P R σ p (t.operate op (.model m)) fun q o =>
      o.Fresh q ∧ ¬ Crossed [.term t] m.common := by
  have alone : [Effect.term t] ⊆ p.effects := by simpa using own
  have interactions := works_interactions (σ := σ) clash alone right.effects bare
  -- a term never equals a model
  have unequal {x y : Fit Operand} {Q : Pool → Operand → Prop} (second : Works P R σ p y Q) :
      Works P R σ p (do if ← t.sameAs (.model m) then x else y) Q := by
    refine (works_withKinds (Q := fun q b => q = p ∧ b = false)
      (fun _ _ done => by cases done; exact ⟨rfl, rfl⟩) nofun).bind ?_
    rintro _ _ _ ⟨rfl, rfl⟩
    exact second
  simp only [mem_cons, not_mem_nil, or_false] at making
  rcases making with rfl | rfl | rfl
  · apply unequal
    exact interactions.bind fun q us _ made => works_pure ⟨fresh_ofTerms made.1, made.2⟩
  · -- the products are made of copies, and collected behind the factors
    have products : Works P R σ p (m.common.mapM (copiedInteraction (.term t))) fun q us =>
        (∀ u ∈ us, .term u ∈ q.effects) ∧ ∀ e ∈ m.common,
          ¬ ((Effect.term t).term? = none ∨ e.term? = none) :=
      works_loop (fun within made => within.effects made) fun e mem q within =>
        works_copiedInteraction clash (within.effects own) (within.effects (right.effects mem))
          fun none => bare ⟨.term t, by simp, e, mem, none⟩
    apply unequal
    refine products.bind fun q us within made => ?_
    have base : .term t :: m.common ⊆ q.effects :=
      cons_subset.mpr ⟨within.effects own, Subset.trans right.effects within.effects⟩
    refine (works_addTerms clash (Model.in_ofEffects base) rfl made.1).imp
      fun _ o _ fresh => ⟨fresh, ?_⟩
    rintro ⟨a, first, e, mem, none⟩
    obtain rfl := mem_singleton.mp first
    exact made.2 e mem none
  · apply unequal
    refine interactions.bind fun q us within made => ?_
    exact (works_addTermsTo clash (within.effects own) made.1).imp
      fun _ o _ fresh => ⟨fresh, made.2⟩

end

lemma works_unsupported {Q : Pool → α → Prop} (ordinary : ∀ fault, fault.Ordinary → R fault) :
    Works P R σ p (unsupported : Fit α) Q :=
  works_throw (ordinary _ (.inr rfl))

section

variable (clash : Clashing P → R .noAttribute) (ordinary : ∀ fault, fault.Ordinary → R fault)
include clash ordinary

/-- The parts of a model are added to one without a response. -/
lemma works_addParts {n : Model} (own : (model m).In p) (none : m.response = .none)
    (other : (model n).In p) :
    Works P R σ p (do return model (← withKinds (m.editAll · (n.parts.map .add))))
      fun q o => o.Fresh q :=
  works_editAll clash own none (forall_mem_map.mpr (Model.parts_in other))
    fun _ fault value => ordinary fault (.inl value)

variable (own : .term t ∈ p.effects)
include own

lemma works_add (right : o.In p) : Works P R σ p (t.add o) fun q r => r.Fresh q := by
  apply works_test (sameAs_fault clash own right) (works_pure (.effect own))
  split
  next u => exact works_pure (fresh_ofTerms (by simpa using ⟨own, in_part.mp right⟩))
  · exact works_addParts clash ordinary (in_single own) rfl right
  · exact works_unsupported ordinary

lemma works_sub (right : o.In p) : Works P R σ p (t.sub o) fun q r => r.Fresh q := by
  have either {f : Component.Kinds → Except Fault Bool}
      (search : p.All P → ReturnsUnless (Clashing P) (f unknown)) :
      Works P R σ p (do return if ← withKinds f then model {} else ofTerm t)
        fun q r => r.Fresh q := by
    refine (works_withKinds (Q := fun q _ => q = p) (fun _ _ _ => rfl)
      fun all => of_returnsUnless clash (search all)).bind ?_
    rintro _ found _ rfl
    cases found with
    | true => exact works_pure fresh_empty
    | false => exact works_pure (.effect own)
  unfold sub
  split
  next u =>
    exact either fun all => Effect.same_unless (all.effect own) (all.effect (in_part.mp right))
  next m =>
    exact either fun all => .anyM fun x mem =>
      Part.same_unless ((Model.parts_in right x mem).all all) (all.effect own)
  · exact works_unsupported ordinary

/-- The operators that make an interaction. Equal operands are one, numbers are refused, and two terms
have an interaction unless calls clash. -/
lemma works_making (making : op ∈ [.interact, .mul, .nest]) (right : o.In p)
    (misses : Misses op (.ofTerm t) o → R .noAttribute) :
    Works P R σ p (t.operate op o) fun q r => r.Fresh q := by
  have unequal := sameAs_fault clash own right
  have itself : Works P R σ p (pure (ofTerm t)) fun q r => r.Fresh q := works_pure (.effect own)
  match o with
  | .model m =>
    exact (works_operate_model clash own making right fun bare =>
      misses (.behindTerm making bare)).imp fun _ _ _ fresh => fresh.1
  | .part (.effect (.term u)) =>
    have second : .term u ∈ p.effects := in_part.mp right
    have plain := works_interactionOf (σ := σ) clash own second nofun
    have copied := works_copiedInteraction (σ := σ) clash own second nofun
    simp only [mem_cons, not_mem_nil, or_false] at making
    rcases making with rfl | rfl | rfl
    all_goals
      apply works_test unequal itself
      dsimp only
      split
      · exact works_throw (ordinary _ (.inr rfl))
    · exact plain.bind fun q v _ made => works_pure (.effect made.1)
    · refine copied.bind fun q v within made => works_pure (fresh_ofTerms ?_)
      simpa using ⟨within.effects own, within.effects second, made.1⟩
    · refine plain.bind fun q v within made => works_pure (fresh_ofTerms ?_)
      simpa using ⟨within.effects own, made.1⟩
  | .part (.effect (.intercept _)) | .part (.effect .negated) | .part (.group _) | .response _
  | .foreign _ =>
    simp only [mem_cons, not_mem_nil, or_false] at making
    rcases making with rfl | rfl | rfl <;>
      exact works_test unequal itself (works_unsupported ordinary)

end

lemma powerComponents_fault (failed : powerComponents o = .error fault) :
    fault = .noAttribute ∧ ∀ u, o ≠ .ofTerm u := by
  match o with
  | .part (.effect (.term u)) => cases failed
  | .part (.effect (.intercept _)) | .part (.effect .negated) | .part (.group _) | .model _
  | .response _ | .foreign _ =>
    cases failed
    exact ⟨rfl, fun u => nofun⟩

lemma works_warn : Works P R σ p (warn message) fun _ _ => True :=
  ⟨keeps_warn, fun all => (runs_warn _).imp fun _ _ => ⟨p, .refl p, all, trivial⟩⟩

section

variable (ordinary : ∀ fault, fault.Ordinary → R fault) (own : .term t ∈ p.effects)
include ordinary own

lemma works_power (misses : Misses .power (.ofTerm t) o → R .noAttribute) :
    Works P R σ p (t.power o) fun q r => r.Fresh q := by
  refine (works_lift (Q := fun q _ => q = p) (fun _ _ => rfl) fun _ fault failed => ?_).bind ?_
  · obtain ⟨rfl, other⟩ := powerComponents_fault failed
    exact misses (.exponent other)
  · rintro _ cs _ rfl
    split
    · exact works_warn.bind fun q _ within _ => works_pure (.effect (within.effects own))
    · exact works_unsupported ordinary

lemma works_bar (right : o.In p) :
    Works P R σ p (t.bar o) fun q r => r.Fresh q ∧ r.effects = [] := by
  unfold bar
  split
  next u =>
    have second : .term u ∈ p.effects := in_part.mp right
    refine works_newIntercept.bind fun q e within made => ?_
    refine (works_newGroup made (within.effects second)).bind fun r g within' first => ?_
    have within := within.trans within'
    refine (works_newGroup (within.effects own) (within.effects second)).bind fun r' h within last => ?_
    exact works_pure ⟨.grouped (by simpa using ⟨first.mono within, last⟩), rfl⟩
  next m =>
    -- every factor first gets an intercept of its own, then the term
    have intercepts : Works P R σ p (m.common.mapM fun f => do newGroup (← newIntercept) f)
        fun q gs => (∀ g ∈ gs, g.MadeOf q) ∧ ∀ f ∈ m.common, True := by
      refine works_loop (fun within made => made.mono within) fun f mem q within => ?_
      refine works_newIntercept.bind fun r e within' made => ?_
      exact (works_newGroup made (within'.effects (within.effects (right.effects mem)))).imp
        fun _ _ _ made => ⟨made, trivial⟩
    refine intercepts.bind fun q gs within first => ?_
    have expr : [Effect.term t] ⊆ q.effects := by simpa using within.effects own
    refine (works_groupings expr (Subset.trans right.effects within.effects)).bind
      fun r hs within last => works_pure ⟨.grouped (forall_mem_append.mpr ⟨?_, last⟩), rfl⟩
    exact fun g mem => (first.1 g mem).mono within
  · exact works_unsupported ordinary

lemma works_operate (clash : Clashing P → R .noAttribute) (op : Operator) (right : o.In p)
    (misses : Misses op (.ofTerm t) o → R .noAttribute) :
    Works P R σ p (t.operate op o) fun q r => r.Fresh q ∧ (op = .bar → r.effects = []) := by
  cases op with
  | bar => exact (works_bar ordinary own right).imp fun _ _ _ fresh => ⟨fresh.1, fun _ => fresh.2⟩
  | add => exact (works_add clash ordinary own right).imp fun _ _ _ fresh => ⟨fresh, nofun⟩
  | sub => exact (works_sub clash ordinary own right).imp fun _ _ _ fresh => ⟨fresh, nofun⟩
  | power => exact (works_power ordinary own misses).imp fun _ _ _ fresh => ⟨fresh, nofun⟩
  | mul | interact | nest =>
    exact (works_making clash ordinary own (by simp) right misses).imp
      fun _ _ _ fresh => ⟨fresh, nofun⟩

end

end Term

/-! ### Intercepts on the left -/

section Effect

variable (clash : Clashing P → R .noAttribute) (ordinary : ∀ fault, fault.Ordinary → R fault)
include clash ordinary

lemma Effect.works_addModel (own : e ∈ p.effects) (right : (model m).In p) :
    Works P R σ p (e.addModel m) fun q r => r.Fresh q :=
  Term.works_addParts clash ordinary (Model.in_ofEffects (by simpa using own)) rfl right

omit clash ordinary in
lemma Effect.fresh_pair (own : e ∈ p.effects) (right : (part x).In p) :
    (model (.ofParts [.effect e, x])).Fresh p := by
  refine .collected (Model.in_ofParts ?_ (by simp)) rfl
  simpa using ⟨own, in_part.mp right⟩

lemma Effect.works_operateIntercept (op : Operator) (own : .intercept slot ∈ p.effects)
    (right : o.In p) : Works P R σ p (operateIntercept op slot o) fun q r =>
      r.Fresh q ∧ (op = .bar → r.effects = []) := by
  unfold operateIntercept
  split
  · exact works_pure ⟨fresh_empty, nofun⟩
  · exact works_pure ⟨.effect own, nofun⟩
  · exact works_pure ⟨fresh_pair own right, nofun⟩
  · exact (works_addModel clash ordinary own right).imp fun _ _ _ fresh => ⟨fresh, nofun⟩
  · exact works_pure ⟨fresh_empty, nofun⟩
  · exact works_pure ⟨.effect own, nofun⟩
  · refine works_pure ⟨?_, nofun⟩
    split
    · exact fresh_empty
    · exact .effect own
  · exact (works_newGroup own (in_part.mp right)).bind fun _ _ _ made =>
      works_pure ⟨.group made, fun _ => rfl⟩
  · exact (works_ofGroups (by simpa using own) right.effects).imp fun _ _ _ fresh =>
      ⟨fresh.1, fun _ => fresh.2⟩
  · exact Term.works_unsupported ordinary

lemma Effect.works_operateNegated (op : Operator) (own : .negated ∈ p.effects) (right : o.In p) :
    Works P R σ p (operateNegated op o) fun q r => r.Fresh q ∧ (op = .bar → r.effects = []) := by
  unfold operateNegated
  split
  · exact works_pure ⟨.effect own, nofun⟩
  · exact works_pure ⟨fresh_empty, nofun⟩
  · exact works_pure ⟨fresh_pair own right, nofun⟩
  · exact (works_addModel clash ordinary own right).imp fun _ _ _ fresh => ⟨fresh, nofun⟩
  · exact works_throw (ordinary _ (.inl rfl))
  · exact Term.works_unsupported ordinary

lemma Effect.works_operate (own : e ∈ p.effects) (op : Operator) (right : o.In p)
    (misses : Misses op (.ofEffect e) o → R .noAttribute) :
    Works P R σ p (e.operate op o) fun q r => r.Fresh q ∧ (op = .bar → r.effects = []) := by
  cases e with
  | intercept slot => exact works_operateIntercept clash ordinary op own right
  | negated => exact works_operateNegated clash ordinary op own right
  | term t => exact t.works_operate ordinary own clash op right misses

end Effect

/-! ### Models on the left -/

namespace Model

/-- The model after edits that only add what is made of such components. -/
def Revised (P : Atom → Prop) (m : Model) (o : Operand) : Prop :=
  ∃ edits m', m.editAll unknown edits = .ok m' ∧ (∀ x, .add x ∈ edits → x.All P) ∧ o = .model m'

lemma Revised.all (own : m.All P) (revised : m.Revised P o) : o.All P := by
  obtain ⟨edits, m', done, added, rfl⟩ := revised
  exact editAll_all own added done

lemma commonComponents_subset (own : (model m).In p) : m.commonComponents ⊆ p.components := by
  intro c mem
  obtain ⟨e, among, held⟩ := mem_flatMap.mp mem
  refine p.held e (own.effects among) ?_
  cases e with
  | term t => exact held
  | intercept | negated => simp [Effect.term?] at held

lemma flatten_components (inside : es ⊆ p.effects) (done : es.mapM Effect.components = .ok css) :
    css.flatten ⊆ p.components ∧ ∀ e ∈ es, e.term? ≠ none := by
  have each := (mapM_ok_iff _ _ _).mp done
  clear done
  induction each with
  | nil => simp
  | @cons e cs es css first _ ih =>
    obtain ⟨head, tail⟩ := cons_subset.mp inside
    have term : e.term? ≠ none := by
      cases e with
      | term t => nofun
      | intercept | negated => cases first
    rw [flatten_cons, Term.components_eq first]
    exact ⟨append_subset.mpr ⟨p.held e head, (ih tail).1⟩, forall_mem_cons.mpr ⟨term, (ih tail).2⟩⟩

/-- The selections of effects of which a power makes interactions. -/
def selections (m : Model) (n : Nat) : List (List Effect) :=
  ((List.range (min n m.common.length + 1)).drop 2).flatMap (sublistsOfSize · m.common)

lemma mem_selections :
    es ∈ m.selections n ↔ es.Sublist m.common ∧ 2 ≤ es.length ∧ es.length ≤ n := by
  have sizes (i : Nat) : i ∈ (List.range (min n m.common.length + 1)).drop 2 ↔
      2 ≤ i ∧ i ≤ min n m.common.length := by
    simp only [mem_drop_iff_getElem, getElem_range, length_range]
    constructor
    · rintro ⟨j, small, rfl⟩
      omega
    · rintro ⟨high, low⟩
      exact ⟨i - 2, by omega, by omega⟩
  simp only [selections, mem_flatMap, sizes, mem_sublistsOfSize]
  constructor
  · rintro ⟨_, ⟨high, low⟩, sublist, rfl⟩
    exact ⟨sublist, high, by omega⟩
  · rintro ⟨sublist, high, low⟩
    have short := sublist.length_le
    exact ⟨es.length, ⟨high, by omega⟩, sublist, rfl⟩

/-- Every effect of several is in a selection of two. -/
lemma exists_selection (mem : e ∈ m.common) (several : 2 ≤ m.common.length) (high : 2 ≤ n) :
    ∃ es ∈ m.selections n, e ∈ es := by
  obtain ⟨before, after, split⟩ := append_of_mem mem
  rw [split, length_append, length_cons] at several
  cases after with
  | cons f after =>
    have sublist : [e, f].Sublist m.common := by
      rw [split]
      exact sublist_append_of_sublist_right (by simp)
    exact ⟨[e, f], mem_selections.mpr ⟨sublist, le_refl 2, high⟩, by simp⟩
  | nil =>
    cases before with
    | nil => simp at several
    | cons f before =>
      have sublist : [f, e].Sublist m.common := by
        rw [split]
        exact .cons_cons f (sublist_append_of_sublist_right (Sublist.refl [e]))
      exact ⟨[f, e], mem_selections.mpr ⟨sublist, le_refl 2, high⟩, by simp⟩

section Clash

variable (clash : Clashing P → R .noAttribute)
include clash

lemma works_mergedTerm (inside : es ⊆ p.effects)
    (bare : (∃ e ∈ es, e.term? = none) → R .noAttribute) :
    Works P R σ p (mergedTerm es) fun q t => .term t ∈ q.effects ∧ ∀ e ∈ es, e.term? ≠ none := by
  refine (works_lift (Q := fun q css => css.flatten ⊆ q.components ∧ ∀ e ∈ es, e.term? ≠ none)
    (fun css done => flatten_components inside done) fun _ fault failed => ?_).bind
    fun q css _ own => (works_newTerm clash own.1).imp fun _ _ _ made => ⟨made, own.2⟩
  obtain ⟨e, mem, own⟩ := mapM_fault failed
  cases e with
  | term t => cases own
  | intercept | negated =>
    cases own
    exact bare ⟨_, mem, rfl⟩

lemma works_merged (own : m.common ⊆ p.effects) (degree : Term.degree? t.components = some n)
    (misses : Misses .power (.model m) (.ofTerm t) → R .noAttribute) :
    Works P R σ p ((m.selections n).mapM mergedTerm) fun q ts =>
      (∀ t ∈ ts, .term t ∈ q.effects) ∧ ∀ es ∈ m.selections n, ∀ e ∈ es, e.term? ≠ none := by
  refine works_loop (fun within made => within.effects made) fun es mem q within => ?_
  obtain ⟨sublist, high, low⟩ := mem_selections.mp mem
  have selected := Subset.trans sublist.subset (Subset.trans own within.effects)
  refine works_mergedTerm clash selected fun ⟨e, among, bare⟩ => misses ?_
  exact .power degree (high.trans low) (high.trans sublist.length_le) (sublist.subset among) bare

lemma works_mulEffects (own : m.common ⊆ p.effects) (right : others ⊆ p.effects)
    (bare : Crossed m.common others → R .noAttribute) :
    Works P R σ p (m.mulEffects others) fun q r => r.Fresh q ∧ ¬ Crossed m.common others := by
  refine (works_interactions clash own right bare).bind fun q ts within made => ?_
  have base := Subset.trans (append_subset.mpr ⟨own, right⟩) within.effects
  exact (works_addTerms clash (in_ofEffects base) rfl made.1).imp fun _ _ _ fresh => ⟨fresh, made.2⟩

/-- The products of two models that differ. -/
lemma works_products {n : Model} (own : m.common ⊆ p.effects) (right : n.common ⊆ p.effects)
    (bare : (Crossed m.common n.common ∨ ∃ e, n.common = [e] ∧ e.term? = none) → R .noAttribute) :
    Works P R σ p (do
      if let [e] := n.common then discard (e.components : Fit _)
      m.mulEffects n.common) fun q r => r.Fresh q ∧
        ¬ (Crossed m.common n.common ∨ ∃ e, n.common = [e] ∧ e.term? = none) := by
  have products {q : Pool} (within : p.Within q) (terms : ∀ e, n.common = [e] → e.term? ≠ none) :
      Works P R σ q (m.mulEffects n.common) fun q r => r.Fresh q ∧
        ¬ (Crossed m.common n.common ∨ ∃ e, n.common = [e] ∧ e.term? = none) := by
    refine (works_mulEffects clash (Subset.trans own within.effects)
      (Subset.trans right within.effects) fun crossed => bare (.inl crossed)).imp
      fun _ r _ fresh => ⟨fresh.1, ?_⟩
    rintro (crossed | ⟨e, single, none⟩)
    · exact fresh.2 crossed
    · exact terms e single none
  dsimp only
  split
  next e single =>
    have inside : e ∈ p.effects := right (by simp [single])
    refine Works.bind (Q := fun _ _ => e.term? ≠ none) ?_ fun q _ within term =>
      products within fun f alone => ?_
    · exact (works_components inside fun none => bare (.inr ⟨e, single, none⟩)).bind
        fun _ _ _ own => works_pure own.2
    · cases single.symm.trans alone
      exact term
  next several => exact products (.refl p) fun e single => (several e single).elim

lemma runs_mul_model {n : Model} (own : m.common ⊆ p.effects) (right : n.common ⊆ p.effects)
    (all : p.All P) (unequal : m.same unknown n = .ok false)
    (bare : (Crossed m.common n.common ∨ ∃ e, n.common = [e] ∧ e.term? = none) → R .noAttribute) :
    Runs R (m.mul (.model n)) fun r => ∃ q, p.Within q ∧ q.All P ∧ r.Fresh q ∧
      ¬ (Crossed m.common n.common ∨ ∃ e, n.common = [e] ∧ e.term? = none) :=
  (runs_withKinds_ok (a := false) unequal rfl (Q := (· = false))).bind fun _ differ =>
    differ ▸ (works_products (σ := {}) clash own right bare).runs all

lemma works_ofInteractions (own : m.common ⊆ p.effects) (right : others ⊆ p.effects)
    (bare : Crossed m.common others → R .noAttribute) :
    Works P R σ p (do return model (.ofTerms (← Term.interactions m.common others)))
      fun q r => r.Fresh q ∧ ¬ Crossed m.common others :=
  (works_interactions clash own right bare).bind fun _ _ _ made =>
    works_pure ⟨fresh_ofTerms made.1, made.2⟩

end Clash

section

variable (clash : Clashing P → R .noAttribute) (ordinary : ∀ fault, fault.Ordinary → R fault)
  (own : (model m).In p)
include clash ordinary own

lemma works_edits (op : Operator) (right : o.In p)
    (misses : Misses op (.model m) o → R .noAttribute)
    (powerless : Powerless op (.model m) o → R .noValue) :
    Works P R σ p (m.edits op o) fun q edits => ∀ e ∈ edits, e.part.In q := by
  have components := commonComponents_subset own
  have added {x : Fit (List Term)} {S : Prop}
      (makes : Works P R σ p x fun q ts => (∀ t ∈ ts, .term t ∈ q.effects) ∧ S) :
      Works P R σ p (do return addEdits (← x)) fun q edits => ∀ e ∈ edits, e.part.In q :=
    makes.bind fun _ _ _ made => works_pure (forall_mem_map.mpr made.1)
  unfold edits
  split
  · exact works_newIntercept.bind fun q e _ made => works_pure (forall_mem_singleton.mpr made)
  · exact works_pure (by simpa [Edit.part] using in_part.mp right)
  · exact works_pure (forall_mem_map.mpr (parts_in right))
  · exact Term.works_unsupported ordinary
  · exact works_pure (by simpa [Edit.part] using in_part.mp right)
  · exact works_pure (forall_mem_map.mpr (parts_in right))
  next t =>
    have all := append_subset.mpr ⟨components, p.held (.term t) (in_part.mp right)⟩
    exact (works_newTerm clash all).bind fun q u _ made =>
      works_pure (forall_mem_map.mpr (forall_mem_singleton.mpr made))
  next n =>
    refine added (S := ∀ c ∈ n.commonComponents, True)
      (works_loop (fun within made => within.effects made) fun c mem q within => ?_)
    have last : [c] ⊆ p.components := by simpa using commonComponents_subset right mem
    have all := Subset.trans (append_subset.mpr ⟨components, last⟩) within.components
    exact (works_newTerm clash all).imp fun _ _ _ made => ⟨made, trivial⟩
  next t =>
    split
    next c single =>
      split
      next n degree => exact added (works_merged clash own.effects degree misses)
      next degree => exact works_throw (powerless (.power single (by rw [← single]; exact degree)))
    · exact works_throw (ordinary _ (.inl rfl))
  · exact works_throw (ordinary _ (.inl rfl))
  · exact Term.works_unsupported ordinary

omit clash ordinary own in
lemma operate_of_revises (revising : revises op) : m.operate op o = (do
    let edits ← m.edits op o
    return .model (← withKinds (m.editAll · edits))) := by
  cases op with
  | add | sub | nest | power => rfl
  | mul | interact | bar => cases revising

/-- The operators that revise the model on their left. -/
lemma keeps_revise (revising : revises op) (right : o.In p)
    (misses : Misses op (.model m) o → R .noAttribute)
    (powerless : Powerless op (.model m) o → R .noValue) :
    Keeps σ p (m.operate op o) fun q r => r.MadeOf q := by
  rw [operate_of_revises revising]
  exact (works_edits clash ordinary own op right misses powerless).keeps.bind
    fun _ _ within parts => keeps_editAll (own.mono within) fun x mem => parts (.add x) mem

lemma runs_revise (revising : revises op) (right : o.In p) (all : p.All P)
    (misses : Misses op (.model m) o → R .noAttribute)
    (powerless : Powerless op (.model m) o → R .noValue) :
    Runs R (m.operate op o) fun r => m.Revised P r := by
  rw [operate_of_revises revising]
  refine ((works_edits (σ := {}) clash ordinary own op right misses powerless).runs all).bind ?_
  rintro edits ⟨q, _, all', parts⟩
  have parts (e) (mem : e ∈ edits) : e.part.All P := (parts e mem).all all'
  refine (runs_withKinds (Q := fun m' => m.editAll unknown edits = .ok m') (fun m' done => done)
    fun fault failed => ?_).bind fun m' done => runs_pure ⟨edits, m', done, ?_, rfl⟩
  · rcases editAll_fault (all_of_in own all) parts failed with ⟨_, value⟩ | ⟨rfl, clashing⟩
    · exact ordinary fault (.inl value)
    · exact clash clashing
  · exact fun x mem => parts (.add x) mem

/-- A model times an equal one is the model itself. -/
lemma works_mul (right : o.In p)
    (comparable : ∀ n, o = .model n → ∀ fault, m.same unknown n = .error fault → R fault)
    (misses : Misses .mul (.model m) o → R .noAttribute) :
    Works P R σ p (m.mul o) fun q r => r.Fresh q ∨ r = .model m := by
  match o with
  | .model n =>
    constructor
    · exact (works_test (P := P) (R := fun _ => True) (fun _ _ _ => trivial) (works_pure (.inr rfl))
        ((works_products (fun _ => trivial) own.effects right.effects fun _ => trivial).imp
          fun _ _ _ fresh => .inl fresh.1)).keeps
    intro all
    by_cases unequal : m.same unknown n = .ok false
    · apply (runs_mul_model clash own.effects right.effects all unequal fun crossed =>
        misses (.product unequal crossed)).imp
      rintro r ⟨q, within, all, fresh, _⟩
      exact ⟨q, within, all, .inl fresh⟩
    · refine (runs_withKinds (Q := (· = true)) (fun b found => ?_) (comparable n rfl)).bind ?_
      · cases b with
        | true => rfl
        | false => exact (unequal found).elim
      · rintro _ rfl
        exact runs_pure ⟨p, .refl p, all, .inr rfl⟩
  | .part (.effect (.term t)) =>
    apply works_test (fun _ => nofun) (works_pure (.inr rfl))
    dsimp only
    split
    · exact works_throw (ordinary _ (.inr rfl))
    next word =>
      refine (works_mulEffects clash own.effects (cons_subset.mpr ⟨in_part.mp right, nil_subset _⟩)
        fun crossed => ?_).imp fun _ _ _ fresh => .inl fresh.1
      exact misses (.beforeTerm (by simp) (fun _ => by simpa using word) crossed)
  | .part (.effect (.intercept _)) | .part (.effect .negated) | .part (.group _) | .response _
  | .foreign _ =>
    exact works_test (fun _ => nofun) (works_pure (.inr rfl)) (Term.works_unsupported ordinary)

lemma works_interact (right : o.In p) (misses : Misses .interact (.model m) o → R .noAttribute) :
    Works P R σ p (m.interact o) fun q r => r.Fresh q := by
  unfold interact
  split
  · exact (works_ofInteractions clash own.effects right.effects fun crossed =>
      misses (.interaction crossed)).imp fun _ _ _ fresh => fresh.1
  · exact (works_ofInteractions clash own.effects (cons_subset.mpr ⟨in_part.mp right, nil_subset _⟩)
      fun crossed => misses (.beforeTerm (by simp) nofun crossed)).imp fun _ _ _ fresh => fresh.1
  · exact Term.works_unsupported ordinary

omit clash ordinary in
lemma works_settleIntercept :
    Works P R σ p m.settleIntercept fun q n => n.common ⊆ q.effects := by
  unfold settleIntercept
  dsimp only
  split
  · refine works_pure (Subset.trans (eraseP_sublist.trans ?_).subset own.effects)
    split
    · exact eraseP_sublist
    · exact Sublist.refl _
  · split
    · exact works_pure own.effects
    · refine works_newIntercept.bind fun q e within made => works_pure ?_
      exact cons_subset.mpr ⟨made, Subset.trans own.effects within.effects⟩

omit clash own in
lemma works_groupBy (own : m.common ⊆ p.effects) (right : o.In p) :
    Works P R σ p (m.groupBy o) fun q r => r.Fresh q ∧ r.effects = [] := by
  unfold groupBy
  split
  · exact works_ofGroups own (cons_subset.mpr ⟨in_part.mp right, nil_subset _⟩)
  · exact works_ofGroups own right.effects
  · exact Term.works_unsupported ordinary

lemma works_bar (right : o.In p) :
    Works P R σ p (m.operate .bar o) fun q r => r.Fresh q ∧ r.effects = [] := by
  rw [operate]
  split
  next e single =>
    have inside : e ∈ p.effects := own.effects (by simp [effects, single])
    have fits : ¬Misses .bar (.ofEffect e) o := by
      intro misses
      cases misses with
      | behindTerm making => simp at making
    exact (Effect.works_operate clash ordinary inside .bar right fits.elim).imp
      fun _ _ _ fresh => ⟨fresh.1, fresh.2 rfl⟩
  · exact (works_settleIntercept own).bind fun q n within settled =>
      works_groupBy ordinary settled (right.mono within)

lemma works_operate (plain : revises op = false) (right : o.In p)
    (comparable : ∀ n, o = .model n → ∀ fault, m.same unknown n = .error fault → R fault)
    (misses : Misses op (.model m) o → R .noAttribute) :
    Works P R σ p (m.operate op o) fun q r => r.Fresh q ∨ r = .model m := by
  cases op with
  | mul => exact works_mul clash ordinary own right comparable misses
  | interact => exact (works_interact clash ordinary own right misses).imp fun _ _ _ => .inl
  | bar => exact (works_bar clash ordinary own right).imp fun _ _ _ fresh => .inl fresh.1
  | add | sub | nest | power => cases plain

end

lemma edits_power (degree : Term.degree? t.components = some n) :
    m.edits .power (.ofTerm t) = do return addEdits (← (m.selections n).mapM mergedTerm) := by
  have single : ∃ c, t.components = [c] := by
    unfold Term.degree? at degree
    split at degree
    next c single => exact ⟨c, single⟩
    · cases degree
  obtain ⟨c, single⟩ := single
  unfold edits ofTerm
  dsimp only
  rw [degree, single]
  rfl

end Model

/-! ### All operators -/

namespace Operand

variable {a b : Operand}

lemma keeps_addToResponse (own : t ∈ p.responses) (right : o.In p) :
    Keeps σ p (addToResponse t o) fun q r => r.MadeOf q := by
  unfold addToResponse
  split
  · exact keeps_throw
  · refine keeps_pure (.collected (Model.in_ofParts ?_ (by simpa using own)))
    simpa using in_part.mp right
  · exact keeps_pure (.collected ⟨right.effects, right.groups, by simpa [response?] using own⟩)
  · exact keeps_throw

/-- Operators keep the effects apart from group-specific terms and responses. -/
lemma keeps_operate (op : Operator) (left : a.In p) (right : b.In p) :
    Keeps σ p (a.operate op b) fun q o => o.MadeOf q := by
  have clash : Clashing (fun _ => True) → True := fun _ => trivial
  match a with
  | .part (.effect e) =>
    exact (e.works_operate (R := fun _ => True) clash (fun _ _ => trivial) (in_part.mp left) op right
      fun _ => trivial).keeps.imp fun _ _ _ fresh => fresh.1.madeOf
  | .model m =>
    cases revising : Model.revises op with
    | true =>
      exact Model.keeps_revise (R := fun _ => True) clash (fun _ _ => trivial) left revising right
        (fun _ => trivial) fun _ => trivial
    | false =>
      refine (Model.works_operate (R := fun _ => True) clash (fun _ _ => trivial) left revising right
        (fun _ _ _ _ => trivial) fun _ => trivial).keeps.imp ?_
      rintro q r within (fresh | rfl)
      · exact fresh.madeOf
      · exact .collected (left.mono within)
  | .response t =>
    change Keeps σ p (if op == .add then addToResponse t b else Term.unsupported) _
    split
    · exact keeps_addToResponse (left.response t rfl) right
    · exact keeps_throw
  | .part (.group _) | .foreign _ => exact keeps_throw

lemma in_left (a b : Operand) : a.In (a.pool.append b.pool) :=
  a.in_pool.mono (Pool.within_append_left _ _)

lemma in_right (a b : Operand) : b.In (a.pool.append b.pool) :=
  b.in_pool.mono (Pool.within_append_right _ _)

lemma All.append (left : a.All P) (right : b.All P) : (a.pool.append b.pool).All P :=
  ⟨forall_mem_append.mpr ⟨left.pool.components, right.pool.components⟩,
    forall_mem_append.mpr ⟨left.pool.groups, right.pool.groups⟩⟩

/-- What an operator returns is free, or the model on its left, revised. -/
lemma runs_operate (clash : Clashing P → R .noAttribute)
    (ordinary : ∀ fault, fault.Ordinary → R fault) (op : Operator) (left : a.All P) (right : b.All P)
    (comparable : ∀ m n, a = .model m → b = .model n →
      ∀ fault, m.same unknown n = .error fault → R fault)
    (misses : Misses op a b → R .noAttribute) (powerless : Powerless op a b → R .noValue) :
    Runs R (a.operate op b) fun o => o.Free P ∨ ∃ m, a = .model m ∧ m.Revised P o := by
  have all := left.append right
  match a with
  | .part (.effect e) =>
    have own := (in_left (ofEffect e) b).effects (mem_singleton_self e)
    apply ((e.works_operate (σ := {}) clash ordinary own op (in_right _ b) misses).runs all).imp
    rintro o ⟨q, _, all, fresh, _⟩
    exact .inl (fresh.free all)
  | .part (.group _) => exact runs_throw (ordinary _ (.inr rfl))
  | .model m =>
    cases revising : Model.revises op with
    | true =>
      exact (Model.runs_revise clash ordinary (in_left _ b) revising (in_right _ b) all misses
        powerless).imp fun o revised => .inr ⟨m, rfl, revised⟩
    | false =>
      apply ((Model.works_operate (σ := {}) clash ordinary (in_left _ b) revising (in_right _ b)
        (comparable m · rfl) misses).runs all).imp
      rintro o ⟨q, _, all, fresh | rfl⟩
      · exact .inl (fresh.free all)
      · exact .inr ⟨m, rfl, [], m, rfl, by simp, rfl⟩
  | .response _ | .foreign _ => exact left.elim

/-- Effects are grouped, and none is left common. -/
lemma effects_of_bar (left : a.All P) (right : b.All P) :
    Returns (a.operate .bar b) fun o => o.effects = [] := by
  have all := left.append right
  match a with
  | .part (.effect e) =>
    have own := (in_left (ofEffect e) b).effects (mem_singleton_self e)
    apply ((e.works_operate (R := fun _ => True) (σ := {}) (fun _ => trivial) (fun _ _ => trivial) own
      .bar (in_right _ b) fun _ => trivial).runs all).imp
    rintro o ⟨q, _, _, _, none⟩
    exact none rfl
  | .model m =>
    apply ((Model.works_bar (R := fun _ => True) (σ := {}) (fun _ => trivial) (fun _ _ => trivial)
      (in_left _ b) (in_right _ b)).runs all).imp
    rintro o ⟨q, _, _, _, none⟩
    exact none
  | .part (.group _) => exact runs_throw trivial
  | .response _ | .foreign _ => exact left.elim

end Operand

variable {a b : Operand}

/-- An operator that asks for a missing part stops for this reason and no other. -/
lemma Misses.stops (misses : Misses op a b) (left : a.All P) (right : b.All P) {σ : Store}
    (untyped : σ.Untyped) : (outcome (a.operate op b) σ).1 = .error .noAttribute := by
  have clash : Clashing P → Eq Fault.noAttribute .noAttribute := fun _ => rfl
  have all := left.append right
  have first := (in_left a b).effects
  have second := (in_right a b).effects
  have stops {x : Fit Operand} {crossing : Prop} (works : Works P (Eq .noAttribute) {}
      (a.pool.append b.pool) x fun q r => r.Fresh q ∧ ¬ crossing) (crossed : crossing) :
      (outcome x σ).1 = .error .noAttribute := by
    refine Runs.stops ((works.runs all).imp ?_) untyped
    rintro r ⟨q, _, _, _, free⟩
    exact free crossed
  cases misses with
  | @exponent t _ other =>
    match b with
    | .part (.effect (.term u)) => exact (other u rfl).elim
    | .part (.effect (.intercept _)) | .part (.effect .negated) | .part (.group _) | .model _
    | .response _ | .foreign _ => rfl
  | @behindTerm _ t m making crossed =>
    exact stops (Term.works_operate_model clash (first (mem_singleton_self _)) making (in_right _ _)
      fun _ => rfl) crossed
  | @beforeTerm _ m t making word crossed =>
    simp only [mem_cons, not_mem_nil, or_false] at making
    rcases making with rfl | rfl
    · exact stops (Model.works_ofInteractions clash first second fun _ => rfl) crossed
    · have continues : outcome (m.mul (.ofTerm t)) σ = outcome (m.mulEffects [.term t]) σ := by
        unfold Model.mul ofTerm
        simp only [word rfl]
        rfl
      change (outcome (m.mul (.ofTerm t)) σ).1 = _
      rw [continues]
      exact stops (Model.works_mulEffects clash first second fun _ => rfl) crossed
  | @interaction m n crossed =>
    exact stops (Model.works_ofInteractions clash first second fun _ => rfl) crossed
  | @product m n unequal crossed =>
    refine Runs.stops ((Model.runs_mul_model clash first second all unequal fun _ => rfl).imp ?_) untyped
    rintro r ⟨q, _, _, _, free⟩
    exact free crossed
  | @power m t n e degree high several mem bare =>
    have never : Runs (Eq .noAttribute) (m.edits .power (.ofTerm t)) fun _ => False := by
      rw [Model.edits_power degree]
      apply ((Model.works_merged (σ := {}) clash first degree fun _ => rfl).runs all).bind
      rintro ts ⟨q, _, _, _, terms⟩
      obtain ⟨es, selected, among⟩ := Model.exists_selection mem several high
      exact (terms es selected e among bare).elim
    exact Runs.stops (never.bind fun _ none => none.elim) untyped

lemma Powerless.stops (powerless : Powerless op a b) (σ : Store) :
    (outcome (a.operate op b) σ).1 = .error .noValue := by
  obtain @⟨m, t, c, single, degree⟩ := powerless
  have edits : m.edits .power (.ofTerm t) = throw .noValue := by
    unfold Model.edits ofTerm
    dsimp only
    rw [single]
    dsimp only
    rw [degree]
  have operates : (model m).operate .power (.ofTerm t) =
      (do return .model (← withKinds (m.editAll · (← m.edits .power (.ofTerm t))))) := rfl
  rw [operates, edits]
  rfl

end ModelFormula
