import ModelFormula.Proofs.Algebra.Allocation
import ModelFormula.Proofs.Calls.Equality

/-!
# Operands out of a pool

An operator either collects effects from a pool or turns some into group-specific terms and keeps
none; in both cases what it returns shares no slot.
-/
namespace ModelFormula

open List Operand

variable {σ : Store} {p q : Pool} {kinds : Component.Kinds}
variable {g : GroupTerm} {o : Operand} {m m' : Model}

/-! ### Operands out of a pool -/

/-- An effect at hand, or a group-specific term among the others. -/
def Part.In (q : Pool) : Part → Prop
  | .effect e => e ∈ q.effects
  | .group g => g ∈ q.groups

lemma Part.In.mono {x : Part} (inside : x.In p) (within : p.Within q) : x.In q := by
  cases x with
  | effect e => exact within.effects inside
  | group g => exact within.groups inside

lemma Term.components_eq {e : Effect} (done : e.components = .ok cs) : cs = e.held := by
  cases e with
  | term t =>
    cases done
    rfl
  | intercept | negated => cases done

/-- A group-specific term that was made of effects at hand. -/
structure GroupTerm.MadeOf (q : Pool) (g : GroupTerm) : Prop where
  made : g ∈ q.made
  expr : g.expr ∈ q.effects
  factor : g.factor ∈ q.effects

lemma GroupTerm.MadeOf.mono (made : g.MadeOf p) (within : p.Within q) : g.MadeOf q :=
  ⟨within.made made.made, within.effects made.expr, within.effects made.factor⟩

lemma GroupTerm.MadeOf.effects (made : g.MadeOf q) : g.effects ⊆ q.effects := by
  simpa [GroupTerm.effects] using ⟨made.expr, made.factor⟩

lemma GroupTerm.MadeOf.held (made : g.MadeOf q) : g.held ⊆ q.components :=
  append_subset.mpr ⟨q.held _ made.expr, q.held _ made.factor⟩

namespace Operand

def effects : Operand → List Effect
  | .part (.effect e) => [e]
  | .model m => m.common
  | _ => []

def groups : Operand → List GroupTerm
  | .part (.group g) => [g]
  | .model m => m.group
  | _ => []

def response? : Operand → Option Term
  | .model m => m.response
  | .response t => some t
  | _ => none

/-- The effects of an operand, its group-specific terms and its response. -/
def pool (o : Operand) : Pool where
  effects := o.effects
  components := o.effects.flatMap Effect.held
  held e mem := fun _ inside => mem_flatMap.mpr ⟨e, mem, inside⟩
  groups := o.groups
  responses := o.response?.toList

structure In (q : Pool) (o : Operand) : Prop where
  effects : o.effects ⊆ q.effects
  groups : ∀ g ∈ o.groups, (Part.group g).In q
  response : ∀ t ∈ o.response?, t ∈ q.responses

lemma In.mono (inside : o.In p) (within : p.Within q) : o.In q where
  effects := Subset.trans inside.effects within.effects
  groups g mem := (inside.groups g mem).mono within
  response t given := within.responses (inside.response t given)

lemma in_pool (o : Operand) : o.In o.pool :=
  ⟨Subset.refl _, fun _ mem => mem, fun _ given => Option.mem_toList.mpr given⟩

lemma In.within (inside : o.In q) : o.pool.Within q where
  effects := inside.effects
  made := nil_subset _
  components c mem := by
    obtain ⟨e, among, held⟩ := mem_flatMap.mp mem
    exact q.held e (inside.effects among) held
  groups := inside.groups
  responses t given := inside.response t (Option.mem_toList.mp given)

lemma in_part : (part x).In q ↔ x.In q := by
  cases x with
  | effect e =>
    exact ⟨fun h => h.effects mem_cons_self, fun h =>
      ⟨cons_subset.mpr ⟨h, nil_subset _⟩, by simp [groups], by simp [response?]⟩⟩
  | group g =>
    exact ⟨fun h => h.groups g mem_cons_self, fun h =>
      ⟨by simp [effects], by simpa [groups] using h, by simp [response?]⟩⟩

/-- What an operator returns: it collects, or it groups and keeps no effects. -/
inductive MadeOf (q : Pool) (o : Operand) : Prop
  | collected (inside : o.In q)
  | grouped (none : o.effects = []) (groups : ∀ g ∈ o.groups, g.MadeOf q)
      (response : o.response? = .none)

lemma MadeOf.separate (made : o.MadeOf q) (separate : q.Separate σ τ) : o.pool.Separate σ τ := by
  cases made with
  | collected inside => exact separate.mono inside.within
  | grouped none groups response =>
    have without : o.pool.effects = [] ∧ o.pool.components = [] ∧ o.pool.responses = [] := by
      simp [pool, none, response]
    have effects : o.pool.groupEffects ⊆ q.effects := by
      intro e mem
      obtain ⟨g, among, inside⟩ := mem_flatMap.mp mem
      exact (groups g among).effects inside
    have components : o.pool.groupComponents ⊆ q.components := by
      intro c mem
      obtain ⟨g, among, held⟩ := mem_flatMap.mp mem
      exact (groups g among).held held
    have made : ∀ g ∈ o.pool.groups, g ∈ q.made := fun g among => (groups g among).made
    -- what was at hand has been grouped, and there is nothing else
    refine ⟨separate.grows, separate.parts.move .grouped ?_, separate.components.move .grouped ?_, ?_⟩
    · intro x mem
      simp only [Pool.partOwners, without, map_nil, append_nil, nil_append,
        mem_append, mem_map] at mem
      rcases mem with (⟨g, nothing, _⟩ | ⟨e, inside, rfl⟩) | ⟨g, among, rfl⟩
      · cases nothing
      · exact ⟨rfl, .atHand, by simp [Pool.partOwners, effects inside]⟩
      · exact ⟨rfl, .atHand, by simp [Pool.partOwners, made g among]⟩
    · intro x mem
      simp only [Pool.componentOwners, without, map_nil, flatMap_nil, append_nil,
        nil_append, mem_map] at mem
      obtain ⟨c, inside, rfl⟩ := mem
      exact ⟨rfl, .atHand, by simp [Pool.componentOwners, components inside]⟩
    · rw [without.2.1, nil_append]
      exact fun c inside => separate.plain c (mem_append_left _ (components inside))

end Operand

/-! ### Models -/

namespace Model

lemma in_ofEffects (inside : es ⊆ q.effects) : (model (ofEffects es)).In q :=
  ⟨inside, by simp [groups, ofEffects], by simp [response?, ofEffects]⟩

lemma in_ofTerms (inside : ∀ t ∈ ts, .term t ∈ q.effects) : (model (ofTerms ts)).In q := by
  refine in_ofEffects ?_
  intro e mem
  obtain ⟨t, among, rfl⟩ := mem_map.mp mem
  exact inside t among

lemma in_ofParts {xs : List Part} {response : Option Term} (inside : ∀ x ∈ xs, x.In q)
    (given : ∀ t ∈ response, t ∈ q.responses) :
    (model (ofParts xs response)).In q := by
  refine ⟨?_, ?_, given⟩
  · intro e mem
    obtain ⟨x, among, shape⟩ := mem_filterMap.mp mem
    cases x with
    | effect e' =>
      cases shape
      exact inside _ among
    | group => cases shape
  · intro g mem
    obtain ⟨x, among, shape⟩ := mem_filterMap.mp mem
    cases x with
    | effect => cases shape
    | group g' =>
      cases shape
      exact inside _ among

lemma parts_in (inside : (model m).In q) : ∀ x ∈ m.parts, x.In q := by
  intro x mem
  rcases mem_append.mp mem with common | group
  · obtain ⟨e, among, rfl⟩ := mem_map.mp common
    exact inside.effects among
  · obtain ⟨g, among, rfl⟩ := mem_map.mp group
    exact inside.groups g among

lemma eraseM_subset {α : Type} {test : α → Except Fault Bool} {xs ys : List α}
    (done : eraseM test xs = .ok ys) : ys ⊆ xs := by
  induction xs generalizing ys with
  | nil =>
    simp only [eraseM, Except.ok.injEq] at done
    simp [← done]
  | cons x xs ih =>
    obtain ⟨_, _, done⟩ := bind_eq_ok.mp done
    split at done
    · cases done
      exact subset_cons_self x xs
    · obtain ⟨zs, erased, done⟩ := bind_eq_ok.mp done
      cases done
      exact cons_subset_cons x (ih erased)

/-- What one edit does: it leaves the model, puts a part behind the others, none of which is equal to
it and which is no negated intercept, or takes parts away. -/
lemma edit_cases (done : m.edit kinds e = .ok m') : m' = m ∨
    (∃ d, e = .add (.effect d) ∧ d.isNegated = false ∧
      anyM (Effect.same kinds · d) m.common = .ok false ∧
      m' = { m with common := m.common ++ [d] }) ∨
    (∃ g, e = .add (.group g) ∧ anyM (GroupTerm.same kinds · g) m.group = .ok false ∧
      m' = { m with group := m.group ++ [g] }) ∨
    (∃ d rest, e = .remove (.effect d) ∧ eraseM (Effect.same kinds · d) m.common = .ok rest ∧
      m' = { m with common := rest }) ∨
    ∃ g rest, e = .remove (.group g) ∧ eraseM (GroupTerm.same kinds · g) m.group = .ok rest ∧
      m' = { m with group := rest } := by
  cases e with
  | add x =>
    cases x with
    | group g =>
      obtain ⟨known, search, done⟩ := bind_eq_ok.mp done
      cases known <;> cases done
      · exact .inr (.inr (.inl ⟨g, rfl, search, rfl⟩))
      · exact .inl rfl
    | effect d =>
      cases d with
      | negated => cases done
      | intercept | term =>
        obtain ⟨known, search, done⟩ := bind_eq_ok.mp done
        cases known <;> cases done
        · exact .inr (.inl ⟨_, rfl, rfl, search, rfl⟩)
        · exact .inl rfl
  | remove x =>
    cases x with
    | group g =>
      obtain ⟨rest, erased, done⟩ := bind_eq_ok.mp done
      cases done
      exact .inr (.inr (.inr (.inr ⟨g, rest, rfl, erased, rfl⟩)))
    | effect d =>
      obtain ⟨rest, erased, done⟩ := bind_eq_ok.mp done
      cases done
      exact .inr (.inr (.inr (.inl ⟨d, rest, rfl, erased, rfl⟩)))

/-- What every edit keeps is kept by all of them. -/
lemma foldlM_invariant {α β : Type} {f : β → α → Except Fault β} {I : β → Prop} {xs : List α}
    {b b' : β} (begins : I b) (step : ∀ x ∈ xs, ∀ c c', I c → f c x = .ok c' → I c')
    (done : xs.foldlM f b = .ok b') : I b' := by
  induction xs generalizing b with
  | nil =>
    cases done
    exact begins
  | cons x xs ih =>
    obtain ⟨c, first, done⟩ := bind_eq_ok.mp done
    obtain ⟨here, later⟩ := forall_mem_cons.mp step
    exact ih (here b c begins first) later done

variable {edits : List Edit}

lemma editAll_invariant {I : Model → Prop} (begins : I m)
    (step : ∀ e ∈ edits, ∀ n n', I n → n.edit kinds e = .ok n' → I n')
    (done : m.editAll kinds edits = .ok m') : I m' :=
  foldlM_invariant begins step done

lemma edit_in (inside : (model m).In q) (added : ∀ x, e = .add x → x.In q)
    (done : m.edit kinds e = .ok m') : (model m').In q := by
  obtain rfl | ⟨d, rfl, _, _, rfl⟩ | ⟨g, rfl, _, rfl⟩ | ⟨d, rest, _, erased, rfl⟩ |
    ⟨g, rest, _, erased, rfl⟩ := edit_cases done
  · exact inside
  · refine ⟨append_subset.mpr ⟨inside.effects, ?_⟩, inside.groups, inside.response⟩
    exact cons_subset.mpr ⟨added _ rfl, nil_subset _⟩
  · refine ⟨inside.effects, forall_mem_append.mpr ⟨inside.groups, ?_⟩, inside.response⟩
    exact forall_mem_singleton.mpr (added _ rfl)
  · exact ⟨Subset.trans (eraseM_subset erased) inside.effects, inside.groups, inside.response⟩
  · exact ⟨inside.effects, fun h mem => inside.groups h (eraseM_subset erased mem), inside.response⟩

/-- Edits collect what they add. -/
lemma editAll_in (inside : (model m).In q) (added : ∀ x, .add x ∈ edits → x.In q)
    (done : m.editAll kinds edits = .ok m') : (model m').In q := by
  refine editAll_invariant (I := fun n => (model n).In q) inside ?_ done
  intro e mem n n' inside done
  exact edit_in inside (fun x eq => added x (eq ▸ mem)) done

/-- A model revised by edits. -/
lemma keeps_editAll (inside : (model m).In p) (added : ∀ x, .add x ∈ edits → x.In p) :
    Keeps σ p (do return model (← Fit.withKinds (m.editAll · edits))) fun q o =>
      o.MadeOf q := by
  refine (keeps_withKinds (Q := fun q m' => (model m').In q)
    fun kinds m' done => editAll_in inside added done).bind fun q m' _ inside => ?_
  exact keeps_pure (.collected inside)

end Model

/-!
### Where components come from

Operators only combine the components that a tree gives, so what holds of these holds of all
components of the operand. A response is kept only by operators that edit the model which has it.
-/

open Component

variable {α β : Type} {x : Fit α}

/-- Nothing is known of any slot. -/
def Component.unknown : Kinds := fun _ => none

/-- No component has a kind yet. -/
def Store.Untyped (σ : Store) : Prop := σ.kinds = unknown

namespace Store

lemma untyped_empty : Untyped {} := rfl

lemma Untyped.kind (untyped : σ.Untyped) (s : Nat) : (σ.components[s]?).bind (·.kind) = none :=
  congrFun untyped s

lemma Untyped.pushComponent (untyped : σ.Untyped) (new : st.kind = none) :
    (σ.pushComponent st).Untyped := by
  funext s
  have old := untyped.kind s
  simp only [kinds, Store.pushComponent, Array.getElem?_push]
  split
  · exact new
  · exact old

lemma Untyped.modify (untyped : σ.Untyped) (slot : Nat) (same : ∀ st, (change st).kind = st.kind) :
    Untyped { σ with components := σ.components.modify slot change } := by
  funext s
  have old := untyped.kind s
  simp only [kinds, Array.getElem?_modify]
  split
  · cases found : σ.components[s]? with
    | none => rfl
    | some st =>
      rw [found] at old
      exact (same st).trans old
  · exact old

end Store

/-! ### Computations in an untyped store -/

/-- Begun where no component has a kind, the computation gives none a kind. It stops only with such
faults, and what it returns has the property. -/
def Runs (R : Fault → Prop) (x : Fit α) (Q : α → Prop) : Prop :=
  ∀ σ : Store, σ.Untyped → match outcome x σ with
    | (.ok a, τ) => τ.Untyped ∧ Q a
    | (.error fault, _) => R fault

/-- The computation returns only results with the property. -/
abbrev Returns (x : Fit α) (Q : α → Prop) : Prop := Runs (fun _ => True) x Q

/-- The computation returns, and its result has the property. -/
abbrev Delivers (x : Fit α) (Q : α → Prop) : Prop := Runs (fun _ => False) x Q

section Rules

variable {R : Fault → Prop} {Q Q' : α → Prop} {fault : Fault} {f : Kinds → Except Fault α} {a : α}

lemma Runs.returns (runs : Runs R x Q) (untyped : σ.Untyped) (ends : Ends x σ a τ) :
    τ.Untyped ∧ Q a := by
  have holds := runs σ untyped
  rwa [show outcome x σ = (.ok a, τ) from ends] at holds

lemma Runs.of_error (runs : Runs R x Q) (untyped : σ.Untyped)
    (failed : (outcome x σ).1 = .error fault) : R fault := by
  have holds := runs σ untyped
  rcases result : outcome x σ with ⟨_ | a, τ⟩ <;> rw [result] at holds failed <;> cases failed
  exact holds

lemma Runs.ends (runs : Delivers x Q) (untyped : σ.Untyped) :
    ∃ a τ, Ends x σ a τ ∧ τ.Untyped ∧ Q a := by
  have holds := runs σ untyped
  rcases result : outcome x σ with ⟨_ | a, τ⟩ <;> rw [result] at holds
  · exact holds.elim
  · exact ⟨a, τ, result, holds⟩

/-- A computation that never returns and knows only one fault. -/
lemma Runs.stops (runs : Runs (Eq fault) x fun _ => False) (untyped : σ.Untyped) :
    (outcome x σ).1 = .error fault := by
  have holds := runs σ untyped
  rcases result : outcome x σ with ⟨_ | a, τ⟩ <;> rw [result] at holds
  · rw [show fault = _ from holds]
  · exact holds.2.elim

lemma runs_pure (holds : Q a) : Runs R (pure a) Q := fun _ untyped => ⟨untyped, holds⟩

lemma runs_throw (holds : R fault) : Runs R (throw fault : Fit α) Q := fun _ _ => holds

lemma runs_lift {x : Except Fault α} (holds : ∀ a, x = .ok a → Q a)
    (each : ∀ fault, x = .error fault → R fault) : Runs R (liftM x : Fit α) Q := by
  intro σ untyped
  cases x with
  | ok a => exact ⟨untyped, holds a rfl⟩
  | error fault => exact each fault rfl

lemma runs_withKinds (holds : ∀ a, f unknown = .ok a → Q a)
    (each : ∀ fault, f unknown = .error fault → R fault) :
    Runs R (Fit.withKinds f) Q := by
  intro σ untyped
  have runs : outcome (Fit.withKinds f) σ = (f σ.kinds, σ) := rfl
  rw [runs, untyped]
  cases result : f unknown with
  | ok a => exact ⟨untyped, holds a result⟩
  | error fault => exact each fault result

lemma runs_lift_ok {x : Except Fault α} (value : x = .ok a) (holds : Q a) :
    Runs R (liftM x : Fit α) Q := by
  rw [value]
  exact runs_pure holds

lemma runs_withKinds_ok (value : f unknown = .ok a) (holds : Q a) : Runs R (Fit.withKinds f) Q :=
  runs_withKinds (fun _ found => by cases value.symm.trans found; exact holds)
    fun _ failed => by cases value.symm.trans failed

lemma Runs.bind {f : α → Fit β} {Q' : β → Prop} (first : Runs R x Q)
    (second : ∀ a, Q a → Runs R (f a) Q') : Runs R (x >>= f) Q' := by
  intro σ untyped
  have own := first σ untyped
  rw [outcome_bind]
  generalize outcome x σ = result at own ⊢
  rcases result with ⟨_ | a, ρ⟩
  · exact own
  · exact second a own.2 ρ own.1

lemma Runs.imp (runs : Runs R x Q) (weaker : ∀ a, Q a → Q' a) : Runs R x Q' := by
  intro σ untyped
  have own := runs σ untyped
  generalize outcome x σ = result at own ⊢
  rcases result with ⟨_ | a, ρ⟩
  · exact own
  · exact ⟨own.1, weaker a own.2⟩

lemma Runs.and (first : Runs R x Q) (second : Runs R x Q') : Runs R x fun a => Q a ∧ Q' a := by
  intro σ untyped
  have left := first σ untyped
  have right := second σ untyped
  generalize outcome x σ = result at left right ⊢
  rcases result with ⟨_ | a, ρ⟩
  · exact left
  · exact ⟨left.1, left.2, right.2⟩

lemma runs_mapM {xs : List β} {f : β → Fit α} {S : β → α → Prop}
    (each : ∀ x ∈ xs, Runs R (f x) (S x)) : Runs R (xs.mapM f) (List.Forall₂ S xs) := by
  induction xs with
  | nil => exact runs_pure .nil
  | cons x xs ih =>
    obtain ⟨first, others⟩ := forall_mem_cons.mp each
    rw [mapM_cons]
    exact first.bind fun y own => (ih others).bind fun ys rest => runs_pure (.cons own rest)

lemma runs_warn (message : String) : Runs R (Fit.warn message) fun _ => True :=
  fun _ untyped => ⟨untyped, trivial⟩

lemma runs_newSlot : Runs R Fit.newSlot fun _ => True := fun _ untyped => ⟨untyped, trivial⟩

lemma runs_newComponent (atom : Atom) : Runs R (Fit.newComponent atom) fun c => c.atom = atom :=
  fun _ untyped => ⟨untyped.pushComponent rfl, rfl⟩

/-- A copy takes all the state of the original, which has no kind. -/
lemma runs_copyComponent (c : Component) :
    Runs R (Fit.copyComponent c) fun d => d.atom = c.atom := by
  refine fun σ untyped => ⟨untyped.pushComponent ?_, rfl⟩
  have old := untyped.kind c.slot
  cases found : σ.components[c.slot]? with
  | none => rfl
  | some st =>
    rw [found] at old
    exact old

lemma runs_copyAll (cs : List Component) :
    Runs R (cs.mapM Fit.copyComponent) fun ds => ds.map (·.atom) = cs.map (·.atom) := by
  apply (runs_mapM fun c _ => runs_copyComponent c).imp
  intro ds copied
  induction copied with
  | nil => rfl
  | cons first _ ih => simp [first, ih]

end Rules

namespace Expr

open Operand

lemma ofExpr_of_operator (operator : operator? t.kind = some op) :
    ofExpr (.binary l t r) = (ofExpr l >>= fun a => ofExpr r >>= operate op a) := by
  have other : t.kind ≠ .tilde := by
    intro tilde
    rw [tilde] at operator
    cases operator
  rw [ofExpr, if_neg other, operator]

/-- Two operands and an operator between them. -/
lemma runs_operation (isSign : sign.kind = kind) (operator : operator? kind = some op)
    (left : Runs R (ofExpr l) P) (right : Runs R (ofExpr r) Q)
    (step : ∀ a b, P a → Q b → Runs R (operate op a b) S) :
    Runs R (ofExpr (.binary l sign r)) S := by
  rw [← isSign] at operator
  rw [ofExpr_of_operator operator]
  apply left.bind
  intro a own
  apply right.bind
  intro b other
  exact step a b own other

end Expr

/-! ### Parts made of components with a property -/

def Part.All (P : Atom → Prop) : Part → Prop
  | .effect e => e.All P
  | .group g => g.All P

structure Model.All (P : Atom → Prop) (m : Model) : Prop where
  common : ∀ e ∈ m.common, e.All P
  group : ∀ g ∈ m.group, g.All P

/-- A part or a model, all of whose components have the property. -/
def Operand.All (P : Atom → Prop) : Operand → Prop
  | .part x => x.All P
  | .model m => m.All P
  | .response _ | .foreign _ => False

/-- Such an operand without a response. -/
structure Operand.Free (P : Atom → Prop) (o : Operand) : Prop where
  all : o.All P
  none : o.response? = .none

variable {P : Atom → Prop}

lemma Effect.all_intercept (slot : Nat) : (Effect.intercept slot).All P := by
  simp [Effect.All, Effect.held]

lemma Effect.all_negated : Effect.negated.All P := by simp [Effect.All, Effect.held]

lemma runs_newIntercept : Runs R Fit.newIntercept fun e => e.All P ∧ e.isIntercept :=
  runs_newSlot.bind fun s _ => runs_pure ⟨Effect.all_intercept s, rfl⟩

namespace Model

lemma all_ofParts {xs : List Part} {response : Option Term} (all : ∀ x ∈ xs, x.All P) :
    (ofParts xs response).All P := by
  constructor
  · intro e mem
    obtain ⟨x, among, shape⟩ := mem_filterMap.mp mem
    cases x <;> cases shape
    exact all _ among
  · intro g mem
    obtain ⟨x, among, shape⟩ := mem_filterMap.mp mem
    cases x <;> cases shape
    exact all _ among

lemma All.parts (all : m.All P) : ∀ x ∈ m.parts, x.All P := by
  intro x mem
  rcases mem_append.mp mem with common | group
  · obtain ⟨e, among, rfl⟩ := mem_map.mp common
    exact all.common e among
  · obtain ⟨g, among, rfl⟩ := mem_map.mp group
    exact all.group g among

lemma edit_all (all : m.All P) (added : ∀ x, e = .add x → x.All P)
    (done : m.edit kinds e = .ok m') : m'.All P := by
  obtain rfl | ⟨d, rfl, _, _, rfl⟩ | ⟨g, rfl, _, rfl⟩ | ⟨d, rest, _, erased, rfl⟩ |
    ⟨g, rest, _, erased, rfl⟩ := edit_cases done
  · exact all
  · refine ⟨forall_mem_append.mpr ⟨all.common, ?_⟩, all.group⟩
    exact forall_mem_singleton.mpr (added _ rfl)
  · refine ⟨all.common, forall_mem_append.mpr ⟨all.group, ?_⟩⟩
    exact forall_mem_singleton.mpr (added _ rfl)
  · exact ⟨fun e mem => all.common e (eraseM_subset erased mem), all.group⟩
  · exact ⟨all.common, fun h mem => all.group h (eraseM_subset erased mem)⟩

lemma editAll_all {edits : List Edit} (all : m.All P)
    (added : ∀ x, .add x ∈ edits → x.All P) (done : m.editAll kinds edits = .ok m') : m'.All P := by
  refine editAll_invariant all ?_ done
  intro e mem n n' all done
  exact edit_all all (fun x eq => added x (eq ▸ mem)) done

lemma editAll_response {edits : List Edit}
    (done : m.editAll kinds edits = .ok m') : m'.response = m.response := by
  refine editAll_invariant (I := fun n => n.response = m.response) rfl ?_ done
  intro e _ n n' same done
  obtain rfl | ⟨_, _, _, _, rfl⟩ | ⟨_, _, _, rfl⟩ | ⟨_, _, _, _, rfl⟩ | ⟨_, _, _, _, rfl⟩ :=
    edit_cases done <;> exact same

/-- The part that an edit adds or removes. -/
def Edit.part : Edit → Part
  | .add x | .remove x => x

end Model

end ModelFormula
