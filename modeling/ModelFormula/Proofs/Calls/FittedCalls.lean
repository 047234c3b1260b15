import ModelFormula.Proofs.Calls.FittedTransforms

/-!
# Call expressions that were evaluated once

After a first evaluation that succeeds the memories are settled: no evaluation changes them any
more, whatever the data are, and the first one gives the same value when it is made again.
-/
namespace ModelFormula.CallExpr

open List

variable {source : DataSource} {names : Names} {path q : List Nat} {e : CallExpr} {f : String}
  {args es : List CallExpr} {named : List (String × CallExpr)} {s : Stateful} {m m' n : Memories}
  {memory : Transform.Memory} {v : Value} {vs vs' : List Value} {i j : Nat}

/-! ### Trees without data -/

/-- A literal, a name that always means the same, or an operation on such. -/
inductive Constant : CallExpr → Prop
  | value (literal : Literal) (lexeme : Option String) : Constant (.value literal lexeme)
  | name {s : String} {d : Datum} (means : constant? s = some d) : Constant (.name s)
  | unary {sign : Sign} {e : CallExpr} (operand : Constant e) : Constant (.unary sign e)
  | binary {op : Operator} {l r : CallExpr} (left : Constant l) (right : Constant r) :
    Constant (.binary op l r)

/-- Neither the data nor the memories matter for a constant. -/
lemma Constant.exists_outcome (constant : Constant e) :
    ∃ r, ∀ source names path m, outcome (eval source names path e) m = (r, m) := by
  induction constant with
  | value literal lexeme => exact ⟨_, fun _ _ _ _ => by rw [eval, outcome_pure]⟩
  | @name s d means =>
    refine ⟨.ok (.datum d), fun source names path m => ?_⟩
    have resolved : resolveName source names s = .ok (.datum d) := by
      simp only [resolveName, means]
      rfl
    rw [eval, resolved]
    rfl
  | @unary sign e operand ih =>
    obtain ⟨r, value⟩ := ih
    cases r with
    | error fault =>
      exact ⟨.error fault, fun source names path m => by rw [eval, outcome_bind, value]⟩
    | ok x =>
      exact ⟨x.unary sign, fun source names path m => by rw [eval, outcome_bind, value]; rfl⟩
  | @binary op l r left right ih ih' =>
    obtain ⟨a, value⟩ := ih
    obtain ⟨b, value'⟩ := ih'
    cases a with
    | error fault =>
      exact ⟨.error fault, fun source names path m => by rw [eval, outcome_bind, value]⟩
    | ok x =>
      cases b with
      | error fault =>
        refine ⟨.error fault, fun source names path m => ?_⟩
        rw [eval, outcome_bind, value]
        simp only [outcome_bind, value']
      | ok y =>
        refine ⟨x.binary op y, fun source names path m => ?_⟩
        rw [eval, outcome_bind, value]
        simp only [outcome_bind, value']
        rfl

/-! ### Calls in steps -/

/-- The transform that a callee is. -/
def transform? (names : Names) (callee : String) : Option Stateful :=
  match resolveCallee names callee with
  | .ok (.function (.stateful s)) => some s
  | _ => none

lemma transform?_eq_some : transform? names callee = some s ↔
      resolveCallee names callee = .ok (.function (.stateful s)) := by
  unfold transform?
  split
  next found => simp [found]
  next other =>
    simp only [reduceCtorEq, false_iff]
    exact other s

lemma memoryFor_known (known : m.get? path = some memory) (callee : Value) :
    outcome (memoryFor path callee) m = (.ok (some memory), m) := by
  simp only [memoryFor, outcome_bind, outcome_get, known]
  rfl

lemma memoryFor_first (new : m.get? path = none) (s : Stateful) :
    outcome (memoryFor path (.function (.stateful s))) m =
      (.ok (some (.initial s)), m.set path (.initial s)) := by
  simp only [memoryFor, outcome_bind, outcome_get, new]
  rfl

lemma memoryFor_plain (new : m.get? path = none) (plain : ∀ s, callee ≠ .function (.stateful s)) :
    outcome (memoryFor path callee) m = (.ok none, m) := by
  simp only [memoryFor, outcome_bind, outcome_get, new]
  rfl

lemma outcome_callTransform (path : List Nat) (memory : Transform.Memory) (args : List Value)
    (named : List (String × Value)) (m : Memories) :
    outcome (callTransform path memory args named) m =
      ((outcome (Transform.call memory.transform args named) memory).1,
        m.set path (outcome (Transform.call memory.transform args named) memory).2) := rfl

lemma ends_callTransform : Ends (callTransform path memory vs ws) m v m' ↔ ∃ memory',
      Ends (Transform.call memory.transform vs ws) memory v memory' ∧ m.set path memory' = m' := by
  rw [Ends, outcome_callTransform]
  cases done : outcome (Transform.call memory.transform vs ws) memory
  simp [Ends, done]

lemma ends_eval_call : Ends (eval source names path (call f args named)) m v m' ↔
      ∃ callee memory m₁ vs m₂, resolveCallee names f = .ok callee ∧
        Ends (memoryFor path callee) m memory m₁ ∧
        Ends (evalList source names path 0 (operands args named)) m₁ vs m₂ ∧
        Ends (finish path callee memory (byPlace args vs) (byKeyword args named vs)) m₂ v m' := by
  rw [Ends, outcome_eval_call]
  constructor
  · intro ends
    obtain ⟨callee, resolved, ends⟩ := ends_lift_bind.mp ends
    obtain ⟨memory, m₁, found, ends⟩ := ends_bind.mp ends
    obtain ⟨vs, m₂, list, ends⟩ := ends_bind.mp ends
    exact ⟨callee, memory, m₁, vs, m₂, resolved, found, list, ends⟩
  · rintro ⟨callee, memory, m₁, vs, m₂, resolved, found, list, ends⟩
    apply ends_bind.mpr ⟨callee, m, ends_lift.mpr ⟨resolved, rfl⟩, _⟩
    apply ends_bind.mpr ⟨memory, m₁, found, _⟩
    exact ends_bind.mpr ⟨vs, m₂, list, ends⟩

/-! ### Settled memories -/

section Settling

variable (names : Names)

/-- The memory of a call is there and has all parameters, if the call is one of a transform. What the
arguments say of the parameters is the same on all data. -/
def Fitted (m : Memories) (path : List Nat) (f : String) (args : List CallExpr)
    (named : List (String × CallExpr)) : Prop :=
  match transform? names f with
  | none => m.get? path = none
  | some s => ∃ memory, m.get? path = some memory ∧ memory.transform = s ∧ memory.Complete ∧
    ∀ source n vs n' xs, Ends (evalList source names path 0 (operands args named)) n vs n' →
      Transform.arguments (Transform.parameters s) (byPlace args vs) (byKeyword args named vs) =
        .ok xs → memory.Given xs

/-- All calls of transforms in a tree have memories with all parameters. -/
inductive Settled (m : Memories) : List Nat → CallExpr → Prop
  | unary {path : List Nat} {sign : Sign} {e : CallExpr} (operand : Settled m (0 :: path) e) :
    Settled m path (.unary sign e)
  | binary {path : List Nat} {op : Operator} {l r : CallExpr} (left : Settled m (0 :: path) l)
    (right : Settled m (1 :: path) r) : Settled m path (.binary op l r)
  | name {path : List Nat} {s : String} : Settled m path (.name s)
  | value {path : List Nat} {literal : Literal} {lexeme : Option String} :
    Settled m path (.value literal lexeme)
  | call {path : List Nat} {f : String} {args : List CallExpr} {named : List (String × CallExpr)}
    (fitted : Fitted names m path f args named)
    (each : ∀ i e, (operands args named)[i]? = some e → Settled m (i :: path) e) :
    Settled m path (.call f args named)

end Settling

lemma frozen_bind {α β : Type} {x : Eval α} {f : α → Eval β} (first : (outcome x m).2 = m)
    (second : ∀ a, Ends x m a m → (outcome (f a) m).2 = m) : (outcome (x >>= f) m).2 = m := by
  apply invariant_bind (I := (· = m)) first
  rintro a _ done rfl
  exact second a done

lemma frozen_evalList
    (each : ∀ j e, es[j]? = some e → (outcome (eval source names (j :: path) e) m).2 = m) :
    (outcome (evalList source names path 0 es) m).2 = m ∧
      ∀ vs m', Ends (evalList source names path 0 es) m vs m' → ∀ (j : Nat) e v, es[j]? = some e →
        vs[j]? = some v → ∃ n, Ends (eval source names (j :: path) e) m v n := by
  have keeps (j : Nat) (e : CallExpr) (n : Memories) (here : es[j]? = some e) (same : n = m) :
      (outcome (eval source names ((0 + j) :: path) e) n).2 = m := by
    rw [same, Nat.zero_add]
    exact each j e here
  obtain ⟨frozen, values⟩ := evalList_invariant (I := (· = m)) keeps rfl
  refine ⟨frozen, fun vs m' ends j e v here there => ?_⟩
  obtain ⟨_, n, rfl, ran⟩ := values vs m' ends j e v here there
  exact ⟨n, by rwa [Nat.zero_add] at ran⟩

lemma Fitted.memoryFor (fitted : Fitted names m path f args named)
    (resolved : resolveCallee names f = .ok callee) :
    outcome (memoryFor path callee) m = (.ok (m.get? path), m) := by
  unfold Fitted at fitted
  cases found : transform? names f with
  | none =>
    rw [found] at fitted
    rw [fitted]
    apply memoryFor_plain fitted
    rintro s rfl
    rw [transform?_eq_some.mpr resolved] at found
    cases found
  | some s =>
    rw [found] at fitted
    obtain ⟨memory, known, _⟩ := fitted
    rw [known]
    exact memoryFor_known known callee

/-- The last step of a call whose memory has all parameters changes nothing. -/
lemma Fitted.frozen_finish (fitted : Fitted names m path f args named) (distinct : m.Distinct)
    (callee : Value) (list : Ends (evalList source names path 0 (operands args named)) n vs n') :
    (outcome (finish path callee (m.get? path) (byPlace args vs) (byKeyword args named vs)) m).2 =
      m := by
  unfold Fitted at fitted
  cases found : transform? names f with
  | none =>
    rw [found] at fitted
    rw [fitted]
    rfl
  | some s =>
    rw [found] at fitted
    obtain ⟨memory, known, rfl, complete, given⟩ := fitted
    have keeps : (outcome (Transform.call memory.transform (byPlace args vs)
        (byKeyword args named vs)) memory).2 = memory := by
      rw [Transform.outcome_call]
      cases arguments : Transform.arguments (Transform.parameters memory.transform)
          (byPlace args vs) (byKeyword args named vs) with
      | error fault => rfl
      | ok xs => exact Transform.perform_keeps complete (given source n vs n' xs list arguments)
    rw [known, finish, outcome_callTransform, keeps]
    exact Memories.set_self distinct known

lemma frozen_eval (distinct : m.Distinct) (settled : Settled names m path e) :
    (outcome (eval source names path e) m).2 = m := by
  induction settled with
  | unary _ ih =>
    rw [eval]
    exact frozen_bind ih fun _ _ => rfl
  | binary _ _ left right =>
    rw [eval]
    exact frozen_bind left fun _ _ => frozen_bind right fun _ _ => rfl
  | name | value =>
    rw [eval]
    rfl
  | call fitted _ ih =>
    rw [outcome_eval_call]
    apply frozen_bind rfl
    intro callee resolved
    have known := fitted.memoryFor (ends_lift.mp resolved).1
    apply frozen_bind (by rw [known])
    intro memory ends
    obtain ⟨rfl, _⟩ := Ends.unique known ends
    apply frozen_bind (frozen_evalList ih).1
    exact fun vs list => fitted.frozen_finish distinct callee list

/-- The first step of a computation, where it changes no memory. -/
lemma bind_of_frozen {α β : Type} {x : Eval α} {g : α → Eval β} {b : β}
    (frozen : (outcome x m).2 = m) (ends : Ends (x >>= g) m b n) :
    ∃ a, Ends x m a m ∧ Ends (g a) m b n := by
  obtain ⟨a, o, first, second⟩ := ends_bind.mp ends
  obtain rfl : o = m := by rw [← frozen, show outcome x m = (.ok a, o) from first]
  exact ⟨a, first, second⟩

lemma Settled.fitted (settled : Settled names m path (.call f args named)) :
    Fitted names m path f args named := by
  cases settled with
  | call fitted _ => exact fitted

lemma Settled.each (settled : Settled names m path (.call f args named)) :
    ∀ i e, (operands args named)[i]? = some e → Settled names m (i :: path) e := by
  cases settled with
  | call _ each => exact each

section

variable (distinct : m.Distinct) (settled : Settled names m path (call f args named))
include distinct settled

lemma settled_call (ends : Ends (eval source names path (call f args named)) m v n) :
    ∃ callee vs, resolveCallee names f = .ok callee ∧
      Ends (evalList source names path 0 (operands args named)) m vs m ∧
      Ends (finish path callee (m.get? path) (byPlace args vs) (byKeyword args named vs)) m v n := by
  obtain ⟨callee, memory, m₁, vs, m₂, resolved, created, list, last⟩ := ends_eval_call.mp ends
  obtain ⟨rfl, rfl⟩ := Ends.unique (settled.fitted.memoryFor resolved) created
  have frozen (j : Nat) (e : CallExpr) (here : (operands args named)[j]? = some e) :
      (outcome (eval source names (j :: path) e) m).2 = m :=
    frozen_eval distinct (settled.each j e here)
  obtain rfl : m₂ = m := by
    rw [← (frozen_evalList frozen).1, show outcome _ m = (.ok vs, m₂) from list]
  exact ⟨callee, vs, resolved, list, last⟩

/-- A call of what is no transform. -/
lemma settled_call_plain (plain : transform? names f = none)
    (ends : Ends (eval source names path (call f args named)) m v n) :
    ∃ callee vs, resolveCallee names f = .ok callee ∧
      Ends (evalList source names path 0 (operands args named)) m vs m ∧
      callPlain callee (byPlace args vs) (byKeyword args named vs) = .ok v := by
  obtain ⟨callee, vs, resolved, list, last⟩ := settled_call distinct settled ends
  have absent : m.get? path = none := by
    have fitted := settled.fitted
    unfold Fitted at fitted
    rwa [plain] at fitted
  rw [absent] at last
  exact ⟨callee, vs, resolved, list, (ends_lift.mp last).1⟩

/-- A call of a transform that has all its parameters. -/
lemma settled_call_transform (found : transform? names f = some s)
    (known : m.get? path = some memory)
    (ends : Ends (eval source names path (call f args named)) m v n) :
    memory.transform = s ∧ memory.Complete ∧ ∃ vs xs memory',
      Ends (evalList source names path 0 (operands args named)) m vs m ∧
      Transform.arguments (Transform.parameters s) (byPlace args vs) (byKeyword args named vs) =
        .ok xs ∧ memory.Given xs ∧ Ends (Transform.perform s xs) memory v memory' := by
  obtain ⟨callee, vs, resolved, list, last⟩ := settled_call distinct settled ends
  have fitted := settled.fitted
  unfold Fitted at fitted
  rw [found] at fitted
  obtain ⟨memory', known', rfl, complete, given⟩ := fitted
  obtain rfl : memory = memory' := Option.some.inj (known.symm.trans known')
  rw [known] at last
  obtain ⟨memory', called, _⟩ := ends_callTransform.mp last
  obtain ⟨xs, arguments, performed⟩ := Transform.ends_call.mp called
  refine ⟨rfl, complete, vs, xs, memory', list, arguments, ?_, performed⟩
  exact given source m vs m xs list arguments

end

lemma exists_memory (settled : Settled names m path (call f args named))
    (found : transform? names f = some s) : ∃ memory, m.get? path = some memory := by
  have fitted := settled.fitted
  unfold Fitted at fitted
  rw [found] at fitted
  obtain ⟨memory, known, _⟩ := fitted
  exact ⟨memory, known⟩

/-! ### Two evaluations of the same arguments -/

lemma of_getElem?_byPlace (here : (byPlace args vs)[j]? = some v) :
    j < args.length ∧ vs[j]? = some v := by
  rw [byPlace, getElem?_take] at here
  split at here
  next short => exact ⟨short, here⟩
  next => cases here

lemma of_getElem?_byKeyword (here : (byKeyword args named vs)[j]? = some w) :
    ∃ e, named[j]? = some (w.1, e) ∧ vs[args.length + j]? = some w.2 := by
  rw [byKeyword, getElem?_zip_eq_some, getElem?_map, getElem?_drop] at here
  obtain ⟨q, given, key⟩ := Option.map_eq_some_iff.mp here.1
  exact ⟨q.2, by rw [given, ← key], here.2⟩

/-- The values of two evaluations of the same expressions, related one by one. -/
structure Paired (S : CallExpr → Value → Value → Prop) (es : List CallExpr)
    (vs vs' : List Value) : Prop where
  length : vs.length = es.length
  length' : vs'.length = es.length
  each : ∀ (j : Nat) e v v', es[j]? = some e → vs[j]? = some v → vs'[j]? = some v' → S e v v'

namespace Paired

variable {S : CallExpr → Value → Value → Prop}

lemma forall₂ (paired : Paired S es vs vs') (related : ∀ e ∈ es, ∀ v v', S e v v' → R v v') :
    List.Forall₂ R vs vs' := by
  rw [forall₂_iff_get]
  refine ⟨paired.length.trans paired.length'.symm, fun j short short' => ?_⟩
  have inside : j < es.length := by rw [← paired.length]; exact short
  apply related es[j] (getElem_mem inside)
  exact paired.each j es[j] _ _ (getElem?_eq_getElem inside) (by simp) (by simp)

/-- Among the parameters of a transform. -/
lemma matching (paired : Paired S (operands args named) vs vs')
    (positional : ∀ (j : Nat) e p v v', args[j]? = some e → parameters[j]? = some p → S e v v' →
      R p.1 v v') (keywords : ∀ q ∈ named, ∀ v v', S q.2 v v' → R q.1 v v') :
    Transform.Matching R parameters (byPlace args vs) (byPlace args vs')
      (byKeyword args named vs) (byKeyword args named vs') := by
  have long := paired.length
  have long' := paired.length'
  rw [operands, length_append, length_map] at long long'
  refine ⟨by simp [byPlace, long, long'], ?_, forall₂_iff_get.mpr ⟨?_, ?_⟩⟩
  · intro j p v v' parameter here here'
    obtain ⟨short, here⟩ := of_getElem?_byPlace here
    obtain ⟨_, here'⟩ := of_getElem?_byPlace here'
    have place : args[j]? = some args[j] := getElem?_eq_getElem short
    apply positional j args[j] p v v' place parameter
    exact paired.each j _ v v' ((getElem?_append_left short).trans place) here here'
  · simp [byKeyword, long, long']
  · intro j short short'
    obtain ⟨e, given, here⟩ := of_getElem?_byKeyword (getElem?_eq_getElem short)
    obtain ⟨e', given', here'⟩ := of_getElem?_byKeyword (getElem?_eq_getElem short')
    obtain ⟨name, rfl⟩ := Prod.mk.inj (Option.some.inj (given.symm.trans given'))
    refine ⟨name, keywords _ (mem_of_getElem? given) _ _ (paired.each _ _ _ _ ?_ here here')⟩
    rw [operands, getElem?_append_right (by omega), Nat.add_sub_cancel_left, getElem?_map, given]
    rfl

end Paired

/-- All arguments but the column are constants. -/
def Constants (args : List CallExpr) (named : List (String × CallExpr)) : Prop :=
  (∀ e ∈ args.drop 1, Constant e) ∧ ∀ p ∈ named, p.1 ≠ "x" → Constant p.2

lemma paired_constants (list : Ends (evalList source names path 0 es) m vs m')
    (list' : Ends (evalList source' names path' 0 es) n vs' n') :
    Paired (fun e v v' => Constant e → v = v') es vs vs' := by
  refine ⟨length_of_evalList list, length_of_evalList list',
    fun j e v v' place here here' constant => ?_⟩
  obtain ⟨r, value⟩ := constant.exists_outcome
  obtain ⟨_, _, _, ran⟩ := (evalList_invariant (I := fun _ => True) (fun _ _ _ _ _ => trivial)
    trivial).2 vs m' list j e v place here
  obtain ⟨_, _, _, ran'⟩ := (evalList_invariant (I := fun _ => True) (fun _ _ _ _ _ => trivial)
    trivial).2 vs' n' list' j e v' place here'
  rw [Ends, value, Prod.mk.injEq] at ran ran'
  exact Except.ok.inj (ran.1.symm.trans ran'.1)

/-- Arguments that are constants, the column apart, are the same on all data. -/
lemma Constants.matching (constants : Constants args named)
    (paired : Paired (fun e v v' => Constant e → v = v') (operands args named) vs vs')
    (s : Stateful) :
    Transform.Matching (fun name v v' => name ≠ "x" → v = v') (Transform.parameters s)
      (byPlace args vs) (byPlace args vs') (byKeyword args named vs)
      (byKeyword args named vs') := by
  refine paired.matching (fun j e p v v' place parameter same column => ?_)
    fun q mem v v' same column => same (constants.2 q mem column)
  cases j with
  | zero =>
    -- The first parameter of every transform is its column.
    cases s <;> cases parameter <;> exact (column rfl).elim
  | succ j =>
    apply same (constants.1 e (mem_of_getElem? (i := j) _))
    rwa [getElem?_drop, Nat.add_comm]

/-- Polynomials whose degree and form are constants are asked for the same ones on all data. -/
lemma given_of_constants (constants : memory.transform = .polynomial → Constants args named)
    (paired : Paired (fun e v v' => Constant e → v = v') (operands args named) vs vs')
    (arguments : Transform.arguments (Transform.parameters memory.transform) (byPlace args vs)
      (byKeyword args named vs) = .ok xs)
    (arguments' : Transform.arguments (Transform.parameters memory.transform) (byPlace args vs')
      (byKeyword args named vs') = .ok xs') (given : memory.Given xs) : memory.Given xs' := by
  cases memory with
  | polynomial degree raw known =>
    have related := ((constants rfl).matching paired .polynomial).arguments
      (fun p _ v _ _ => rfl) arguments arguments'
    have long := (Transform.arguments_ok arguments).length_eq
    have long' := (Transform.arguments_ok arguments').length_eq
    obtain ⟨x, rfl⟩ : ∃ x, xs = [x, degree, raw] := by
      cases xs with
      | nil => cases given
      | cons x xs => exact ⟨x, congrArg _ given⟩
    obtain ⟨x', degree', raw', rfl⟩ : ∃ x' degree' raw', xs' = [x', degree', raw'] :=
      length_eq_three.mp long'.symm
    obtain ⟨_, related⟩ := forall₂_cons.mp related
    obtain ⟨same, related⟩ := forall₂_cons.mp related
    obtain ⟨same', _⟩ := forall₂_cons.mp related
    obtain rfl : degree = degree' := same (by simp)
    obtain rfl : raw = raw' := same' (by simp)
    rfl
  | _ => trivial

/-! ### The first evaluation -/

/-- Polynomials take their degree and their form from constants. -/
inductive Steady (names : Names) : CallExpr → Prop
  | unary {sign : Sign} {e : CallExpr} (operand : Steady names e) : Steady names (.unary sign e)
  | binary {op : Operator} {l r : CallExpr} (left : Steady names l) (right : Steady names r) :
    Steady names (.binary op l r)
  | name {s : String} : Steady names (.name s)
  | value {literal : Literal} {lexeme : Option String} : Steady names (.value literal lexeme)
  | call {f : String} {args : List CallExpr} {named : List (String × CallExpr)}
    (constants : transform? names f = some .polynomial → Constants args named)
    (each : ∀ e ∈ operands args named, Steady names e) : Steady names (.call f args named)

/-! Paths under different arguments are different. -/

lemma not_under_self : ¬ (i :: path) <:+ path := by
  intro under
  have short := under.length_le
  simp at short

lemma index_unique (first : (i :: path) <:+ q) (second : (j :: path) <:+ q) : i = j := by
  have under : (i :: path) <:+ (j :: path) := suffix_of_suffix_length_le first second (by simp)
  have eq := under.eq_of_length (by simp)
  exact (cons.inj eq).1

/-- Nothing is remembered at the given paths. -/
def Fresh (touched : List Nat → Prop) (m : Memories) : Prop := ∀ q, touched q → m.get? q = none

/-- The same is remembered at the given paths. -/
def AgreeAt (touched : List Nat → Prop) (m n : Memories) : Prop :=
  ∀ q, touched q → m.get? q = n.get? q

section Moves

variable {touched other : List Nat → Prop}

lemma Fresh.moved (fresh : Fresh touched m) (changed : Changed other m m')
    (apart : ∀ q, touched q → ¬ other q) : Fresh touched m' :=
  fun q inside => (changed.elsewhere q (apart q inside)).trans (fresh q inside)

lemma AgreeAt.back (agree : AgreeAt touched n m') (changed : Changed other m m')
    (apart : ∀ q, touched q → ¬ other q) : AgreeAt touched n m :=
  fun q inside => (agree q inside).trans (changed.elsewhere q (apart q inside))

end Moves

lemma changed_of_ends (ends : Ends (eval source names path e) m v m') :
    Changed (path <:+ ·) m m' := by
  have changed := @changed_eval source names e path m
  rwa [show outcome (eval source names path e) m = (.ok v, m') from ends] at changed

lemma changed_of_endsList (ends : Ends (evalList source names path i es) m vs m') :
    Changed (Argument path i es.length) m m' := by
  have changed := @changed_evalList source names path es (fun e _ => changed_eval e) i m
  rwa [show outcome (evalList source names path i es) m = (.ok vs, m') from ends] at changed

lemma not_argument_of_under {count : Nat} (bound : i < j) (under : (i :: path) <:+ q) :
    ¬ Argument path j count q := by
  rintro ⟨k, low, _, under'⟩
  have eq := index_unique under under'
  omega

lemma Argument.ne_path {count : Nat} (argument : Argument path i count q) : q ≠ path := by
  rintro rfl
  obtain ⟨k, _, _, under⟩ := argument
  exact not_under_self under

/-- What a first call of a transform leaves behind, the arguments being settled. -/
lemma fitted_of_call (found : transform? names f = some s)
    (steady : s = .polynomial → Constants args named) (distinct : n.Distinct)
    (known : n.get? path = some memory)
    (called : Ends (Transform.call s (byPlace args vs) (byKeyword args named vs)) (.initial s) v
      memory) (list : Ends (evalList source names path 0 (operands args named)) n vs m) :
    Fitted names n path f args named ∧
      Ends (callTransform path memory (byPlace args vs) (byKeyword args named vs)) n v n := by
  obtain ⟨xs, arguments, performed⟩ := Transform.ends_call.mp called
  obtain ⟨rfl, complete, given, again⟩ := Transform.perform_again performed
  constructor
  · unfold Fitted
    rw [found]
    refine ⟨memory, known, rfl, complete, ?_⟩
    intro source' o vs' o' xs' list' arguments'
    exact given_of_constants steady (paired_constants list list') arguments arguments' given
  · apply ends_callTransform.mpr ⟨memory, _, Memories.set_self distinct known⟩
    exact Transform.ends_call.mpr ⟨xs, arguments, again⟩

/-- A first evaluation settles the memories under its path, and gives the same value again. -/
def Refits (source : DataSource) (names : Names) (e : CallExpr) : Prop :=
  ∀ {path : List Nat} {m m' : Memories} {v : Value}, Fresh (path <:+ ·) m →
    Ends (eval source names path e) m v m' →
    ∀ n : Memories, n.Distinct → AgreeAt (path <:+ ·) n m' →
      Settled names n path e ∧ Ends (eval source names path e) n v n

lemma refits_evalList (each : ∀ e ∈ es, Refits source names e)
    (fresh : Fresh (Argument path i es.length) m)
    (ends : Ends (evalList source names path i es) m vs m') (distinct : n.Distinct)
    (agree : AgreeAt (Argument path i es.length) n m') :
    (∀ j e, es[j]? = some e → Settled names n ((i + j) :: path) e) ∧
      Ends (evalList source names path i es) n vs n := by
  induction es generalizing i m m' vs with
  | nil =>
    rw [evalList] at ends ⊢
    exact ⟨fun j e here => (by cases here), ends_pure.mpr ⟨(ends_pure.mp ends).1, rfl⟩⟩
  | cons e es ih =>
    obtain ⟨refits, each⟩ := forall_mem_cons.mp each
    rw [evalList] at ends ⊢
    obtain ⟨v, m₁, first, ends⟩ := ends_bind.mp ends
    obtain ⟨ws, others, rfl⟩ := ends_bind_pure.mp ends
    have head {q : List Nat} (under : (i :: path) <:+ q) : Argument path i (es.length + 1) q :=
      ⟨i, Nat.le_refl i, by omega, under⟩
    have tail {q : List Nat} : Argument path (i + 1) es.length q →
        Argument path i (es.length + 1) q := by
      rintro ⟨j, low, high, under⟩
      exact ⟨j, by omega, by omega, under⟩
    obtain ⟨settled, again⟩ := refits (fun q under => fresh q (head under)) first n distinct
      (AgreeAt.back (fun q under => agree q (head under)) (changed_of_endsList others)
        fun q => not_argument_of_under (by omega))
    obtain ⟨settled', again'⟩ := ih each
      (Fresh.moved (fun q argument => fresh q (tail argument)) (changed_of_ends first)
        fun q argument under => not_argument_of_under (by omega) under argument)
      others (fun q argument => agree q (tail argument))
    refine ⟨fun j a here => ?_, ends_bind.mpr ⟨v, n, again, ?_⟩⟩
    · cases j with
      | zero =>
        cases here
        exact settled
      | succ j =>
        rw [show i + (j + 1) = i + 1 + j by omega]
        exact settled' j a here
    · exact ends_bind.mpr ⟨ws, n, again', ends_pure.mpr ⟨rfl, rfl⟩⟩

lemma refits_call (constants : transform? names f = some .polynomial → Constants args named)
    (each : ∀ e ∈ operands args named, Refits source names e) :
    Refits source names (call f args named) := by
  intro path m m' v fresh ends n distinct agree
  obtain ⟨callee, memory, m₁, vs, m₂, resolved, created, list, last⟩ := ends_eval_call.mp ends
  have new : m.get? path = none := fresh path suffix_rfl
  have changed : Changed (· = path) m m₁ := by
    have changed := changed_memoryFor path callee m
    rwa [show outcome (memoryFor path callee) m = (.ok memory, m₁) from created] at changed
  have changed' : Changed (· = path) m₂ m' := by
    have changed := @changed_finish path callee memory (byPlace args vs) (byKeyword args named vs) m₂
    rwa [show outcome (finish path callee memory _ _) m₂ = (.ok v, m') from last] at changed
  obtain ⟨settled, again⟩ := refits_evalList each
    (Fresh.moved (fun q argument => fresh q argument.under) changed fun q => Argument.ne_path)
    list distinct
    (AgreeAt.back (fun q argument => agree q argument.under) changed' fun q => Argument.ne_path)
  have settled (i : Nat) (e : CallExpr) (here : (operands args named)[i]? = some e) :
      Settled names n (i :: path) e := by
    have found := settled i e here
    rwa [Nat.zero_add] at found
  have here : n.get? path = m'.get? path := agree path suffix_rfl
  have kept : m₂.get? path = m₁.get? path :=
    (changed_of_endsList list).elsewhere path fun argument => argument.ne_path rfl
  cases found : transform? names f with
  | none =>
    have plain (s : Stateful) : callee ≠ .function (.stateful s) := by
      rintro rfl
      rw [transform?_eq_some.mpr resolved] at found
      cases found
    obtain ⟨rfl, rfl⟩ := Ends.unique (memoryFor_plain new plain) created
    obtain ⟨value, rfl⟩ := ends_lift.mp last
    have absent : n.get? path = none := here.trans (kept.trans new)
    have fitted : Fitted names n path f args named := by
      unfold Fitted
      rw [found]
      exact absent
    refine ⟨.call fitted settled, ends_eval_call.mpr ?_⟩
    exact ⟨callee, none, n, vs, n, resolved, memoryFor_plain absent plain, again,
      ends_lift.mpr ⟨value, rfl⟩⟩
  | some s =>
    obtain rfl : Value.function (.stateful s) = callee :=
      Except.ok.inj ((transform?_eq_some.mp found).symm.trans resolved)
    obtain ⟨rfl, rfl⟩ := Ends.unique (memoryFor_first new s) created
    obtain ⟨memory, called, rfl⟩ := ends_callTransform.mp last
    rw [Transform.Memory.transform_initial] at called
    have known : n.get? path = some memory := by rw [here, Memories.get?_set_self]
    obtain ⟨fitted, last⟩ := fitted_of_call found
      (fun polynomial => constants (by rw [found, polynomial])) distinct known called again
    refine ⟨.call fitted settled, ends_eval_call.mpr ?_⟩
    exact ⟨_, some memory, n, vs, n, resolved, memoryFor_known known _, again, last⟩

lemma Steady.refits (steady : Steady names e) : Refits source names e := by
  induction steady with
  | unary _ ih =>
    intro path m m' v fresh ends n distinct agree
    rw [eval] at ends ⊢
    obtain ⟨x, m₁, inner, last⟩ := ends_bind.mp ends
    obtain ⟨value, rfl⟩ := ends_lift.mp last
    obtain ⟨settled, again⟩ := ih
      (fun q under => fresh q ((suffix_cons 0 path).trans under)) inner n distinct
      (fun q under => agree q ((suffix_cons 0 path).trans under))
    exact ⟨.unary settled, ends_bind.mpr ⟨x, n, again, ends_lift.mpr ⟨value, rfl⟩⟩⟩
  | binary _ _ ih ih' =>
    intro path m m' v fresh ends n distinct agree
    rw [eval] at ends ⊢
    obtain ⟨x, m₁, left, ends⟩ := ends_bind.mp ends
    obtain ⟨y, m₂, right, last⟩ := ends_bind.mp ends
    obtain ⟨value, rfl⟩ := ends_lift.mp last
    have apart (i j : Nat) (other : i ≠ j) (q : List Nat) (under : (i :: path) <:+ q) :
        ¬ (j :: path) <:+ q := fun under' => other (index_unique under under')
    have fresh' (i : Nat) : Fresh ((i :: path) <:+ ·) m :=
      fun q under => fresh q ((suffix_cons i path).trans under)
    have agree' (i : Nat) : AgreeAt ((i :: path) <:+ ·) n m₂ :=
      fun q under => agree q ((suffix_cons i path).trans under)
    obtain ⟨settled, again⟩ := ih (fresh' 0) left n distinct
      ((agree' 0).back (changed_of_ends right) (apart 0 1 (by simp)))
    obtain ⟨settled', again'⟩ := ih' ((fresh' 1).moved (changed_of_ends left) (apart 1 0 (by simp)))
      right n distinct (agree' 1)
    refine ⟨.binary settled settled', ends_bind.mpr ⟨x, n, again, ?_⟩⟩
    exact ends_bind.mpr ⟨y, n, again', ends_lift.mpr ⟨value, rfl⟩⟩
  | name =>
    intro path m m' v _ ends n _ _
    rw [eval] at ends ⊢
    exact ⟨.name, ends_mk.mpr ⟨(ends_mk.mp ends).1, rfl⟩⟩
  | value =>
    intro path m m' v _ ends n _ _
    rw [eval] at ends ⊢
    exact ⟨.value, ends_pure.mpr ⟨(ends_pure.mp ends).1, rfl⟩⟩
  | call constants _ ih => exact refits_call constants ih

/-!
### Layers behind a scope

A layer behind all others gives a meaning only to names that had none. An evaluation that returns
has found all names that it asked for, so it never comes to that layer.
-/

variable {wider : Names} {s : String}

/-- What the first names mean, the second ones mean too. -/
def Below (names wider : Names) : Prop := ∀ s v, names s = .ok v → wider s = .ok v

lemma below_extend (scope : Scope Value) (outer : Layer Value) :
    Below scope.get (scope.extend outer).get := by
  intro s v found
  unfold Scope.get at found ⊢
  rw [Scope.get?_extend]
  cases own : scope.get? s with
  | none => simp [own] at found
  | some w => simpa [own] using found

lemma Below.resolveName (below : Below names wider) (found : resolveName source names s = .ok v) :
    resolveName source wider s = .ok v := by
  unfold CallExpr.resolveName at found ⊢
  cases fixed : constant? s with
  | some d => simpa [fixed] using found
  | none =>
    simp only [fixed] at found ⊢
    obtain ⟨given, asked, found⟩ := bind_eq_ok.mp found
    refine bind_eq_ok.mpr ⟨given, asked, ?_⟩
    cases given with
    | some w => exact found
    | none => exact below s v found

/-- The members of a module are its own, so only its first name is looked up. -/
lemma Below.resolveCallee (below : Below names wider) (found : resolveCallee names f = .ok v) :
    resolveCallee wider f = .ok v := by
  unfold CallExpr.resolveCallee at found ⊢
  cases shape : f.splitOn "." with
  | nil => simp [shape] at found
  | cons first members =>
    simp only [shape] at found ⊢
    obtain ⟨w, named, found⟩ := bind_eq_ok.mp found
    exact bind_eq_ok.mpr ⟨w, below first w named, found⟩

lemma ends_evalList (each : ∀ e ∈ es, ∀ path m v m', Ends (eval source names path e) m v m' →
      Ends (eval source wider path e) m v m')
    (ends : Ends (evalList source names path i es) m vs m') :
    Ends (evalList source wider path i es) m vs m' := by
  induction es generalizing i m vs m' with
  | nil => exact ends
  | cons e es ih =>
    rw [evalList] at ends ⊢
    obtain ⟨w, r, first, ends⟩ := ends_bind.mp ends
    obtain ⟨ws, r', others, last⟩ := ends_bind.mp ends
    obtain ⟨own, later⟩ := forall_mem_cons.mp each
    exact ends_bind.mpr ⟨w, r, own _ _ _ _ first, ends_bind.mpr ⟨ws, r', ih later others, last⟩⟩

/-- Where all names that are found mean the same, the tree does, with the same memories. -/
lemma Below.eval (below : Below names wider) (e : CallExpr) (path : List Nat) (m : Memories)
    (v : Value) (m' : Memories) (ends : Ends (eval source names path e) m v m') :
    Ends (eval source wider path e) m v m' := by
  induction e generalizing path m v m' with
  | unary sign e ih =>
    rw [CallExpr.eval] at ends ⊢
    obtain ⟨x, r, operand, last⟩ := ends_bind.mp ends
    exact ends_bind.mpr ⟨x, r, ih _ _ _ _ operand, last⟩
  | binary op l r ihl ihr =>
    rw [CallExpr.eval] at ends ⊢
    obtain ⟨x, n, left, ends⟩ := ends_bind.mp ends
    obtain ⟨y, n', right, last⟩ := ends_bind.mp ends
    exact ends_bind.mpr ⟨x, n, ihl _ _ _ _ left, ends_bind.mpr ⟨y, n', ihr _ _ _ _ right, last⟩⟩
  | name s =>
    rw [CallExpr.eval, ends_mk] at ends ⊢
    exact ⟨below.resolveName ends.1, ends.2⟩
  | value literal lexeme => exact ends
  | call f args named ihArgs ihNamed =>
    obtain ⟨callee, memory, m₁, vs, m₂, resolved, known, list, last⟩ := ends_eval_call.mp ends
    exact ends_eval_call.mpr ⟨callee, memory, m₁, vs, m₂, below.resolveCallee resolved, known,
      ends_evalList (forall_operands ihArgs ihNamed) list, last⟩

/-- An evaluation that returns in a scope returns the same value in the scope with any layer behind
it, and leaves the same memories, whichever it began with. -/
theorem evaluate_extend {e : CallExpr} {scope : Scope Value} (outer : Layer Value)
    (done : e.evaluate source scope.get m = (.ok v, m')) :
    e.evaluate source (scope.extend outer).get m = (.ok v, m') :=
  (below_extend scope outer).eval e [] m v m' done

/-- A transform two modules deep is fitted in the same way where a layer behind binds the name of
the module and that of the column again. -/
theorem evaluate_extend_dotted :
    let e : CallExpr := .call "m.n.f" [.name "x"] []
    let source : DataSource := .frame ⟨2, [(.text "x", ⟨.plain .int, [.int 1, .int 4]⟩)]⟩
    let inner : Value := .module [("f", .function (.stateful .center))]
    let scope : Scope Value := ⟨[⟨1, [("m", .module [("n", inner)])]⟩]⟩
    let outer : Layer Value := ⟨2, [("m", .datum .null), ("x", .datum .null)]⟩
    ∃ v m, e.evaluate source scope.get [] = (.ok v, m) ∧ m.length = 1 ∧
      e.evaluate source (scope.extend outer).get [] = (.ok v, m) := by
  intro e source inner scope outer
  have split : "m.n.f".splitOn "." = ["m", "n", "f"] := by cbv
  have found : resolveCallee scope.get "m.n.f" = .ok (.function (.stateful .center)) := by
    rw [resolveCallee, split]
    rfl
  obtain ⟨v, m, done, size⟩ := exists_ends_store
    (x := eval source scope.get [] e) (s := []) (g := fun _ m => m.length) (v := 1) (by
      simp only [e, eval, evalList, evalNamed, found]
      decide +kernel)
  exact ⟨v, m, done, size, evaluate_extend outer done⟩

end ModelFormula.CallExpr
