import ModelFormula.Proofs.Calls.Equality

/-!
# The memories that an evaluation touches

A call of a transform keeps its memory under the path of the call, and the paths of the arguments
extend the path of the call. So an evaluation changes memories under its own path only, whether it
returns or not.
-/
namespace ModelFormula

open List Transform

variable {α β S : Type} {source : DataSource} {names : CallExpr.Names} {path q : List Nat}
  {m m' n : Memories} {es : List CallExpr}

lemma outcome_lift (x : Except Fault α) (s : S) :
    outcome (liftM x : ExceptT Fault (StateM S) α) s = (x, s) := rfl

lemma outcome_pure (a : α) (s : S) :
    outcome (pure a : ExceptT Fault (StateM S) α) s = (.ok a, s) := rfl

lemma outcome_get (s : S) : outcome (get : ExceptT Fault (StateM S) S) s = (.ok s, s) := rfl

lemma outcome_set (s' s : S) :
    outcome (set s' : ExceptT Fault (StateM S) PUnit) s = (.ok ⟨⟩, s') := rfl

/-! ### Memories by path -/

namespace Memories

lemma get?_set (m : Memories) (path q : List Nat) (memory : Memory) :
    (m.set path memory).get? q = if q = path then some memory else m.get? q := by
  unfold set
  split
  next present =>
    rw [get?, find?_map, Option.map_map]
    by_cases own : q = path
    · obtain ⟨p, found⟩ : ∃ p, m.find? (·.1 == path) = some p := by
        rw [← Option.isSome_iff_exists, find?_isSome]
        simpa using present
      have key : p.1 = path := by simpa using find?_some found
      simp [own, Function.comp_def, found, key]
    · rw [if_neg own, get?]
      cases found : m.find? (·.1 == q) with
      | none => simp [Function.comp_def, found]
      | some p =>
        have key : p.1 = q := by simpa using find?_some found
        simp [Function.comp_def, found, key, own]
  next absent =>
    have none : m.find? (·.1 == path) = none := by
      rw [find?_eq_none]
      exact fun p mem own => absent (any_eq_true.mpr ⟨p, mem, own⟩)
    rw [get?, find?_append]
    by_cases own : q = path
    · simp [own, none]
    · have other : path ≠ q := fun eq => own eq.symm
      simp [own, get?, other]

lemma get?_set_self (m : Memories) (path : List Nat) (memory : Memory) :
    (m.set path memory).get? path = some memory := by
  rw [get?_set, if_pos rfl]

lemma get?_set_of_ne (m : Memories) (other : q ≠ path) (memory : Memory) :
    (m.set path memory).get? q = m.get? q := by
  rw [get?_set, if_neg other]

/-- No path has two memories. -/
def Distinct (m : Memories) : Prop := (m.map Prod.fst).Nodup

lemma Distinct.set (nodup : m.Distinct) (path : List Nat) (memory : Memory) :
    (m.set path memory).Distinct := by
  unfold Memories.set
  split
  · rw [Distinct, map_map]
    exact nodup
  next absent =>
    have none : path ∉ m.map Prod.fst := by simpa using absent
    rw [Distinct, map_append]
    apply nodup.append (nodup_singleton _)
    simpa using none

/-- To remember what is remembered changes nothing. -/
lemma set_self (nodup : m.Distinct) (found : m.get? path = some memory) :
    m.set path memory = m := by
  obtain ⟨p, first, rfl⟩ := Option.map_eq_some_iff.mp found
  have key : p.1 = path := by simpa using find?_some first
  have mem := mem_of_find?_eq_some first
  unfold Memories.set
  rw [if_pos (any_eq_true.mpr ⟨p, mem, by simpa using key⟩)]
  conv_rhs => rw [← map_id m]
  apply map_congr_left
  rintro ⟨q, old⟩ inside
  by_cases own : q = path
  · have same : (q, old) = p := by
      apply inj_on_of_nodup_map nodup inside mem
      rw [key]
      exact own
    simp [← same]
  · simp [own]

end Memories

/-! ### Where an evaluation can change memories -/

/-- Outside of the given paths the memories are the same, and if no path had two memories, none
has. -/
structure Changed (touched : List Nat → Prop) (m m' : Memories) : Prop where
  elsewhere : ∀ q, ¬ touched q → m'.get? q = m.get? q
  distinct : m.Distinct → m'.Distinct

namespace Changed

variable {touched wider : List Nat → Prop}

lemma refl (m : Memories) : Changed touched m m := ⟨fun _ _ => rfl, id⟩

lemma trans (first : Changed touched m m') (second : Changed touched m' n) :
    Changed touched m n :=
  ⟨fun q outside => (second.elsewhere q outside).trans (first.elsewhere q outside),
    fun nodup => second.distinct (first.distinct nodup)⟩

lemma mono (changed : Changed touched m m') (wide : ∀ q, touched q → wider q) :
    Changed wider m m' :=
  ⟨fun q outside => changed.elsewhere q fun inside => outside (wide q inside), changed.distinct⟩

lemma set (memory : Memory) (inside : touched path) : Changed touched m (m.set path memory) := by
  refine ⟨fun q outside => m.get?_set_of_ne ?_ memory, fun nodup => nodup.set path memory⟩
  rintro rfl
  exact outside inside

end Changed

namespace CallExpr

/-- The paths under a number of arguments, from one place on. -/
def Argument (path : List Nat) (first count : Nat) (q : List Nat) : Prop :=
  ∃ i, first ≤ i ∧ i < first + count ∧ (i :: path) <:+ q

lemma Argument.under {q : List Nat} {first count : Nat} (argument : Argument path first count q) :
    path <:+ q := by
  obtain ⟨i, _, _, under⟩ := argument
  exact (suffix_cons i path).trans under

variable {I : Memories → Prop} {x : Eval α}

lemma invariant_bind {f : α → Eval β} (first : I (outcome x m).2)
    (second : ∀ a m', Ends x m a m' → I m' → I (outcome (f a) m').2) :
    I (outcome (x >>= f) m).2 := by
  rw [outcome_bind]
  cases done : outcome x m with
  | mk result m' =>
    rw [done] at first
    cases result with
    | error fault => exact first
    | ok a => exact second a m' done first

lemma changed_bind {f : α → Eval β} (first : Changed touched m (outcome x m).2)
    (second : ∀ a m', Ends x m a m' → Changed touched m' (outcome (f a) m').2) :
    Changed touched m (outcome (x >>= f) m).2 :=
  invariant_bind (I := Changed touched m) first fun a m' done before =>
    before.trans (second a m' done)

lemma changed_memoryFor (path : List Nat) (callee : Value) (m : Memories) :
    Changed (· = path) m (outcome (memoryFor path callee) m).2 := by
  apply changed_bind (Changed.refl m)
  rintro _ _ ⟨⟩
  split
  · exact Changed.refl m
  · split
    · exact Changed.set _ rfl
    · exact Changed.refl m

/-! ### Arguments -/

/-- The arguments of a call in the order in which they are evaluated. -/
def operands (args : List CallExpr) (named : List (String × CallExpr)) : List CallExpr :=
  args ++ named.map Prod.snd

lemma forall_operands {P : CallExpr → Prop} (positional : ∀ e ∈ args, P e)
    (keywords : ∀ p ∈ named, P p.2) : ∀ e ∈ operands args named, P e := by
  intro e mem
  rcases mem_append.mp mem with inside | inside
  · exact positional e inside
  · obtain ⟨p, given, rfl⟩ := mem_map.mp inside
    exact keywords p given

/-- Those of their values that are given by place. -/
def byPlace (args : List CallExpr) (vs : List Value) : List Value := vs.take args.length

/-- Those of their values that are given by keyword. -/
def byKeyword (args : List CallExpr) (named : List (String × CallExpr)) (vs : List Value) :
    List (String × Value) :=
  (named.map Prod.fst).zip (vs.drop args.length)

/-- The last step of a call. -/
def finish (path : List Nat) (callee : Value) (memory : Option Memory)
    (args : List Value) (named : List (String × Value)) : Eval Value :=
  match memory with
  | some memory => callTransform path memory args named
  | none => callPlain callee args named

lemma evalNamed_eq (i : Nat) (es : List (String × CallExpr)) : evalNamed source names path i es =
      (do return (es.map Prod.fst).zip (← evalList source names path i (es.map Prod.snd))) := by
  induction es generalizing i with
  | nil => simp [evalNamed, evalList]
  | cons e es ih => simp [evalNamed, evalList, ih]

lemma evalList_append (i : Nat) (es ds : List CallExpr) :
    evalList source names path i (es ++ ds) = (do
      let vs ← evalList source names path i es
      return vs ++ (← evalList source names path (i + es.length) ds)) := by
  induction es generalizing i with
  | nil => simp [evalList]
  | cons e es ih => simp [evalList, ih, Nat.add_assoc, Nat.add_comm 1]

lemma length_of_evalList (ends : Ends (evalList source names path i es) m vs m') :
    vs.length = es.length := by
  induction es generalizing i m m' vs with
  | nil =>
    rw [evalList, ends_pure] at ends
    simp [← ends.1]
  | cons e es ih =>
    rw [evalList] at ends
    obtain ⟨v, _, _, ends⟩ := ends_bind.mp ends
    obtain ⟨ws, _, others, ends⟩ := ends_bind.mp ends
    rw [← (ends_pure.mp ends).1, length_cons, ih others, length_cons]

/-- A call evaluates all of its arguments as one list. -/
lemma outcome_eval_call (f : String) (args : List CallExpr) (named : List (String × CallExpr))
    (m : Memories) :
    outcome (eval source names path (call f args named)) m = outcome (do
      let callee ← (resolveCallee names f : Eval Value)
      let memory ← memoryFor path callee
      let vs ← evalList source names path 0 (operands args named)
      finish path callee memory (byPlace args vs) (byKeyword args named vs)) m := by
  rw [eval]
  apply outcome_bind_congr
  intro callee m₁ _
  apply outcome_bind_congr
  intro memory m₂ _
  rw [operands, evalList_append, bind_assoc]
  apply outcome_bind_congr
  intro vs m₃ positional
  have length := length_of_evalList positional
  simp only [evalNamed_eq, bind_assoc, pure_bind, Nat.zero_add, byPlace, byKeyword, ← length,
    take_left, drop_left]
  cases memory <;> rfl

/-- What every argument keeps of the memories, all of them keep, and each finds it kept when it gets
its value. -/
lemma evalList_invariant
    (each : ∀ j e n, es[j]? = some e → I n → I (outcome (eval source names ((i + j) :: path) e) n).2)
    (begins : I m) :
    I (outcome (evalList source names path i es) m).2 ∧
      ∀ vs m', Ends (evalList source names path i es) m vs m' → ∀ (j : Nat) e v, es[j]? = some e →
        vs[j]? = some v → ∃ n n', I n ∧ Ends (eval source names ((i + j) :: path) e) n v n' := by
  induction es generalizing i m with
  | nil =>
    rw [evalList]
    exact ⟨begins, fun vs m' _ j e v here => by cases here⟩
  | cons e es ih =>
    have shift (j : Nat) : i + (j + 1) = i + 1 + j := by omega
    have later (j : Nat) (a : CallExpr) (n : Memories) (here : es[j]? = some a) (holds : I n) :
        I (outcome (eval source names ((i + 1 + j) :: path) a) n).2 := by
      rw [← shift]
      exact each (j + 1) a n here holds
    have first := each 0 e m rfl begins
    rw [evalList]
    constructor
    · exact invariant_bind first fun _ _ _ holds =>
        invariant_bind (ih later holds).1 fun _ _ _ kept => kept
    · intro vs m' ends j a v here there
      obtain ⟨w, m₁, began, ends⟩ := ends_bind.mp ends
      obtain ⟨ws, others, rfl⟩ := ends_bind_pure.mp ends
      cases j with
      | zero =>
        cases here
        cases there
        exact ⟨m, m₁, begins, began⟩
      | succ j =>
        rw [Nat.add_zero, show outcome _ m = (.ok w, m₁) from began] at first
        rw [shift]
        exact (ih later first).2 ws _ others j a v here there

/-! ### Where a call can change memories -/

lemma changed_finish (callee : Value) (memory : Option Memory) (args : List Value)
    (named : List (String × Value)) (m : Memories) :
    Changed (· = path) m (outcome (finish path callee memory args named) m).2 := by
  cases memory with
  | none => exact Changed.refl m
  | some memory => exact Changed.set _ rfl

lemma changed_evalList
    (each : ∀ e ∈ es, ∀ path m, Changed (path <:+ ·) m (outcome (eval source names path e) m).2)
    (i : Nat) (m : Memories) :
    Changed (Argument path i es.length) m (outcome (evalList source names path i es) m).2 := by
  refine (evalList_invariant (I := Changed _ m) ?_ (Changed.refl m)).1
  intro j e n here before
  apply before.trans ((each e (List.mem_of_getElem? here) _ n).mono _)
  have short := (List.getElem?_eq_some_iff.mp here).1
  exact fun q under => ⟨i + j, by omega, by omega, under⟩

lemma changed_eval (e : CallExpr) (path : List Nat) (m : Memories) :
    Changed (path <:+ ·) m (outcome (eval source names path e) m).2 := by
  induction e generalizing path m with
  | unary sign e ih =>
    rw [eval]
    apply changed_bind ((ih (0 :: path) m).mono fun q => (suffix_cons 0 path).trans)
    exact fun x m' _ => Changed.refl m'
  | binary op l r left right =>
    rw [eval]
    apply changed_bind ((left (0 :: path) m).mono fun q => (suffix_cons 0 path).trans)
    intro x m' _
    apply changed_bind ((right (1 :: path) m').mono fun q => (suffix_cons 1 path).trans)
    exact fun y n _ => Changed.refl n
  | name s | value v lexeme =>
    rw [eval]
    exact Changed.refl m
  | call f args named ih ih' =>
    have each : ∀ e ∈ operands args named, ∀ path m,
        Changed (path <:+ ·) m (outcome (eval source names path e) m).2 :=
      forall_operands ih ih'
    rw [outcome_eval_call]
    apply changed_bind (Changed.refl m)
    rintro callee m₁ -
    apply changed_bind ((changed_memoryFor path callee m₁).mono fun q own => own ▸ suffix_rfl)
    intro memory m₂ _
    apply changed_bind ((changed_evalList each 0 m₂).mono fun q => Argument.under)
    intro vs m₃ _
    exact (changed_finish callee memory _ _ m₃).mono fun q own => own ▸ suffix_rfl

end CallExpr

end ModelFormula
