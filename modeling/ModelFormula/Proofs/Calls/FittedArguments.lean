import ModelFormula.Proofs.Calls.RowwiseCalls

/-!
# Offsets and proportions on new data

On new data the argument of a constant offset and the trials of a proportion are not evaluated but
read off the call. So they must be given by place, a constant as a literal and other trials as the
name of a column.
-/
namespace ModelFormula

open CallExpr

open CallExpr (Names resolveCallee eval evalList evalNamed memoryFor callPlain)

variable {names : Names} {source : DataSource} {callee : String} {e a s t : CallExpr} {m m' : Memories}
  {v : Value}

/-- A call of an offset, with its argument by place or by keyword. -/
inductive OffsetOf (callee : String) (a : CallExpr) : CallExpr → Prop
  | placed : OffsetOf callee a (.call callee [a] [])
  | named : OffsetOf callee a (.call callee [] [("x", a)])

/-- A call of a proportion, with its arguments by place or by keyword. -/
inductive ProportionOf (callee : String) (s t : CallExpr) : CallExpr → Prop
  | placed : ProportionOf callee s t (.call callee [s, t] [])
  | mixed : ProportionOf callee s t (.call callee [s] [("trials", t)])
  | named : ProportionOf callee s t (.call callee [] [("successes", s), ("trials", t)])
  | turned : ProportionOf callee s t (.call callee [] [("trials", t), ("successes", s)])

/-! ### Values of calls -/

section

variable (none : m.get? [] = none)
include none

lemma OffsetOf.outcome_eval (call : OffsetOf callee a e)
    (resolved : resolveCallee names callee = .ok (.function .offset)) :
    outcome (eval source names [] e) m = outcome (do
      let x ← eval source names [0] a
      Function.makeOffset x) m := by
  have callee' : Ends (resolveCallee names callee : Eval Value) m (.function .offset) m :=
    ends_lift.mpr ⟨resolved, rfl⟩
  have memory : Ends (memoryFor [] (.function .offset)) m Option.none m :=
    memoryFor_plain none (by simp)
  cases call <;>
  · rw [eval, callee'.outcome_bind, memory.outcome_bind]
    simp only [evalList, evalNamed, bind_assoc, pure_bind]
    rfl

lemma ProportionOf.ends_eval (call : ProportionOf callee s t e)
    (resolved : resolveCallee names callee = .ok (.function .proportion))
    (ends : Ends (eval source names [] e) m v m') :
    ∃ x y i n n', Ends (eval source names [i] t) n y n' ∧ Function.makeProportion x y = .ok v := by
  have callee' : Ends (resolveCallee names callee : Eval Value) m (.function .proportion) m :=
    ends_lift.mpr ⟨resolved, rfl⟩
  have memory : Ends (memoryFor [] (.function .proportion)) m Option.none m :=
    memoryFor_plain none (by simp)
  cases call
  all_goals
    rw [eval, Ends, callee'.outcome_bind, memory.outcome_bind] at ends
    simp only [evalList, evalNamed, bind_assoc, pure_bind] at ends
    obtain ⟨x, n, first, ends⟩ := ends_bind.mp ends
    obtain ⟨y, n', second, ends⟩ := ends_bind.mp ends
    obtain ⟨made, _⟩ := ends_lift.mp ends
  case turned => exact ⟨y, x, _, _, _, first, made⟩
  all_goals exact ⟨x, y, _, _, _, second, made⟩

omit none in
lemma ends_value (ends : Ends (eval source names path (.value l k)) m v m') :
    v = .datum (.ofLiteral l) := by
  rw [eval] at ends
  exact (ends_pure.mp ends).1.symm

lemma memory_kept (ends : Ends (eval source names [i] a) m v m') : m'.get? [] = Option.none := by
  have changed : Changed _ m (outcome (eval source names [i] a) m).2 := changed_eval a [i] m
  rw [show outcome _ m = (.ok v, m') from ends] at changed
  exact (changed.elsewhere [] fun under => by simp at under).trans none

end

/-! ### Fits -/

namespace Component

variable {st st' : State} {scope : Scope Value} {spans : Datum} {response : Bool}

lemma ends_evaluate (known : st.scope = some scope) : Ends (evaluate e source) st v st' ↔
      ∃ m, Ends (eval source scope.get [] e) st.memories v m ∧ { st with memories := m } = st' := by
  have runs : outcome (evaluate e source) st = ((outcome (eval source scope.get [] e) st.memories).1,
      { st with memories := (outcome (eval source scope.get [] e) st.memories).2 }) := by
    obtain ⟨⟩ := st
    cases known
    rfl
  rw [Ends, runs, Prod.mk.injEq]
  constructor
  · rintro ⟨done, after⟩
    exact ⟨_, Prod.ext done rfl, after⟩
  · rintro ⟨m, done, rfl⟩
    exact ⟨congrArg Prod.fst done, by rw [show outcome _ _ = (.ok v, m) from done]⟩

lemma makeOffset_eq_ok (made : Function.makeOffset x = .ok v) :
    ∃ o, v = .offset o ∧ if x.isSeries then ∃ c, x = .series c ∧ o = .variable c.values
      else ∃ d, o = .constant d none := by
  unfold Function.makeOffset at made
  split at made
  · split at made <;> cases made
    exact ⟨_, rfl, _, rfl⟩
  · cases made
    exact ⟨_, rfl, _, rfl⟩
  next c =>
    split at made <;> cases made
    exact ⟨_, rfl, c, rfl, rfl⟩
  · split at made <;> cases made

lemma makeProportion_eq_ok (made : Function.makeProportion x y = .ok v) :
    ∃ p, v = .proportion p ∧ p.constant = !y.isSeries := by
  simp only [Function.makeProportion, bind, Except.bind, pure, Except.pure, throw, throwThe,
    MonadExceptOf.throw] at made
  cases y with
  | datum d =>
    cases whole : d.int? <;> simp only [whole] at made <;> repeat' split at made
    all_goals cases made
    exact ⟨_, rfl, rfl⟩
  | series t =>
    dsimp only at made
    repeat' split at made
    all_goals cases made
    exact ⟨_, rfl, rfl⟩
  | _ => split at made <;> cases made

/-- What a call knows when it is fitted. -/
def fitted (scope : Scope Value) (response : Bool) (kind : Kind) (column : Value) (data : Block)
    (m : Memories) : State :=
  { kind := some kind
    isResponse := response
    value := some data
    column
    scope := some scope.withLibrary
    memories := m }

/-- Fits a call. -/
def fit (e : CallExpr) (source : DataSource) (scope : Scope Value) (spans : Datum) : Step Unit := do
  setKind (.call e) source scope
  setData (.call e) spans

/-- An offset or a proportion is kept as it is, and an offset is told the number of rows. -/
lemma ends_fit
    (done : Ends (fit e source scope spans) { isResponse := response } () st) :
    ∃ v m, Ends (eval source scope.withLibrary.get [] e) [] v m ∧
      (∀ o, v = .offset o → ∃ n b, st = fitted scope response .offset (.offset (o.resize n)) b m) ∧
      ∀ p, v = .proportion p → ∃ b, st = fitted scope response .proportion (.proportion p) b m := by
  obtain ⟨_, _, kind, data⟩ := ends_bind.mp done
  simp only [setKind, setCallKind, ends_bind, ends_modify] at kind
  obtain ⟨_, _, rfl, v, _, value, settled⟩ := kind
  obtain ⟨m, ran, rfl⟩ := (ends_evaluate rfl).mp value
  refine ⟨v, m, ran, ?_, ?_⟩
  · rintro o rfl
    simp [Value.isNumeric, Value.isString, Value.isCategory, ends_bind] at settled
    obtain ⟨n, _, rfl⟩ := settled
    cases response <;> simp [setData, setCallData, ends_bind] at data
    obtain ⟨b, _, rfl⟩ := data
    exact ⟨n, b, rfl⟩
  · rintro p rfl
    simp [Value.isNumeric, Value.isString, Value.isCategory, ends_bind] at settled
    subst settled
    cases response <;> simp [setData, setCallData, ends_bind] at data
    obtain ⟨b, _, rfl⟩ := data
    exact ⟨b, rfl⟩

/-! ### New data -/

/-- The component has this value on a frame. -/
def Predicts (e : CallExpr) (st : State) (f : Frame) (b : Block) : Prop :=
  ∃ st', Ends (newData (.call e) (.frame f)) st b st'

/-- Each row of the frame has the number of a literal. -/
def Repeats (l : Literal) (f : Frame) (b : Block) : Prop :=
  ∃ x, (Datum.ofLiteral l).float? = some x ∧ b = Block.ofFloats (List.replicate f.height x)

lemma constantRows_eq_ok : constantRows e i (.frame f) = .ok b ↔
      ∃ l k, argument e i = .ok (.value l k) ∧ Repeats l f b := by
  simp only [Repeats, constantRows, DataSource.indexLength, bind, Except.bind]
  cases argument e i with
  | error fault => simp
  | ok a =>
    cases a with
    | value l k =>
      cases found : (Datum.ofLiteral l).float? <;>
        simp [found, eq_comm, pure, Except.pure, throw, throwThe, MonadExceptOf.throw]
    | _ => simp [throw, throwThe, MonadExceptOf.throw]

variable {f : Frame} {b data : Block} {p : Proportion}

/-- Of all arguments only a literal is read. -/
lemma literal_iff (found : argument e i = .ok t) (value : Ends (eval source names path t) m x m') :
    constantRows e i (.frame f) = .ok b ↔
      ∃ l k, t = .value l k ∧ x = .datum (.ofLiteral l) ∧ Repeats l f b := by
  simp only [constantRows_eq_ok, found, Except.ok.injEq]
  refine exists₂_congr fun l k => and_congr_right ?_
  rintro rfl
  simp [ends_value value]

lemma predicts_offset_iff (kind : st.kind = some .offset)
    (column : st.column = .offset (.constant d n)) :
    Predicts e st f b ↔ constantRows e 0 (.frame f) = .ok b := by
  simp [Predicts, newDataBy, callNewData, offsetNewData, ends_bind, kind, column]

section

variable (kind : st.kind = some .proportion) (column : st.column = .proportion p)
include kind column

lemma predicts_proportion_iff (constant : p.constant) :
    Predicts e st f b ↔ constantRows e 1 (.frame f) = .ok b := by
  simp [Predicts, newDataBy, callNewData, proportionNewData, ends_bind, kind, column, constant]

lemma predicts_trials_iff (varies : p.constant = false) : Predicts e st f b ↔
      ∃ name c, argument e 1 = .ok (.name name) ∧ f.column? (.text name) = some c ∧ b = c.values := by
  simp [Predicts, newDataBy, callNewData, proportionNewData, ends_bind, kind, column, varies]
  cases argument e 1 with
  | error fault => simp
  | ok a =>
    cases a with
    | name name =>
      have kept (c : Column) : asBlock (.series c) = .ok c.values := rfl
      cases found : f.column? (.text name) <;> simp [columnOf, ends_bind, found, kept, eq_comm]
    | _ => simp

end

/-- A name that once meant a column is no constant. -/
lemma resolveName_column {path : List Nat} {name : String}
    (value : Ends (eval source names path (.name name)) m y m') (series : y.isSeries)
    (found : f.column? (.text name) = some c) :
    resolveName (.frame f) names name = .ok (.series c) := by
  rw [eval] at value
  obtain ⟨resolved, _⟩ := ends_lift.mp value
  simp only [resolveName, column, ok_bind, pure_ok] at resolved ⊢
  split at resolved
  · cases resolved
    cases series
  next => simp [found]

/-- Offsets and proportions that were fitted, on new data. An offset that is no constant has the value
of its argument there. A constant offset has its constant only if this is a literal that is given by
place. So has a proportion with constant trials; other trials must be given by place too, as the name of
a column, which is their value. -/
theorem predicts_iff
    (done : Ends (fit e source scope spans) { isResponse := response } () st) :
    (∀ a, OffsetOf callee a e →
      resolveCallee scope.withLibrary.get callee = .ok (.function .offset) →
      ∃ x, Ends (eval source scope.withLibrary.get [0] a) [] x st.memories ∧
        (x.isSeries = true → ∀ source' y m',
          Ends (eval source' scope.withLibrary.get [0] a) st.memories (.series y) m' →
          y.isNumeric = true →
          Ends (newData (.call e) source') st y.values { st with memories := m' }) ∧
        (x.isSeries = false → ∀ f b, Predicts e st f b ↔
          ∃ l k, e = .call callee [.value l k] [] ∧ x = .datum (.ofLiteral l) ∧ Repeats l f b)) ∧
    (∀ s t, ProportionOf callee s t e →
      resolveCallee scope.withLibrary.get callee = .ok (.function .proportion) →
      ∃ y i m m', Ends (eval source scope.withLibrary.get [i] t) m y m' ∧
        (y.isSeries = false → ∀ f b, Predicts e st f b ↔
          ∃ l k, e = .call callee [s, .value l k] [] ∧ y = .datum (.ofLiteral l) ∧ Repeats l f b) ∧
        (y.isSeries = true → ∀ f b, Predicts e st f b ↔ ∃ name c, e = .call callee [s, .name name] [] ∧
          CallExpr.resolveName (.frame f) scope.withLibrary.get name = .ok (.series c) ∧
          f.column? (.text name) = some c ∧ b = c.values)) := by
  obtain ⟨v, m, ran, offset, proportion⟩ := ends_fit done
  constructor
  · intro a call resolved
    rw [Ends, call.outcome_eval rfl resolved] at ran
    obtain ⟨x, m, value, made⟩ := ends_bind.mp ran
    obtain ⟨returned, rfl⟩ := ends_lift.mp made
    obtain ⟨o, rfl, kept⟩ := makeOffset_eq_ok returned
    obtain ⟨n, data, rfl⟩ := offset o rfl
    refine ⟨x, value, fun series source' y m' value' numeric => ?_, fun constant f b => ?_⟩
    · -- the fit left no memory for the call itself, so it runs as before
      rw [if_pos series] at kept
      obtain ⟨c, rfl, rfl⟩ := kept
      have again : Ends (evaluate e source')
          (fitted scope response .offset (.offset (.variable c.values)) data m)
          (.offset (.variable y.values))
          (fitted scope response .offset (.offset (.variable c.values)) data m') := by
        refine (ends_evaluate rfl).mpr ⟨m', ?_, rfl⟩
        refine (call.outcome_eval (memory_kept rfl value) resolved).trans ?_
        exact ends_bind.mpr ⟨_, _, value', ends_lift.mpr ⟨by simp [Function.makeOffset, numeric], rfl⟩⟩
      exact ends_bind.mpr ⟨_, _, ends_get.mpr ⟨rfl, rfl⟩, ends_bind.mpr ⟨_, _, ends_get.mpr ⟨rfl, rfl⟩,
        ends_bind.mpr ⟨_, _, again, ends_lift.mpr ⟨rfl, rfl⟩⟩⟩⟩
    · rw [if_neg (by simp [constant])] at kept
      obtain ⟨d, rfl⟩ := kept
      rw [predicts_offset_iff rfl rfl]
      cases call with
      | placed => exact (literal_iff rfl value).trans (by simp)
      -- no argument stands at the place that is read
      | named => simp [constantRows_eq_ok, argument]
  · intro s t call resolved
    obtain ⟨x, y, i, n, n', value, made⟩ := call.ends_eval rfl resolved ran
    obtain ⟨p, rfl, constant⟩ := makeProportion_eq_ok made
    obtain ⟨data, rfl⟩ := proportion p rfl
    refine ⟨y, i, n, n', value, fun lone f b => ?_, fun series f b => ?_⟩
    · rw [predicts_proportion_iff rfl rfl (by simp [constant, lone])]
      cases call with
      | placed => exact (literal_iff rfl value).trans (by simp)
      | _ => simp [constantRows_eq_ok, argument]
    · -- the trials are looked up by their name and not evaluated
      rw [predicts_trials_iff rfl rfl (by simp [constant, series])]
      cases call with
      | placed =>
        constructor
        · rintro ⟨name, c, argument, found, rfl⟩
          cases argument
          exact ⟨name, c, rfl, resolveName_column value series found, found, rfl⟩
        · rintro ⟨name, c, same, _, found, rfl⟩
          cases same
          exact ⟨name, c, rfl, found, rfl⟩
      | _ => simp [argument]

lemma resolveCallee_offset :
    resolveCallee (Scope.withLibrary ⟨[]⟩).get "offset" = .ok (.function .offset) := by
  rw [resolveCallee_of_clean 6 (by decide +kernel) (by decide +kernel) (by decide +kernel)]
  rfl

/-- An offset by a number can be fitted. -/
lemma exists_fit (call : OffsetOf "offset" a e)
    (value : Ends (eval (.frame ⟨1, []⟩) (Scope.withLibrary ⟨[]⟩).get [0] a) [] (.datum d) m)
    (number : d.float?.isSome) :
    ∃ b, Ends (fit e (.frame ⟨1, []⟩) ⟨[]⟩ .null) {} ()
      (fitted ⟨[]⟩ false .offset (.offset (.constant d (some 1))) b m) := by
  have made : Function.makeOffset (.datum d) = .ok (.offset (.constant d none)) := if_pos number
  have ran : Ends (evaluate e (.frame ⟨1, []⟩)) { scope := some (Scope.withLibrary ⟨[]⟩) }
      (.offset (.constant d none)) { scope := some (Scope.withLibrary ⟨[]⟩), memories := m } :=
    (ends_evaluate rfl).mpr ⟨m, (call.outcome_eval rfl resolveCallee_offset).trans
      (ends_bind.mpr ⟨_, _, value, ends_lift.mpr ⟨made, rfl⟩⟩), rfl⟩
  exact ⟨_, ends_bind.mpr ⟨(), _, ends_bind.mpr ⟨(), _, ends_modify.mpr rfl,
    ends_bind.mpr ⟨_, _, ran, rfl⟩⟩, rfl⟩⟩

/-- The call `offset(5)`. -/
def byPlace : CallExpr := .call "offset" [.value (.int 5) none] []

theorem predicts_byPlace : ∃ st, Ends (fit byPlace (.frame ⟨1, []⟩) ⟨[]⟩ .null) {} () st ∧
    ∀ f, ∃ b, Predicts byPlace st f b ∧ Repeats (.int 5) f b := by
  obtain ⟨b, done⟩ := exists_fit (e := byPlace) .placed rfl rfl
  obtain ⟨x, value, _, constant⟩ := (predicts_iff done).1 _ .placed resolveCallee_offset
  obtain rfl := ends_value value
  have repeats (f : Frame) : Repeats (.int 5) f _ := ⟨_, rfl, rfl⟩
  exact ⟨_, done, fun f => ⟨_, (constant rfl f _).mpr ⟨_, _, rfl, rfl, repeats f⟩, repeats f⟩⟩

/-- The call `offset(-1)`. -/
def negated : CallExpr := .call "offset" [.unary .minus (.value (.int 1) none)] []

/-- The offset is fitted, but it has no value on any new data. -/
theorem not_predicts_negated : ∃ st, Ends (fit negated (.frame ⟨1, []⟩) ⟨[]⟩ .null) {} () st ∧
    ∀ f b, ¬ Predicts negated st f b := by
  obtain ⟨b, done⟩ := exists_fit (e := negated) .placed rfl rfl
  refine ⟨_, done, fun f b predicts => ?_⟩
  rw [predicts_offset_iff rfl rfl, constantRows_eq_ok] at predicts
  obtain ⟨_, _, literal, _⟩ := predicts
  cases literal

end Component

end ModelFormula
