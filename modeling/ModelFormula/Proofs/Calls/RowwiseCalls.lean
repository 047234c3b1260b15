import ModelFormula.Proofs.Calls.FittedCalls
import ModelFormula.Proofs.Calls.RowwiseValues

/-!
# Fitted transforms row by row

With all its parameters known, a transform treats every row apart: the rows that splines and
polynomials have for two cells are the same if the cells are.
-/
namespace ModelFormula

variable {v v' : Value} {powers : List Block}

namespace RowPair

variable (ρ : RowPair)

/-- Two results of an expression on two frames: values that have the same cell in the two rows,
matrices that have the same row there, or the same block, which does not depend on the frame. -/
inductive Results : Value → Value → Prop
  | values {v v' : Value} (values : ρ.Values v v') : Results v v'
  | matrices {d : CellType} {m m' : Matrix Datum} (width : m.width = m'.width)
    (rows : ρ.Lists m.rows m'.rows) : Results (.array ⟨d, .matrix m⟩) (.array ⟨d, .matrix m'⟩)
  | block (b : Block) : Results (.array b) (.array b)

variable {ρ}

lemma results_ofFloatRows (lists : ρ.Lists rows rows') :
    ρ.Results (.array (Block.ofFloatRows width rows)) (.array (Block.ofFloatRows width rows')) :=
  .matrices rfl (lists.map _)

lemma lists_floats (type : c.type = c'.type) (cells : ρ.Lists c.cells c'.cells) :
    Both ρ.Lists (Statistics.floats (.series c)) (Statistics.floats (.series c')) := by
  simp only [Statistics.floats, ← type]
  cases c.type with
  | plain t => exact cells.mapM
  | _ => exact .error

end RowPair

namespace Transform

open RowPair List

variable {ρ : RowPair}

/-! ### Splines -/

lemma columnFloats_series (done : columnFloats (.series c) = .ok xs) :
    Statistics.floats (.series c) = .ok xs := by
  simp only [columnFloats] at done
  cases found : Statistics.floats (.series c) with
  | error fault =>
    rw [found] at done
    cases done
  | ok ys =>
    rw [found] at done
    exact done

lemma evalSpline_rows (values : ρ.Values x x') :
    Both ρ.Results (evalSpline fit x) (evalSpline fit x') := by
  cases values with
  | lone single => cases single <;> exact .error
  | @series c c' type sort cells =>
    have points : Both ρ.Lists (columnFloats (.series c)) (columnFloats (.series c')) :=
      fun _ _ done done' =>
        lists_floats type cells (columnFloats_series done) (columnFloats_series done')
    exact points.bind fun _ _ lists => .after fun knots => .after fun whole =>
      .ok (results_ofFloatRows (lists.map _))

/-! ### Powers -/

lemma beside_rows {a a' b b' : Matrix Datum} (left : ρ.Lists a.rows a'.rows)
    (right : ρ.Lists b.rows b'.rows) : ρ.Lists (a.beside b).rows (a'.beside b').rows :=
  left.zipWith right (· ++ ·)

/-- The rows of columns side by side. -/
lemma besides_rows {ms ms' : List (Matrix Datum)}
    (all : Forall₂ (fun m m' => m.width = m'.width ∧ ρ.Lists m.rows m'.rows) ms ms')
    (width : m.width = m'.width) (first : ρ.Lists m.rows m'.rows) :
    (ms.foldl Matrix.beside m).width = (ms'.foldl Matrix.beside m').width ∧
      ρ.Lists (ms.foldl Matrix.beside m).rows (ms'.foldl Matrix.beside m').rows := by
  induction all generalizing m m' with
  | nil => exact ⟨width, first⟩
  | cons next _ ih =>
    apply ih
    · rw [Matrix.beside, Matrix.beside, width, next.1]
    · exact beside_rows first next.2

/-- The powers of a column, side by side. -/
def besidePowers (powers : List Block) : Except Fault Value :=
  match powers.filterMap Function.columnMatrix? with
  | [] => throw .badValue
  | m :: ms =>
    let d := (powers.head?.map (·.cellType)).getD .float
    return .array ⟨d, .matrix (ms.foldl Matrix.beside m)⟩

lemma rawPowers_eq (block : x.block? = .ok (some b)) :
    rawPowers x k = if x.isCategory then .error .unsupported else if k ≤ 0 then .error .badValue else
      ((range k.toNat).mapM fun (i : Nat) =>
        Value.binaryBlocks .pow b ⟨.int, .deep [] [.int ((i : Int) + 1)]⟩) >>= besidePowers := by
  unfold rawPowers
  rw [block]
  cases x.isCategory
  · by_cases pos : k ≤ 0
    · simp only [pos, if_true]
      rfl
    · simp only [pos, if_false]
      rfl
  · rfl

lemma besidePowers_array (done : besidePowers powers = .ok v) : ∃ b, v = .array b := by
  unfold besidePowers at done
  split at done <;> cases done
  exact ⟨_, rfl⟩

lemma columnMatrix_rows (all : Forall₂ (ρ.Blocks false) powers powers') :
    Forall₂ (fun m m' => m.width = m'.width ∧ ρ.Lists m.rows m'.rows)
      (powers.filterMap Function.columnMatrix?) (powers'.filterMap Function.columnMatrix?) := by
  induction all with
  | nil => exact .nil
  | @cons b b' _ _ first _ ih =>
    obtain ⟨d, g⟩ := b
    obtain ⟨d', g'⟩ := b'
    obtain ⟨_, grids⟩ := first
    cases grids with
    | column lists => exact .cons ⟨rfl, lists.map _⟩ ih

lemma besidePowers_rows (all : Forall₂ (ρ.Blocks false) powers powers') :
    Both ρ.Results (besidePowers powers) (besidePowers powers') := by
  have matrices := columnMatrix_rows all
  have sort : powers.head?.map (·.cellType) = powers'.head?.map (·.cellType) := by
    cases all with
    | nil => rfl
    | cons first _ => exact congrArg some first.sort
  unfold besidePowers
  generalize powers.filterMap Function.columnMatrix? = ms at matrices
  generalize powers'.filterMap Function.columnMatrix? = ms' at matrices
  cases matrices with
  | nil => exact .error
  | cons first others =>
    rw [sort]
    obtain ⟨width, rows⟩ := besides_rows others first.1 first.2
    exact .ok (.matrices width rows)

/-- The same steps, each with two results. -/
lemma both_mapM {α β γ : Type} {f : α → Except Fault β} {g : α → Except Fault γ}
    {R : β → γ → Prop} (each : ∀ x, Both R (f x) (g x)) (xs : List α) :
    Both (Forall₂ R) (xs.mapM f) (xs.mapM g) := by
  induction xs with
  | nil => exact .ok .nil
  | cons x xs ih =>
    rw [mapM_cons, mapM_cons]
    exact (each x).bind fun _ _ first => ih.bind fun _ _ others => .ok (.cons first others)

lemma rawPowers_rows (values : ρ.Values x x') :
    Both ρ.Results (rawPowers x k) (rawPowers x' k) := by
  obtain ⟨b, b', block, block', series, blocks⟩ := values.block?
  rw [rawPowers_eq block, rawPowers_eq block']
  cases values with
  | @series c c' type sort cells =>
    rw [show Value.isCategory (.series c) = Value.isCategory (.series c') by
      simp [Value.isCategory, Column.isCategory, type]]
    exact .ite .error (.ite .error ((both_mapM (fun i =>
      blocks.binaryBlocks (⟨rfl, .lone _⟩ : ρ.Blocks true _ _)) _).bind fun _ _ =>
        besidePowers_rows))
  | lone single =>
    obtain rfl : b = b' := Option.some.inj (Except.ok.inj (block.symm.trans block'))
    refine .ite .error (.ite .error (.after fun powers => .same fun v beside => ?_))
    obtain ⟨c, rfl⟩ := besidePowers_array beside
    exact .block c

/-! ### Orthogonal polynomials -/

lemma columnsBlock_rows {α : Type} {cells cells' : List α} (lists : ρ.Lists cells cells')
    (all : Forall₂ (fun q q' => q[ρ.row]? = q'[ρ.row']?) columns columns') :
    ρ.Results (.array (columnsBlock cells.length columns))
      (.array (columnsBlock cells'.length columns')) := by
  unfold columnsBlock
  rw [all.length_eq]
  apply results_ofFloatRows
  have row : columns.map (fun q => q[ρ.row]?.getD Statistics.nan) =
      columns'.map (fun q => q[ρ.row']?.getD Statistics.nan) := by
    induction all with
    | nil => rfl
    | cons first _ ih => rw [map_cons, map_cons, first, ih]
  refine ⟨by simp [lists.long], by simp [lists.long'], ?_⟩
  have same := lists.same
  by_cases inside : ρ.row < cells.length
  · rw [getElem?_eq_getElem inside] at same
    obtain ⟨inside', _⟩ := List.getElem?_eq_some_iff.mp same.symm
    simp [inside, inside', row]
  · rw [getElem?_eq_none (by omega)] at same
    have outside := getElem?_eq_none_iff.mp same.symm
    simp [inside, outside]

lemma pointsAt_lists (type : c.type = c'.type) (cells : ρ.Lists c.cells c'.cells) :
    Both ρ.Lists (pointsAt (.series c) c.cells.length k) (pointsAt (.series c') c'.cells.length k) :=
  .ite .error (.ite .error (.ite (.ok (cells.replicate _)) (lists_floats type cells)))

lemma polynomial_rows (values : ρ.Values x x')
    (complete : (Memory.polynomial degree raw known).Complete)
    (ends : Ends (polynomial x degree raw) (.polynomial degree raw known) v memory)
    (ends' : Ends (polynomial x' degree raw) (.polynomial degree raw known) v' memory') :
    ρ.Results v v' := by
  rw [Ends, polynomial_eq] at ends ends'
  cases truth : raw.truthy with
  | error fault =>
    rw [truth] at ends
    cases ends
  | ok isRaw =>
    cases isRaw with
    | true =>
      simp only [truth] at ends ends'
      obtain ⟨done, _⟩ := Prod.mk.inj ends
      obtain ⟨done', _⟩ := Prod.mk.inj ends'
      cases whole : wholeNumber? degree with
      | none =>
        rw [whole] at done
        cases done
      | some k =>
        rw [whole] at done done'
        exact rawPowers_rows values done done'
    | false =>
      simp only [truth] at ends ends'
      cases points : pointsOf x degree with
      | error fault =>
        rw [points] at ends
        cases ends
      | ok found =>
        cases points' : pointsOf x' degree with
        | error fault =>
          rw [points'] at ends'
          cases ends'
        | ok found' =>
          obtain ⟨height, k, xs⟩ := found
          obtain ⟨height', k', xs'⟩ := found'
          simp only [points, Prod.mk.injEq, Except.ok.injEq] at ends
          simp only [points', Prod.mk.injEq, Except.ok.injEq] at ends'
          obtain ⟨rfl, _⟩ := ends
          obtain ⟨rfl, _⟩ := ends'
          obtain ⟨dimension, degreeOf, floats⟩ := pointsOf_ok points
          obtain ⟨dimension', degreeOf', floats'⟩ := pointsOf_ok points'
          obtain rfl : k = k' := Option.some.inj (degreeOf.symm.trans degreeOf')
          cases values with
          | lone single => cases single <;> cases dimension
          | series type sort cells =>
            cases dimension
            cases dimension'
            have lists := pointsAt_lists type cells floats floats'
            obtain ⟨_, columns⟩ := Polynomial.scaled_rows Float.sqrt _ _ (complete truth k degreeOf)
              lists.same
            exact columnsBlock_rows cells columns

/-! ### All transforms -/

lemma perform_values (complete : memory.Complete)
    (simple : memory.transform = .center ∨ memory.transform = .scale)
    (values : Forall₂ ρ.Values vs vs') (ends : Ends (perform memory.transform vs) memory v m)
    (ends' : Ends (perform memory.transform vs') memory v' m') : ρ.Values v v' := by
  cases memory with
  | spline fit | polynomial degree raw known => rcases simple with simple | simple <;> cases simple
  | center mean =>
    obtain ⟨m, rfl⟩ := Option.isSome_iff_exists.mp complete
    unfold Memory.transform perform at ends ends'
    dsimp only at ends ends'
    cases values with
    | nil => exact (ends_throw ends).elim
    | cons first others =>
      cases others with
      | cons => exact (ends_throw ends).elim
      | nil =>
        obtain ⟨done, _⟩ := Prod.mk.inj ends
        obtain ⟨done', _⟩ := Prod.mk.inj ends'
        exact first.binary (.lone (.cell m)) done done'
  | scale mean deviation =>
    obtain ⟨m, rfl⟩ := Option.isSome_iff_exists.mp complete.1
    obtain ⟨s, rfl⟩ := Option.isSome_iff_exists.mp complete.2
    unfold Memory.transform perform at ends ends'
    dsimp only at ends ends'
    cases values with
    | nil => exact (ends_throw ends).elim
    | cons first others =>
      cases others with
      | cons => exact (ends_throw ends).elim
      | nil =>
        dsimp only at ends ends'
        rw [Ends, scale_known, Prod.mk.injEq] at ends ends'
        obtain ⟨x, centered, done⟩ := bind_eq_ok.mp ends.1
        obtain ⟨x', centered', done'⟩ := bind_eq_ok.mp ends'.1
        have differences := first.binary (.lone (.cell m)) centered centered'
        exact differences.binary (.lone (.cell s)) done done'

lemma perform_results (complete : memory.Complete)
    (basis : memory.transform = .spline ∨ memory.transform = .polynomial) (values : ρ.Values x x')
    (given : memory.Given (x :: vs)) (ends : Ends (perform memory.transform (x :: vs)) memory v m)
    (ends' : Ends (perform memory.transform (x' :: vs)) memory v' m') : ρ.Results v v' := by
  cases memory with
  | center mean | scale mean deviation => rcases basis with basis | basis <;> cases basis
  | spline fit =>
    obtain ⟨fit, rfl⟩ := Option.isSome_iff_exists.mp complete
    unfold Memory.transform perform at ends ends'
    dsimp only at ends ends'
    split at ends
    next eq =>
      cases eq
      obtain ⟨done, _⟩ := Prod.mk.inj ends
      obtain ⟨done', _⟩ := Prod.mk.inj ends'
      exact evalSpline_rows values done done'
    next => exact (ends_throw ends).elim
  | polynomial degree raw known =>
    obtain rfl : vs = [degree, raw] := given
    exact polynomial_rows values complete ends ends'

end Transform

/-!
### Call expressions row by row

Once a call expression of columns, literals, operations and transforms was evaluated on a frame, its
value on another frame has in each row what that row alone determines.
-/

open List Transform

variable {e : CallExpr} {ρ : RowPair}

/-- The functions that work on every row apart, once they have their parameters. -/
def Function.isRowwise : Function → Bool
  | .log | .exp | .sqrt | .abs | .power | .stateful .center | .stateful .scale => true
  | _ => false

/-- A row of one frame and a row of another that are alike: the columns have the same types, their
values are of the same sorts, and their cells in these rows are the same. -/
def Frame.AlikeRows (columns : List String) (f : Frame) (r : Nat) (f' : Frame) (r' : Nat) : Prop :=
  ∀ s ∈ columns, ∃ c c', f.column? (.text s) = some c ∧ f'.column? (.text s) = some c' ∧
    c.cells.length = f.height ∧ c'.cells.length = f'.height ∧ c.type = c'.type ∧
    c.values.cellType = c'.values.cellType ∧ c.cells[r]? = c'.cells[r']?

namespace CallExpr

section Trees

variable (names : Names) (columns : List String)

mutual

/-- Columns, constants, operations and functions that work on every row apart. -/
def Rowwise : CallExpr → Prop
  | unary _ e => Rowwise e
  | binary _ l r => Rowwise l ∧ Rowwise r
  | name s => (∃ d, constant? s = some d) ∨ s ∈ columns
  | value _ _ => True
  | call f args named =>
    (∃ g, resolveCallee names f = .ok (.function g) ∧ g.isRowwise = true) ∧
      RowwiseList args ∧ RowwiseNamed named

def RowwiseList : List CallExpr → Prop
  | [] => True
  | e :: es => Rowwise e ∧ RowwiseList es

def RowwiseNamed : List (String × CallExpr) → Prop
  | [] => True
  | (_, e) :: es => Rowwise e ∧ RowwiseNamed es

end

/-- A tree that works on every row apart, or a spline or polynomials of such a tree, the other
arguments being constants. -/
inductive RowwiseCall : CallExpr → Prop
  | tree {e : CallExpr} (rowwise : Rowwise names columns e) : RowwiseCall e
  | basis {f : String} {s : Stateful} {args : List CallExpr} {named : List (String × CallExpr)}
    (callee : transform? names f = some s) (kind : s = .spline ∨ s = .polynomial)
    (column : ∀ e ∈ args.head?, Rowwise names columns e)
    (positional : ∀ e ∈ args.drop 1, Constant e)
    (keywords : ∀ p ∈ named, (p.1 = "x" → Rowwise names columns p.2) ∧
      (p.1 ≠ "x" → Constant p.2)) : RowwiseCall (.call f args named)

end Trees

variable {names : Names} {columns : List String}

/-! ### Steady parameters -/

lemma rowwise_operands (positional : RowwiseList names columns args)
    (keywords : RowwiseNamed names columns named) :
    ∀ e ∈ operands args named, Rowwise names columns e := by
  apply forall_operands
  · induction args with
    | nil => simp
    | cons e es ih => exact forall_mem_cons.mpr ⟨positional.1, ih positional.2⟩
  · induction named with
    | nil => simp
    | cons p ps ih => exact forall_mem_cons.mpr ⟨keywords.1, ih keywords.2⟩

lemma Constant.steady (constant : Constant e) : Steady names e := by
  induction constant with
  | value literal lexeme => exact .value
  | name means => exact .name
  | unary operand ih => exact .unary ih
  | binary left right ih ih' => exact .binary ih ih'

lemma Rowwise.steady (rowwise : Rowwise names columns e) : Steady names e := by
  induction e with
  | unary sign e ih => exact .unary (ih rowwise)
  | binary op l r left right => exact .binary (left rowwise.1) (right rowwise.2)
  | name s => exact .name
  | value literal lexeme => exact .value
  | call f args named ih ih' =>
    obtain ⟨⟨g, resolved, isRowwise⟩, positional, keywords⟩ := rowwise
    refine .call (fun polynomial => ?_) fun e mem =>
      forall_operands ih ih' e mem (rowwise_operands positional keywords e mem)
    rw [transform?_eq_some.mp polynomial] at resolved
    cases resolved
    cases isRowwise

lemma RowwiseCall.steady (rowwise : RowwiseCall names columns e) : Steady names e := by
  cases rowwise with
  | tree rowwise => exact rowwise.steady
  | @basis f s args named callee kind column positional keywords =>
    refine .call (fun _ => ⟨positional, fun p mem => (keywords p mem).2⟩)
      (forall_operands (fun e mem => ?_) fun p mem => ?_)
    · cases args with
      | nil => cases mem
      | cons first others =>
        rcases mem_cons.mp mem with rfl | mem
        · exact (column e rfl).steady
        · exact (positional e mem).steady
    · by_cases own : p.1 = "x"
      · exact ((keywords p mem).1 own).steady
      · exact ((keywords p mem).2 own).steady

/-! ### Rows of values -/

section Rows

variable {f f' : Frame} {r r' : Nat} {m : Memories}

/-- A name means a constant, or the columns that are alike. -/
lemma resolveName_rows (alike : f.AlikeRows columns r f' r')
    (rowwise : (∃ d, constant? s = some d) ∨ s ∈ columns) :
    Both (RowPair.Values ⟨f.height, r, f'.height, r'⟩) (resolveName (.frame f) names s)
      (resolveName (.frame f') names s) := by
  unfold resolveName
  cases constant : constant? s with
  | some d =>
    refine .ok (.lone (.datum ?_))
    unfold constant? at constant
    split at constant <;> cases constant <;> rfl
  | none =>
    obtain ⟨d, means⟩ | mem := rowwise
    · rw [constant] at means
      cases means
    · obtain ⟨c, c', found, found', long, long', type, sort, same⟩ := alike s mem
      simp only [column, found, found']
      exact .ok (.series type sort ⟨long, long', same⟩)

lemma positional_ok {count : Nat} (done : Function.positional count vs ws = .ok us) :
    us = vs := by
  unfold Function.positional at done
  split at done <;> cases done
  rfl

/-- Functions without a memory. -/
lemma apply_rows {g : Function} (rowwise : g.isRowwise)
    (values : List.Forall₂ ρ.Values vs vs') : Both ρ.Values (g.apply vs ws) (g.apply vs' ws') := by
  have positional (n : Nat) : Both (List.Forall₂ ρ.Values) (Function.positional n vs ws)
      (Function.positional n vs' ws') := by
    intro us us' found found'
    rwa [positional_ok found, positional_ok found']
  cases g
  case power =>
    refine (positional 2).bind fun us us' values => ?_
    cases values with
    | nil => exact .error
    | cons first others =>
      cases others with
      | nil => exact .error
      | cons second others =>
        cases others with
        | nil => exact first.powerOf second
        | cons => exact .error
  case log | exp | sqrt | abs =>
    refine (positional 1).bind fun us us' values => ?_
    cases values with
    | nil => exact .error
    | cons first others =>
      cases others with
      | nil => exact first.mapElements
      | cons => exact .error
  case stateful s => exact .error
  all_goals cases rowwise

/-- The arguments of a call, if each of them has values that agree in the rows. -/
lemma paired_rows (nodup : m.Distinct) (settled : Settled names m path (call g args named))
    (each : ∀ j e, (operands args named)[j]? = some e → ∀ {v v' : Value} {n n' : Memories},
      Rowwise names columns e → Ends (eval (.frame f) names (j :: path) e) m v n →
        Ends (eval (.frame f') names (j :: path) e) m v' n' → ρ.Values v v')
    (list : Ends (evalList (.frame f) names path 0 (operands args named)) m vs n)
    (list' : Ends (evalList (.frame f') names path 0 (operands args named)) m vs' n') :
    Paired (fun e v v' => Rowwise names columns e → ρ.Values v v') (operands args named) vs vs' := by
  refine ⟨length_of_evalList list, length_of_evalList list',
    fun j e v v' place here here' rowwise => ?_⟩
  have values {f : Frame} {vs : List Value} {n : Memories}
      (list : Ends (evalList (.frame f) names path 0 (operands args named)) m vs n) :=
    (frozen_evalList fun j e place => frozen_eval nodup (settled.each j e place)).2 vs n list
  obtain ⟨n, ran⟩ := values list j e v place here
  obtain ⟨n', ran'⟩ := values list' j e v' place here'
  exact each j e place rowwise ran ran'

/-- On two frames, an expression has values that agree in rows that are alike. -/
lemma eval_rows (nodup : m.Distinct) (alike : f.AlikeRows columns r f' r')
    (settled : Settled names m path e) (rowwise : Rowwise names columns e)
    (ends : Ends (eval (.frame f) names path e) m v n)
    (ends' : Ends (eval (.frame f') names path e) m v' n') :
    RowPair.Values ⟨f.height, r, f'.height, r'⟩ v v' := by
  induction settled generalizing v v' n n' with
  | unary _ ih =>
    rw [eval] at ends ends'
    obtain ⟨x, m₁, inner, last⟩ := ends_bind.mp ends
    obtain ⟨x', m₁', inner', last'⟩ := ends_bind.mp ends'
    exact (ih rowwise inner inner').unary (ends_lift.mp last).1 (ends_lift.mp last').1
  | binary settled _ ih ih' =>
    rw [eval] at ends ends'
    obtain ⟨x, left, ends⟩ := bind_of_frozen (frozen_eval nodup settled) ends
    obtain ⟨x', left', ends'⟩ := bind_of_frozen (frozen_eval nodup settled) ends'
    obtain ⟨y, m₂, right, last⟩ := ends_bind.mp ends
    obtain ⟨y', m₂', right', last'⟩ := ends_bind.mp ends'
    exact (ih rowwise.1 left left').binary (ih' rowwise.2 right right') (ends_lift.mp last).1
      (ends_lift.mp last').1
  | name =>
    rw [eval] at ends ends'
    exact resolveName_rows alike rowwise (ends_mk.mp ends).1 (ends_mk.mp ends').1
  | @value _ literal _ =>
    rw [eval] at ends ends'
    obtain ⟨rfl, _⟩ := ends_pure.mp ends
    obtain ⟨rfl, _⟩ := ends_pure.mp ends'
    apply RowPair.Values.lone
    apply Value.Lone.datum
    cases literal <;> rfl
  | @call path g args named fitted each ih =>
    obtain ⟨⟨h, resolved, isRowwise⟩, positional, keywords⟩ := rowwise
    have all := rowwise_operands positional keywords
    have settled : Settled names m path (.call g args named) := .call fitted each
    cases found : transform? names g with
    | none =>
      obtain ⟨callee, vs, known, list, done⟩ := settled_call_plain nodup settled found ends
      obtain ⟨callee', vs', known', list', done'⟩ := settled_call_plain nodup settled found ends'
      obtain rfl : callee = .function h := Except.ok.inj (known.symm.trans resolved)
      obtain rfl : callee' = .function h := Except.ok.inj (known'.symm.trans resolved)
      have values := (paired_rows nodup settled ih list list').forall₂
        fun e mem v v' related => related (all e mem)
      exact apply_rows isRowwise (forall₂_take _ values) done done'
    | some s =>
      obtain ⟨memory, known⟩ := exists_memory settled found
      obtain ⟨rfl, complete, vs, xs, memory₁, list, arguments, _, performed⟩ :=
        settled_call_transform nodup settled found known ends
      obtain ⟨_, _, vs', xs', memory₁', list', arguments', _, performed'⟩ :=
        settled_call_transform nodup settled found known ends'
      have simple : memory.transform = .center ∨ memory.transform = .scale := by
        rw [transform?_eq_some.mp found] at resolved
        cases resolved
        revert isRowwise
        cases memory.transform <;> simp [Function.isRowwise]
      have matching : Matching (fun _ => RowPair.Values ⟨f.height, r, f'.height, r'⟩)
          (parameters memory.transform) (byPlace args vs) (byPlace args vs')
          (byKeyword args named vs) (byKeyword args named vs') := by
        apply (paired_rows nodup settled ih list list').matching
        · intro j e p v v' place _ related
          exact related (all e (mem_append_left _ (mem_of_getElem? place)))
        · intro q mem v v' related
          exact related (all q.2 (mem_append_right _ (mem_map_of_mem mem)))
      have related := matching.forall₂
        (by rcases simple with simple | simple <;> simp [simple, parameters])
        arguments arguments'
      exact perform_values complete simple related performed performed'

/-- The column comes first among the parameters of a transform. -/
lemma parameters_eq_cons (s : Stateful) :
    ∃ rest, parameters s = ("x", none) :: rest ∧ ∀ p ∈ rest, p.1 ≠ "x" := by
  cases s <;> exact ⟨_, rfl, by simp⟩

/-- Arguments of which the first agree in the rows and the others are the same. -/
lemma split_arguments
    (constants : Transform.Matching (fun name v v' => name ≠ "x" → v = v') (Transform.parameters s)
      args args' named named')
    (column : Transform.Matching (fun name v v' => name = "x" → ρ.Values v v')
      (Transform.parameters s) args args' named named')
    (arguments : Transform.arguments (Transform.parameters s) args named = .ok xs)
    (arguments' : Transform.arguments (Transform.parameters s) args' named' = .ok xs') :
    ∃ x x' us, xs = x :: us ∧ xs' = x' :: us ∧ ρ.Values x x' := by
  obtain ⟨rest, eq, others⟩ := parameters_eq_cons s
  have long := (Transform.arguments_ok arguments).length_eq
  have long' := (Transform.arguments_ok arguments').length_eq
  have same := constants.arguments (fun _ _ _ _ _ => rfl) arguments arguments'
  have agree := column.arguments (fun p mem v default own => by
    rw [eq] at mem
    rcases mem_cons.mp mem with rfl | mem
    · cases default
    · exact (others p mem own).elim) arguments arguments'
  rw [eq, length_zipIdx] at long long'
  rw [eq] at same agree
  cases xs with
  | nil => cases long
  | cons x us =>
    cases xs' with
    | nil => cases long'
    | cons x' us' =>
      obtain ⟨first, _⟩ := forall₂_cons.mp agree
      obtain ⟨_, same⟩ := forall₂_cons.mp same
      have lengths : us.length = us'.length := by
        rw [length_cons, length_cons] at long long'
        omega
      have tails : us = us' := by
        apply ext_getElem lengths
        intro i short short'
        have pair := (forall₂_iff_get.mp same).2 i
          (by rw [length_cons, length_cons] at long; omega) (by simp; omega)
        simpa using pair (others _ (getElem_mem _))
      exact ⟨x, x', us, rfl, by rw [tails], first rfl⟩

/-- With the memories of a first evaluation, results agree in rows that are alike. -/
lemma RowwiseCall.results (nodup : m.Distinct) (alike : f.AlikeRows columns r f' r')
    (rowwise : RowwiseCall names columns e) (settled : Settled names m path e)
    (ends : Ends (eval (.frame f) names path e) m v n)
    (ends' : Ends (eval (.frame f') names path e) m v' n') :
    RowPair.Results ⟨f.height, r, f'.height, r'⟩ v v' := by
  cases rowwise with
  | tree rowwise => exact .values (eval_rows nodup alike settled rowwise ends ends')
  | @basis g s args named callee kind column positional keywords =>
    obtain ⟨memory, known⟩ := exists_memory settled callee
    obtain ⟨rfl, complete, vs, xs, memory₁, list, arguments, given, performed⟩ :=
      settled_call_transform nodup settled callee known ends
    obtain ⟨_, _, vs', xs', memory₁', list', arguments', _, performed'⟩ :=
      settled_call_transform nodup settled callee known ends'
    -- The column agrees in the rows, and all other arguments are the same.
    have constants := Constants.matching ⟨positional, fun p mem => (keywords p mem).2⟩
      (paired_constants list list') memory.transform
    have paired := paired_rows nodup settled
      (fun j e place => eval_rows nodup alike (settled.each j e place)) list list'
    have columns : Transform.Matching
        (fun name v v' => name = "x" → RowPair.Values ⟨f.height, r, f'.height, r'⟩ v v')
        (Transform.parameters memory.transform) (byPlace args vs) (byPlace args vs')
        (byKeyword args named vs) (byKeyword args named vs') := by
      refine paired.matching (fun j e p v v' place parameter related own => ?_)
        fun q mem v v' related own => related ((keywords q mem).1 own)
      obtain ⟨rest, eq, others⟩ := parameters_eq_cons memory.transform
      rw [eq] at parameter
      cases j with
      | succ j => exact (others p (mem_of_getElem? parameter) own).elim
      | zero => exact related (column e (by rwa [head?_eq_getElem?]))
    obtain ⟨x, x', us, rfl, rfl, values⟩ := split_arguments constants columns arguments arguments'
    exact Transform.perform_results complete kind values given performed performed'

end Rows

/-! ### Histories -/

/-- The memories after evaluations on some data, one after the other. -/
def after (e : CallExpr) (names : Names) (between : List DataSource) (m : Memories) : Memories :=
  between.foldl (fun m source => (e.evaluate source names m).2) m

lemma after_settled (nodup : m.Distinct) (settled : Settled names m [] e)
    (between : List DataSource) : e.after names between m = m := by
  induction between with
  | nil => rfl
  | cons source between ih =>
    have frozen : (e.evaluate source names m).2 = m := frozen_eval nodup settled
    rw [after, foldl_cons, frozen]
    exact ih

lemma settled_of_first (steady : Steady names e) (first : e.evaluate source names [] = (.ok v, m)) :
    m.Distinct ∧ Settled names m [] e ∧ e.evaluate source names m = (.ok v, m) := by
  have ends : Ends (eval source names [] e) [] v m := first
  have none : Memories.Distinct [] := nodup_nil
  have nodup : m.Distinct := (changed_of_ends ends).distinct none
  obtain ⟨settled, again⟩ := steady.refits (fun _ _ => rfl) ends m nodup fun _ _ => rfl
  exact ⟨nodup, settled, again⟩

/-- Once an expression was evaluated with success, evaluations on whatever data in between do not
matter, the first evaluation gives its value again, and on other frames each row of a value is
determined by that row of the frame, the types of the columns and the sorts of their values. -/
theorem evaluate_determined_by_rows {e : CallExpr} (rowwise : RowwiseCall names columns e)
    {f₀ : Frame} {v₀ : Value} {m₀ : Memories}
    (first : e.evaluate (.frame f₀) names [] = (.ok v₀, m₀)) :
    (∀ between source, e.evaluate source names (e.after names between m₀) =
      e.evaluate source names m₀) ∧
    e.evaluate (.frame f₀) names m₀ = (.ok v₀, m₀) ∧
    ∀ f r f' r' v v', f.AlikeRows columns r f' r' →
      (e.evaluate (.frame f) names m₀).1 = .ok v → (e.evaluate (.frame f') names m₀).1 = .ok v' →
      RowPair.Results ⟨f.height, r, f'.height, r'⟩ v v' := by
  obtain ⟨distinct, settled, again⟩ := settled_of_first rowwise.steady first
  refine ⟨fun between source => ?_, again, ?_⟩
  · rw [after_settled distinct settled]
  · intro f r f' r' v v' alike done done'
    exact rowwise.results distinct alike settled (Prod.ext done rfl) (Prod.ext done' rfl)

/-! ### An example -/

/-- The place of a character in a text. -/
def place (s : String) (k : Nat) : String.Pos.Raw := (String.Pos.Raw.next s)^[k] 0

lemma splitOnAux_of_clean {s : String} {n : Nat}
    (clean : ∀ k < n, (String.Pos.Raw.atEnd s (place s k) ||
      String.Pos.Raw.get s (place s k) == '.') = false) (b : String.Pos.Raw) (r : List String) :
    s.splitOnAux "." b 0 0 r = s.splitOnAux "." b (place s n) 0 r := by
  have dot : String.Pos.Raw.get "." 0 = '.' := by decide +kernel
  induction n with
  | zero => rfl
  | succ n ih =>
    obtain ⟨inside, other⟩ := Bool.or_eq_false_iff.mp (clean n (by omega))
    have next : place s (n + 1) = String.Pos.Raw.next s (place s n) :=
      Function.iterate_succ_apply' _ n 0
    rw [ih fun k small => clean k (by omega), next]
    conv_lhs => rw [String.splitOnAux]
    rw [if_neg (by simp [inside]), dot, if_neg (by simp [other])]
    rfl

/-- A callee without dots is a name of the scope. -/
lemma resolveCallee_of_clean (n : Nat)
    (clean : ∀ k < n, (String.Pos.Raw.atEnd callee (place callee k) ||
      String.Pos.Raw.get callee (place callee k) == '.') = false)
    (ends : String.Pos.Raw.atEnd callee (place callee n))
    (whole : String.Pos.Raw.extract callee 0 (place callee n) = callee) :
    resolveCallee names callee = names callee := by
  have split : callee.splitOn "." = [callee] := by
    rw [String.splitOn, if_neg (by decide), splitOnAux_of_clean clean, String.splitOnAux,
      if_pos ends]
    simp [whole]
  unfold resolveCallee
  simp only [split, foldlM_nil]
  cases names callee <;> rfl

namespace Sample

/-- A scope with two transforms. -/
def scope : Names
  | "center" => .ok (.function (.stateful .center))
  | "poly" => .ok (.function (.stateful .polynomial))
  | s => .error (.unknownName s)

lemma resolve_center : resolveCallee scope "center" = .ok (.function (.stateful .center)) :=
  resolveCallee_of_clean 6 (by decide +kernel) (by decide +kernel) (by decide +kernel)

lemma resolve_poly : resolveCallee scope "poly" = .ok (.function (.stateful .polynomial)) :=
  resolveCallee_of_clean 4 (by decide +kernel) (by decide +kernel) (by decide +kernel)

/-- Polynomials of degree two of a centered column. -/
def curve : CallExpr :=
  .call "poly" [.call "center" [.name "x"] [], .value (.int 2) none] []

def frame (xs : List Int) : Frame :=
  ⟨xs.length, [(.text "x", ⟨.plain .int, xs.map .int⟩)]⟩

lemma rowwise_curve : RowwiseCall scope ["x"] curve := by
  apply RowwiseCall.basis (transform?_eq_some.mpr resolve_poly) (.inr rfl)
  · rintro _ ⟨⟩
    exact ⟨⟨_, resolve_center, rfl⟩, ⟨.inr (by simp), trivial⟩, trivial⟩
  · intro e mem
    obtain rfl := mem_singleton.mp mem
    exact .value _ _
  · simp

lemma alikeRows : (frame [2, 7]).AlikeRows ["x"] 0 (frame [5, 2, 9]) 1 := by
  intro s mem
  obtain rfl := mem_singleton.mp mem
  exact ⟨_, _, rfl, rfl, rfl, rfl, rfl, rfl, rfl⟩

/-- What is remembered of a first frame. -/
def fitted : Memories := (curve.evaluate (.frame (frame [1, 2, 4])) scope []).2

lemma exists_value {x : Except Fault Value} (succeeds : x.toOption.isSome) : ∃ v, x = .ok v := by
  cases x with
  | error fault => cases succeeds
  | ok v => exact ⟨v, rfl⟩

end Sample

open Sample in
theorem evaluate_determined_by_rows_poly :
    RowwiseCall scope ["x"] curve ∧ (frame [2, 7]).AlikeRows ["x"] 0 (frame [5, 2, 9]) 1 ∧
      ∃ v₀ v v', curve.evaluate (.frame (frame [1, 2, 4])) scope [] = (.ok v₀, fitted) ∧
        (curve.evaluate (.frame (frame [2, 7])) scope fitted).1 = .ok v ∧
        (curve.evaluate (.frame (frame [5, 2, 9])) scope fitted).1 = .ok v' ∧
        curve.evaluate (.frame (frame [1, 2, 4])) scope
          (curve.after scope [.frame (frame [3, 3]), .plain .null] fitted) = (.ok v₀, fitted) ∧
        RowPair.Results ⟨2, 0, 3, 1⟩ v v' := by
  obtain ⟨v₀, first⟩ : ∃ v₀, (curve.evaluate (.frame (frame [1, 2, 4])) scope []).1 = .ok v₀ := by
    apply exists_value
    simp only [curve, evaluate, eval, evalList, evalNamed, resolve_poly, resolve_center]
    decide +kernel
  obtain ⟨v, done⟩ : ∃ v, (curve.evaluate (.frame (frame [2, 7])) scope fitted).1 = .ok v := by
    apply exists_value
    simp only [fitted, curve, evaluate, eval, evalList, evalNamed, resolve_poly, resolve_center]
    decide +kernel
  obtain ⟨v', done'⟩ : ∃ v, (curve.evaluate (.frame (frame [5, 2, 9])) scope fitted).1 = .ok v := by
    apply exists_value
    simp only [fitted, curve, evaluate, eval, evalList, evalNamed, resolve_poly, resolve_center]
    decide +kernel
  obtain ⟨history, again, rows⟩ := evaluate_determined_by_rows rowwise_curve (Prod.ext first rfl)
  refine ⟨rowwise_curve, alikeRows, v₀, v, v', Prod.ext first rfl, done, done', ?_, ?_⟩
  · exact (history _ _).trans again
  · exact rows _ _ _ _ v v' alikeRows done done'

namespace Sample

/-- A categorical column of two whole numbers, one of which a floating point number cannot hold. -/
def codes (xs : List Datum) : Column :=
  .ofCategories xs [.int 9007199254740993, .int 1] false

def complete : Frame :=
  ⟨1, [(.text "f", codes [.int 9007199254740993]),
    (.text "x", ⟨.plain .int, [.int 9007199254740992]⟩)]⟩

/-- The same row before one whose number is none of the two, and so missing. -/
def incomplete : Frame :=
  ⟨2, [(.text "f", codes [.int 9007199254740993, .int 5]),
    (.text "x", ⟨.plain .int, [.int 9007199254740992, .int 0]⟩)]⟩

def comparison : CallExpr := .binary .eq (.name "f") (.name "x")

def truths : Except Fault Value → List Bool
  | .ok (.series c) => c.cells.map Datum.truthy
  | _ => []

end Sample

open Sample in
/-- The cells of a row alone do not determine a value: a missing cell elsewhere turns the whole
numbers of a categorical column into floating point numbers, which compare differently. -/
theorem row_alone_not_enough :
    RowwiseCall scope ["f", "x"] comparison ∧
      (∀ s ∈ ["f", "x"], ∃ c c', complete.column? (.text s) = some c ∧
        incomplete.column? (.text s) = some c' ∧ c.type = c'.type ∧ c.cells[0]? = c'.cells[0]?) ∧
      truths (comparison.evaluate (.frame complete) scope []).1 = [false] ∧
      truths (comparison.evaluate (.frame incomplete) scope
        (comparison.evaluate (.frame complete) scope []).2).1 = [true, false] := by
  refine ⟨.tree ⟨.inr (by simp), .inr (by simp)⟩, ?_, by decide +kernel, by decide +kernel⟩
  intro s member
  simp only [mem_cons, not_mem_nil, or_false] at member
  rcases member with rfl | rfl
  · exact ⟨_, _, rfl, rfl, rfl, by simp [codes, Column.ofCategories]⟩
  · exact ⟨_, _, rfl, rfl, rfl, rfl⟩

end CallExpr

end ModelFormula
