import ModelFormula.Proofs.Algebra.Resolution

/-!
# Where formulas stop

Which faults reading a formula stops with beside those that are meant: a back quote that is not
closed, a tree or an operand that is asked for a part that it has not, and a power whose exponent
has no number.
-/
namespace ModelFormula

open List Token

open Component (unknown)
open Operand

lemma outcome_bind_error {α β : Type} {x : Fit α} {f : α → Fit β} :
    (outcome (x >>= f) σ).1 = .error fault ↔ (outcome x σ).1 = .error fault ∨
      ∃ a ρ, Ends x σ a ρ ∧ (outcome (f a) ρ).1 = .error fault := by
  constructor
  · intro failed
    rw [outcome_bind] at failed
    cases result : outcome x σ with
    | mk r ρ =>
      rw [result] at failed
      cases r with
      | error found =>
        cases failed
        exact .inl rfl
      | ok a => exact .inr ⟨a, ρ, result, failed⟩
  · rintro (failed | ⟨a, ρ, ends, failed⟩)
    · exact fault_bind failed
    · rw [ends.outcome_bind, failed]

namespace Expr

/-- Reading the first tree in the first store comes to the second tree in the second store: all that is
read before has been read. -/
inductive Reaches : Expr → Store → Expr → Store → Prop
  | here (e : Expr) (σ : Store) : Reaches e σ e σ
  | grouping {e d : Expr} {σ τ : Store} (more : Reaches e σ d τ) : Reaches (.grouping e) σ d τ
  | sign {o : Token} {e d : Expr} {σ τ : Store} (sign : o.kind = .plus ∨ o.kind = .minus)
      (more : Reaches e σ d τ) : Reaches (.unary o e) σ d τ
  | left {o : Token} {l r d : Expr} {σ τ : Store}
      (known : o.kind = .tilde ∨ ∃ op, operator? o.kind = some op) (more : Reaches l σ d τ) :
      Reaches (.binary l o r) σ d τ
  | right {o : Token} {op : Operator} {l r d : Expr} {a : Operand} {σ ρ τ : Store}
      (operator : operator? o.kind = some op) (first : Ends (ofExpr l) σ a ρ)
      (more : Reaches r ρ d τ) : Reaches (.binary l o r) σ d τ
  | behindTilde {o : Token} {l r d : Expr} {a : Operand} {t : Term} {σ ρ ρ' τ : Store}
      (tilde : o.kind = .tilde) (first : Ends (ofExpr l) σ a ρ) (response : Ends a.asResponse ρ t ρ')
      (more : Reaches r ρ' d τ) : Reaches (.binary l o r) σ d τ

/-- The tree, or an operand of it, is asked for a part that it has not. -/
inductive Lacks : Expr → Store → Prop
  | assignment (target v : Expr) (σ : Store) : Lacks (.assign target v) σ
  | level {t : Token} {level : Expr} {σ : Store} (other : ∀ v lexeme, level ≠ .literal v lexeme) :
      Lacks (.subset t level) σ
  | call {f d : Expr} {args : List Expr} {σ : Store} (comes : CallExpr.Comes (.call f args) d)
      (nameless : CallExpr.Nameless d) : Lacks (.call f args) σ
  | operation {o : Token} {op : Operator} {l r : Expr} {a b : Operand} {σ ρ τ : Store}
      (operator : operator? o.kind = some op) (first : Ends (ofExpr l) σ a ρ)
      (second : Ends (ofExpr r) ρ b τ) (misses : Misses op a b) : Lacks (.binary l o r) σ

/-- The tree is a power of a model whose exponent gives no number. -/
inductive Unpowered : Expr → Store → Prop
  | operation {o : Token} {op : Operator} {l r : Expr} {a b : Operand} {σ ρ τ : Store}
      (operator : operator? o.kind = some op) (first : Ends (ofExpr l) σ a ρ)
      (second : Ends (ofExpr r) ρ b τ) (powerless : Powerless op a b) : Unpowered (.binary l o r) σ

/-- The call is a term of the tree. -/
inductive Calls : Expr → CallExpr → Prop
  | call {f : Expr} {args : List Expr} {c : CallExpr} (read : CallExpr.ofExpr (.call f args) = .ok c) :
      Calls (.call f args) c
  | grouping {e : Expr} {c : CallExpr} (inner : Calls e c) : Calls (.grouping e) c
  | sign {o : Token} {e : Expr} {c : CallExpr} (inner : Calls e c) : Calls (.unary o e) c
  | left {o : Token} {l r : Expr} {c : CallExpr} (inner : Calls l c) : Calls (.binary l o r) c
  | right {o : Token} {l r : Expr} {c : CallExpr} (inner : Calls r c) : Calls (.binary l o r) c

lemma gives_of_calls (others : ∀ v level, P (.variable v level)) :
    ∀ e : Expr, (∀ c, e.Calls c → P (.call c)) → Gives P e
  | .grouping e, calls => gives_of_calls others e fun c inner => calls c (.grouping inner)
  | .binary l _ r, calls =>
    ⟨gives_of_calls others l fun c inner => calls c (.left inner),
      gives_of_calls others r fun c inner => calls c (.right inner)⟩
  | .unary _ e, calls => gives_of_calls others e fun c inner => calls c (.sign inner)
  | .call _ _, calls => fun c read => calls c (.call read)
  | .name _, _ | .quotedName _, _ => others _ none
  | .subset _ _, _ => fun v _ => others _ (some v)
  | .literal v _, _ => fun _ _ => others v none
  | .assign _ _, _ => trivial

/-! ### What is reached stops the whole -/

variable {e d : Expr} {σ τ : Store} {fault : Fault}

lemma ofExpr_of_tilde (tilde : o.kind = .tilde) : ofExpr (.binary l o r) =
      (ofExpr l >>= fun a => a.asResponse >>= fun t => ofExpr r >>= addToResponse t) := by
  rw [ofExpr, if_pos tilde]

lemma Reaches.stops (reaches : Reaches e σ d τ) (failed : (outcome (ofExpr d) τ).1 = .error fault) :
    (outcome (ofExpr e) σ).1 = .error fault := by
  induction reaches with
  | here => exact failed
  | grouping _ ih =>
    rw [ofExpr]
    exact ih failed
  | sign sign _ ih =>
    rcases sign with plus | minus
    · rw [ofExpr, plus]
      exact ih failed
    · rw [ofExpr, minus]
      exact fault_bind (ih failed)
  | left known _ ih =>
    rcases known with tilde | ⟨op, operator⟩
    · rw [ofExpr_of_tilde tilde]
      exact fault_bind (ih failed)
    · rw [ofExpr_of_operator operator]
      exact fault_bind (ih failed)
  | right operator first _ ih =>
    rw [ofExpr_of_operator operator, first.outcome_bind]
    exact fault_bind (ih failed)
  | behindTilde tilde first response _ ih =>
    rw [ofExpr_of_tilde tilde, first.outcome_bind, response.outcome_bind]
    exact fault_bind (ih failed)

variable {P : Atom → Prop} {o : Operand}

/-- The stores in which trees are read know no kinds. -/
lemma Reaches.untyped (reaches : Reaches e σ d τ) (gives : Gives P e) (untyped : σ.Untyped) :
    τ.Untyped ∧ Gives P d := by
  induction reaches with
  | here => exact ⟨untyped, gives⟩
  | grouping _ ih | sign _ _ ih => exact ih gives untyped
  | left _ _ ih => exact ih gives.1 untyped
  | right _ first _ ih => exact ih gives.2 ((returns_ofExpr _ gives.1).returns untyped first).1
  | behindTilde _ first response _ ih =>
    have before := ((returns_ofExpr _ gives.1).returns untyped first).1
    exact ih gives.2 ((returns_asResponse _).returns before response).1

lemma levelValue_fault (failed : levelValue level = .error fault) :
    fault = .noAttribute ∧ ∀ v lexeme, level ≠ .literal v lexeme := by
  cases level with
  | literal v lexeme => cases failed
  | _ =>
    cases failed
    exact ⟨rfl, fun _ _ => nofun⟩

lemma Lacks.stops (lacks : Lacks e σ) (gives : Gives P e) (untyped : σ.Untyped) :
    (outcome (ofExpr e) σ).1 = .error .noAttribute := by
  cases lacks with
  | assignment =>
    rw [ofExpr]
    rfl
  | @level t level σ other =>
    have missing : levelValue level = .error .noAttribute := by
      cases level with
      | literal v lexeme => exact (other v lexeme rfl).elim
      | _ => rfl
    rw [ofExpr]
    exact fault_bind (by rw [missing]; rfl)
  | call comes nameless =>
    have read := CallExpr.error_of_comes comes nameless
    rw [ofExpr]
    exact fault_bind (by rw [read]; rfl)
  | operation operator first second misses =>
    obtain ⟨between, left⟩ := (returns_ofExpr _ gives.1).returns untyped first
    obtain ⟨after, right⟩ := (returns_ofExpr _ gives.2).returns between second
    rw [ofExpr_of_operator operator, first.outcome_bind, second.outcome_bind]
    exact misses.stops left right after

lemma Unpowered.stops (unpowered : Unpowered e σ) :
    (outcome (ofExpr e) σ).1 = .error .noValue := by
  obtain ⟨operator, first, second, powerless⟩ := unpowered
  rw [ofExpr_of_operator operator, first.outcome_bind, second.outcome_bind]
  exact powerless.stops _

/-! ### What stops the whole is reached -/

/-- A fault that says what is wrong, or one that is found where a part or a number is missing. -/
def Explained (P : Atom → Prop) (e : Expr) (σ : Store) (fault : Fault) : Prop :=
  fault.category ∈ [.resolve, .call, .value, .type] ∨
    (fault = .noAttribute ∧ ((∃ d τ, Reaches e σ d τ ∧ Lacks d τ) ∨ Clashing P)) ∨
      fault = .noValue ∧ ∃ d τ, Reaches e σ d τ ∧ Unpowered d τ

lemma Explained.of_reaches (explained : Explained P e' σ' fault)
    (step : ∀ d τ, Reaches e' σ' d τ → Reaches e σ d τ) : Explained P e σ fault := by
  rcases explained with plain | ⟨rfl, found⟩ | ⟨rfl, d, τ, reaches, unpowered⟩
  · exact .inl plain
  · refine .inr (.inl ⟨rfl, found.imp_left ?_⟩)
    rintro ⟨d, τ, reaches, lacks⟩
    exact ⟨d, τ, step d τ reaches, lacks⟩
  · exact .inr (.inr ⟨rfl, d, τ, step d τ reaches, unpowered⟩)

lemma Explained.of_lacks (lacks : Lacks e σ) : Explained P e σ .noAttribute :=
  .inr (.inl ⟨rfl, .inl ⟨e, σ, .here e σ, lacks⟩⟩)

lemma explained_of_ordinary (ordinary : fault.Ordinary) : Explained P e σ fault := by
  rcases ordinary with value | type
  · exact .inl (by simp [value])
  · exact .inl (by simp [type])

lemma delivers_ofAtom (atom : Atom) : Delivers (ofAtom atom) fun _ => True := by
  apply (runs_newComponent atom).bind
  intro c _
  have alone : Term.distinct unknown [c] = .ok [c] := rfl
  have term : Delivers (Fit.newTerm [c]) fun _ => True := by
    apply (runs_withKinds_ok alone trivial (Q := fun _ => True)).bind
    intro kept _
    exact runs_newSlot.bind fun _ _ => runs_pure trivial
  exact term.bind fun _ _ => runs_pure trivial

lemma not_ofAtom_fault (atom : Atom) (untyped : σ.Untyped) :
    (outcome (ofAtom atom) σ).1 ≠ .error fault :=
  fun failed => (delivers_ofAtom atom).of_error untyped failed

lemma negate_fault (failed : (outcome (negate o) σ).1 = .error fault) : fault = .negatedTerm := by
  unfold negate at failed
  split at failed
  · cases failed
  · cases failed
  · cases failed
    rfl

lemma asResponse_fault (failed : (outcome o.asResponse σ).1 = .error fault) : fault.Ordinary := by
  unfold asResponse at failed
  split at failed
  · split at failed
    · cases failed
    · cases failed
      exact .inl rfl
  · cases failed
    exact .inl rfl

lemma addToResponse_fault (failed : (outcome (addToResponse t o) σ).1 = .error fault) :
    fault.Ordinary := by
  unfold addToResponse at failed
  split at failed
  · cases failed
    exact .inr rfl
  · cases failed
  · cases failed
  · cases failed
    exact .inr rfl

lemma explained_of_operation {o : Token} {op : Operator} (gives : Gives P (.binary l o r))
    (untyped : σ.Untyped) (operator : operator? o.kind = some op) (first : Ends (ofExpr l) σ a ρ)
    (second : Ends (ofExpr r) ρ b τ) (failed : (outcome (operate op a b) τ).1 = .error fault) :
    Explained P (.binary l o r) σ fault := by
  obtain ⟨between, left⟩ := (throughout_of_ofExpr l gives.1).returns untyped first
  obtain ⟨after, right⟩ := (throughout_of_ofExpr r gives.2).returns between second
  have comparable : ∀ m n, a = .model m → b = .model n → ∀ fault, m.same unknown n = .error fault →
      Explained P (.binary l o r) σ fault := by
    rintro m n rfl rfl fault failed
    rcases Model.same_fault left.all right.all left.response right.response failed with
      rfl | ⟨rfl, clash⟩
    · exact explained_of_ordinary (.inr rfl)
    · exact .inr (.inl ⟨rfl, .inr clash⟩)
  have runs := runs_operate (R := Explained P (.binary l o r) σ)
    (fun clash => .inr (.inl ⟨rfl, .inr clash⟩)) (fun _ => explained_of_ordinary) op left.all right.all
    comparable (fun misses => .of_lacks (.operation operator first second misses))
    fun powerless => .inr (.inr ⟨rfl, _, _, .here _ _, .operation operator first second powerless⟩)
  exact runs.of_error after failed

lemma explained_of_fault : ∀ (e : Expr) (σ : Store), Gives P e → σ.Untyped →
    (outcome (ofExpr e) σ).1 = .error fault → Explained P e σ fault
  | .grouping e, σ, gives, untyped, failed => by
    rw [ofExpr] at failed
    exact (explained_of_fault e σ gives untyped failed).of_reaches fun _ _ => .grouping
  | .binary l o r, σ, gives, untyped, failed => by
    by_cases tilde : o.kind = .tilde
    · rw [ofExpr_of_tilde tilde] at failed
      rcases outcome_bind_error.mp failed with failed | ⟨a, ρ, first, failed⟩
      · exact (explained_of_fault l σ gives.1 untyped failed).of_reaches fun _ _ => .left (.inl tilde)
      rcases outcome_bind_error.mp failed with failed | ⟨t, ρ', response, failed⟩
      · exact explained_of_ordinary (asResponse_fault failed)
      have between := ((returns_ofExpr l gives.1).returns untyped first).1
      have marked := ((returns_asResponse a).returns between response).1
      rcases outcome_bind_error.mp failed with failed | ⟨b, τ, _, failed⟩
      · exact (explained_of_fault r ρ' gives.2 marked failed).of_reaches fun _ _ =>
          .behindTilde tilde first response
      · exact explained_of_ordinary (addToResponse_fault failed)
    cases operator : operator? o.kind with
    | none =>
      rw [ofExpr, if_neg tilde, operator] at failed
      cases failed
      exact .inl (Mem.head _)
    | some op =>
      rw [ofExpr_of_operator operator] at failed
      rcases outcome_bind_error.mp failed with failed | ⟨a, ρ, first, failed⟩
      · exact (explained_of_fault l σ gives.1 untyped failed).of_reaches fun _ _ =>
          .left (.inr ⟨op, operator⟩)
      have between := ((returns_ofExpr l gives.1).returns untyped first).1
      rcases outcome_bind_error.mp failed with failed | ⟨b, τ, second, failed⟩
      · exact (explained_of_fault r ρ gives.2 between failed).of_reaches fun _ _ =>
          .right operator first
      · exact explained_of_operation gives untyped operator first second failed
  | .unary o e, σ, gives, untyped, failed => by
    rw [ofExpr] at failed
    split at failed
    next plus =>
      exact (explained_of_fault e σ gives untyped failed).of_reaches fun _ _ => .sign (.inl plus)
    next minus =>
      rcases outcome_bind_error.mp failed with failed | ⟨a, ρ, _, failed⟩
      · exact (explained_of_fault e σ gives untyped failed).of_reaches fun _ _ => .sign (.inr minus)
      · obtain rfl := negate_fault failed
        exact .inl (Mem.head _)
    · cases failed
      exact .inl (Mem.head _)
  | .call f args, σ, gives, untyped, failed => by
    rw [ofExpr] at failed
    rcases outcome_bind_error.mp failed with failed | ⟨c, ρ, read, failed⟩
    · have stuck : CallExpr.ofExpr (.call f args) = .error fault := failed
      rcases CallExpr.comes_of_error _ stuck with call | ⟨rfl, d, comes, nameless⟩
      · exact .inl (by simp [call])
      · exact .of_lacks (.call comes nameless)
    · obtain ⟨_, rfl⟩ := ends_lift.mp read
      exact (not_ofAtom_fault _ untyped failed).elim
  | .name t, σ, _, untyped, failed | .quotedName t, σ, _, untyped, failed => by
    rw [ofExpr] at failed
    exact (not_ofAtom_fault _ untyped failed).elim
  | .subset t level, σ, _, untyped, failed => by
    rw [ofExpr] at failed
    rcases outcome_bind_error.mp failed with failed | ⟨v, ρ, read, failed⟩
    · obtain ⟨rfl, other⟩ := levelValue_fault failed
      exact .of_lacks (.level other)
    · obtain ⟨_, rfl⟩ := ends_lift.mp read
      exact (not_ofAtom_fault _ untyped failed).elim
  | .literal v lexeme, σ, _, untyped, failed => by
    rw [ofExpr] at failed
    split at failed
    · cases failed
    · split at failed
      · cases failed
      · exact (not_ofAtom_fault _ untyped failed).elim
  | .assign target v, σ, _, _, failed => by
    rw [ofExpr] at failed
    cases failed
    exact .of_lacks (.assignment target v σ)

end Expr

/-! ### Formulas -/

/-- The formula has the tree. -/
def Expr.OfFormula (formula : String) (e : Expr) : Prop :=
  ∃ ts, scan formula = .ok ts ∧ Expr.parse ts = .ok e

/-- Reading the formula stops with a fault of the category. -/
def Operand.Stops (formula : String) (category : Fault.Category) : Prop :=
  ∃ fault, (outcome (ofFormula formula) {}).1 = .error fault ∧ fault.category = category

lemma Expr.parse_fault (failed : parse ts = .error fault) : fault.category = .parse := by
  have sound := read_sound .expression ts
  rw [Sound, ← parseFront_eq_read] at sound
  rw [parse] at failed
  cases returned : parseFront ts with
  | ok p =>
    rw [returned] at failed
    cases failed
  | error found =>
    rw [returned] at failed sound
    cases failed
    exact sound

variable {formula : String} {fault : Fault}

/-- A formula stops when it is cut into tokens, when their tree is read or when the tree is resolved. -/
lemma outcome_ofFormula_error :
    (outcome (ofFormula formula) {}).1 = .error fault ↔ scan formula = .error fault ∨
      (∃ ts, scan formula = .ok ts ∧ Expr.parse ts = .error fault) ∨
        ∃ e, e.OfFormula formula ∧ (outcome (ofExpr e) {}).1 = .error fault := by
  constructor
  · intro failed
    rcases outcome_bind_error.mp failed with failed | ⟨ts, ρ, lifted, failed⟩
    · exact .inl failed
    obtain ⟨scanned, rfl⟩ := ends_lift.mp lifted
    rcases outcome_bind_error.mp failed with failed | ⟨e, ρ, lifted, failed⟩
    · exact .inr (.inl ⟨ts, scanned, failed⟩)
    obtain ⟨parsed, rfl⟩ := ends_lift.mp lifted
    exact .inr (.inr ⟨e, ⟨ts, scanned, parsed⟩, failed⟩)
  · rintro (failed | ⟨ts, scanned, failed⟩ | ⟨e, ⟨ts, scanned, parsed⟩, failed⟩)
    · exact outcome_bind_error.mpr (.inl failed)
    · refine outcome_bind_error.mpr (.inr ⟨ts, {}, ends_lift.mpr ⟨scanned, rfl⟩, ?_⟩)
      exact outcome_bind_error.mpr (.inl failed)
    · refine outcome_bind_error.mpr (.inr ⟨ts, {}, ends_lift.mpr ⟨scanned, rfl⟩, ?_⟩)
      exact outcome_bind_error.mpr (.inr ⟨e, {}, ends_lift.mpr ⟨parsed, rfl⟩, failed⟩)

/-- A call that is a term of the tree, or no call at all. -/
def Expr.Holds (e : Expr) (atom : Atom) : Prop := ∀ c, atom = .call c → e.Calls c

lemma Expr.gives_holds (e : Expr) : Gives e.Holds e :=
  gives_of_calls (fun _ _ _ => nofun) e fun c calls d same => by
    cases same
    exact calls

lemma clashing_holds {e : Expr} (clash : Clashing e.Holds) :
    ∃ a b, e.Calls a ∧ e.Calls b ∧ CallExpr.Clash a b := by
  obtain ⟨a, b, first, second, clash⟩ := clash
  exact ⟨a, b, first a rfl, second b rfl, clash⟩

/-- Where a formula can stop, and with which faults. -/
lemma ofFormula_fault (failed : (outcome (ofFormula formula) {}).1 = .error fault) :
    (scan formula = .error fault ∧ fault.category ∈ [.scan, .value, .index]) ∨
      fault.category = .parse ∨ ∃ e : Expr, e.OfFormula formula ∧ e.Explained e.Holds {} fault := by
  rcases outcome_ofFormula_error.mp failed with scan | ⟨ts, _, parse⟩ | ⟨e, tree, resolve⟩
  · exact .inl ⟨scan, scan_category scan⟩
  · exact .inr (.inl (Expr.parse_fault parse))
  · exact .inr (.inr ⟨e, tree, e.explained_of_fault {} e.gives_holds Store.untyped_empty resolve⟩)

/-- A formula is read, or it stops with one of nine categories. -/
lemma ends_or_stops (formula : String) : (∃ o τ, Ends (ofFormula formula) {} o τ) ∨
    ∃ category ∈ [.scan, .parse, .resolve, .call, .value, .type, .index, .attribute, .unassigned],
      Stops formula category := by
  cases result : outcome (ofFormula formula) {} with
  | mk r τ =>
    cases r with
    | ok o => exact .inl ⟨o, τ, result⟩
    | error fault =>
      have failed : (outcome (ofFormula formula) {}).1 = .error fault := by rw [result]
      refine .inr ⟨fault.category, ?_, fault, failed, rfl⟩
      rcases ofFormula_fault failed with ⟨_, scan⟩ | parse | ⟨e, _, plain | ⟨rfl, _⟩ | ⟨rfl, _⟩⟩
      · simp only [mem_cons, not_mem_nil, or_false] at scan ⊢
        tauto
      · simp [parse]
      · simp only [mem_cons, not_mem_nil, or_false] at plain ⊢
        tauto
      · decide
      · decide

lemma stops_index_iff : Stops formula .index ↔
    ∃ rest, Token.Leaves formula.toList (backQuote :: rest) ∧ backQuote ∉ rest := by
  have scanned : (∃ fault, scan formula = .error fault ∧ fault.category = .index) ↔ _ :=
    scan_index_iff
  rw [← scanned]
  constructor
  · rintro ⟨fault, failed, index⟩
    rcases ofFormula_fault failed with ⟨scan, _⟩ | parse | ⟨e, _, plain | ⟨rfl, _⟩ | ⟨rfl, _⟩⟩
    · exact ⟨fault, scan, index⟩
    · rw [index] at parse
      cases parse
    · rw [index] at plain
      exact absurd plain (by decide)
    · cases index
    · cases index
  · rintro ⟨fault, scan, index⟩
    exact ⟨fault, outcome_ofFormula_error.mpr (.inl scan), index⟩

lemma explained_of_stops (stops : Stops formula category)
    (late : category ∉ [.scan, .value, .index, .parse]) : ∃ (fault : Fault) (e : Expr),
      fault.category = category ∧ e.OfFormula formula ∧ e.Explained e.Holds {} fault := by
  obtain ⟨fault, failed, rfl⟩ := stops
  rcases ofFormula_fault failed with ⟨_, scan⟩ | parse | ⟨e, tree, explained⟩
  · have wider : [Fault.Category.scan, .value, .index] ⊆ [.scan, .value, .index, .parse] := by decide
    exact absurd (wider scan) late
  · exact absurd (by simp [parse]) late
  · exact ⟨fault, e, rfl, tree, explained⟩

lemma stops_of_reaches {e d : Expr} (tree : e.OfFormula formula) (reaches : e.Reaches {} d σ)
    (failed : (outcome (ofExpr d) σ).1 = .error fault) : Stops formula fault.category :=
  ⟨fault, outcome_ofFormula_error.mpr (.inr (.inr ⟨e, tree, reaches.stops failed⟩)), rfl⟩

lemma lacks_of_stops (stops : Stops formula .attribute) :
    ∃ e : Expr, e.OfFormula formula ∧ ((∃ d σ, e.Reaches {} d σ ∧ Expr.Lacks d σ) ∨
      ∃ a b, e.Calls a ∧ e.Calls b ∧ CallExpr.Clash a b) := by
  obtain ⟨fault, e, category, tree, plain | ⟨rfl, found⟩ | ⟨rfl, _⟩⟩ :=
    explained_of_stops stops (by decide)
  · rw [category] at plain
    exact absurd plain (by decide)
  · exact ⟨e, tree, found.imp_right clashing_holds⟩
  · cases category

lemma stops_of_lacks {e d : Expr} (tree : e.OfFormula formula) (reaches : e.Reaches {} d σ)
    (lacks : d.Lacks σ) : Stops formula .attribute := by
  obtain ⟨untyped, gives⟩ := reaches.untyped e.gives_holds Store.untyped_empty
  exact stops_of_reaches tree reaches (lacks.stops gives untyped)

lemma stops_unassigned_iff : Stops formula .unassigned ↔
    ∃ (e d : Expr) (σ : Store), e.OfFormula formula ∧ e.Reaches {} d σ ∧ d.Unpowered σ := by
  constructor
  · intro stops
    obtain ⟨fault, e, category, tree, plain | ⟨rfl, _⟩ | ⟨rfl, d, σ, found⟩⟩ :=
      explained_of_stops stops (by decide)
    · rw [category] at plain
      exact absurd plain (by decide)
    · cases category
    · exact ⟨e, d, σ, tree, found⟩
  · rintro ⟨e, d, σ, tree, reaches, unpowered⟩
    exact stops_of_reaches tree reaches unpowered.stops

/-- A formula is read, or it stops with one of nine categories of faults. The three that say nothing
about the formula have these causes: reading runs out of characters just when a back quote is not
closed; a part is missing just when reading comes to a tree that lacks it, or when two calls in the
formula clash; a value is missing just when reading comes to a power of a model whose exponent is a
single component but no number from one on. -/
theorem ofFormula_stops (formula : String) :
    ((∃ o τ, Ends (ofFormula formula) {} o τ) ∨
      ∃ category ∈ [.scan, .parse, .resolve, .call, .value, .type, .index, .attribute, .unassigned],
        Stops formula category) ∧
    (Stops formula .index ↔
      ∃ rest, Token.Leaves formula.toList (backQuote :: rest) ∧ backQuote ∉ rest) ∧
    (Stops formula .attribute → ∃ e : Expr, e.OfFormula formula ∧
      ((∃ d σ, e.Reaches {} d σ ∧ Expr.Lacks d σ) ∨
        ∃ a b, e.Calls a ∧ e.Calls b ∧ CallExpr.Clash a b)) ∧
    (∀ (e d : Expr) (σ : Store), e.OfFormula formula → e.Reaches {} d σ → d.Lacks σ →
      Stops formula .attribute) ∧
    (Stops formula .unassigned ↔
      ∃ (e d : Expr) (σ : Store), e.OfFormula formula ∧ e.Reaches {} d σ ∧ d.Unpowered σ) :=
  ⟨ends_or_stops formula, stops_index_iff, lacks_of_stops,
    fun _ _ _ tree reaches lacks => stops_of_lacks tree reaches lacks, stops_unassigned_iff⟩

/-- An unclosed back quote, the intercept as an exponent and a name as one. -/
theorem ofFormula_stops_unexplained :
    Stops "`a" .index ∧ Stops "x ** 1" .attribute ∧ Stops "(x + y) ** z" .unassigned := by
  let x : Token := ⟨.identifier, "x", none⟩
  let y : Token := ⟨.identifier, "y", none⟩
  let z : Token := ⟨.identifier, "z", none⟩
  let power : Token := ⟨.starStar, "**", none⟩
  let opening : Token := ⟨.leftParen, "(", none⟩
  let closing : Token := ⟨.rightParen, ")", none⟩
  let plus := plusSign
  refine ⟨stops_index_iff.mpr ⟨['a'], .refl _, by decide⟩, ?_, ?_⟩
  · have scanned : scan "x ** 1" = .ok [one, plus, x, power, one, endMark] := by
      have read : tokens "x ** 1".toList = .ok [x, power, one] := by cbv
      rw [scan_eq_complete (by decide), read]
      rfl
    let tree : Expr := .binary (.literal (.int 1) none) plus
      (.binary (.name x) power (.literal (.int 1) none))
    have parsed : Expr.parse [one, plus, x, power, one, endMark] = .ok tree := by cbv
    have failed : (outcome (ofExpr tree) {}).1 = .error .noAttribute := by cbv
    exact ⟨_, outcome_ofFormula_error.mpr (.inr (.inr ⟨tree, ⟨_, scanned, parsed⟩, failed⟩)), rfl⟩
  · have scanned : scan "(x + y) ** z" = .ok [one, plus, opening, x, plus, y,
        closing, power, z, endMark] := by
      have read : tokens "(x + y) ** z".toList =
          .ok [opening, x, plus, y, closing, power, z] := by cbv
      rw [scan_eq_complete (by decide), read]
      rfl
    let tree : Expr := .binary (.literal (.int 1) none) plus
      (.binary (.grouping (.binary (.name x) plus (.name y))) power (.name z))
    have parsed : Expr.parse [one, plus, opening, x, plus, y, closing, power, z,
        endMark] = .ok tree := by
      dsimp only [tree, power, opening, closing, plus, x, y, z]
      cbv
    have failed : (outcome (ofExpr tree) {}).1 = .error .noValue := by cbv
    exact ⟨_, outcome_ofFormula_error.mpr (.inr (.inr ⟨tree, ⟨_, scanned, parsed⟩, failed⟩)), rfl⟩

end ModelFormula
