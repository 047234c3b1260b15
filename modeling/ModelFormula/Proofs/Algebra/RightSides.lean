import ModelFormula.Proofs.Algebra.DistinctParts
import ModelFormula.Proofs.Algebra.RunningSums

/-!
# Right sides made of signed items

The right side of a formula is a row of items with signs. It says what a machine does that goes
through the items and keeps a set of terms and a flag for the intercept.
-/
namespace ModelFormula

open List Operand Token Marking ModelFormula.Expr

/-! ### Items -/

/-- The name of a variable and its level. -/
abbrev Label := String × Option String

/-- What a row is made of. What varies in a grouping is the intercept, or an interaction with it. -/
inductive Item where
  | add (s : List Label)
  | remove (s : List Label)
  | one
  | zero
  | minusOne
  | group (s : Option (List Label)) (factor : List Label)
deriving DecidableEq

/-- What the items so far amount to: the common terms, whether there is an intercept, and the
group-specific terms, each of the intercept or of a term, over a factor. -/
structure Tally where
  terms : Finset (List Label) := ∅
  intercept : Bool := true
  groups : Finset (Option (List Label) × List Label) := ∅
deriving DecidableEq

namespace Item

def run (y : Tally) : Item → Tally
  | add s => { y with terms := insert s y.terms }
  | remove s => { y with terms := y.terms.erase s }
  | one => { y with intercept := true }
  | zero => { y with intercept := false }
  | minusOne => { y with intercept := false }
  | group none factor => { y with groups := insert (none, factor) y.groups }
  | group (some s) factor =>
    { y with groups := insert (none, factor) (insert (some s, factor) y.groups) }

/-- The item adds some term, common or group-specific. -/
def addsTerm : Item → Bool
  | add _ | group _ _ => true
  | remove _ | one | zero | minusOne => false

def total (items : List Item) : Tally := items.foldl run {}

end Item

namespace Tally

/-- The common effects, where the intercept is none of the terms. -/
def effects (y : Tally) : Finset (Option (List Label)) :=
  y.terms.image some ∪ if y.intercept then {none} else ∅

variable (y : Tally)

@[simp] lemma some_mem_effects {s : List Label} : some s ∈ y.effects ↔ s ∈ y.terms := by
  unfold effects
  cases y.intercept <;> simp

@[simp] lemma none_mem_effects : none ∈ y.effects ↔ y.intercept := by
  unfold effects
  cases y.intercept <;> simp

lemma effects_add (s : List Label) :
    ((Item.add s).run y).effects = insert (some s) y.effects := by
  ext x
  cases x <;> simp [Item.run]

lemma effects_remove (s : List Label) :
    ((Item.remove s).run y).effects = y.effects.erase (some s) := by
  ext x
  cases x <;> simp [Item.run]

lemma effects_one : (Item.one.run y).effects = insert none y.effects := by
  ext x
  cases x <;> simp [Item.run]

lemma effects_zero : (Item.zero.run y).effects = y.effects.erase none := by
  ext x
  cases x <;> simp [Item.run]

lemma effects_minusOne : (Item.minusOne.run y).effects = y.effects.erase none := effects_zero y

/-- A grouping leaves the common effects alone. -/
lemma effects_group (s : Option (List Label)) (factor : List Label) :
    ((Item.group s factor).run y).effects = y.effects := by
  cases s <;> rfl

lemma groups_group (s : Option (List Label)) (factor : List Label) :
    ((Item.group s factor).run y).groups = y.groups ∪ ({none, s} : Finset _) ×ˢ {factor} := by
  ext x
  cases s <;> simp [Item.run, Prod.ext_iff]

end Tally

/-! ### How items are written -/

namespace Expr

/-- The tree is an interaction of variables, or a single one, with these labels. -/
def Interacts (e : Expr) (s : List Label) : Prop :=
  e.Sums Atom.IsNamed ∧ e.outline Atom.label = .term s

/-- A sign in front of a phrase goes to its first operand. -/
def signed (sign : Token) : Expr → Expr
  | .binary l o r => .binary (signed sign l) o r
  | e => .unary sign e

variable {sign : Token} {w : List Token} {e : Expr}

lemma Derives.signed_unary (derives : Derives S w e)
    (tight : S = .unary ∨ S = .call ∨ S = .primary) : e.signed sign = .unary sign e := by
  induction derives with
  | unsigned _ ih => exact ih (.inr (.inl rfl))
  | uncalled _ ih => exact ih (.inr (.inr rfl))
  | assignment | expression | response | tilde | operation | operand => simp at tight
  | levelString | levelName | levelQuotedName | levelGrouping | levelBraces => simp at tight
  | sign | emptyCall | call | name | subset | number | string | quotedName | grouping | braces => rfl

lemma Derives.signed (isSign : sign.kind = .plus ∨ sign.kind = .minus)
    (derives : Derives (.level l) w e) : Derives (.level l) (sign :: w) (e.signed sign) := by
  generalize shape : Symbol.level l = S at derives
  induction derives generalizing l with
  | @operation level v w t left r _ operator right ih =>
    exact .operation (v := sign :: v) (ih rfl) operator right
  | @operand level w e inner ih =>
    -- the operands of the tightest level take a sign, the others are levels themselves
    cases level with
    | power =>
      rw [inner.signed_unary (.inl rfl)]
      exact .operand (.sign isSign inner)
    | group | comparison | sum | product | interaction => exact .operand (ih rfl)
  | assignment | expression | response | tilde | sign | unsigned | emptyCall | call => cases shape
  | uncalled | name | subset | number | string | quotedName | grouping | braces => cases shape
  | levelString | levelName | levelQuotedName | levelGrouping | levelBraces => cases shape

/-- A plus sign makes no difference. -/
lemma ofExpr_signed_plus (isPlus : sign.kind = .plus) (e : Expr) :
    ofExpr (e.signed sign) = ofExpr e := by
  have unary : ∀ e, ofExpr (.unary sign e) = ofExpr e := by
    intro e
    rw [ofExpr.eq_def]
    simp only [isPlus]
  cases e with
  | binary l o r => rw [signed, ofExpr, ofExpr, ofExpr_signed_plus isPlus l]
  | grouping | unary | call | name | subset | quotedName | literal | assign => exact unary _

end Expr

namespace Item

/-- The item is written as a sign of this kind in front of the operand. -/
inductive Spells : Item → Token.Kind → Expr → Prop
  | add {e : Expr} {s : List Label} (term : e.Interacts s) : Spells (.add s) .plus e
  | remove {e : Expr} {s : List Label} (term : e.Interacts s) : Spells (.remove s) .minus e
  | one (lexeme : Option String) : Spells .one .plus (.literal (.int 1) lexeme)
  | zero (lexeme : Option String) : Spells .zero .plus (.literal (.int 0) lexeme)
  | minusOne (lexeme : Option String) : Spells .minusOne .minus (.literal (.int 1) lexeme)
  | groupOne {bar : Token} {f : Expr} {factor : List Label} (lexeme : Option String)
      (isBar : bar.kind = .pipe) (grouped : f.Interacts factor) :
      Spells (.group none factor) .plus (.grouping (.binary (.literal (.int 1) lexeme) bar f))
  | group {bar : Token} {e f : Expr} {s factor : List Label} (term : e.Interacts s)
      (isBar : bar.kind = .pipe) (grouped : f.Interacts factor) :
      Spells (.group (some s) factor) .plus (.grouping (.binary e bar f))

/-- The tokens are the sign of the item and its operand. -/
def Written (i : Item) (w : List Token) : Prop :=
  ∃ sign v e, w = sign :: v ∧ Derives (.level .product) v e ∧ i.Spells sign.kind e

lemma Spells.isSign {i : Item} {kind : Token.Kind} {e : Expr} (spells : i.Spells kind e) :
    kind = .plus ∨ kind = .minus := by
  cases spells <;> simp

end Item

/-! ### Operands of the items -/

namespace Expr

variable {e f : Expr}

lemma Interacts.delivers (term : e.Interacts s) :
    Delivers (ofExpr e) fun o => ∃ t, o = .ofTerm t ∧ Marking.names.IsTerm t ∧
      Marking.names.marks t.components = s := by
  apply (delivers_outline Marking.names e term.1).imp
  intro o drawn
  have shape : e.outline Marking.names.mark = .term s := term.2
  rw [shape] at drawn
  cases drawn with
  | @term t s ordered => exact ⟨t, rfl, ordered.terms t mem_cons_self, by simpa using ordered.marks⟩

lemma Interacts.terms {s : List Label} (term : e.Interacts s) : e.terms Marking.names.mark = {s} := by
  have shape : e.outline Marking.names.mark = .term s := term.2
  rw [← toFinset_outline, shape]
  rfl

/-- The group-specific terms of a grouping. -/
def Groups (s : Option (List Label)) (factor : List Label) (o : Operand) : Prop :=
  ∃ gs, o.Groups gs ∧ (∀ g ∈ gs, Marking.names.IsGroup g) ∧
    (gs.map Marking.names.pair).toFinset = ({none, s} : Finset _) ×ˢ {factor}

lemma groups_of_crosses (crosses : Marking.names.Crosses o {none, s} {factor}) :
    Groups s factor o := by
  obtain ⟨gs, shape, pairs⟩ := crosses
  exact ⟨gs, shape, fun g mem => ⟨pairs.exprs g mem, pairs.factors g mem⟩, pairs.marks⟩

lemma delivers_groupOne (lexeme : Option String) (isBar : bar.kind = .pipe)
    (grouped : f.Interacts factor) :
    Delivers (ofExpr (.grouping (.binary (.literal (.int 1) lexeme) bar f)))
      (Groups none factor) := by
  rw [ofExpr]
  apply runs_operation isBar rfl (delivers_one lexeme) (delivers_ofExpr Marking.names f grouped.1)
  rintro _ b ⟨_, ⟨slot, rfl⟩, _, rfl⟩ other
  rw [grouped.terms] at other
  apply (delivers_bar_intercept slot other).imp
  intro o crosses
  exact groups_of_crosses (by simpa using crosses)

lemma delivers_group (term : e.Interacts s) (isBar : bar.kind = .pipe)
    (grouped : f.Interacts factor) :
    Delivers (ofExpr (.grouping (.binary e bar f))) (Groups (some s) factor) := by
  rw [ofExpr]
  apply runs_operation isBar rfl term.delivers (delivers_ofExpr Marking.names f grouped.1)
  rintro _ b ⟨t, rfl, valid, rfl⟩ other
  rw [grouped.terms] at other
  apply (delivers_bar_term valid other).imp
  exact fun o => groups_of_crosses

end Expr

/-! ### Steps -/

/-- The operand is what the machine has come to. -/
def Tally.Reflected (y : Tally) (begun : Bool) (o : Operand) : Prop :=
  names.Reflects o begun y.effects y.groups

section Steps

variable {i : Item} {y : Tally} {begun : Bool} {e : Expr} {sign : Token}

/-- A step of the machine behind a sum. Nothing but an intercept can be taken away as long as the sum
is an intercept alone. -/
lemma Item.Spells.delivers (spells : i.Spells sign.kind e) (ready : ∀ s, i = .remove s → begun)
    (reflected : Delivers (ofExpr acc) (y.Reflected begun)) :
    Delivers (ofExpr (.binary acc sign e)) ((i.run y).Reflected (begun || i.addsTerm)) := by
  generalize kind : sign.kind = k at spells
  unfold Tally.Reflected
  cases spells with
  | add term =>
    apply runs_operation kind rfl reflected term.delivers
    rintro a b own ⟨t, rfl, valid, rfl⟩
    rw [Tally.effects_add, Item.addsTerm, Bool.or_true]
    exact own.delivers_addTerm valid
  | remove term =>
    obtain rfl := ready _ rfl
    apply runs_operation kind rfl reflected term.delivers
    rintro a b own ⟨t, rfl, valid, rfl⟩
    rw [Tally.effects_remove]
    exact own.delivers_subTerm valid
  | one lexeme =>
    apply runs_operation kind rfl reflected (delivers_one lexeme)
    rintro a b own ⟨_, ⟨slot, rfl⟩, _, rfl⟩
    rw [Tally.effects_one, Item.addsTerm, Bool.or_false]
    exact own.delivers_addIntercept slot
  | zero lexeme =>
    apply runs_operation kind rfl reflected (delivers_zero lexeme)
    rintro a b own ⟨_, rfl, _, rfl⟩
    rw [Tally.effects_zero, Item.addsTerm, Bool.or_false]
    exact own.delivers_addNegated
  | minusOne lexeme =>
    apply runs_operation kind rfl reflected (delivers_one lexeme)
    rintro a b own ⟨_, ⟨slot, rfl⟩, _, rfl⟩
    rw [Tally.effects_minusOne, Item.addsTerm, Bool.or_false]
    exact own.delivers_subIntercept slot
  | groupOne lexeme isBar grouped =>
    apply runs_operation kind rfl reflected (delivers_groupOne lexeme isBar grouped)
    rintro a b own ⟨gs, shape, group, marks⟩
    rw [Tally.effects_group, Tally.groups_group, ← marks, Item.addsTerm, Bool.or_true]
    exact own.delivers_addGroups shape group
  | group term isBar grouped =>
    apply runs_operation kind rfl reflected (delivers_group term isBar grouped)
    rintro a b own ⟨gs, shape, group, marks⟩
    rw [Tally.effects_group, Tally.groups_group, ← marks, Item.addsTerm, Bool.or_true]
    exact own.delivers_addGroups shape group

/-- The first item has its own sign, behind that of the implicit intercept. -/
lemma Item.Spells.delivers_signed {own : Token} (isPlus : sign.kind = .plus)
    (spells : i.Spells own.kind e) (adds : ∀ s, i ≠ .remove s)
    (reflected : Delivers (ofExpr acc) (y.Reflected begun)) :
    Delivers (ofExpr (.binary acc sign (e.signed own)))
      ((i.run y).Reflected (begun || i.addsTerm)) := by
  have ready : ∀ s, i = .remove s → begun := fun s removal => (adds s removal).elim
  rcases spells.isSign with plus | minus
  · have same : ofExpr (.binary acc sign (e.signed own)) = ofExpr (.binary acc sign e) := by
      rw [ofExpr, ofExpr, ofExpr_signed_plus plus]
    rw [same]
    rw [plus, ← isPlus] at spells
    exact spells.delivers ready reflected
  · -- of the two items with a minus sign, only the intercept can come first
    rw [minus] at spells
    cases spells with
    | remove => exact (adds _ rfl).elim
    | minusOne lexeme =>
      have negated : Delivers (ofExpr (.unary own (.literal (.int 1) lexeme)))
          (· = .ofEffect .negated) := by
        rw [ofExpr]
        simp only [minus]
        apply (delivers_one lexeme).bind
        rintro _ ⟨_, ⟨slot, rfl⟩, _, rfl⟩
        exact runs_pure rfl
      apply runs_operation isPlus rfl reflected negated
      rintro a _ before rfl
      unfold Tally.Reflected
      rw [Tally.effects_minusOne, Item.addsTerm, Bool.or_false]
      exact before.delivers_addNegated

/-- A row behind a sum: the grammar reads it as a longer sum, which is resolved to what the machine
comes to. -/
lemma delivers_row {items : List Item} {written : List (List Token)} {v : List Token}
    (spelled : List.Forall₂ Item.Written items written)
    (derives : Derives (.level .sum) v acc)
    (reflected : Delivers (ofExpr acc) (y.Reflected begun))
    (removals : ∀ before s after, items = before ++ .remove s :: after →
      begun ∨ ∃ i ∈ before, i.addsTerm) :
    ∃ e begun, Derives (.level .sum) (v ++ written.flatten) e ∧
      Delivers (ofExpr e) ((items.foldl Item.run y).Reflected begun) := by
  induction spelled generalizing v acc y begun with
  | nil => exact ⟨acc, begun, by simpa using derives, reflected⟩
  | @cons i w items written first others ih =>
    obtain ⟨sign, u, e, rfl, operand, spells⟩ := first
    have ready : ∀ s, i = .remove s → begun := by
      rintro s rfl
      simpa using removals [] s items rfl
    have isOperator : sign.kind ∈ Parse.Level.sum.operators := by
      rcases spells.isSign with plus | minus
      · simp [plus, Parse.Level.operators]
      · simp [minus, Parse.Level.operators]
    have next := ih (.operation derives isOperator operand) (spells.delivers ready reflected) ?_
    · simpa using next
    · intro before s after split
      rcases removals (i :: before) s after (by rw [split]; rfl) with begun | ⟨j, mem, adds⟩
      · simp [begun]
      · rcases mem_cons.mp mem with rfl | earlier
        · simp [adds]
        · exact .inr ⟨j, earlier, adds⟩

end Steps

/-! ### Formulas -/

/-- The model has exactly the common effects and the group-specific terms that the machine has come
to, and no common effect twice. -/
structure Tally.Describes (y : Tally) (m : Model) : Prop where
  effects : ∀ e ∈ m.common, names.IsExpr e
  distinct : (m.common.map names.marks?).Nodup
  terms : ∀ s, some s ∈ m.common.map names.marks? ↔ s ∈ y.terms
  intercept : none ∈ m.common.map names.marks? ↔ y.intercept = true
  grouped : ∀ g ∈ m.group, names.IsGroup g
  groups : (m.group.map names.pair).toFinset = y.groups

section Formulas

variable {formula : String} {left right : List Token}

lemma describes_of_holds {y : Tally} (t : Term) (holds : names.Holds m y.effects y.groups) :
    y.Describes { m with response := some t } := by
  have mem : ∀ x, x ∈ m.common.map names.marks? ↔ x ∈ y.effects := by
    intro x
    rw [← holds.effects.marks, mem_toFinset]
  exact ⟨holds.effects.valid, holds.distinct, fun s => (mem _).trans (y.some_mem_effects),
    (mem _).trans y.none_mem_effects, holds.grouped, holds.groups⟩

lemma delivers_asResponse (single : names.marks t.components = [k]) :
    Delivers (asResponse (.ofTerm t)) (· = t) := by
  obtain ⟨c, cs, shape, -, rest⟩ := map_eq_cons_iff.mp single
  rw [map_eq_nil_iff.mp rest] at shape
  simp only [asResponse, ofTerm, shape]
  exact fun _ untyped => ⟨untyped.modify c.slot fun _ => rfl, rfl⟩

lemma Tally.Reflected.delivers_addToResponse {y : Tally} (reflected : y.Reflected begun o)
    (t : Term) :
    Delivers (addToResponse t o) fun r => ∃ m, r = .model m ∧ m.response = some t ∧
      y.Describes m := by
  unfold Tally.Reflected at reflected
  generalize effects : y.effects = D at reflected
  generalize groups : y.groups = G at reflected
  cases reflected with
  | intercept slot =>
    have holds : names.Holds (.ofEffects [.intercept slot]) y.effects y.groups := by
      rw [effects, groups]
      exact holds_intercept slot
    exact runs_pure ⟨_, rfl, rfl, describes_of_holds t holds⟩
  | model _ holds =>
    subst effects groups
    exact runs_pure ⟨_, rfl, rfl, describes_of_holds t holds⟩

/-- The scan puts the intercept behind the tilde. -/
lemma Token.scan_behind_tilde
    (scanned : scan formula false = .ok (left ++ tildeSign :: (right ++ [endMark]))) :
    scan formula = .ok (left ++ tildeSign :: one :: plusSign :: (right ++ [endMark])) := by
  have present : formula ≠ "" := by
    rintro rfl
    cases scanned
  rw [scan_eq_complete present] at scanned ⊢
  cases read : tokens formula.toList with
  | error fault => simp [read, bind, Except.bind] at scanned
  | ok ts =>
    have plain : complete false ts = .ok (left ++ tildeSign :: (right ++ [endMark])) := by
      rw [read] at scanned
      exact scanned
    have few : ¬ 1 < ts.countP isTilde := by
      intro several
      simp [complete, several] at plain
    rw [complete, if_neg few] at plain
    have shape : ts ++ [endMark] = (left ++ tildeSign :: right) ++ [endMark] := by simpa using plain
    obtain rfl := append_cancel_right shape
    show complete true _ = _
    rw [complete_tilde, complete, if_neg]
    · simp
    · simpa [countP_cons, show isTilde one = false from rfl,
        show isTilde plusSign = false from rfl] using few

lemma Expr.parse_of_derives (derives : Derives .expression w e) :
    parse (w ++ [endMark]) = .ok e := by
  rw [parse, parseFront_eq_read, (read_all_iff rfl w e).mpr derives]
  rfl

/-- Behind the implicit plus sign an operand is expected. -/
lemma Expr.parse_without_items (response : Derives (.level .group) left Y) :
    parse (left ++ [tildeSign, one, plusSign, endMark]) = .error (.unexpectedToken "") := by
  have refused : read (.level .sum) [one, plusSign, endMark] = .error (.unexpectedToken "") := by
    cbv
  have stops : Stops (.level .group) [tildeSign, one, plusSign, endMark] := Stops.cons (by decide)
  rw [parse, parseFront_eq_read, read_expression, read_tilde, (completes response).read _ stops]
  simp only [Except.bind, respondedTo, refused]
  rfl

lemma delivers_ofFormula (scanned : scan formula = .ok (w ++ [endMark]))
    (derives : Derives .expression w e) (delivers : Delivers (ofExpr e) Q) :
    Delivers (ofFormula formula) Q := by
  apply (runs_lift_ok scanned (Q := (· = _)) rfl).bind
  rintro _ rfl
  apply (runs_lift_ok (parse_of_derives derives) (Q := (· = _)) rfl).bind
  rintro _ rfl
  exact delivers

/-- The items of a right side as a sum that begins with the implicit intercept. -/
lemma delivers_rightSide {items : List Item} {written : List (List Token)}
    (spelled : List.Forall₂ Item.Written items written) (present : items ≠ [])
    (row : right = written.flatten ∨
      ∃ plus : Token, plus.kind = .plus ∧ plus :: right = written.flatten)
    (removals : ∀ before s after, items = before ++ .remove s :: after → ∃ i ∈ before, i.addsTerm) :
    ∃ e begun, Derives (.level .sum) (one :: plusSign :: right) e ∧
      Delivers (ofExpr e) ((Item.total items).Reflected begun) := by
  have intercept : Derives (.level .sum) [one] (.literal (.int 1) none) :=
    Derives.level_of_primary .sum (.number rfl rfl)
  have start : Delivers (ofExpr (.literal (.int 1) none)) (Tally.Reflected {} false) := by
    apply (delivers_one none).imp
    rintro _ ⟨_, ⟨slot, rfl⟩, _, rfl⟩
    exact .intercept slot
  cases spelled with
  | nil => exact (present rfl).elim
  | @cons i w items written first others =>
    obtain ⟨sign, v, e, rfl, operand, spells⟩ := first
    have adds : ∀ s, i ≠ .remove s := by
      rintro s rfl
      simpa using removals [] s items rfl
    have later : ∀ before s after, items = before ++ .remove s :: after →
        (false || i.addsTerm) ∨ ∃ j ∈ before, j.addsTerm := by
      rintro before s after rfl
      simpa using removals (i :: before) s after rfl
    rcases row with rfl | ⟨plus, isPlus, shape⟩
    · -- the sign of the first item follows the implicit one
      have begins := Derives.operation intercept (t := plusSign) (by decide)
        (operand.signed spells.isSign)
      exact delivers_row others begins (spells.delivers_signed rfl adds start) later
    · -- the implicit sign is that of the first item
      obtain ⟨rfl, rfl⟩ := cons.inj shape
      have begins := Derives.operation intercept (t := plusSign) (by decide) operand
      have same : i.Spells plusSign.kind e := by
        rw [isPlus] at spells
        exact spells
      have ready : ∀ s, i = .remove s → false := fun s removal => (adds s removal).elim
      exact delivers_row others begins (same.delivers ready start) later

/-- A formula with a variable to the left of the tilde and a row of items to the right, of which the
first may go without its plus sign. The row is what a machine is told that begins with no terms and
an intercept. If each removal comes behind an item that adds some term, not necessarily the same one,
then the formula is resolved, to the model that the machine comes to. With no item at all it is
refused by the parser. -/
theorem ofFormula_items {items : List Item} {written : List (List Token)} {Y : Expr} {k : Label}
    {σ : Store}
    (scanned : scan formula false = .ok (left ++ tildeSign :: (right ++ [endMark])))
    (response : Expr.Derives (.level .group) left Y) (named : Y.Interacts [k])
    (spelled : List.Forall₂ Item.Written items written)
    (row : right = written.flatten ∨
      ∃ plus : Token, plus.kind = .plus ∧ plus :: right = written.flatten)
    (removals : ∀ before s after, items = before ++ .remove s :: after →
      ∃ i ∈ before, i.addsTerm = true)
    (untyped : σ.Untyped) :
    (items ≠ [] → ∃ m t τ, Ends (ofFormula formula) σ (.model m) τ ∧
      m.response = some t ∧ Marking.names.marks t.components = [k] ∧
      (Item.total items).Describes m) ∧
    (items = [] → ∃ fault, (outcome (ofFormula formula) σ).1 = .error fault ∧
      fault.category = .parse) := by
  have complete := scan_behind_tilde scanned
  constructor
  · intro present
    obtain ⟨e, begun, derives, reflected⟩ := delivers_rightSide spelled present row removals
    have whole : Expr.Derives .expression (left ++ tildeSign :: (one :: plusSign :: right))
        (.binary Y tildeSign e) := .expression (.response response rfl derives)
    have resolved : Delivers (ofExpr (.binary Y tildeSign e)) fun o =>
        ∃ m t, o = .model m ∧ m.response = some t ∧ Marking.names.marks t.components = [k] ∧
          (Item.total items).Describes m := by
      have isTilde : tildeSign.kind = .tilde := rfl
      rw [ofExpr, if_pos isTilde]
      apply named.delivers.bind
      rintro _ ⟨t, rfl, -, single⟩
      apply (delivers_asResponse single).bind
      rintro _ rfl
      apply reflected.bind
      intro o own
      apply (own.delivers_addToResponse _).imp
      rintro _ ⟨m, rfl, responds, describes⟩
      exact ⟨m, _, rfl, responds, single, describes⟩
    have all := delivers_ofFormula (by simpa using complete) whole resolved
    obtain ⟨_, τ, ends, -, m, t, rfl, holds⟩ := all.ends untyped
    exact ⟨m, t, τ, ends, holds⟩
  · rintro rfl
    cases spelled
    have nothing : right = [] := by simpa using row
    subst nothing
    refine ⟨.unexpectedToken "", ?_, rfl⟩
    have scans : Ends (liftM (scan formula) : Fit _) σ _ σ := ends_lift.mpr ⟨complete, rfl⟩
    rw [ofFormula, scans.outcome_bind]
    apply fault_bind
    exact Expr.parse_without_items response

/-- The intercept goes and comes back, `a:b` comes and goes, and `c` was not there. -/
theorem ofFormula_items_seven :
    ∃ m t τ, Ends (ofFormula "y ~ -1 + a:b + (x|g) - c + 1 + d - a:b") {} (.model m) τ ∧
      m.response = some t ∧ Marking.names.marks t.components = [("y", none)] ∧
      Tally.Describes ⟨{[("d", none)]}, true,
        {(none, [("g", none)]), (some [("x", none)], [("g", none)])}⟩ m := by
  let id : String → Token := fun s => ⟨.identifier, s, none⟩
  let minus : Token := ⟨.minus, "-", none⟩
  let colon : Token := ⟨.colon, ":", none⟩
  let bar : Token := ⟨.pipe, "|", none⟩
  let opening : Token := ⟨.leftParen, "(", none⟩
  let closing : Token := ⟨.rightParen, ")", none⟩
  let plus := plusSign
  let label : String → Label := fun s => (s, none)
  let written := [[minus, one], [plus, id "a", colon, id "b"],
    [plus, opening, id "x", bar, id "g", closing], [minus, id "c"], [plus, one], [plus, id "d"],
    [minus, id "a", colon, id "b"]]
  let items : List Item := [.minusOne, .add [label "a", label "b"],
    .group (some [label "x"]) [label "g"], .remove [label "c"], .one, .add [label "d"],
    .remove [label "a", label "b"]]
  have scanned : scan "y ~ -1 + a:b + (x|g) - c + 1 + d - a:b" false =
      .ok ([id "y"] ++ tildeSign :: (written.flatten ++ [endMark])) := by
    have read : tokens "y ~ -1 + a:b + (x|g) - c + 1 + d - a:b".toList =
        .ok ([id "y"] ++ tildeSign :: written.flatten) := by cbv
    rw [scan_eq_complete (by decide), read]
    rfl
  have name : ∀ s, Expr.Derives .primary [id s] (.name (id s)) := fun s => .name rfl
  have interacts : ∀ s, (Expr.name (id s)).Interacts [label s] := fun s => ⟨⟨s, none, rfl⟩, rfl⟩
  have product : Expr.Derives (.level .product) [id "a", colon, id "b"]
      (.binary (.name (id "a")) colon (.name (id "b"))) :=
    .operand (.operation (v := [id "a"]) ((name "a").level_of_primary .interaction) (by decide)
      ((name "b").level_of_primary .power))
  have pair : (Expr.binary (.name (id "a")) colon (.name (id "b"))).Interacts [label "a", label "b"] :=
    ⟨⟨.inr rfl, (interacts "a").1, (interacts "b").1⟩, rfl⟩
  have grouping : Expr.Derives .primary [opening, id "x", bar, id "g", closing]
      (.grouping (.binary (.name (id "x")) bar (.name (id "g")))) :=
    .grouping (w := [id "x", bar, id "g"]) rfl (.expression (.tilde (.operation (v := [id "x"])
      ((name "x").level_of_primary .group) (by decide) ((name "g").level_of_primary .comparison)))) rfl
  have one : Expr.Derives (.level .product) [one] (.literal (.int 1) none) :=
    Expr.Derives.level_of_primary .product (.number rfl rfl)
  have spelled : List.Forall₂ Item.Written items written := by
    refine .cons ⟨_, _, _, rfl, one, .minusOne none⟩ ?_
    refine .cons ⟨_, _, _, rfl, product, .add pair⟩ ?_
    refine .cons ⟨_, _, _, rfl, grouping.level_of_primary .product,
      .group (interacts "x") rfl (interacts "g")⟩ ?_
    refine .cons ⟨_, _, _, rfl, (name "c").level_of_primary .product, .remove (interacts "c")⟩ ?_
    refine .cons ⟨_, _, _, rfl, one, .one none⟩ ?_
    refine .cons ⟨_, _, _, rfl, (name "d").level_of_primary .product, .add (interacts "d")⟩ ?_
    exact .cons ⟨_, _, _, rfl, product, .remove pair⟩ .nil
  have removals : ∀ before s after, items = before ++ .remove s :: after →
      ∃ i ∈ before, i.addsTerm := by
    intro before s after split
    rcases before with _ | ⟨first, _ | ⟨second, before⟩⟩
    · simp [items] at split
    · simp [items] at split
    · have adding : Item.add [label "a", label "b"] = second := (cons.inj (cons.inj split).2).1
      exact ⟨second, by simp, by rw [← adding]; rfl⟩
  have resolved := (ofFormula_items scanned ((name "y").level_of_primary .group) (interacts "y") spelled
    (.inl rfl) removals Store.untyped_empty).1 (by simp [items])
  have total : Item.total items = ⟨{[("d", none)]}, true,
      {(none, [("g", none)]), (some [("x", none)], [("g", none)])}⟩ := by decide +kernel
  rw [total] at resolved
  exact resolved

end Formulas

end ModelFormula
