import Mathlib
import ModelFormula.Proofs.Parsing.ParseGrammar

/-!
# Tokens that the parser leaves

The parser returns as soon as nothing extends its tree, so a formula is read to its end exactly if
the grammar derives it, and is accepted also if only its front is derived.
-/
namespace ModelFormula

open List

variable {c : Char} {rest : List Char} {t : Token} {ts : List Token} {after : List Char}

namespace Token

/-! ### The end mark of a scanned formula -/

lemma number_kind (scanned : number c rest = .ok (t, after)) : t.kind = .number := by
  simp only [number, bind, Except.bind, pure, Except.pure] at scanned
  split at scanned
  · split at scanned <;> split at scanned <;> cases scanned <;> rfl
  · split at scanned <;> cases scanned
    rfl

lemma quotedString_kind (scanned : quotedString c rest = .ok (t, after)) : t.kind = .string := by
  simp only [quotedString] at scanned
  split at scanned <;> cases scanned
  rfl

lemma backQuoted_kind (scanned : backQuoted c rest = .ok (t, after)) : t.kind = .quotedName := by
  simp only [backQuoted] at scanned
  split at scanned <;> cases scanned
  rfl

lemma dot_kind (scanned : dot rest = .ok (t, after)) : t.kind = .number ∨ t.kind = .period := by
  simp only [dot, bind, Except.bind, pure, Except.pure] at scanned
  split at scanned
  · split at scanned
    · split at scanned <;> cases scanned
      exact .inl rfl
    · cases scanned
      exact .inr rfl
  · cases scanned
    exact .inr rfl

lemma single?_kind {kind : Kind} (found : single? c = some kind) : kind ≠ .endOfFormula := by
  intro ends
  subst ends
  simp only [single?] at found
  split at found <;> cases found

lemma double?_kind (found : double? c = some (second, long, short)) :
    long ≠ .endOfFormula ∧ short ≠ .endOfFormula := by
  simp only [double?] at found
  split at found <;> cases found <;> exact ⟨by decide, by decide⟩

/-- No character begins an end mark. -/
lemma next_kind (scanned : next c rest = .ok (t, after)) : t.kind ≠ .endOfFormula := by
  simp only [next] at scanned
  split at scanned
  · rw [quotedString_kind scanned]
    decide
  split at scanned
  · rw [backQuoted_kind scanned]
    decide
  split at scanned
  · rcases dot_kind scanned with kind | kind <;> rw [kind] <;> decide
  split at scanned
  next kind _ found =>
    cases scanned
    exact single?_kind found
  next second long short _ found =>
    obtain ⟨isLong, isShort⟩ := double?_kind found
    split at scanned
    · split at scanned <;> cases scanned
      · exact isLong
      · exact isShort
    · cases scanned
      exact isShort
  next =>
    split at scanned
    · rw [number_kind scanned]
      decide
    split at scanned <;> cases scanned
    exact Kind.noConfusion

lemma tokens_kind (cs : List Char) (scanned : tokens cs = .ok ts) :
    ∀ t ∈ ts, t.kind ≠ .endOfFormula := by
  fun_induction tokens cs generalizing ts with
  | case1 =>
    cases scanned
    simp
  | case2 c rest blank ih => exact ih scanned
  | case3 => cases scanned
  | case4 c rest _ t after first ih =>
    cases others : tokens after with
    | error fault =>
      rw [others] at scanned
      cases scanned
    | ok us =>
      rw [others] at scanned
      cases scanned
      simpa [next_kind first] using ih others

lemma withIntercept_append (ts : List Token) (other : isTilde t = false) :
    withIntercept (ts ++ [t]) = withIntercept ts ++ [t] := by
  simp only [withIntercept, dropWhile_append, takeWhile_append]
  cases right : ts.dropWhile (!isTilde ·) with
  | nil => simp [other]
  | cons tilde right =>
    -- the tilde is among the tokens, so what stands before it is not all of them
    have proper : (ts.takeWhile (!isTilde ·)).length ≠ ts.length := by
      intro same
      have whole := takeWhile_append_dropWhile (p := (!isTilde ·)) (l := ts)
      have lengths := congrArg List.length whole
      simp [right, same] at lengths
    simp [proper]

lemma mem_withIntercept (mem : t ∈ withIntercept ts) : t = one ∨ t = plusSign ∨ t ∈ ts := by
  have whole := takeWhile_append_dropWhile (p := (!isTilde ·)) (l := ts)
  simp only [withIntercept] at mem
  split at mem
  next => simpa using mem
  next tilde right shape =>
    rw [shape] at whole
    rw [← whole]
    simp only [mem_append, mem_cons] at mem ⊢
    tauto

/-- What a scan that returns has found. -/
lemma scan_inv (scanned : scan formula intercept = .ok ts) :
    ∃ us, tokens formula.toList = .ok us ∧ us.countP isTilde ≤ 1 ∧
      ts = bif intercept then withIntercept (us ++ [endMark]) else us ++ [endMark] := by
  simp only [scan, bind, Except.bind, pure, Except.pure] at scanned
  split at scanned
  · cases scanned
  cases pieces : tokens formula.toList with
  | error fault => simp [pieces] at scanned
  | ok us =>
    simp only [pieces] at scanned
    split at scanned
    · cases scanned
    next few =>
      refine ⟨us, rfl, Nat.not_lt.mp few, ?_⟩
      cases intercept <;> cases scanned <;> rfl

/-- The tokens of a formula end in the end mark, and there is no other. -/
lemma scan_eq_append_endMark (scanned : scan formula intercept = .ok ts) :
    ∃ w, ts = w ++ [endMark] ∧ ∀ t ∈ w, t.kind ≠ .endOfFormula := by
  obtain ⟨us, pieces, _, rfl⟩ := scan_inv scanned
  have kinds := tokens_kind _ pieces
  cases intercept with
  | false => exact ⟨us, rfl, kinds⟩
  | true =>
    refine ⟨withIntercept us, withIntercept_append us rfl, ?_⟩
    intro t mem
    rcases mem_withIntercept mem with rfl | rfl | mem
    · decide
    · decide
    · exact kinds t mem

end Token

namespace Expr

open Parse

/-! ### What is left -/

/-- A tree is returned as soon as the next token does not extend it. -/
lemma read_front {p rest : List Token} (derives : Derives .expression p e)
    (stops : Stops .expression rest) : read .expression (p ++ rest) = .ok (e, rest) :=
  (completes derives).read rest stops

/-- The right side of a tilde is a sum, so an operator looser than a sum does not extend it. -/
lemma read_response {v w rest : List Token} {tilde : Token} {l r : Expr}
    (left : Derives (.level .group) v l) (isTilde : tilde.kind = .tilde)
    (right : Derives (.level .sum) w r) (stops : Stops (.level .sum) rest)
    (unassigned : ∀ t ∈ rest.head?, t.kind ≠ .equal) :
    read .expression (v ++ tilde :: (w ++ rest)) = .ok (.binary l tilde r, rest) := by
  have readLeft := (completes left).read (tilde :: (w ++ rest)) (Stops.cons (by rw [isTilde]; decide))
  have readRight := (completes right).read rest stops
  have readBoth : read .tilde (v ++ tilde :: (w ++ rest)) = .ok (.binary l tilde r, rest) := by
    simp [read_tilde, readLeft, respondedTo, readRight, isTilde, Except.bind]
  rw [read_expression, readBoth]
  cases rest with
  | nil => rfl
  | cons t rest =>
    have other : t.kind ≠ .equal := unassigned t rfl
    simp [Except.bind, assignedTo, other]

/-- The parser does not ask for the end mark. Of a formula that it accepts it has taken every token
exactly if the grammar derives the whole formula. If the grammar derives a front of it, the tokens
behind the front are left without a fault if the first of them cannot extend it: an operand, a
closing bracket, and behind the right side of a tilde also a bar, a comparison or a second tilde. -/
theorem parseFront_scan_leaves_nothing_iff {formula : String} {intercept : Bool} {ts : List Token}
    (scanned : Token.scan formula intercept = .ok ts) :
    ∃ w, ts = w ++ [Token.endMark] ∧ (∀ t ∈ w, t.kind ≠ .endOfFormula) ∧
      (∀ e rest, parseFront ts = .ok (e, rest) →
        ∃ left, rest = left ++ [Token.endMark] ∧ (left = [] ↔ Derives .expression w e)) ∧
      (∀ p t left e, w = p ++ t :: left → Derives .expression p e → t.kind ∉ extending .expression →
        parseFront ts = .ok (e, t :: left ++ [Token.endMark])) ∧
      (∀ v tilde r t left l e, w = v ++ tilde :: (r ++ t :: left) → Derives (.level .group) v l →
        tilde.kind = .tilde → Derives (.level .sum) r e → t.kind ∉ extending (.level .sum) →
        t.kind ≠ .equal →
        parseFront ts = .ok (.binary l tilde e, t :: left ++ [Token.endMark])) := by
  have isMark : Token.endMark.kind = .endOfFormula := rfl
  obtain ⟨w, rfl, kinds⟩ := Token.scan_eq_append_endMark scanned
  refine ⟨w, rfl, kinds, ?_, ?_, ?_⟩
  · intro e rest returned
    -- the outcome in front of the mark says what is left, and completeness when that is nothing
    obtain ⟨r, reads, _⟩ := read_upTo_mark isMark .expression w
    rw [parseFront_eq_read, reads []] at returned
    cases r with
    | error fault => cases returned
    | ok p =>
      cases returned
      refine ⟨p.2, rfl, ?_⟩
      rw [← read_all_iff isMark w p.1, reads []]
      simp [Except.map]
  · rintro p t left e rfl derives outside
    have stops : Stops .expression (t :: left ++ [Token.endMark]) := Stops.cons outside
    rw [parseFront_eq_read, append_assoc]
    exact read_front derives stops
  · rintro v tilde r t left l e rfl derivesLeft isTilde derivesRight outside unassigned
    have stops : Stops (.level .sum) (t :: left ++ [Token.endMark]) := Stops.cons outside
    have returned := read_response derivesLeft isTilde derivesRight stops (by simpa using unassigned)
    rw [parseFront_eq_read]
    simpa using returned

/-- In `y ~ a | g` the bar and what follows it are left. -/
theorem parseFront_scan_leaves_bar :
    let y : Token := ⟨.identifier, "y", none⟩
    let a : Token := ⟨.identifier, "a", none⟩
    let g : Token := ⟨.identifier, "g", none⟩
    let tilde : Token := ⟨.tilde, "~", none⟩
    let bar : Token := ⟨.pipe, "|", none⟩
    let ts := [y, tilde, Token.one, Token.plusSign, a, bar, g, Token.endMark]
    Token.scan "y ~ a | g" = .ok ts ∧ parseFront ts = .ok (.binary (.name y) tilde
        (.binary (.literal (.int 1) none) Token.plusSign (.name a)), [bar, g, Token.endMark]) := by
  intro y a g tilde bar ts
  have scanned : Token.scan "y ~ a | g" = .ok ts := by cbv
  obtain ⟨w, split, _, _, _, behindResponse⟩ := parseFront_scan_leaves_nothing_iff scanned
  have whole : [y] ++ tilde :: ([Token.one, Token.plusSign, a] ++ bar :: [g]) ++ [Token.endMark] =
      w ++ [Token.endMark] := split
  have tokens := (append_cancel_right whole).symm
  have left : Derives (.level .group) [y] (.name y) := Derives.level_of_primary .group (.name rfl)
  have one : Derives (.level .sum) [Token.one] (.literal (.int 1) none) :=
    Derives.level_of_primary .sum (.number rfl rfl)
  have operand : Derives (.level .product) [a] (.name a) :=
    Derives.level_of_primary .product (.name rfl)
  have right := Derives.operation one (t := Token.plusSign) (by decide) operand
  exact ⟨scanned, behindResponse [y] tilde _ bar [g] _ _ tokens left rfl right (by decide)
    (by decide)⟩

/-- In `a b` the second operand is left. -/
theorem parseFront_scan_leaves_operand :
    (Token.scan "a b").bind parseFront =
      .ok (.binary (.literal (.int 1) none) Token.plusSign (.name ⟨.identifier, "a", none⟩),
        [⟨.identifier, "b", none⟩, Token.endMark]) := by
  cbv

end Expr

/-!
### The leading intercept

The scanner puts `1 +` behind the tilde of a formula. Whatever follows, the right side of the tilde
is then read as a sum whose leftmost summand is the `1`: no operator that binds more tightly can take
it.
-/

variable {rest v w : List Token} {formula : String} {e : Expr}

namespace Token

/-- Behind a tilde stands `1 +`, or as much of it as there are tokens. -/
def Marked : List Token → Prop
  | [] => True
  | t :: ts => (t.kind = .tilde → ts.take 2 <+: [one, plusSign]) ∧ Marked ts

lemma Marked.left (marked : Marked (v ++ w)) : Marked v := by
  induction v with
  | nil => trivial
  | cons t v ih =>
    refine ⟨fun tilde => ?_, ih marked.2⟩
    have shorter : v.take 2 <+: (v ++ w).take 2 := (prefix_append v w).take 2
    exact shorter.trans (marked.1 tilde)

lemma Marked.right (marked : Marked (v ++ w)) : Marked w := by
  induction v with
  | nil => exact marked
  | cons t v ih => exact ih marked.2

lemma marked_append (none : ∀ t ∈ v, isTilde t = false) (marked : Marked w) :
    Marked (v ++ w) := by
  induction v with
  | nil => exact marked
  | cons t v ih =>
    obtain ⟨first, others⟩ := forall_mem_cons.mp none
    refine ⟨fun tilde => ?_, ih others⟩
    simp [isTilde, tilde] at first

lemma marked_of_no_tilde (none : ∀ t ∈ ts, isTilde t = false) : Marked ts := by
  have marked : Marked (ts ++ []) := marked_append none trivial
  rwa [append_nil] at marked

lemma marked_withIntercept (single : ts.countP isTilde ≤ 1) : Marked (withIntercept ts) := by
  have before : ∀ t ∈ ts.takeWhile (!isTilde ·), isTilde t = false := by
    intro t mem
    simpa using mem_takeWhile_imp mem
  have whole := takeWhile_append_dropWhile (p := (!isTilde ·)) (l := ts)
  simp only [withIntercept]
  cases shape : ts.dropWhile (!isTilde ·) with
  | nil =>
    rw [shape, append_nil] at whole
    rw [whole] at before
    exact marked_append (v := [one, plusSign]) (by decide) (marked_of_no_tilde before)
  | cons tilde right =>
    -- the first tilde is the only one, so none follows
    have isTilde : isTilde tilde := by
      have kept := head?_dropWhile_not (!Token.isTilde ·) ts
      simpa [shape] using kept
    have none : ∀ t ∈ right, Token.isTilde t = false := by
      intro t mem
      rw [shape] at whole
      rw [← whole, countP_append, countP_cons_of_pos isTilde] at single
      have zero : right.countP Token.isTilde = 0 := by omega
      simpa using countP_eq_zero.mp zero t mem
    refine marked_append before ⟨fun _ => prefix_refl _, ?_⟩
    exact marked_append (v := [one, plusSign]) (by decide) (marked_of_no_tilde none)

lemma marked_scan (scanned : scan formula = .ok ts) : Marked ts := by
  obtain ⟨us, _, few, rfl⟩ := scan_inv scanned
  apply marked_withIntercept
  have mark : [endMark].countP isTilde = 0 := by decide
  rwa [countP_append, mark]

end Token

namespace Expr

open Parse Token

/-- A sum whose leftmost summand is `1`. -/
def Led : Expr → Prop
  | .literal v _ => v = .int 1
  | .binary l op _ => (op.kind = .plus ∨ op.kind = .minus) ∧ Led l
  | _ => False

/-- Such a sum, or what an operator that binds less tightly makes of one. -/
def Begun : Expr → Prop
  | .binary l op r => Led (.binary l op r) ∨ op.kind ∈ Level.comparison.operators ∨ op.kind = .pipe
  | e => Led e

lemma Led.begun (led : Led e) : Begun e := by
  cases e with
  | binary => exact .inl led
  | literal => exact led
  | assign | grouping | unary | call | name | subset | quotedName => exact led.elim

/-- To the right of each tilde outside of calls stands such a sum. -/
def TildesLed : Expr → Prop
  | .grouping e => TildesLed e
  | .binary l op r => TildesLed l ∧ TildesLed r ∧ (op.kind = .tilde → Led r)
  | .unary _ e => TildesLed e
  | _ => True

/-- What the tokens of `1` and of a plus sign behind it can be the beginning of: a sum is led by the
`1`, and a phrase of a tighter symbol is nothing but the `1`. -/
def Leads (rest : List Token) (e : Expr) : Symbol → Prop
  | .level .group | .level .comparison => Begun e
  | .level .sum => Led e
  | .level .product | .level .interaction | .level .power | .unary | .call | .primary =>
    rest = [] ∧ e = .literal (.int 1) none
  | _ => True

lemma leads_of_operand (leads : Leads rest e (operandSymbol l)) : Leads rest e (.level l) := by
  cases l with
  | sum =>
    obtain ⟨_, rfl⟩ := leads
    exact rfl
  | comparison => exact Led.begun leads
  | group => exact leads
  | product | interaction | power => exact leads

lemma Derives.leads (derives : Derives s w e) (begins : w = one :: rest)
    (plus : ∀ t ∈ rest.head?, t.kind = .plus) : Leads rest e s := by
  induction derives generalizing rest with
  | @operation level v w t l r left operator _ ihLeft _ =>
    obtain ⟨t', v', rfl, _⟩ := left.first
    simp only [cons_append, cons.injEq] at begins
    obtain ⟨rfl, rfl⟩ := begins
    have inner := ihLeft rfl fun u first => plus u (by cases v' <;> simp_all)
    cases level with
    | group => exact .inr (.inr (by simpa [Level.operators] using operator))
    | comparison => exact .inr (.inl operator)
    | sum => exact ⟨by simpa [Level.operators, or_comm] using operator, inner⟩
    | product | interaction | power =>
      -- the left operand is the `1` alone, so the operator would be the plus sign
      obtain ⟨rfl, _⟩ := inner
      rw [plus t rfl] at operator
      simp [Level.operators] at operator
  | operand _ ih => exact leads_of_operand (ih begins plus)
  | unsigned _ ih | uncalled _ ih => exact ih begins plus
  | sign sign _ _ =>
    cases begins
    simp [one] at sign
  | emptyCall callee opening _ ih | call callee opening _ _ _ _ ih _ _ =>
    obtain ⟨t', v', rfl, _⟩ := callee.first
    simp only [cons_append, cons.injEq] at begins
    obtain ⟨rfl, rfl⟩ := begins
    have inner := ih rfl fun u first => plus u (by cases v' <;> simp_all)
    obtain ⟨rfl, _⟩ := inner
    have kind := plus _ rfl
    simp [opening] at kind
  | number kind stands =>
    cases begins
    cases stands
    exact ⟨rfl, rfl⟩
  | name kind | string kind _ | quotedName kind | subset kind _ _ _ | grouping kind _ _
  | braces kind _ _ =>
    cases begins
    simp [one] at kind
  | _ => trivial

/-- Without a tilde, `1 +` in front begins the whole formula. -/
lemma Derives.begun (derives : Derives .expression w e) (begins : w = one :: rest)
    (plus : ∀ t ∈ rest.head?, t.kind = .plus) (none : ∀ t ∈ w, isTilde t = false) : Begun e := by
  cases derives with
  | @assignment v _ _ target _ left named =>
    obtain ⟨t, v', rfl, _⟩ := left.first
    simp only [cons_append, cons.injEq] at begins
    obtain ⟨rfl, rfl⟩ := begins
    obtain ⟨_, rfl⟩ := left.leads rfl fun u first => plus u (by cases v' <;> simp_all)
    cases named
  | expression inner =>
    cases inner with
    | @response _ _ t _ _ _ tilde =>
      have other := none t (by simp)
      simp [isTilde, tilde] at other
    | tilde inner => exact inner.leads begins plus

/-- If `1 +` stands behind each tilde, it leads the sum that the tilde has on its right. -/
lemma Derives.tildesLed (derives : Derives s w e) (marked : Marked w) : TildesLed e := by
  induction derives with
  | @response v w t l r left tilde right ihLeft ihRight =>
    have behind : Marked (t :: w) := marked.right
    refine ⟨ihLeft marked.left, ihRight behind.2, fun _ => ?_⟩
    obtain ⟨t', rest, rfl, _⟩ := right.first
    have front := behind.1 tilde
    rw [take_succ_cons, cons_prefix_cons] at front
    obtain ⟨rfl, plus⟩ := front
    refine right.leads rfl ?_
    intro u first
    cases rest with
    | nil => simp at first
    | cons u' rest =>
      cases first
      rw [take_succ_cons, cons_prefix_cons] at plus
      rw [plus.1]
      rfl
  | @operation level v w t l r _ operator _ ihLeft ihRight =>
    refine ⟨ihLeft marked.left, ihRight (Marked.right (v := [t]) marked.right), fun tilde => ?_⟩
    rw [tilde] at operator
    cases level <;> simp [Level.operators] at operator
  | expression _ ih | tilde _ ih | operand _ ih | unsigned _ ih | uncalled _ ih
  | levelString _ ih => exact ih marked
  | sign _ _ ih => exact ih marked.2
  | grouping _ _ _ ih | levelGrouping _ _ _ ih => exact ih (Marked.left marked.2)
  | _ => trivial

/-- The tree of a formula is derived from its first tokens. -/
lemma derives_of_parse (parsed : parse ts = .ok e) :
    ∃ taken left, ts = taken ++ left ∧ Derives .expression taken e := by
  have sound := read_sound .expression ts
  rw [parse, parseFront_eq_read] at parsed
  rw [Sound] at sound
  cases returned : read .expression ts with
  | error fault => simp [returned, Except.map] at parsed
  | ok p =>
    rw [returned] at sound parsed
    obtain ⟨taken, split, derives⟩ := sound
    cases parsed
    exact ⟨taken, p.2, split, derives⟩

/-- In the tree of a formula with its implied intercept, `1` leads the right side of the tilde. -/
lemma tildesLed_of_formula (scanned : Token.scan formula = .ok ts) (parsed : parse ts = .ok e) :
    TildesLed e := by
  obtain ⟨taken, left, rfl, derives⟩ := derives_of_parse parsed
  exact derives.tildesLed (Marked.left (marked_scan scanned))

/-- In the tree of a formula without a tilde, `1` comes first. -/
lemma begun_of_formula (cut : Token.tokens formula.toList = .ok us)
    (none : ∀ t ∈ us, isTilde t = false) (scanned : Token.scan formula = .ok ts)
    (parsed : parse ts = .ok e) : Begun e := by
  have others : ∀ t ∈ us ++ [endMark], (!isTilde t) := by
    intro t mem
    rcases mem_append.mp mem with inside | last
    · simp [none t inside]
    · rw [mem_singleton.mp last]
      decide
  have front : ts = one :: plusSign :: (us ++ [endMark]) := by
    obtain ⟨_, pieces, _, rfl⟩ := scan_inv scanned
    cases cut.symm.trans pieces
    simp [withIntercept, dropWhile_eq_nil_iff.mpr others]
  obtain ⟨taken, left, split, derives⟩ := derives_of_parse parsed
  obtain ⟨t, rest, rfl, _⟩ := derives.first
  rw [front, cons_append, cons.injEq] at split
  obtain ⟨rfl, split⟩ := split
  refine derives.begun rfl ?_ ?_
  · intro u first
    cases rest with
    | nil => cases first
    | cons u' rest =>
      cases first
      rw [cons_append, cons.injEq] at split
      rw [← split.1]
      rfl
  · have all : ∀ t ∈ one :: plusSign :: (us ++ [endMark]), isTilde t = false := by
      rw [forall_mem_cons, forall_mem_cons]
      exact ⟨by decide, by decide, by simpa using others⟩
    intro t mem
    apply all t
    rw [split]
    exact mem_cons.mpr ((mem_cons.mp mem).imp id (mem_append_left left))

end Expr

end ModelFormula
