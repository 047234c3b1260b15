import ModelFormula.Proofs.Calls.Equality

/-!
# The pieces of a name

The name of a term is written from pieces: words, strings between quotes, signs, and the marks
between them. It is cut into them in one way only.
-/
namespace ModelFormula

open List

inductive Piece where
  | word (s : String)
  | quoted (s : String)
  | sign (s : CallExpr.Sign)
  | operator (o : CallExpr.Operator)
  | opening | closing | comma | equal | colon
deriving DecidableEq

namespace Piece

def chars : Piece → List Char
  | word s | quoted s => s.toList
  | sign s => s.symbol.toList
  | operator o => ' ' :: (o.symbol.toList ++ [' '])
  | opening => ['(']
  | closing => [')']
  | comma => [',', ' ']
  | equal => ['=']
  | colon => [':']

/-- Characters that never belong to a word. -/
def delimiters : List Char := ['(', ')', ',', '=', ':']

/-- Characters that begin an operator. -/
def operatorChars : List Char := ['+', '-', '*', '/', '=', '!', '<', '>']

/-- Characters that begin no word. -/
def otherInitials : List Char := [' ', '+', '-', Token.quotationMark, Token.apostrophe]

/-- What can be read as one word: it begins like no other piece, holds no delimiter and no operator
behind a blank, and does not end in a blank. -/
structure Solid (cs : List Char) : Prop where
  nonempty : cs ≠ []
  first : ∀ c ∈ cs.head?, c ∉ otherInitials
  last : ∀ c ∈ cs.getLast?, c ≠ ' '
  undelimited : ∀ c ∈ cs, c ∉ delimiters
  tight : ∀ o ∈ operatorChars, ¬ [' ', o] <:+: cs

lemma solid_of_unbroken (nonempty : cs ≠ []) (first : ∀ c ∈ cs.head?, c ∉ otherInitials)
    (unbroken : ∀ c ∈ cs, c ∉ ' ' :: delimiters) : Solid cs := by
  refine ⟨nonempty, first, ?_, ?_, ?_⟩
  · rintro c last rfl
    exact unbroken ' ' (mem_of_mem_getLast? last) mem_cons_self
  · intro c mem delimits
    exact unbroken c mem (mem_cons_of_mem _ delimits)
  · intro o _ inside
    exact unbroken ' ' (inside.subset mem_cons_self) mem_cons_self

/-- A string between quotes of either form, with none inside. -/
def Between (inside cs : List Char) : Prop :=
  ∃ opening closing, Token.isQuote opening = true ∧ Token.isQuote closing = true ∧
    (∀ c ∈ inside, Token.isQuote c = false) ∧ cs = opening :: (inside ++ [closing])

def Sound : Piece → Prop
  | word s => Solid s.toList
  | quoted s => ∃ inside, Between inside s.toList
  | _ => True

/-- What can follow a word. -/
inductive Stop : List Char → Prop
  | nil : Stop []
  | delimiter {c : Char} {rest : List Char} (delimits : c ∈ delimiters) : Stop (c :: rest)
  | operator {o : Char} {rest : List Char} (operates : o ∈ operatorChars) : Stop (' ' :: o :: rest)

lemma Solid.not_append (solid : Solid (u ++ w)) (some : w ≠ []) (after : Stop r) :
    ¬ Stop (w ++ r) := by
  intro before
  match w, some with
  | [c], _ =>
    -- a blank would end the word, anything else delimits it
    cases before with
    | delimiter delimits => exact solid.undelimited c (by simp) delimits
    | operator => exact solid.last ' ' (by simp) rfl
  | c :: d :: w, _ =>
    cases before with
    | delimiter delimits => exact solid.undelimited c (by simp) delimits
    | operator operates => exact solid.tight d operates ⟨u, w, by simp⟩

/-- A word ends where something begins that can follow a word. -/
lemma Solid.append_inj (left : Solid u) (right : Solid v) (after : Stop r) (behind : Stop s)
    (eq : u ++ r = v ++ s) : u = v ∧ r = s := by
  rcases append_eq_append_iff.mp eq with ⟨w, rfl, rfl⟩ | ⟨w, rfl, rfl⟩
  · by_cases none : w = []
    · simp [none]
    · exact absurd after (right.not_append none behind)
  · by_cases none : w = []
    · simp [none]
    · exact absurd behind (left.not_append none after)

/-- A text up to the first character of a kind. -/
lemma append_cons_inj {α : Type} {p : α → Bool} {u v r s : List α} {c d : α}
    (left : ∀ x ∈ u, p x = false) (right : ∀ x ∈ v, p x = false) (hc : p c) (hd : p d)
    (eq : u ++ c :: r = v ++ d :: s) : u = v ∧ c = d ∧ r = s := by
  have front := congrArg (List.takeWhile (!p ·)) eq
  rw [takeWhile_append_of_pos (by simpa using left),
    takeWhile_append_of_pos (by simpa using right)] at front
  simp only [hc, hd, Bool.not_true, Bool.false_eq_true, not_false_eq_true,
    takeWhile_cons_of_neg, append_nil] at front
  subst front
  simpa using eq

lemma Between.append_inj (left : Between i u) (right : Between j v) (eq : u ++ r = v ++ s) :
    u = v ∧ r = s := by
  obtain ⟨a, b, _, hb, inside, rfl⟩ := left
  obtain ⟨c, d, _, hd, inside', rfl⟩ := right
  simp only [cons_append, append_assoc, nil_append, cons.injEq] at eq
  obtain ⟨rfl, eq⟩ := eq
  obtain ⟨rfl, rfl, rfl⟩ := append_cons_inj inside inside' hb hd eq
  exact ⟨rfl, rfl⟩

/-- The string between the quotes. -/
lemma Between.inside_inj (left : Between i u) (right : Between j u) : i = j := by
  obtain ⟨a, b, _, hb, inside, rfl⟩ := left
  obtain ⟨c, d, _, hd, inside', eq⟩ := right
  simp only [cons.injEq] at eq
  exact (append_cons_inj inside inside' hb hd eq.2).1

/-! ### The kind of a piece -/

inductive Form where
  | word | quoted | sign | operator | opening | closing | comma | equal | colon
deriving DecidableEq

def form : Piece → Form
  | word _ => .word
  | quoted _ => .quoted
  | sign _ => .sign
  | operator _ => .operator
  | opening => .opening
  | closing => .closing
  | comma => .comma
  | equal => .equal
  | colon => .colon

/-- What kind of piece a character begins. -/
def formOf (c : Char) : Form :=
  if Token.isQuote c then .quoted else
  match c with
  | '+' | '-' => .sign
  | ' ' => .operator
  | '(' => .opening
  | ')' => .closing
  | ',' => .comma
  | '=' => .equal
  | ':' => .colon
  | _ => .word

lemma formOf_word (initial : c ∉ otherInitials) (inner : c ∉ delimiters) : formOf c = .word := by
  simp only [otherInitials, delimiters, mem_cons, not_mem_nil, or_false, not_or] at initial inner
  unfold formOf
  split
  next quote => simp_all [Token.isQuote]
  next => split <;> simp_all

lemma Sound.formOf_head {p : Piece} (sound : p.Sound) :
    ∃ c cs, p.chars = c :: cs ∧ formOf c = p.form := by
  cases p with
  | word s =>
    obtain ⟨c, cs, shape⟩ := exists_cons_of_ne_nil sound.nonempty
    refine ⟨c, cs, shape, formOf_word (sound.first c ?_) (sound.undelimited c ?_)⟩ <;> simp [shape]
  | quoted s =>
    obtain ⟨inside, c, d, quote, _, _, shape⟩ := sound
    exact ⟨c, _, shape, by simp [formOf, quote, form]⟩
  | sign s =>
    cases s with
    | plus => exact ⟨'+', [], by decide, by decide⟩
    | minus => exact ⟨'-', [], by decide, by decide⟩
  | operator => exact ⟨' ', _, rfl, rfl⟩
  | opening | closing | comma | equal | colon => exact ⟨_, _, rfl, rfl⟩

lemma symbol_append_inj {o o' : CallExpr.Operator}
    (eq : o.symbol.toList ++ ' ' :: r = o'.symbol.toList ++ ' ' :: s) : o = o' ∧ r = s := by
  have unbroken (o : CallExpr.Operator) : ∀ c ∈ o.symbol.toList, (c == ' ') = false := by
    cases o <;> simp [CallExpr.Operator.symbol]
  have nodup : o.symbol = o'.symbol → o = o' := by cases o <;> cases o' <;> decide
  obtain ⟨symbols, -, rests⟩ :=
    append_cons_inj (p := (· == ' ')) (unbroken o) (unbroken o') (by simp) (by simp) eq
  exact ⟨nodup (String.toList_inj.mp symbols), rests⟩

/-- The first piece of a text. -/
lemma Sound.append_inj {p q : Piece} (left : p.Sound) (right : q.Sound)
    (after : p.form = .word → Stop r) (behind : q.form = .word → Stop s)
    (eq : p.chars ++ r = q.chars ++ s) : p = q ∧ r = s := by
  have forms : p.form = q.form := by
    obtain ⟨c, cs, shape, here⟩ := left.formOf_head
    obtain ⟨d, ds, shape', there⟩ := right.formOf_head
    rw [shape, shape', cons_append, cons_append, cons.injEq] at eq
    rw [← here, ← there, eq.1]
  -- two pieces of one kind
  cases p with
  | word u =>
    cases q with
    | word v =>
      obtain ⟨words, rests⟩ := Solid.append_inj left right (after rfl) (behind rfl) eq
      exact ⟨by rw [String.toList_inj.mp words], rests⟩
    | _ => cases forms
  | quoted u =>
    cases q with
    | quoted v =>
      obtain ⟨i, left⟩ := left
      obtain ⟨j, right⟩ := right
      obtain ⟨strings, rests⟩ := left.append_inj right eq
      exact ⟨by rw [String.toList_inj.mp strings], rests⟩
    | _ => cases forms
  | sign u =>
    cases q with
    | sign v => cases u <;> cases v <;> simp_all [chars, CallExpr.Sign.symbol]
    | _ => cases forms
  | operator o =>
    cases q with
    | operator o' =>
      simp only [chars, cons_append, append_assoc, nil_append, cons.injEq, true_and] at eq
      obtain ⟨rfl, rests⟩ := symbol_append_inj eq
      exact ⟨rfl, rests⟩
    | _ => cases forms
  | opening | closing | comma | equal | colon =>
    cases q <;> cases forms
    exact ⟨rfl, append_cancel_left eq⟩

/-! ### Texts -/

def render (ps : List Piece) : List Char := ps.flatMap chars

@[simp]
lemma render_nil : render [] = [] := rfl

@[simp]
lemma render_cons (p : Piece) (ps : List Piece) : render (p :: ps) = p.chars ++ render ps := rfl

@[simp]
lemma render_append (ps qs : List Piece) : render (ps ++ qs) = render ps ++ render qs :=
  flatMap_append

/-- The pieces begin with one that can follow a word. -/
def Stops (ps : List Piece) : Prop :=
  ∀ p ∈ ps.head?, p.form ∈ [.operator, .opening, .closing, .comma, .equal, .colon]

lemma Stops.stop (stops : Stops ps) : Stop (render ps) := by
  cases ps with
  | nil => exact .nil
  | cons p ps =>
    have form := stops p rfl
    cases p with
    | word | quoted | sign => simp [Piece.form] at form
    | operator o => cases o <;> exact .operator (by decide)
    | opening | closing | comma | equal | colon => exact .delimiter (by decide)

/-- Every word is followed by something that ends it. -/
def Separated : List Piece → Prop
  | [] => True
  | p :: ps => p.Sound ∧ (p.form = .word → Stops ps) ∧ Separated ps

lemma render_injective {ps qs : List Piece} (left : Separated ps) (right : Separated qs)
    (eq : render ps = render qs) : ps = qs := by
  induction ps generalizing qs with
  | nil =>
    cases qs with
    | nil => rfl
    | cons q qs =>
      obtain ⟨c, cs, shape, _⟩ := right.1.formOf_head
      simp [shape] at eq
  | cons p ps ih =>
    cases qs with
    | nil =>
      obtain ⟨c, cs, shape, _⟩ := left.1.formOf_head
      simp [shape] at eq
    | cons q qs =>
      rw [render_cons, render_cons] at eq
      obtain ⟨rfl, rests⟩ := left.1.append_inj right.1 (fun word => (left.2.1 word).stop)
        (fun word => (right.2.1 word).stop) eq
      rw [ih left.2.2 right.2.2 rests]

end Piece

end ModelFormula
