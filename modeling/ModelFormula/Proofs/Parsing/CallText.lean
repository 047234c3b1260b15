import ModelFormula.Proofs.Numbers.DecimalText
import ModelFormula.Proofs.Parsing.ParseComplete
import ModelFormula.Proofs.Parsing.ParseSound
import ModelFormula.Proofs.Parsing.Pieces

/-!
# The text of a call

A call is written without its parentheses. Where none were needed the pieces of the text derive a
tree of the grammar, which is unambiguous, so two calls with one text have one tree.
-/
namespace ModelFormula

open List Decimal

lemma intercalate_of_append {α β : Type} {f : List α → List β} (nil : f [] = [])
    (append : ∀ xs ys, f (xs ++ ys) = f xs ++ f ys) (sep : List α) (xss : List (List α)) :
    f (sep.intercalate xss) = (f sep).intercalate (xss.map f) := by
  induction xss with
  | nil => simp [nil]
  | cons xs xss ih =>
    cases xss with
    | nil => simp
    | cons ys xss =>
      rw [intercalate_cons_cons, map_cons, map_cons, intercalate_cons_cons,
        append, append, ih, map_cons]

lemma Piece.render_intercalate (sep : List Piece) (xss : List (List Piece)) :
    render (sep.intercalate xss) = (render sep).intercalate (xss.map render) :=
  intercalate_of_append render_nil render_append sep xss

namespace CallExpr

/-- A name that is read as one word and as no number. -/
def IsName (s : String) : Prop :=
  Piece.Solid s.toList ∧ ∀ c ∈ s.toList.head?, c.isDigit = false

/-- How tightly an operator binds its operands. -/
def Operator.tightness : Operator → Nat
  | eq | ne | le | lt | ge | gt => 1
  | add | sub => 2
  | mul | div => 3
  | pow => 5

def tightness : CallExpr → Nat
  | binary op _ _ => op.tightness
  | unary _ _ => 6
  | name _ | value _ _ | call _ _ _ => 7

/-- Numbers are finite and have no sign, and a string keeps its quotes. -/
def LegibleValue : Literal → Option String → Prop
  | .int n, none => 0 ≤ n
  | .float x, none => Unsigned x
  | .text s, some lexeme => Piece.Between s.toList lexeme.toList
  | _, _ => False

mutual

/-- No operation needs parentheses, and all names are words. Operators associate to the left, so a
right operand has to bind more tightly than its operator; the value of a keyword is a sum. -/
def Legible : CallExpr → Prop
  | unary _ e => Legible e ∧ 6 ≤ e.tightness
  | binary op l r =>
    (Legible l ∧ op.tightness ≤ l.tightness) ∧ Legible r ∧ op.tightness < r.tightness
  | name s => IsName s
  | value literal lexeme => LegibleValue literal lexeme
  | call callee args named => IsName callee ∧ LegibleAll args ∧ LegibleNamed named

def LegibleAll : List CallExpr → Prop
  | [] => True
  | e :: es => Legible e ∧ LegibleAll es

def LegibleNamed : List (String × CallExpr) → Prop
  | [] => True
  | (k, e) :: es => (IsName k ∧ Legible e ∧ 2 ≤ e.tightness) ∧ LegibleNamed es

end

lemma legibleAll_iff (es : List CallExpr) : LegibleAll es ↔ ∀ e ∈ es, Legible e := by
  induction es with
  | nil => simp [LegibleAll]
  | cons e es ih => simp [LegibleAll, ih]

lemma legibleNamed_iff (es : List (String × CallExpr)) :
    LegibleNamed es ↔ ∀ p ∈ es, IsName p.1 ∧ Legible p.2 ∧ 2 ≤ p.2.tightness := by
  induction es with
  | nil => simp [LegibleNamed]
  | cons p es ih => simp [LegibleNamed, ih]

/-! ### The pieces of a text -/

mutual

def pieces : CallExpr → List Piece
  | unary sign e => .sign sign :: pieces e
  | binary op l r => pieces l ++ .operator op :: pieces r
  | name s => [.word s]
  | value _ (some lexeme) => [.quoted lexeme]
  | value literal none => [.word literal.plain]
  | call callee args named =>
    .word callee :: .opening ::
      ([.comma].intercalate (piecesAll args ++ piecesNamed named) ++ [.closing])

def piecesAll : List CallExpr → List (List Piece)
  | [] => []
  | e :: es => pieces e :: piecesAll es

def piecesNamed : List (String × CallExpr) → List (List Piece)
  | [] => []
  | (k, e) :: es => (.word k :: .equal :: pieces e) :: piecesNamed es

end

lemma piecesAll_eq (es : List CallExpr) : piecesAll es = es.map pieces := by
  induction es with
  | nil => rfl
  | cons e es ih => rw [piecesAll, ih, map_cons]

lemma piecesNamed_eq (es : List (String × CallExpr)) :
    piecesNamed es = es.map fun p => .word p.1 :: .equal :: pieces p.2 := by
  induction es with
  | nil => rfl
  | cons p es ih => rw [piecesNamed, ih, map_cons]

lemma texts_eq (es : List CallExpr) : texts es = es.map text := by
  induction es with
  | nil => rfl
  | cons e es ih => rw [texts, ih, map_cons]

lemma namedTexts_eq (es : List (String × CallExpr)) :
    namedTexts es = es.map fun p => p.1 ++ "=" ++ text p.2 := by
  induction es with
  | nil => rfl
  | cons p es ih => rw [namedTexts, ih, map_cons]

lemma render_pieces (e : CallExpr) : Piece.render (pieces e) = e.text.toList := by
  induction e with
  | unary sign e ih => simp [pieces, text, Piece.chars, ih]
  | binary op l r ihl ihr => simp [pieces, text, Piece.chars, ihl, ihr]
  | name s => simp [pieces, text, Piece.chars]
  | value literal lexeme => cases lexeme <;> simp [pieces, text, Piece.chars]
  | call f args named ihArgs ihNamed =>
    have plain : args.map (fun e => Piece.render (pieces e)) = args.map fun e => e.text.toList :=
      map_congr_left ihArgs
    have keyed : named.map (fun p => p.1.toList ++ '=' :: Piece.render (pieces p.2)) =
        named.map fun p => p.1.toList ++ '=' :: p.2.text.toList := by
      apply map_congr_left
      intro p mem
      rw [ihNamed p mem]
    simp [pieces, text, piecesAll_eq, piecesNamed_eq, texts_eq, namedTexts_eq,
      Piece.render_intercalate, Piece.chars, Function.comp_def, plain, keyed]

/-! ### Words end where they should -/

lemma solid_number (number : NumberText cs) : Piece.Solid cs := by
  obtain ⟨c, rest, rfl, digit⟩ := number.first
  apply Piece.solid_of_unbroken (by simp)
  · intro d head initial
    obtain rfl : c = d := by simpa using head
    simp only [Piece.otherInitials, mem_cons, not_mem_nil, or_false] at initial
    rcases initial with rfl | rfl | rfl | rfl | rfl <;> cases digit
  · intro d mem breaks
    simp only [Piece.delimiters, mem_cons, not_mem_nil, or_false] at breaks
    rcases number.chars d mem with digit | mark
    · rcases breaks with rfl | rfl | rfl | rfl | rfl | rfl <;> cases digit
    · rcases breaks with rfl | rfl | rfl | rfl | rfl | rfl <;> simp at mark

/-- The text of a number. -/
lemma numberText_plain (legible : LegibleValue literal none) :
    NumberText literal.plain.toList := by
  cases literal with
  | int n =>
    obtain ⟨k, rfl⟩ := Int.eq_ofNat_of_zero_le legible
    have digits : (Literal.int k).plain.toList = Nat.toDigits 10 k := Nat.toList_repr
    rw [digits]
    exact numberText_digits Nat.toDigits_ne_nil
      fun c => Nat.isDigit_of_mem_toDigits (by decide) (by decide)
  | float x => exact numberText_shortText legible
  | text s => exact legible.elim

/-- What separates pieces also ends the words before it. -/
lemma separated_intercalate {p : Piece} (mark : p = .comma ∨ p = .colon)
    {xss : List (List Piece)} {rest : List Piece}
    (each : ∀ xs ∈ xss, ∀ rest, Piece.Stops rest → Piece.Separated rest →
      Piece.Separated (xs ++ rest))
    (separated : Piece.Separated rest) (stops : Piece.Stops rest) :
    Piece.Separated ([p].intercalate xss ++ rest) := by
  induction xss with
  | nil => simpa using separated
  | cons xs xss ih =>
    obtain ⟨first, others⟩ := forall_mem_cons.mp each
    cases xss with
    | nil => simpa using first rest stops separated
    | cons ys xss =>
      rw [intercalate_cons_cons, append_assoc, append_assoc]
      rcases mark with rfl | rfl
      · apply first _ (by simp [Piece.Stops, Piece.form])
        exact ⟨trivial, by simp [Piece.form], ih others⟩
      · apply first _ (by simp [Piece.Stops, Piece.form])
        exact ⟨trivial, by simp [Piece.form], ih others⟩

lemma separated_pieces (legible : Legible e) (stops : Piece.Stops rest)
    (separated : Piece.Separated rest) : Piece.Separated (pieces e ++ rest) := by
  induction e generalizing rest with
  | unary sign e ih => exact ⟨trivial, by simp [Piece.form], ih legible.1 stops separated⟩
  | binary op l r ihl ihr =>
    rw [pieces, append_assoc]
    apply ihl legible.1.1 (by simp [Piece.Stops, Piece.form])
    exact ⟨trivial, by simp [Piece.form], ihr legible.2.1 stops separated⟩
  | name s => exact ⟨legible.1, fun _ => stops, separated⟩
  | value literal lexeme =>
    cases lexeme with
    | none => exact ⟨solid_number (numberText_plain legible), fun _ => stops, separated⟩
    | some lexeme =>
      cases literal with
      | text s => exact ⟨⟨_, legible⟩, by simp [Piece.form], separated⟩
      | int | float => exact legible.elim
  | call f args named ihArgs ihNamed =>
    obtain ⟨callee, plain, keyed⟩ := legible
    rw [legibleAll_iff] at plain
    rw [legibleNamed_iff] at keyed
    rw [pieces, piecesAll_eq, piecesNamed_eq, cons_append, cons_append, append_assoc]
    refine ⟨callee.1, fun _ => by simp [Piece.Stops, Piece.form], trivial, by simp [Piece.form], ?_⟩
    apply separated_intercalate (.inl rfl)
    · intro xs mem rest stops separated
      rcases mem_append.mp mem with byPlace | byKey
      · obtain ⟨e, inside, rfl⟩ := mem_map.mp byPlace
        exact ihArgs e inside (plain e inside) stops separated
      · obtain ⟨p, inside, rfl⟩ := mem_map.mp byKey
        obtain ⟨key, legible, _⟩ := keyed p inside
        refine ⟨key.1, fun _ => by simp [Piece.Stops, Piece.form], trivial, by simp [Piece.form], ?_⟩
        exact ihNamed p inside legible stops separated
    · exact ⟨trivial, by simp [Piece.form], separated⟩
    · simp [Piece.Stops, Piece.form]

lemma mem_intercalate {α : Type} {x : α} {sep : List α} {xss : List (List α)}
    (mem : x ∈ sep.intercalate xss) : x ∈ sep ∨ ∃ xs ∈ xss, x ∈ xs := by
  induction xss with
  | nil => simp at mem
  | cons xs xss ih =>
    cases xss with
    | nil => exact .inr ⟨xs, by simp, by simpa using mem⟩
    | cons ys xss =>
      rw [intercalate_cons_cons, mem_append, mem_append] at mem
      rcases mem with (inside | between) | later
      · exact .inr ⟨xs, by simp, inside⟩
      · exact .inl between
      · exact (ih later).imp_right fun ⟨zs, among, inside⟩ => ⟨zs, by simp [among], inside⟩

lemma colon_not_mem_pieces (e : CallExpr) : .colon ∉ pieces e := by
  induction e with
  | unary sign e ih => simpa [pieces] using ih
  | binary op l r ihl ihr => simp [pieces, ihl, ihr]
  | name s => simp [pieces]
  | value literal lexeme => cases lexeme <;> simp [pieces]
  | call f args named ihArgs ihNamed =>
    intro mem
    simp only [pieces, piecesAll_eq, piecesNamed_eq, mem_cons, mem_append, reduceCtorEq,
      not_mem_nil, or_false, false_or] at mem
    rcases mem_intercalate mem with between | ⟨xs, among, inside⟩
    · simp at between
    · rcases mem_append.mp among with byPlace | byKey
      · obtain ⟨e, argument, rfl⟩ := mem_map.mp byPlace
        exact ihArgs e argument inside
      · obtain ⟨p, argument, rfl⟩ := mem_map.mp byKey
        exact ihNamed p argument (by simpa using inside)

/-! ### The tree of a text -/

def Sign.kind : Sign → Token.Kind
  | plus => .plus
  | minus => .minus

def Operator.kind : Operator → Token.Kind
  | add => .plus | sub => .minus | mul => .star | div => .slash | pow => .starStar
  | eq => .equalEqual | ne => .bangEqual | le => .lessEqual | lt => .less
  | ge => .greaterEqual | gt => .greater

/-- A piece taken as a token. A number stands for its text. -/
def token : Piece → Token
  | .word s =>
    if s.toList.head?.any Char.isDigit then ⟨.number, "", some (.text s)⟩ else ⟨.identifier, s, none⟩
  | .quoted s => ⟨.string, s, some (.text "")⟩
  | .sign s => ⟨s.kind, "", none⟩
  | .operator o => ⟨o.kind, "", none⟩
  | .opening => ⟨.leftParen, "", none⟩
  | .closing => ⟨.rightParen, "", none⟩
  | .comma => ⟨.comma, "", none⟩
  | .equal => ⟨.equal, "", none⟩
  | .colon => ⟨.colon, "", none⟩

lemma token_name (isName : IsName s) : token (.word s) = ⟨.identifier, s, none⟩ := by
  apply if_neg
  cases head : s.toList.head? with
  | none => simp
  | some c => simp [isName.2 c head]

lemma token_number (number : NumberText s.toList) :
    token (.word s) = ⟨.number, "", some (.text s)⟩ := by
  obtain ⟨c, rest, shape, digit⟩ := number.first
  exact if_pos (by simp [shape, digit])

mutual

/-- The tree that a text shows. -/
def tree : CallExpr → Expr
  | unary sign e => .unary (token (.sign sign)) (tree e)
  | binary op l r => .binary (tree l) (token (.operator op)) (tree r)
  | name s => .name ⟨.identifier, s, none⟩
  | value _ (some lexeme) => .literal (.text "") (some lexeme)
  | value literal none => .literal (.text literal.plain) none
  | call callee args named => .call (.name ⟨.identifier, callee, none⟩) (trees args ++ assigned named)

def trees : List CallExpr → List Expr
  | [] => []
  | e :: es => tree e :: trees es

def assigned : List (String × CallExpr) → List Expr
  | [] => []
  | (k, e) :: es => .assign (.name ⟨.identifier, k, none⟩) (tree e) :: assigned es

end

lemma trees_eq (es : List CallExpr) : trees es = es.map tree := by
  induction es with
  | nil => rfl
  | cons e es ih => rw [trees, ih, map_cons]

lemma assigned_eq (es : List (String × CallExpr)) :
    assigned es = es.map fun p => .assign (.name ⟨.identifier, p.1, none⟩) (tree p.2) := by
  induction es with
  | nil => rfl
  | cons p es ih => rw [assigned, ih, map_cons]

section Derivation

open ModelFormula.Expr

/-- The symbol of what binds as tightly as a number says. -/
def symbolAt : Nat → Symbol
  | 0 => .level .group
  | 1 => .level .comparison
  | 2 => .level .sum
  | 3 => .level .product
  | 4 => .level .interaction
  | 5 => .level .power
  | 6 => .unary
  | _ => .call

lemma derives_looser (le : j ≤ k) (derives : Derives (symbolAt k) w e) :
    Derives (symbolAt j) w e := by
  induction le using Nat.decreasingInduction with
  | self => exact derives
  | of_succ k _ inner =>
    match k with
    | 0 => exact @Derives.operand .group _ _ inner
    | 1 => exact @Derives.operand .comparison _ _ inner
    | 2 => exact @Derives.operand .sum _ _ inner
    | 3 => exact @Derives.operand .product _ _ inner
    | 4 => exact @Derives.operand .interaction _ _ inner
    | 5 => exact @Derives.operand .power _ _ inner
    | 6 => exact .unsigned inner
    | _ + 7 => exact inner

def Operator.level : Operator → Parse.Level
  | add | sub => .sum
  | mul | div => .product
  | pow => .power
  | eq | ne | le | lt | ge | gt => .comparison

lemma Operator.symbolAt_tightness (op : Operator) : symbolAt op.tightness = .level op.level ∧
      symbolAt (op.tightness + 1) = operandSymbol op.level ∧ op.kind ∈ op.level.operators := by
  cases op <;> exact ⟨rfl, rfl, by decide⟩

lemma arguments_intercalate (all : List.Forall₂ (Derives .expression) ws es) :
    Arguments ([token .comma].intercalate ws) es := by
  induction all with
  | nil => exact .none
  | @cons w e ws es first others ih =>
    cases others with
    | nil => simpa using Arguments.singleton first
    | cons second others =>
      rw [intercalate_cons_cons, append_assoc]
      exact .cons first rfl ih (by simp)

/-- The pieces of a text derive the tree that it shows. -/
lemma derives_tree (legible : Legible e) :
    Derives (symbolAt e.tightness) ((pieces e).map token) (tree e) := by
  induction e with
  | unary sign e ih =>
    have inner : Derives .unary _ _ := derives_looser legible.2 (ih legible.1)
    refine .sign ?_ inner
    cases sign
    · exact .inl rfl
    · exact .inr rfl
  | binary op l r ihl ihr =>
    obtain ⟨level, operand, operates⟩ := op.symbolAt_tightness
    have left := derives_looser legible.1.2 (ihl legible.1.1)
    have right := derives_looser legible.2.2 (ihr legible.2.1)
    rw [tightness, pieces, tree, map_append, map_cons]
    rw [level] at left ⊢
    rw [Nat.succ_eq_add_one, operand] at right
    exact .operation left operates right
  | name s =>
    rw [pieces, tree, map_singleton, token_name legible]
    exact .uncalled (.name rfl)
  | value literal lexeme =>
    cases lexeme with
    | none =>
      rw [pieces, tree, map_singleton, token_number (numberText_plain legible)]
      exact .uncalled (.number rfl rfl)
    | some lexeme => exact .uncalled (.string rfl rfl)
  | call f args named ihArgs ihNamed =>
    obtain ⟨callee, plain, keyed⟩ := legible
    rw [legibleAll_iff] at plain
    rw [legibleNamed_iff] at keyed
    have all : List.Forall₂ (Derives .expression)
        ((piecesAll args ++ piecesNamed named).map (List.map token)) (trees args ++ assigned named) := by
      rw [piecesAll_eq, piecesNamed_eq, trees_eq, assigned_eq, map_append]
      apply rel_append
      · rw [map_map, forall₂_map_left_iff, forall₂_map_right_iff, forall₂_same]
        intro e mem
        exact .expression (.tilde (derives_looser (Nat.zero_le _) (ihArgs e mem (plain e mem))))
      · rw [map_map, forall₂_map_left_iff, forall₂_map_right_iff, forall₂_same]
        intro p mem
        obtain ⟨key, legible, sum⟩ := keyed p mem
        have value : Derives (.level .sum) _ _ := derives_looser sum (ihNamed p mem legible)
        have assignment := Derives.assignment (t := token .equal)
          (.name (t := ⟨.identifier, p.1, none⟩) rfl) rfl rfl value
        simpa [token_name key] using assignment
    have called := (arguments_intercalate all).derives_call (o := token .opening)
      (c := token .closing) (.uncalled (.name (t := ⟨.identifier, f, none⟩) rfl)) rfl rfl
    simpa [pieces, tree, tightness, symbolAt, token_name callee, intercalate_of_append map_nil
      fun _ _ => map_append] using called

end Derivation

/-! ### Texts tell calls apart -/

lemma plain_injective (left : LegibleValue v none) (right : LegibleValue w none)
    (eq : v.plain = w.plain) : v == w := by
  -- the text of a whole number has digits only
  have digits (n : Int) (natural : 0 ≤ n) : ∀ c ∈ (Literal.int n).plain.toList, c.isDigit := by
    obtain ⟨k, rfl⟩ := Int.eq_ofNat_of_zero_le natural
    have shown : (Literal.int k).plain.toList = Nat.toDigits 10 k := Nat.toList_repr
    rw [shown]
    exact fun c => Nat.isDigit_of_mem_toDigits (by decide) (by decide)
  cases v with
  | int m =>
    cases w with
    | int n =>
      have same : m = n := by
        obtain ⟨j, rfl⟩ := Int.eq_ofNat_of_zero_le left
        obtain ⟨k, rfl⟩ := Int.eq_ofNat_of_zero_le right
        have reprs : Nat.repr j = Nat.repr k := eq
        rw [Nat.repr_injective reprs]
      show (m == n)
      simpa using same
    | float y =>
      refine absurd ?_ (shortText_not_digits right)
      rw [show shortText y = (Literal.int m).plain from eq.symm]
      exact digits m left
    | text => exact right.elim
  | float x =>
    cases w with
    | int n =>
      refine absurd ?_ (shortText_not_digits left)
      rw [show shortText x = (Literal.int n).plain from eq]
      exact digits n right
    | float y => exact shortText_injective left right eq
    | text => exact right.elim
  | text => exact left.elim

lemma append_inj_of_forall {α : Type} {p : α → Bool} {xs ys us vs : List α}
    (first : ∀ x ∈ xs, p x = false) (second : ∀ y ∈ ys, p y)
    (third : ∀ u ∈ us, p u = false) (fourth : ∀ v ∈ vs, p v)
    (eq : xs ++ ys = us ++ vs) : xs = us ∧ ys = vs := by
  have front := congrArg (List.takeWhile (!p ·)) eq
  have none {zs : List α} (all : ∀ z ∈ zs, p z) : zs.takeWhile (!p ·) = [] := by
    cases zs with
    | nil => rfl
    | cons z zs => simp [all z mem_cons_self]
  rw [takeWhile_append_of_pos (by simpa using first),
    takeWhile_append_of_pos (by simpa using third), none second, none fourth,
    append_nil, append_nil] at front
  subst front
  exact ⟨rfl, append_cancel_left eq⟩

/-- The keyword and the value of an argument by keyword. -/
def assignment? : Expr → Option (String × Expr)
  | .assign (.name t) v => some (t.lexeme, v)
  | _ => none

lemma assignment?_tree (e : CallExpr) : assignment? (tree e) = none := by
  cases e with
  | value _ lexeme => cases lexeme <;> rfl
  | unary | binary | name | call => rfl

lemma assignment?_assigned (named : List (String × CallExpr)) :
    ∀ e ∈ assigned named, (assignment? e).isSome := by
  rw [assigned_eq, forall_mem_map]
  exact fun _ _ => rfl

lemma tree_call_inj (eq : tree (call f args named) = tree (call f' args' named')) :
    f = f' ∧ args.map tree = args'.map tree ∧
      named.map (fun p => (p.1, tree p.2)) = named'.map fun p => (p.1, tree p.2) := by
  simp only [tree, Expr.call.injEq, Expr.name.injEq, Token.mk.injEq, true_and, and_true] at eq
  obtain ⟨callees, arguments⟩ := eq
  obtain ⟨plain, keyed⟩ := append_inj_of_forall (p := fun e => (assignment? e).isSome)
    (by simp [trees_eq, assignment?_tree]) (assignment?_assigned named)
    (by simp [trees_eq, assignment?_tree]) (assignment?_assigned named') arguments
  rw [trees_eq, trees_eq] at plain
  refine ⟨callees, plain, ?_⟩
  have pairs := congrArg (List.filterMap assignment?) keyed
  simpa [assigned_eq, filterMap_map, Function.comp_def, assignment?] using pairs

/-- Calls that show one tree are equal. -/
lemma same_of_tree_eq (keyed : Keyed d) (left : Legible e) (right : Legible d)
    (eq : tree e = tree d) : same e d = .ok true := by
  induction e generalizing d with
  | unary sign e ih =>
    cases d with
    | unary sign' d =>
      simp only [tree, Expr.unary.injEq] at eq
      have signs : sign = sign' := by
        have kinds := congrArg Token.kind eq.1
        cases sign <;> cases sign' <;> first | rfl | cases kinds
      rw [same, if_pos (by simp [signs])]
      exact ih keyed left.1 right.1 eq.2
    | value _ lexeme => cases lexeme <;> cases eq
    | binary | name | call => cases eq
  | binary op l r ihl ihr =>
    cases d with
    | binary op' l' r' =>
      simp only [tree, Expr.binary.injEq] at eq
      have operators : op = op' := by
        have kinds := congrArg Token.kind eq.2.1
        cases op <;> cases op' <;> first | rfl | cases kinds
      rw [same, if_pos (by simp [operators]), ihl keyed.1 left.1.1 right.1.1 eq.1]
      exact ihr keyed.2 left.2.1 right.2.1 eq.2.2
    | value _ lexeme => cases lexeme <;> cases eq
    | unary | name | call => cases eq
  | name s =>
    cases d with
    | name t =>
      simp only [tree, Expr.name.injEq, Token.mk.injEq, true_and, and_true] at eq
      simp [same, eq]
    | value _ lexeme => cases lexeme <;> cases eq
    | unary | binary | call => cases eq
  | value v x =>
    cases d with
    | value w y =>
      cases x with
      | none =>
        cases y with
        | none =>
          simp only [tree, Expr.literal.injEq, Literal.text.injEq, and_true] at eq
          simp [same, plain_injective left right eq]
        | some y => simp [tree] at eq
      | some x =>
        cases y with
        | none => simp [tree] at eq
        | some y =>
          simp only [tree, Expr.literal.injEq, Option.some.injEq, true_and] at eq
          subst eq
          cases v with
          | text s =>
            cases w with
            | text t =>
              have insides := String.toList_inj.mp (Piece.Between.inside_inj left right)
              have texts : Literal.text s == Literal.text t := by
                show (s == t)
                simpa using insides
              simp [same, texts]
            | int | float => exact right.elim
          | int | float => exact left.elim
    | unary | binary | name | call => cases x <;> cases eq
  | call f args named ihArgs ihNamed =>
    cases d with
    | call f' args' named' =>
      obtain ⟨_, plain, byKey⟩ := left
      obtain ⟨_, plain', byKey'⟩ := right
      obtain ⟨keyedArgs, nodup, keyedNamed⟩ := keyed
      rw [legibleAll_iff] at plain plain'
      rw [legibleNamed_iff] at byKey byKey'
      rw [keyedAll_iff] at keyedArgs
      rw [keyedNamed_iff] at keyedNamed
      obtain ⟨rfl, trees, pairs⟩ := tree_call_inj eq
      refine same_call_iff.mpr ⟨args', named', rfl, ?_, ?_, ?_⟩
      · apply forall₂_of_map_eq trees
        intro e mem d inside
        exact ihArgs e mem (keyedArgs d inside) (plain e mem) (plain' d inside)
      · simpa using congrArg List.length pairs
      · intro p mem
        have shown : (p.1, tree p.2) ∈ named'.map fun p => (p.1, tree p.2) := by
          rw [← pairs]
          exact mem_map_of_mem (f := fun p => (p.1, tree p.2)) mem
        obtain ⟨q, inside, shows⟩ := mem_map.mp shown
        obtain ⟨key, value⟩ := Prod.mk.inj shows
        refine ⟨q, by rw [← key]; exact find?_key_eq_some nodup inside, ?_⟩
        exact ihNamed p mem (keyedNamed q inside) (byKey p mem).2.1 (byKey' q inside).2.1 value.symm
    | value _ lexeme => cases lexeme <;> cases eq
    | unary | binary | name => cases eq

/-- Of two calls that need no parentheses and have one text, one equals the other. -/
lemma same_of_pieces_eq (keyed : Keyed d) (left : Legible e) (right : Legible d)
    (eq : pieces e = pieces d) : same e d = .ok true := by
  apply same_of_tree_eq keyed left right
  have first := derives_looser (Nat.zero_le _) (derives_tree left)
  have second := derives_looser (Nat.zero_le _) (derives_tree right)
  rw [eq] at first
  exact first.unique second

end CallExpr

end ModelFormula
