import ModelFormula.Proofs.Calls.FormulaCalls

/-!
# Hash keys of calls

A key takes of a keyword only the name, in the order of the text; equality matches keywords by name
and compares their values. So equal trees have equal keys exactly if they name their keywords in the
same order.
-/
namespace ModelFormula

open List

namespace HashKey

lemma same_ofText (s t : String) : same (ofText s) (ofText t) ↔ s = t :=
  beq_iff_eq (α := String)

lemma sameAll_iff : sameAll ks ls ↔ Forall₂ (fun k l => same k l) ks ls := by
  induction ks generalizing ls with
  | nil => cases ls <;> simp [sameAll]
  | cons k ks ih => cases ls <;> simp [sameAll, ih]

lemma same_tuple : same (tuple ks) (tuple ls) ↔ Forall₂ (fun k l => same k l) ks ls := by
  rw [same, sameAll_iff]

end HashKey

lemma forall₂_append_iff {α β : Type} {R : α → β → Prop} {as bs : List α} {cs ds : List β}
    (long : as.length = cs.length) :
    Forall₂ R (as ++ bs) (cs ++ ds) ↔ Forall₂ R as cs ∧ Forall₂ R bs ds := by
  induction as generalizing cs with
  | nil =>
    obtain rfl := length_eq_zero_iff.mp long.symm
    simp
  | cons a as ih =>
    cases cs with
    | nil => simp at long
    | cons c cs =>
      have shorter : as.length = cs.length := by simpa using long
      simp [ih shorter, and_assoc]

lemma forall₂_of_forall_exists {α β : Type} {R : α → β → Prop} {as : List α}
    (each : ∀ a ∈ as, ∃ b, R a b) : ∃ bs, Forall₂ R as bs := by
  induction as with
  | nil => exact ⟨[], .nil⟩
  | cons a as ih =>
    obtain ⟨⟨b, first⟩, others⟩ := forall_mem_cons.mp each
    obtain ⟨bs, rest⟩ := ih others
    exact ⟨b :: bs, .cons first rest⟩

namespace CallExpr

/-! ### Trees with a key -/

mutual

/-- All literals of the tree stand in the values of keywords. -/
def Keyable : CallExpr → Prop
  | unary _ e => Keyable e
  | binary _ l r => Keyable l ∧ Keyable r
  | name _ => True
  | value _ _ => False
  | call _ args _ => KeyableAll args

def KeyableAll : List CallExpr → Prop
  | [] => True
  | e :: es => Keyable e ∧ KeyableAll es

end

lemma keyableAll_iff (es : List CallExpr) : KeyableAll es ↔ ∀ e ∈ es, Keyable e := by
  induction es with
  | nil => simp [KeyableAll]
  | cons e es ih => simp [KeyableAll, ih]

lemma keys_eq_ok : keys es = .ok ks ↔ Forall₂ (fun e k => key e = .ok k) es ks := by
  induction es generalizing ks with
  | nil => cases ks <;> simp [keys]
  | cons e es ih =>
    rw [keys, bind_eq_ok]
    simp only [bind_eq_ok, ih]
    constructor
    · rintro ⟨k, first, ks', others, eq⟩
      cases eq
      exact .cons first others
    · rintro (_ | ⟨first, others⟩)
      exact ⟨_, first, _, others, rfl⟩

lemma keys_eq_error (failed : keys es = .error fault) : ∃ e ∈ es, key e = .error fault := by
  induction es with
  | nil => cases failed
  | cons e es ih =>
    rw [keys] at failed
    rcases bind_eq_error.mp failed with first | ⟨_, _, failed⟩
    · exact ⟨e, by simp, first⟩
    · rcases bind_eq_error.mp failed with others | ⟨_, _, failed⟩
      · obtain ⟨d, mem, failed⟩ := ih others
        exact ⟨d, mem_cons_of_mem e mem, failed⟩
      · cases failed

variable {k : HashKey} {a : CallExpr}

lemma key_unary :
    key (unary sign e) = .ok k ↔ ∃ inner, key e = .ok inner ∧ k = .tuple [.ofText sign.symbol, inner] := by
  rw [key, bind_eq_ok]
  simp [pure_ok, eq_comm]

lemma key_binary :
    key (binary op l r) = .ok k ↔ ∃ left right, key l = .ok left ∧ key r = .ok right ∧
      k = .tuple [.ofText op.symbol, left, right] := by
  rw [key, bind_eq_ok]
  simp only [bind_eq_ok, pure_ok, Except.ok.injEq]
  constructor
  · rintro ⟨left, first, right, second, rfl⟩
    exact ⟨left, right, first, second, rfl⟩
  · rintro ⟨left, right, first, second, rfl⟩
    exact ⟨left, first, right, second, rfl⟩

/-- The names of keywords as they stand in a key. -/
def keywordKeys (named : List (String × CallExpr)) : List HashKey := named.map fun p => .ofText p.1

lemma key_call : key (call f args named) = .ok k ↔
      ∃ ks, Forall₂ (fun e k => key e = .ok k) args ks ∧
        k = .tuple (.ofText f :: ks ++ keywordKeys named) := by
  rw [key, bind_eq_ok]
  simp only [keys_eq_ok, pure_ok, Except.ok.injEq, keywordKeys, eq_comm (a := k)]

lemma key_returns (keyable : a.Keyable) : ∃ k, key a = .ok k := by
  induction a with
  | unary sign e ih =>
    obtain ⟨k, inner⟩ := ih keyable
    exact ⟨_, key_unary.mpr ⟨k, inner, rfl⟩⟩
  | binary op l r ihl ihr =>
    obtain ⟨k, left⟩ := ihl keyable.1
    obtain ⟨k', right⟩ := ihr keyable.2
    exact ⟨_, key_binary.mpr ⟨k, k', left, right, rfl⟩⟩
  | name s => exact ⟨_, rfl⟩
  | value v x => exact keyable.elim
  | call f args named ihArgs _ =>
    obtain ⟨ks, all⟩ : ∃ ks, Forall₂ (fun e k => key e = .ok k) args ks :=
      forall₂_of_forall_exists fun e mem => ihArgs e mem ((keyableAll_iff args).mp keyable e mem)
    exact ⟨_, key_call.mpr ⟨ks, all, rfl⟩⟩

/-- A key that is missing is missing because of a literal. -/
lemma unsupported_of_key_error (failed : key a = .error fault) : fault = .unsupported := by
  induction a with
  | unary sign e ih =>
    rw [key] at failed
    rcases bind_eq_error.mp failed with inner | ⟨_, _, failed⟩
    · exact ih inner
    · cases failed
  | binary op l r ihl ihr =>
    rw [key] at failed
    rcases bind_eq_error.mp failed with left | ⟨_, _, failed⟩
    · exact ihl left
    · rcases bind_eq_error.mp failed with right | ⟨_, _, failed⟩
      · exact ihr right
      · cases failed
  | name s => cases failed
  | value v x =>
    cases failed
    rfl
  | call f args named ihArgs _ =>
    rw [key] at failed
    rcases bind_eq_error.mp failed with given | ⟨_, _, failed⟩
    · obtain ⟨e, mem, inner⟩ := keys_eq_error given
      exact ihArgs e mem inner
    · cases failed

lemma keyable_of_key (found : key a = .ok k) : a.Keyable := by
  induction a generalizing k with
  | unary sign e ih =>
    obtain ⟨k, inner, rfl⟩ := key_unary.mp found
    have keyable := ih inner
    exact keyable
  | binary op l r ihl ihr =>
    obtain ⟨k, k', left, right, rfl⟩ := key_binary.mp found
    exact ⟨ihl left, ihr right⟩
  | name s => trivial
  | value v x => cases found
  | call f args named ihArgs _ =>
    obtain ⟨ks, all, rfl⟩ := key_call.mp found
    refine (keyableAll_iff args).mpr fun e mem => ?_
    obtain ⟨i, bound, rfl⟩ := getElem_of_mem mem
    exact ihArgs _ mem (all.get bound (all.length_eq ▸ bound))

/-! ### Equal trees -/

mutual

/-- Calls in the same place name their keywords in the same order. -/
def Aligned : CallExpr → CallExpr → Prop
  | unary _ e, unary _ d => Aligned e d
  | binary _ l r, binary _ l' r' => Aligned l l' ∧ Aligned r r'
  | call _ args named, call _ args' named' =>
    AlignedAll args args' ∧ named.map Prod.fst = named'.map Prod.fst
  | _, _ => True

def AlignedAll : List CallExpr → List CallExpr → Prop
  | e :: es, d :: ds => Aligned e d ∧ AlignedAll es ds
  | _, _ => True

end

lemma alignedAll_iff (long : es.length = ds.length) :
    AlignedAll es ds ↔ Forall₂ Aligned es ds := by
  induction es generalizing ds with
  | nil =>
    obtain rfl := length_eq_zero_iff.mp long.symm
    simp [AlignedAll]
  | cons e es ih =>
    cases ds with
    | nil => simp at long
    | cons d ds =>
      have shorter : es.length = ds.length := by simpa using long
      simp [AlignedAll, ih shorter]

lemma keyable_of_same (eq : same a b = .ok true) : a.Keyable ↔ b.Keyable := by
  induction a generalizing b with
  | unary sign e ih =>
    obtain ⟨d, rfl, inner⟩ := same_unary_iff.mp eq
    have keyable := ih inner
    exact keyable
  | binary op l r ihl ihr =>
    obtain ⟨l', r', rfl, left, right⟩ := same_binary_iff.mp eq
    exact and_congr (ihl left) (ihr right)
  | name s => rw [same_name_iff.mp eq]
  | value v x =>
    obtain ⟨w, rfl, _⟩ := same_value_iff.mp eq
    rfl
  | call f args named ihArgs _ =>
    -- keywords do not count, so only the arguments have to agree
    obtain ⟨args', named', rfl, all, _⟩ := same_call_iff.mp eq
    show KeyableAll args ↔ KeyableAll args'
    clear eq
    induction all with
    | nil => rfl
    | cons first _ ih =>
      exact and_congr (ihArgs _ (by simp) first) (ih fun e mem => ihArgs e (by simp [mem]))

lemma same_keywordKeys (es ds : List (String × CallExpr)) :
    Forall₂ (fun k l => HashKey.same k l) (keywordKeys es) (keywordKeys ds) ↔
      es.map Prod.fst = ds.map Prod.fst := by
  simp only [keywordKeys, forall₂_map_left_iff, forall₂_map_right_iff, HashKey.same_ofText]
  rw [← forall₂_eq_eq_eq, forall₂_map_left_iff, forall₂_map_right_iff]

/-- The keys of equal trees are equal exactly if the trees are aligned. -/
lemma same_key_iff (eq : same a b = .ok true) (left : key a = .ok k) (right : key b = .ok l) :
    HashKey.same k l ↔ Aligned a b := by
  induction a generalizing b k l with
  | unary sign e ih =>
    obtain ⟨d, rfl, inner⟩ := same_unary_iff.mp eq
    obtain ⟨k', own, rfl⟩ := key_unary.mp left
    obtain ⟨l', other, rfl⟩ := key_unary.mp right
    rw [HashKey.same_tuple]
    simpa [HashKey.same_ofText, Aligned] using ih inner own other
  | binary op m r ihl ihr =>
    obtain ⟨m', r', rfl, first, second⟩ := same_binary_iff.mp eq
    obtain ⟨k₁, k₂, left₁, left₂, rfl⟩ := key_binary.mp left
    obtain ⟨l₁, l₂, right₁, right₂, rfl⟩ := key_binary.mp right
    rw [HashKey.same_tuple]
    simpa [HashKey.same_ofText, Aligned] using
      and_congr (ihl first left₁ right₁) (ihr second left₂ right₂)
  | name s =>
    obtain rfl := same_name_iff.mp eq
    cases left
    cases right
    simp [HashKey.same_ofText, Aligned]
  | value v x => cases left
  | call f args named ihArgs _ =>
    obtain ⟨args', named', rfl, all, _⟩ := same_call_iff.mp eq
    obtain ⟨ks, lefts, rfl⟩ := key_call.mp left
    obtain ⟨ls, rights, rfl⟩ := key_call.mp right
    -- with as many arguments on both sides the keys come apart where the keywords begin
    have long : ks.length = ls.length :=
      lefts.length_eq.symm.trans (all.length_eq.trans rights.length_eq)
    have inner : Forall₂ (fun k l => HashKey.same k l) ks ls ↔ Forall₂ Aligned args args' := by
      clear eq left right long
      induction all generalizing ks ls with
      | nil =>
        cases lefts
        cases rights
        simp
      | cons first _ ih =>
        cases lefts with
        | cons k ks =>
          cases rights with
          | cons l ls =>
            rw [forall₂_cons, forall₂_cons, ihArgs _ (by simp) first k l,
              ih (fun e mem => ihArgs e (by simp [mem])) _ ks _ ls]
    rw [HashKey.same_tuple, cons_append, cons_append, forall₂_cons,
      forall₂_append_iff long, inner, same_keywordKeys, HashKey.same_ofText, Aligned,
      alignedAll_iff all.length_eq]
    simp

/-- Let two trees be equal. One has a key exactly if its literals all stand in the values of keywords,
and so has the other. If they have keys, these are equal exactly if both trees name their keywords in
the same order in all places that count. If they have none, both stop with an unsupported operation. -/
theorem key_of_same {a b : CallExpr} (equal : same a b = .ok true) :
    ((∃ k, key a = .ok k) ↔ a.Keyable) ∧ ((∃ l, key b = .ok l) ↔ a.Keyable) ∧
    (a.Keyable → ∃ k l, key a = .ok k ∧ key b = .ok l ∧ ((k == l) = true ↔ Aligned a b)) ∧
    (¬ a.Keyable → key a = .error .unsupported ∧ key b = .error .unsupported) := by
  have both := keyable_of_same equal
  have returns : ∀ c : CallExpr, (∃ k, key c = .ok k) ↔ c.Keyable :=
    fun c => ⟨fun ⟨_, found⟩ => keyable_of_key found, key_returns⟩
  refine ⟨returns a, (returns b).trans both.symm, ?_, ?_⟩
  · intro keyable
    obtain ⟨k, left⟩ := key_returns keyable
    obtain ⟨l, right⟩ := key_returns (both.mp keyable)
    exact ⟨k, l, left, right, same_key_iff equal left right⟩
  · intro missing
    have stops : ∀ c : CallExpr, ¬ c.Keyable → key c = .error .unsupported := by
      intro c stuck
      cases result : key c with
      | ok k => exact absurd (keyable_of_key result) stuck
      | error fault => rw [unsupported_of_key_error result]
    exact ⟨stops a missing, stops b fun other => missing (both.mpr other)⟩

/-- The value of a keyword may be a literal, and with one keyword there is one order. -/
theorem key_of_same_literal :
    let a := call "f" [name "x"] [("k", value (.int 1) none)]
    let b := call "f" [name "x"] [("k", value (.float 1.0) none)]
    same a b = .ok true ∧ ∃ k l, key a = .ok k ∧ key b = .ok l ∧ (k == l) = true := by
  intro a b
  have equal : same a b = .ok true := by decide +kernel
  have keyable : a.Keyable := ⟨trivial, trivial⟩
  have aligned : Aligned a b := ⟨⟨trivial, trivial⟩, rfl⟩
  obtain ⟨k, l, left, right, keys⟩ := (key_of_same equal).2.2.1 keyable
  exact ⟨equal, k, l, left, right, keys.mpr aligned⟩

/-- The call `f(1)` equals itself and has no key, so no model with it can be compared; and of the equal
calls `f(k=x,m=y)` and `f(m=y,k=x)` the keys differ. -/
theorem key_of_equal_calls_missing :
    let literal := call "f" [value (.int 1) none] []
    let a := call "f" [] [("k", name "x"), ("m", name "y")]
    let b := call "f" [] [("m", name "y"), ("k", name "x")]
    let model : Model := { common := [.term ⟨0, [⟨0, .call literal⟩]⟩] }
    OfFormula literal ∧ same literal literal = .ok true ∧ key literal = .error .unsupported ∧
      model.same (fun _ => none) model = .error .unsupported ∧
      OfFormula a ∧ OfFormula b ∧ same a b = .ok true ∧
      ∃ k l, key a = .ok k ∧ key b = .ok l ∧ (k == l) = false := by
  intro literal a b model
  have first : OfFormula literal := @OfFormula.of_read "f(1)" literal (by cbv)
  have second : OfFormula a := @OfFormula.of_read "f(k=x,m=y)" a (by cbv)
  have third : OfFormula b := @OfFormula.of_read "f(m=y,k=x)" b (by cbv)
  exact ⟨first, rfl, rfl, rfl, second, third, rfl, _, _, rfl, rfl, rfl⟩

end CallExpr

end ModelFormula
