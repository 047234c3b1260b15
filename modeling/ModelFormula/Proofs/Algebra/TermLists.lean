import ModelFormula.Proofs.Algebra.Origins
import ModelFormula.Proofs.Codings.Picked

/-!
# Lists of terms

Where atoms carry marks that tell exactly which of them are equal, no search for equal terms stops
with a fault, and a term counts by the list of its marks.
-/
namespace ModelFormula

open List Operand Model

variable {α : Type} {t : Term} {cs : List Component}

open Component (unknown)

variable {κ : Type} [DecidableEq κ]

/-! ### Lists without repetitions -/

lemma filter_eraseDups (p : κ → Bool) : ∀ s : List κ,
    s.eraseDups.filter p = (s.filter p).eraseDups
  | [] => rfl
  | k :: s => by
    have shorter : (s.filter fun x => !x == k).length ≤ s.length := length_filter_le ..
    have rest := filter_eraseDups p (s.filter fun x => !x == k)
    rw [eraseDups_cons, filter_cons, rest, filter_filter, filter_cons]
    split
    · rw [eraseDups_cons, filter_filter]
      simp only [Bool.and_comm]
    · next rejected =>
      -- what is taken out for being equal to the head would be rejected as well
      congr 1
      apply filter_congr
      intro x _
      by_cases eq : x = k
      · simp [eq, rejected]
      · simp [eq]
termination_by s => s.length

omit [DecidableEq κ] in
lemma nodup_eraseDups [BEq κ] [LawfulBEq κ] : ∀ s : List κ, s.eraseDups.Nodup
  | [] => .nil
  | k :: s => by
    have shorter : (s.filter fun x => !x == k).length ≤ s.length := length_filter_le ..
    rw [eraseDups_cons]
    apply nodup_cons.mpr
    constructor
    · simp [mem_eraseDups]
    · exact nodup_eraseDups _
termination_by s => s.length

omit [DecidableEq κ] in
lemma eraseDups_concat [BEq κ] [LawfulBEq κ] (s : List κ) (k : κ) :
    (s ++ [k]).eraseDups = if k ∈ s then s.eraseDups else s.eraseDups ++ [k] := by
  rw [eraseDups_append]
  by_cases known : k ∈ s <;> simp [List.removeAll, known, eraseDups_cons]

/-- One list behind another, without the later repetitions. -/
def joined (s t : List κ) : List κ := (s ++ t).eraseDups

lemma joined_eraseDups_left (s t : List κ) : joined s.eraseDups t = joined s t := by
  have known : t.removeAll s.eraseDups = t.removeAll s := by simp [List.removeAll]
  rw [joined, joined, eraseDups_append, eraseDups_append, known,
    Coding.eraseDups_of_nodup (nodup_eraseDups s)]

lemma joined_eraseDups_right (s t : List κ) : joined s t.eraseDups = joined s t := by
  rw [joined, joined, eraseDups_append, eraseDups_append]
  simp only [List.removeAll]
  rw [filter_eraseDups, Coding.eraseDups_of_nodup (nodup_eraseDups _)]

lemma joined_self {s : List κ} (nodup : s.Nodup) : joined s s = s := by
  have known : s.removeAll s = [] := by simp [List.removeAll]
  rw [joined, eraseDups_append, known, Coding.eraseDups_of_nodup nodup]
  simp

/-- Joining three lists, in whichever order, keeps the first occurrences of the three in a row. -/
lemma joined_assoc (s t u : List κ) : joined (joined s t) u = joined s (joined t u) :=
  calc joined (joined s t) u = joined (s ++ t) u := joined_eraseDups_left (s ++ t) u
    _ = joined s (t ++ u) := by rw [joined, joined, append_assoc]
    _ = joined s (joined t u) := (joined_eraseDups_right s (t ++ u)).symm

/-! ### Marks -/

/-- Atoms that can be compared, with marks that tell which of them are equal; no number is the name
of one. -/
structure Marking (κ : Type) [DecidableEq κ] where
  Has : Atom → Prop
  mark : Atom → κ
  same : ∀ c d : Component, Has c.atom → Has d.atom →
    c.same unknown d = .ok (decide (mark c.atom = mark d.atom))
  named : ∀ c : Component, Has c.atom → c.name.isNumber = false

namespace Marking

variable (M : Marking κ)

def marks (cs : List Component) : List κ := cs.map fun c => M.mark c.atom

/-- A term of such atoms, none of them twice. -/
structure IsTerm (t : Term) : Prop where
  has : ∀ c ∈ t.components, M.Has c.atom
  nodup : (M.marks t.components).Nodup

/-- The marks of a term; an intercept has none. -/
def marks? (e : Effect) : Option (List κ) := e.term?.map fun t => M.marks t.components

/-- The terms have these lists of marks, in this order. -/
structure Ordered (ts : List Term) (ss : List (List κ)) : Prop where
  terms : ∀ t ∈ ts, M.IsTerm t
  marks : ts.map (fun t => M.marks t.components) = ss

end Marking

/-! ### Searches -/

variable {test : α → Except Fault Bool}

lemma anyM_of_ok {b : α → Bool} {xs : List α} (each : ∀ x ∈ xs, test x = .ok (b x)) :
    anyM test xs = .ok (xs.any b) := by
  induction xs with
  | nil => rfl
  | cons x xs ih =>
    obtain ⟨first, others⟩ := forall_mem_cons.mp each
    rw [anyM, first, any_cons, ih others]
    cases b x with
    | true => simp [ok_bind, pure_ok]
    | false => simp [ok_bind]

lemma eraseM_of_ok {b : α → Bool} {xs : List α} (each : ∀ x ∈ xs, test x = .ok (b x)) :
    eraseM test xs = .ok (xs.eraseP b) := by
  induction xs with
  | nil => rfl
  | cons x xs ih =>
    obtain ⟨first, others⟩ := forall_mem_cons.mp each
    rw [eraseM, first, eraseP_cons, ih others]
    cases b x with
    | true => rfl
    | false => rfl

lemma sameListM_of_ok {same : α → α → Except Fault Bool} {f : α → κ} {xs ys : List α}
    (each : ∀ x ∈ xs, ∀ y ∈ ys, same x y = .ok (decide (f x = f y))) :
    sameListM same xs ys = .ok (decide (xs.map f = ys.map f)) := by
  rw [sameListM]
  by_cases long : xs.length = ys.length
  case neg =>
    have apart : xs.map f ≠ ys.map f := fun eq => long (by simpa using congrArg List.length eq)
    simp [long, apart]
  simp only [long, bne_self_eq_false, Bool.false_eq_true, if_false]
  induction xs generalizing ys with
  | nil =>
    obtain rfl := length_eq_zero_iff.mp long.symm
    rfl
  | cons x xs ih =>
    cases ys with
    | nil => simp at long
    | cons y ys =>
      have shorter : xs.length = ys.length := by simpa using long
      have rest := ih (fun x' among y' among' => each x' (.tail x among) y' (.tail y among')) shorter
      rw [sameListM.go, each x mem_cons_self y mem_cons_self]
      by_cases eq : f x = f y
      · simpa [ok_bind, pure_ok, eq] using rest
      · simp [ok_bind, pure_ok, eq]

namespace Marking

variable {M : Marking κ}

lemma IsTerm.same (left : M.IsTerm t) (right : M.IsTerm u) :
    t.same unknown u = .ok (decide (M.marks t.components = M.marks u.components)) :=
  sameListM_of_ok fun c own d other => M.same c d (left.has c own) (right.has d other)

/-- Dropping repeated components drops repeated marks. -/
lemma distinct_marks (has : ∀ c ∈ cs, M.Has c.atom) :
    ∃ kept, Term.distinct unknown cs = .ok kept ∧ kept ⊆ cs ∧
      M.marks kept = (M.marks cs).eraseDups := by
  -- the fold goes from the left, so the last component is the one to look at
  induction cs using List.reverseRecOn with
  | nil => exact ⟨[], rfl, Subset.refl _, rfl⟩
  | append_singleton cs c ih =>
    have earlier : ∀ d ∈ cs, M.Has d.atom := fun d mem => has d (mem_append_left _ mem)
    have last : M.Has c.atom := has c (by simp)
    obtain ⟨kept, done, subset, marks⟩ := ih earlier
    have search : anyM (Component.same unknown · c) kept =
        .ok (decide (M.mark c.atom ∈ M.marks cs)) := by
      rw [anyM_of_ok fun d mem => M.same d c (earlier d (subset mem)) last]
      congr 1
      have known : M.mark c.atom ∈ M.marks kept ↔ M.mark c.atom ∈ M.marks cs := by
        rw [marks, mem_eraseDups]
      rw [Bool.eq_iff_iff, decide_eq_true_iff, ← known]
      simp [Marking.marks]
    have step : Term.distinct unknown (cs ++ [c]) =
        .ok (if M.mark c.atom ∈ M.marks cs then kept else kept ++ [c]) := by
      rw [Term.distinct] at done ⊢
      rw [foldlM_append, done]
      by_cases known : M.mark c.atom ∈ M.marks cs <;>
        simp [ok_bind, pure_ok, search, known]
    have all : M.marks (cs ++ [c]) = M.marks cs ++ [M.mark c.atom] := by simp [Marking.marks]
    rw [step, all, eraseDups_concat]
    by_cases known : M.mark c.atom ∈ M.marks cs
    · simp only [known, if_true]
      exact ⟨kept, rfl, subset_append_of_subset_left _ subset, marks⟩
    · simp only [known, if_false]
      refine ⟨kept ++ [c], rfl, append_subset.mpr ⟨?_, by simp⟩, ?_⟩
      · exact subset_append_of_subset_left _ subset
      · rw [← marks]
        simp [Marking.marks]

/-! ### New terms -/

lemma delivers_newTerm (has : ∀ c ∈ cs, M.Has c.atom) : Delivers (Fit.newTerm cs) fun t =>
      M.IsTerm t ∧ M.marks t.components = (M.marks cs).eraseDups := by
  obtain ⟨kept, done, subset, marks⟩ := distinct_marks has
  apply (runs_withKinds_ok done (Q := (· = kept)) rfl).bind
  rintro _ rfl
  apply runs_newSlot.bind
  intro slot _
  apply runs_pure
  constructor
  · constructor
    · exact fun c mem => has c (subset mem)
    · rw [marks]
      exact nodup_eraseDups _
  · exact marks

lemma delivers_interactionOf (left : M.IsTerm t) (right : M.IsTerm u) :
    Delivers (Term.interactionOf (.term t) (.term u)) fun v =>
      M.IsTerm v ∧ M.marks v.components = joined (M.marks t.components) (M.marks u.components) := by
  have has : ∀ c ∈ t.components ++ u.components, M.Has c.atom :=
    forall_mem_append.mpr ⟨left.has, right.has⟩
  apply (runs_lift_ok (Q := (· = t.components)) rfl rfl).bind
  rintro _ rfl
  apply (runs_lift_ok (Q := (· = u.components)) rfl rfl).bind
  rintro _ rfl
  simpa [Marking.marks, joined] using delivers_newTerm has

lemma marks_of_copies (copied : ds.map (·.atom) = cs.map (·.atom)) : M.marks ds = M.marks cs := by
  have marks : ∀ bs, M.marks bs = (bs.map (·.atom)).map M.mark := fun bs => by simp [Marking.marks]
  rw [marks, marks, copied]

omit [DecidableEq κ] in
lemma has_of_copies {P : Atom → Prop} {ds : List Component}
    (copied : ds.map (·.atom) = cs.map (·.atom)) (has : ∀ c ∈ cs, P c.atom) :
    ∀ d ∈ ds, P d.atom := by
  intro d mem
  have among : d.atom ∈ cs.map (·.atom) := copied ▸ mem_map_of_mem mem
  obtain ⟨c, own, eq⟩ := mem_map.mp among
  exact eq ▸ has c own

lemma delivers_copiedInteraction (left : M.IsTerm t) (right : M.IsTerm u) :
    Delivers (Term.copiedInteraction (.term t) (.term u)) fun v =>
      M.IsTerm v ∧ M.marks v.components = joined (M.marks t.components) (M.marks u.components) := by
  apply (runs_lift_ok (Q := (· = t.components)) rfl rfl).bind
  rintro _ rfl
  apply (runs_copyAll t.components).bind
  intro cs first
  apply (runs_lift_ok (Q := (· = u.components)) rfl rfl).bind
  rintro _ rfl
  apply (runs_copyAll u.components).bind
  intro ds second
  have has : ∀ c ∈ cs ++ ds, M.Has c.atom :=
    forall_mem_append.mpr ⟨has_of_copies first left.has, has_of_copies second right.has⟩
  have marks : M.marks (cs ++ ds) = M.marks t.components ++ M.marks u.components := by
    rw [← marks_of_copies first, ← marks_of_copies second]
    simp [Marking.marks]
  rw [joined, ← marks]
  exact delivers_newTerm has

/-! ### Lists of terms -/

variable {ts : List Term} {ss rs : List (List κ)}

lemma ordered_singleton (term : M.IsTerm t) : M.Ordered [t] [M.marks t.components] := by
  constructor
  · simpa using term
  · rfl

lemma Ordered.append (left : M.Ordered ts ss) (right : M.Ordered us rs) :
    M.Ordered (ts ++ us) (ss ++ rs) := by
  constructor
  · exact forall_mem_append.mpr ⟨left.terms, right.terms⟩
  · rw [map_append, left.marks, right.marks]

/-- The terms of a mapping that keeps to given marks. -/
lemma ordered_of_forall₂ {xs : List α} {f : α → List κ}
    (made : List.Forall₂ (fun x t => M.IsTerm t ∧ M.marks t.components = f x) xs ts) :
    M.Ordered ts (xs.map f) := by
  induction made with
  | nil =>
    constructor
    · simp
    · rfl
  | cons first _ ih =>
    have more := (ordered_singleton first.1).append ih
    rwa [first.2] at more

end Marking

/-- Every list of the first joined with every one of the second, which varies faster. -/
def products (ss rs : List (List κ)) : List (List κ) := ss.flatMap fun s => rs.map (joined s)

/-- The lists of the second behind those of the first, unless they are there already. -/
def collected (ss rs : List (List κ)) : List (List κ) :=
  rs.foldl (fun kept r => if r ∈ kept then kept else kept ++ [r]) ss

lemma mem_collected {s : List κ} {ss rs : List (List κ)} :
    s ∈ collected ss rs ↔ s ∈ ss ∨ s ∈ rs := by
  induction rs generalizing ss with
  | nil => simp [collected]
  | cons r rs ih =>
    have step : collected ss (r :: rs) = collected (if r ∈ ss then ss else ss ++ [r]) rs := rfl
    rw [step, ih]
    by_cases known : r ∈ ss
    · -- the first is among the old ones
      simp only [known, if_true, mem_cons]
      constructor
      · rintro (old | new)
        · exact .inl old
        · exact .inr (.inr new)
      · rintro (old | rfl | new)
        · exact .inl old
        · exact .inl known
        · exact .inr new
    · simp [known, or_assoc]

/-- A model of terms with intercepts in front. -/
def Model.headed (front : List Effect) (ts : List Term) : Model := .ofEffects (front ++ ts.map .term)

namespace Marking

variable {M : Marking κ} {ts : List Term} {ss rs : List (List κ)}

lemma delivers_interactions (left : M.Ordered ts ss) (right : M.Ordered us rs) :
    Delivers (Term.interactions (ts.map .term) (us.map .term)) fun vs =>
      M.Ordered vs (products ss rs) := by
  have pairs : (ts.map Effect.term).flatMap (fun a => (us.map Effect.term).map fun b => (a, b)) =
      (ts ×ˢ us).map fun (t, u) => (Effect.term t, Effect.term u) := by
    simp [SProd.sprod, List.product, map_flatMap, flatMap_map, Function.comp_def]
  have each : ∀ p ∈ ts ×ˢ us, Delivers (Term.interactionOf (.term p.1) (.term p.2)) fun v =>
      M.IsTerm v ∧ M.marks v.components =
        joined (M.marks p.1.components) (M.marks p.2.components) := by
    intro p mem
    obtain ⟨own, other⟩ := pair_mem_product.mp mem
    exact delivers_interactionOf (left.terms _ own) (right.terms _ other)
  rw [Term.interactions, pairs, mapM_map]
  apply (runs_mapM each).imp
  intro vs made
  have ordered := ordered_of_forall₂ made
  have all : (ts ×ˢ us).map (fun p => joined (M.marks p.1.components) (M.marks p.2.components)) =
      products ss rs := by
    rw [← left.marks, ← right.marks]
    simp [products, SProd.sprod, List.product, map_flatMap, flatMap_map, Function.comp_def]
  rwa [all] at ordered

/-- Adding a term puts it behind the others, unless an equal one is among them. The intercepts in
front do not matter. -/
lemma Ordered.add (ordered : M.Ordered ts ss) (intercepts : ∀ e ∈ front, e.term? = none)
    (term : M.IsTerm u) :
    ∃ vs, (headed front ts).add unknown (.effect (.term u)) = .ok (.headed front vs) ∧
      M.Ordered vs (collected ss [M.marks u.components]) := by
  have search : anyM (Effect.same unknown · (.term u)) (front ++ ts.map .term) =
      .ok (decide (M.marks u.components ∈ ss)) := by
    have each : ∀ e ∈ front ++ ts.map Effect.term, e.same unknown (.term u) =
        .ok (decide (M.marks? e = some (M.marks u.components))) := by
      intro e mem
      rcases mem_append.mp mem with first | other
      · have none := intercepts e first
        cases e with
        | term => cases none
        | intercept => rfl
        | negated => rfl
      · obtain ⟨t, own, rfl⟩ := mem_map.mp other
        simp [Effect.same, (ordered.terms t own).same term, marks?, Effect.term?]
    have nothing : ∀ e ∈ front, ¬ M.marks? e = some (M.marks u.components) := by
      intro e mem
      simp [marks?, intercepts e mem]
    rw [anyM_of_ok each, ← ordered.marks]
    congr 1
    rw [Bool.eq_iff_iff, decide_eq_true_iff, any_append, Bool.or_eq_true, any_map]
    simp only [any_eq_true, decide_eq_true_iff, Function.comp_apply, mem_map]
    constructor
    · rintro (⟨e, mem, eq⟩ | ⟨t, mem, eq⟩)
      · exact absurd eq (nothing e mem)
      · exact ⟨t, mem, by simpa [marks?, Effect.term?] using eq⟩
    · rintro ⟨t, mem, eq⟩
      exact .inr ⟨t, mem, by simpa [marks?, Effect.term?] using eq⟩
  by_cases known : M.marks u.components ∈ ss
  · refine ⟨ts, ?_, ?_⟩
    · simp [Model.add, Model.headed, Model.ofEffects, search, known, ok_bind, pure_ok]
    · simpa [collected, known] using ordered
  · refine ⟨ts ++ [u], ?_, ?_⟩
    · simp [Model.add, Model.headed, Model.ofEffects, search, known, ok_bind, pure_ok]
    · simpa [collected, known] using ordered.append (ordered_singleton term)

lemma Ordered.addAll (front : List Effect) (left : M.Ordered ts ss) (right : M.Ordered us rs)
    (intercepts : ∀ e ∈ front, e.term? = none) :
    ∃ vs, (headed front ts).editAll unknown (addEdits us) = .ok (.headed front vs) ∧
      M.Ordered vs (collected ss rs) := by
  induction us generalizing ts ss rs with
  | nil =>
    refine ⟨ts, rfl, ?_⟩
    rw [← right.marks]
    exact left
  | cons u us ih =>
    obtain ⟨first, others⟩ := forall_mem_cons.mp right.terms
    obtain ⟨vs, added, ordered⟩ := left.add intercepts first
    obtain ⟨ws, done, all⟩ := ih ordered ⟨others, rfl⟩
    refine ⟨ws, ?_, ?_⟩
    · rw [addEdits, map_cons, editAll, foldlM_cons, edit, added]
      exact done
    · rw [← right.marks]
      exact all

end Marking

/-! ### Operands of terms only -/

/-- The operand is made of the terms alone: it is the only one of them, or their model. -/
inductive Operand.Consists : Operand → List Term → Prop
  | term (t : Term) : Consists (ofTerm t) [t]
  | model (ts : List Term) : Consists (.model (.ofTerms ts)) ts

/-- What an operand of terms is worth: a single term, or a model of terms in their order, each term by
the list of its marks. -/
inductive Outline (κ : Type) where
  | term (s : List κ)
  | model (ss : List (List κ))

namespace Outline

def lists : Outline κ → List (List κ)
  | term s => [s]
  | model ss => ss

/-- Two equal terms stay one term; anything else is collected in a model. -/
def add : Outline κ → Outline κ → Outline κ
  | term s, term r => if s = r then term s else model [s, r]
  | S, R => model (collected S.lists R.lists)

def interact : Outline κ → Outline κ → Outline κ
  | term s, term r => term (joined s r)
  | S, R => model (products S.lists R.lists)

lemma mem_lists_add {s : List κ} (S R : Outline κ) :
    s ∈ (S.add R).lists ↔ s ∈ S.lists ∨ s ∈ R.lists := by
  cases S with
  | model ss => exact mem_collected
  | term p =>
    cases R with
    | model rs => exact mem_collected
    | term r => by_cases eq : p = r <;> simp [add, lists, eq]

lemma lists_interact (S R : Outline κ) : (S.interact R).lists = products S.lists R.lists := by
  cases S <;> cases R <;> simp [interact, lists, products]

end Outline

namespace Marking

variable {M : Marking κ} {ts : List Term} {ss rs : List (List κ)} {S R : Outline κ}

/-- The operand has the outline. -/
inductive Draws (M : Marking κ) : Operand → Outline κ → Prop
  | term {t : Term} {s : List κ} (ordered : M.Ordered [t] [s]) : Draws M (.ofTerm t) (.term s)
  | model {ts : List Term} {ss : List (List κ)} (ordered : M.Ordered ts ss) :
      Draws M (.model (.ofTerms ts)) (.model ss)

lemma draws_term (term : M.IsTerm t) : M.Draws (.ofTerm t) (.term (M.marks t.components)) :=
  .term (ordered_singleton term)

lemma Ordered.isTerm {s : List κ} (ordered : M.Ordered [t] [s]) :
    M.IsTerm t ∧ M.marks t.components = s :=
  ⟨ordered.terms t mem_cons_self, by simpa using ordered.marks⟩

lemma delivers_sameAs (left : M.IsTerm t) (right : M.IsTerm u) : Delivers (t.sameAs (.ofTerm u))
      (· = decide (M.marks t.components = M.marks u.components)) :=
  runs_withKinds_ok (left.same right) rfl

lemma delivers_sameAs_model (t : Term) (m : Model) : Delivers (t.sameAs (.model m)) (· = false) :=
  runs_withKinds_ok rfl rfl

lemma delivers_editAll (left : M.Ordered ts ss) (right : M.Ordered us rs) :
    Delivers (do return model (← Fit.withKinds ((ofTerms ts).editAll · (addEdits us)))) fun o =>
        M.Draws o (.model (collected ss rs)) := by
  obtain ⟨vs, done, ordered⟩ := left.addAll [] right (by simp)
  apply (runs_withKinds_ok done (Q := (· = ofTerms vs)) rfl).bind
  rintro _ rfl
  exact runs_pure (.model ordered)

omit [DecidableEq κ] in
lemma added_ofTerms (us : List Term) : (ofTerms us).parts.map Edit.add = addEdits us := by
  simp [ofTerms, parts, addEdits]

lemma delivers_add (left : M.Draws a S) (right : M.Draws b R) :
    Delivers (operate .add a b) fun o => M.Draws o (S.add R) := by
  cases left with
  | @term t s ordered =>
    obtain ⟨term, rfl⟩ := ordered.isTerm
    cases right with
    | @term u r ordered' =>
      obtain ⟨term', rfl⟩ := ordered'.isTerm
      apply (delivers_sameAs term term').bind
      rintro _ rfl
      by_cases eq : M.marks t.components = M.marks u.components
      · simp only [eq, Outline.add, decide_true, if_true]
        rw [← eq]
        exact runs_pure (draws_term term)
      · simp only [eq, Outline.add, decide_false, Bool.false_eq_true, if_false]
        exact runs_pure (.model (ordered.append ordered'))
    | model ordered' =>
      apply (delivers_sameAs_model t _).bind
      rintro _ rfl
      have collected := delivers_editAll ordered ordered'
      rw [← added_ofTerms] at collected
      exact collected
  | model ordered =>
    cases right with
    | term ordered' => exact delivers_editAll ordered ordered'
    | model ordered' =>
      have collected := delivers_editAll ordered ordered'
      rw [← added_ofTerms] at collected
      exact collected

lemma IsTerm.not_number (term : M.IsTerm t) : t.isNumber = false := by
  rw [Term.isNumber]
  split
  next c single => exact M.named c (term.has c (by simp [single]))
  next => rfl

lemma delivers_interact (left : M.Draws a S) (right : M.Draws b R) :
    Delivers (operate .interact a b) fun o => M.Draws o (S.interact R) := by
  have interacting : ∀ {ts us ss rs}, M.Ordered ts ss → M.Ordered us rs →
      Delivers (do return model (.ofTerms
        (← Term.interactions (ts.map .term) (us.map .term)))) fun o =>
          M.Draws o (.model (products ss rs)) := by
    intro ts us ss rs ordered ordered'
    apply (delivers_interactions ordered ordered').bind
    intro vs made
    exact runs_pure (.model made)
  cases left with
  | @term t s ordered =>
    obtain ⟨term, rfl⟩ := ordered.isTerm
    cases right with
    | @term u r ordered' =>
      obtain ⟨term', rfl⟩ := ordered'.isTerm
      apply (delivers_sameAs term term').bind
      rintro _ rfl
      by_cases eq : M.marks t.components = M.marks u.components
      · -- a term lets itself alone
        simp only [← eq, Outline.interact, decide_true, if_true]
        rw [joined_self term.nodup]
        exact runs_pure (draws_term term)
      · simp only [eq, Outline.interact, decide_false, Bool.false_eq_true, if_false]
        simp only [ofTerm, term'.not_number, Bool.false_eq_true, if_false]
        apply (delivers_interactionOf term term').bind
        rintro v ⟨made, marks⟩
        rw [← marks]
        exact runs_pure (draws_term made)
    | model ordered' =>
      apply (delivers_sameAs_model t _).bind
      rintro _ rfl
      exact interacting ordered ordered'
  | model ordered =>
    cases right with
    | term ordered' | model ordered' => exact interacting ordered ordered'

/-! ### Trees -/

lemma delivers_ofAtom (has : M.Has atom) :
    Delivers (ofAtom atom) fun o => M.Draws o (.term [M.mark atom]) := by
  apply (runs_newComponent atom).bind
  rintro c rfl
  have all : ∀ d ∈ [c], M.Has d.atom := by simpa using has
  apply (delivers_newTerm all).bind
  rintro t ⟨term, marks⟩
  apply runs_pure
  have single : M.marks t.components = [M.mark c.atom] := by
    rw [marks]
    simp [Marking.marks, eraseDups_cons]
  rw [← single]
  exact draws_term term

end Marking

namespace Expr

/-- Atoms with the property, put together by `+`, `:` and parentheses. -/
def Sums (P : Atom → Prop) : Expr → Prop
  | .grouping e => Sums P e
  | .binary l o r => (o.kind = .plus ∨ o.kind = .colon) ∧ Sums P l ∧ Sums P r
  | .name t => P (.variable (.text t.lexeme) none)
  | .quotedName t => P (.variable (.text (unquote t.lexeme)) none)
  | .subset t level => ∃ v, levelValue level = .ok v ∧ P (.variable (.text t.lexeme) (some v))
  | .call f args => ∃ e, CallExpr.ofExpr (.call f args) = .ok e ∧ P (.call e)
  | _ => False

/-- The outline that such a tree stands for. -/
def outline (mark : Atom → κ) : Expr → Outline κ
  | .grouping e => outline mark e
  | .binary l o r =>
    if o.kind = .colon then (outline mark l).interact (outline mark r)
    else (outline mark l).add (outline mark r)
  | .name t => .term [mark (.variable (.text t.lexeme) none)]
  | .quotedName t => .term [mark (.variable (.text (unquote t.lexeme)) none)]
  | .subset t level =>
    match levelValue level with
    | .ok v => .term [mark (.variable (.text t.lexeme) (some v))]
    | .error _ => .model []
  | .call f args =>
    match CallExpr.ofExpr (.call f args) with
    | .ok e => .term [mark (.call e)]
    | .error _ => .model []
  | _ => .model []

/-- A tree of sums and interactions is resolved, to an operand of its outline. -/
lemma delivers_outline (M : Marking κ) : ∀ e : Expr, e.Sums M.Has →
    Delivers (ofExpr e) fun o => M.Draws o (e.outline M.mark)
  | .grouping e, sums => by
    rw [ofExpr, outline]
    exact delivers_outline M e sums
  | .binary l o r, ⟨kind, left, right⟩ => by
    have first := delivers_outline M l left
    have second := delivers_outline M r right
    rw [outline]
    rcases kind with plus | colon
    · simp only [plus, reduceCtorEq, if_false]
      exact runs_operation plus rfl first second fun _ _ => Marking.delivers_add
    · simp only [colon, if_true]
      exact runs_operation colon rfl first second fun _ _ => Marking.delivers_interact
  | .name t, has | .quotedName t, has => by
    rw [ofExpr, outline]
    exact Marking.delivers_ofAtom has
  | .subset t level, ⟨v, value, has⟩ => by
    rw [ofExpr, outline]
    simp only [value]
    apply (runs_lift_ok (Q := (· = v)) rfl rfl).bind
    rintro _ rfl
    exact Marking.delivers_ofAtom has
  | .call f args, ⟨e, read, has⟩ => by
    rw [ofExpr, outline]
    simp only [read]
    apply (runs_lift_ok (Q := (· = e)) rfl rfl).bind
    rintro _ rfl
    exact Marking.delivers_ofAtom has

end Expr

end ModelFormula
