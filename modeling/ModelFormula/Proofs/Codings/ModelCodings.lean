import ModelFormula.Proofs.Codings.Subspaces
import ModelFormula.Proofs.Fits.CategoricFit

/-!
# Codings of models of factors

Effects are coded by name: of several with one name the last counts, at the place of the first. If
all effects are intercepts or terms of factors, there is one group, and its codings are those of the
factor names.
-/
namespace ModelFormula.Model

open List Coding

variable {m : Model} {e : Effect} {picked : List (String × List (Flags String))}

section Assign

variable {κ α β : Type} [BEq κ] {acc : List (κ × α)}

lemma assign_map (g : α → β) (key : κ) (value : α) (acc : List (κ × α)) :
    assign key (g value) (acc.map fun p => (p.1, g p.2)) =
      (assign key value acc).map fun p => (p.1, g p.2) := by
  induction acc with
  | nil => rfl
  | cons p acc ih =>
    simp only [map_cons, assign]
    split
    · rfl
    · simp [ih]

lemma assign_of_fresh {key : κ} {value : α} (fresh : ∀ p ∈ acc, (p.1 == key) = false) :
    assign key value acc = acc ++ [(key, value)] := by
  induction acc with
  | nil => rfl
  | cons p acc ih =>
    obtain ⟨first, others⟩ := forall_mem_cons.mp fresh
    simp [assign, first, ih others]

/-- Keys that are told apart are bound one after the other. -/
lemma foldl_assign_of_fresh (items acc : List (κ × α))
    (apart : (acc ++ items).Pairwise fun p q => (p.1 == q.1) = false) :
    items.foldl (fun acc p => assign p.1 p.2 acc) acc = acc ++ items := by
  induction items generalizing acc with
  | nil => simp
  | cons p items ih =>
    have fresh : ∀ q ∈ acc, (q.1 == p.1) = false := by
      intro q mem
      exact (pairwise_append.mp apart).2.2 q mem p mem_cons_self
    rw [foldl_cons, assign_of_fresh fresh, ih _ (by simpa using apart)]
    simp

variable [LawfulBEq κ]

lemma mem_assign {key : κ} {value : α} {p : κ × α} (mem : p ∈ assign key value acc) :
    p = (key, value) ∨ p ∈ acc := by
  induction acc with
  | nil => simpa [assign] using mem
  | cons q acc ih =>
    simp only [assign] at mem
    split at mem
    next same =>
      rcases mem_cons.mp mem with rfl | old
      · exact .inl (by rw [eq_of_beq same])
      · exact .inr (mem_cons_of_mem _ old)
    next =>
      rcases mem_cons.mp mem with rfl | later
      · exact .inr mem_cons_self
      · exact (ih later).imp id (mem_cons_of_mem _)

lemma keys_assign (key : κ) (value : α) (acc : List (κ × α)) : (assign key value acc).map (·.1) =
      if key ∈ acc.map (·.1) then acc.map (·.1) else acc.map (·.1) ++ [key] := by
  induction acc with
  | nil => simp [assign]
  | cons q acc ih =>
    simp only [assign]
    split
    next same => simp [eq_of_beq same]
    next other =>
      have different : key ≠ q.1 := fun eq => other (by simp [eq])
      simp only [map_cons, mem_cons, different, false_or, ih]
      split <;> simp

end Assign

/-! ### Effects by name -/

/-- The effects by name; of several with one name the last counts. -/
def byName (m : Model) : List (String × Effect) :=
  m.common.foldl (fun acc e => assign e.name e acc) []

/-- The factors of the effects by name. -/
def factorGroup (m : Model) : List (String × List String) :=
  m.byName.map fun p => (p.1, p.2.factors)

lemma foldl_assign_map {β : Type} (g : Effect → β) (es : List Effect)
    (acc : List (String × Effect)) :
    es.foldl (fun acc e => assign e.name (g e) acc) (acc.map fun p => (p.1, g p.2)) =
      (es.foldl (fun acc e => assign e.name e acc) acc).map fun p => (p.1, g p.2) := by
  induction es generalizing acc with
  | nil => rfl
  | cons e es ih => rw [foldl_cons, foldl_cons, assign_map, ih]

variable {p : String × Effect}

lemma foldl_assign_mem {es : List Effect} {acc : List (String × Effect)}
    (mem : p ∈ es.foldl (fun acc e => assign e.name e acc) acc) :
    p ∈ acc ∨ p.2 ∈ es ∧ p.2.name = p.1 := by
  induction es generalizing acc with
  | nil => exact .inl mem
  | cons e es ih =>
    rcases ih mem with old | ⟨inside, name⟩
    · rcases mem_assign old with rfl | old
      · exact .inr ⟨mem_cons_self, rfl⟩
      · exact .inl old
    · exact .inr ⟨mem_cons_of_mem _ inside, name⟩

lemma mem_common_of_byName (mem : p ∈ m.byName) : p.2 ∈ m.common ∧ p.2.name = p.1 := by
  simpa using foldl_assign_mem mem

lemma nodup_foldl_assign (es : List Effect) (acc : List (String × Effect))
    (nodup : (acc.map (·.1)).Nodup) :
    ((es.foldl (fun acc e => assign e.name e acc) acc).map (·.1)).Nodup := by
  induction es generalizing acc with
  | nil => exact nodup
  | cons e es ih =>
    refine ih _ ?_
    rw [keys_assign]
    split
    next => exact nodup
    next fresh =>
      refine nodup_append.mpr ⟨nodup, nodup_singleton _, ?_⟩
      rintro n inside _ last rfl
      rw [mem_singleton.mp last] at inside
      exact fresh inside

lemma nodup_byName (m : Model) : (m.byName.map (·.1)).Nodup :=
  nodup_foldl_assign m.common [] nodup_nil

lemma mem_keys_foldl_assign (es : List Effect) (acc : List (String × Effect)) :
    n ∈ (es.foldl (fun acc e => assign e.name e acc) acc).map (·.1) ↔
      n ∈ acc.map (·.1) ∨ n ∈ es.map Effect.name := by
  induction es generalizing acc with
  | nil => simp
  | cons e es ih =>
    rw [foldl_cons, ih, keys_assign]
    split
    next known =>
      constructor
      · rintro (old | later)
        · exact .inl old
        · exact .inr (mem_cons_of_mem _ later)
      · rintro (old | first)
        · exact .inl old
        · rcases mem_cons.mp first with rfl | later
          · exact .inl known
          · exact .inr later
    next => simp [or_assoc]

lemma name_mem_byName (mem : e ∈ m.common) : e.name ∈ m.byName.map (·.1) :=
  (mem_keys_foldl_assign m.common []).mpr (.inr (mem_map_of_mem mem))

/-! ### The group of the factors -/

variable {levels : String → List Datum}

lemma text_beq (a b : String) : (Literal.text a == Literal.text b) = (a == b) := rfl

lemma names_apart {cs : List Component} (factors : ∀ c ∈ cs, c.IsFactor f levels)
    (nodup : (cs.map Component.label).Nodup) :
    cs.Pairwise fun c d => (c.name == d.name) = false := by
  refine (pairwise_map.mp nodup).imp_of_mem ?_
  intro c d left right different
  rw [(factors c left).name.1, (factors d right).name.1, text_beq]
  simpa using different

/-- The kinds of the components of a term of factors. -/
def factorKinds (cs : List Component) : List (Literal × Option Kind) :=
  cs.map fun c => (c.name, some .categoric)

/-- What a group has to know of an effect of factors. -/
def factorShape : Effect → TermShape
  | .term t =>
    match t.components with
    | [_] => .single (some .categoric)
    | cs => .interaction (factorKinds cs)
  | _ => .single (some .intercept)

lemma shape_of_typed (typed : Typed f σ e) (factors : ∀ c ∈ e.held, c.IsFactor f levels)
    (nodup : e.factors.Nodup) : shape σ e = factorShape e := by
  cases typed with
  | intercept => rfl
  | @term t bound kind nonempty ready =>
    have known : ∀ c ∈ t.components, (σ.component c.slot).kind = some .categoric :=
      fun c mem => (ready c mem).kind
    -- a single component is described by its kind, several by the kinds under their names
    by_cases joint : t.jointKind = .interaction
    · have kinds : t.components.foldl
          (fun acc c => assign c.name (σ.component c.slot).kind acc) [] =
          factorKinds t.components := by
        have apart : t.components.Pairwise fun c d => (c.name == d.name) = false :=
          names_apart factors nodup
        have bound := foldl_assign_of_fresh
          (t.components.map fun c => (c.name, (σ.component c.slot).kind)) []
          (by simpa [pairwise_map] using apart)
        rw [foldl_map] at bound
        rw [bound, nil_append, factorKinds]
        exact map_congr_left fun c mem => by rw [known c mem]
      have several : factorShape (.term t) = .interaction (factorKinds t.components) := by
        unfold Term.jointKind at joint
        split at joint
        · cases joint
        next other => simp only [factorShape]
      rw [several]
      simp only [shape, kindOf, kind, joint, kinds]
    · obtain ⟨c, single⟩ := t.single_of_jointKind joint
      have isCategoric : t.jointKind = .categoric := by simp [Term.jointKind, single]
      simp only [shape, kindOf, kind, isCategoric, factorShape, single]

lemma shapes_eq (σ : Store) (m : Model) : shapes σ m = m.byName.map fun p => (p.1, shape σ p.2) :=
  foldl_assign_map (shape σ) m.common []

lemma categoricGroup_cons (p : String × TermShape) (shapes : List (String × TermShape)) :
    categoricGroup (p :: shapes) = categoricGroup [p] ++ categoricGroup shapes := by
  rw [← singleton_append]
  exact filterMap_append

lemma categoricGroup_factorShape (pos : e ≠ .negated)
    (factors : ∀ c ∈ e.held, c.IsFactor f levels) :
    categoricGroup [(e.name, factorShape e)] = [(e.name, e.factors.map .text)] := by
  have names : e.held.map Component.name = e.factors.map .text := by
    rw [Effect.factors, map_map]
    exact map_congr_left fun c mem => (factors c mem).name.1
  cases e with
  | negated => exact absurd rfl pos
  | intercept => rfl
  | term t =>
    rw [← names]
    simp only [factorShape, Effect.held]
    split
    next c single =>
      have name : c.name = .text c.label := (factors c (by simp [Effect.held, single])).name.1
      have termName : (Effect.term t).name = c.label := by
        rw [Effect.name, Term.name, single]
        rfl
      simp [categoricGroup, single, name, termName]
    next =>
      have all : (factorKinds t.components).all (·.2 == some .categoric) := by simp [factorKinds]
      have keys : (factorKinds t.components).map (·.1) = t.components.map Component.name := by
        simp [factorKinds]
      simp [categoricGroup, all, keys]

lemma factorShape_cases (e : Effect) : (∃ kind, factorShape e = .single kind) ∨
    ∃ cs, factorShape e = .interaction (factorKinds cs) := by
  unfold factorShape
  split
  · split
    · exact .inl ⟨_, rfl⟩
    · exact .inr ⟨_, rfl⟩
  · exact .inl ⟨_, rfl⟩

lemma foldlM_of_keeps {α β : Type} {f : β → α → Except Fault β} {b : β} {xs : List α}
    (keeps : ∀ x ∈ xs, f b x = .ok b) : xs.foldlM f b = .ok b := by
  induction xs with
  | nil => rfl
  | cons x xs ih =>
    obtain ⟨first, others⟩ := forall_mem_cons.mp keeps
    rw [foldlM_cons, first]
    exact ih others

lemma numericGroups_eq_nil {shapes : List (String × TermShape)}
    (factors : ∀ p ∈ shapes, ∃ e, p.2 = factorShape e) : numericGroups shapes = .ok [] := by
  refine foldlM_of_keeps ?_
  rintro ⟨name, s⟩ mem
  obtain ⟨e, rfl⟩ := factors (name, s) mem
  rcases factorShape_cases e with ⟨kind, shape⟩ | ⟨cs, shape⟩
  · rw [shape]
    rfl
  · have none : namesOfKind .numeric (factorKinds cs) = [] := by simp [namesOfKind, factorKinds]
    rw [shape]
    simp [none, pure_ok]

/-- The factors are coded as one group. -/
lemma codingGroups_eq (typed : ∀ e ∈ m.common, Typed f σ e)
    (factors : ∀ e ∈ m.common, ∀ c ∈ e.held, c.IsFactor f levels)
    (nodup : ∀ e ∈ m.common, e.factors.Nodup) :
    codingGroups σ m = .ok [m.factorGroup.map fun t => (t.1, t.2.map .text)] := by
  have shaped : shapes σ m = m.byName.map fun p => (p.1, factorShape p.2) := by
    rw [shapes_eq]
    refine map_congr_left fun p mem => ?_
    have inside := (mem_common_of_byName mem).1
    rw [shape_of_typed (typed _ inside) (factors _ inside) (nodup _ inside)]
  have group : ∀ l : List (String × Effect), l ⊆ m.byName →
      categoricGroup (l.map fun p => (p.1, factorShape p.2)) =
        l.map fun p => (p.1, p.2.factors.map .text) := by
    intro l inside
    induction l with
    | nil => rfl
    | cons p l ih =>
      obtain ⟨first, others⟩ := cons_subset.mp inside
      obtain ⟨common, name⟩ := mem_common_of_byName first
      have pos : p.2 ≠ .negated := by
        intro eq
        rw [eq] at common
        cases typed _ common
      have entry := categoricGroup_factorShape pos (factors _ common)
      rw [name] at entry
      rw [map_cons, categoricGroup_cons, entry, ih others]
      rfl
  -- without numeric components there is no other group
  have numeric : numericGroups (shapes σ m) = .ok [] := by
    refine numericGroups_eq_nil ?_
    rw [shaped]
    intro p mem
    obtain ⟨q, _, rfl⟩ := mem_map.mp mem
    exact ⟨q.2, rfl⟩
  simp only [codingGroups, numeric, ok_bind, pure_ok, map_nil]
  rw [shaped, group m.byName (Subset.refl _), factorGroup, map_map]
  rfl

lemma apart_text : Coding.Apart Literal.text := fun _ _ => rfl

/-- Codings by factor names as those of a model. -/
def textCodings (picked : List (String × List (Flags String))) : Codings :=
  picked.map fun t => (t.1, t.2.map (Flags.rename .text))

section Picked

lemma nodup_factorGroup (m : Model) : (m.factorGroup.map (·.1)).Nodup := by
  rw [factorGroup, map_map]
  exact nodup_byName m

variable (names : picked.map (·.1) = m.factorGroup.map (·.1))
include names

lemma nodup_picked : (picked.map (·.1)).Nodup := by
  rw [names]
  exact nodup_factorGroup m

lemma exists_picked (mem : e ∈ m.common) : ∃ cs, (e.name, cs) ∈ picked := by
  have listed : e.name ∈ picked.map (·.1) := by
    rw [names, factorGroup, map_map]
    exact name_mem_byName mem
  obtain ⟨t, inside, eq⟩ := mem_map.mp listed
  exact ⟨t.2, by rw [← eq]; exact inside⟩

lemma exists_common (mem : t ∈ picked) : ∃ e ∈ m.common, e.name = t.1 := by
  have listed : t.1 ∈ m.byName.map (·.1) := by
    have keys : m.factorGroup.map (·.1) = m.byName.map (·.1) := by
      rw [factorGroup, map_map]
      rfl
    rw [← keys, ← names]
    exact mem_map_of_mem mem
  obtain ⟨p, inside, eq⟩ := mem_map.mp listed
  obtain ⟨common, name⟩ := mem_common_of_byName inside
  exact ⟨p.2, common, name.trans eq⟩

end Picked

/-- The codings of a model of factors are those of the factor names. -/
lemma codings_eq (typed : ∀ e ∈ m.common, Typed f σ e)
    (factors : ∀ e ∈ m.common, ∀ c ∈ e.held, c.IsFactor f levels)
    (nodup : ∀ e ∈ m.common, e.factors.Nodup) (done : Coding.pick m.factorGroup = .ok picked)
    (names : picked.map (·.1) = m.factorGroup.map (·.1)) :
    codings σ m = .ok (textCodings picked) := by
  have renamed := Coding.pick_map apart_text m.factorGroup
  rw [done] at renamed
  have apart : (textCodings picked).Pairwise fun p q => (p.1 == q.1) = false := by
    rw [textCodings, pairwise_map]
    refine (pairwise_map.mp (nodup_picked names)).imp ?_
    intro p q different
    simpa using different
  have bound := foldl_assign_of_fresh (textCodings picked) [] (by simpa using apart)
  simp only [codings, codingGroups_eq typed factors nodup, ok_bind, mapM_cons,
    mapM_nil, renamed, Except.map, pure_ok, flatten_cons, flatten_nil,
    append_nil]
  exact congrArg Except.ok bound

/-! ### Encodings -/

lemma find?_of_mem {α : Type} {items : List (String × α)} (keys : (items.map (·.1)).Nodup)
    {p : String × α} (mem : p ∈ items) : items.find? (·.1 == p.1) = some p := by
  induction items with
  | nil => cases mem
  | cons q items ih =>
    obtain ⟨fresh, others⟩ := nodup_cons.mp keys
    rcases mem_cons.mp mem with rfl | later
    · simp
    · have other : q.1 ≠ p.1 := fun eq => fresh (mem_map.mpr ⟨p, later, eq.symm⟩)
      rw [find?_cons_of_neg (by simpa using other), ih others later]

lemma codingsOf?_eq (keys : (picked.map (·.1)).Nodup) (mem : t ∈ picked) :
    codingsOf? (textCodings picked) t.1 = some (t.2.map (Flags.rename .text)) := by
  rw [codingsOf?, textCodings, find?_map]
  simp only [Function.comp_def]
  rw [find?_of_mem keys mem]
  rfl

/-- An effect is coded by the first of its codings. -/
lemma encodingOf_eq (keys : (picked.map (·.1)).Nodup) (mem : (n, cs) ∈ picked)
    (chosen : encodingOf (textCodings picked) n = .ok encoding) :
    ∃ c rest, cs = c :: rest ∧ ∀ x, encoding.flag (.text x) = .ok (.bool (spans c x)) := by
  rw [encodingOf, codingsOf?_eq keys mem] at chosen
  cases cs with
  | nil => cases chosen
  | cons c rest =>
    simp only [map_cons, Except.ok.injEq] at chosen
    refine ⟨c, rest, rfl, fun x => ?_⟩
    subst chosen
    simp only [Encoding.flag, Flags.rename, map_map, find?_map, Option.map_map,
      Except.ok.injEq, spans]
    have same : ((fun q : Literal × Datum => q.1 == Literal.text x) ∘
        (fun p : Literal × Bool => (p.1, Datum.bool p.2)) ∘
        fun p : String × Bool => (Literal.text p.1, p.2)) = fun p => p.1 == x := rfl
    rw [same]
    cases c.find? (·.1 == x) <;> rfl

end ModelFormula.Model
