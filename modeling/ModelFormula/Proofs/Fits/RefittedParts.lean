import ModelFormula.Proofs.Fits.SettledModels

/-!
# Settled terms on their own data

On the frame that it was fitted to, every settled component gives its numbers again, up to the sort
of number, and so does every part. Nothing in the store changes.
-/
namespace ModelFormula

open List

/-- A frame that has the columns of another, all of them clean. -/
structure Frame.Covers (g f : Frame) : Prop where
  height : g.height = f.height
  columns : ∀ n x, f.column? n = some x → g.column? n = some x ∧ x.Clean g.height

/-- How large the whole number of a component is in a row. -/
def Component.magnitude (σ : Store) (c : Component) (i : Nat) : Nat :=
  ((σ.component c.slot).value.map (·.magnitude i)).getD 1

/-- A factor that is coded by whole numbers, as it is when it spans the intercept. On new data its
coding is by fractions. -/
def Component.WholeCoded (σ : Store) (c : Component) : Prop :=
  (σ.component c.slot).kind = some .categoric ∧
    (σ.component c.slot).value.map (·.cellType) = some .int

instance (σ : Store) (c : Component) : Decidable (c.WholeCoded σ) :=
  inferInstanceAs (Decidable (_ ∧ _))

/-- The variable has a column in the second frame that is like the one in the first, and fractions may
stand for its coding. -/
structure Component.AlikeIn (ρ : Pairing) (f g : Frame) (σ : Store) (c : Component) : Prop where
  mixed : c.WholeCoded σ → ρ.Mixed
  column : ∀ x, f.column? c.name = some x → ∃ y, g.column? c.name = some y ∧ Column.Alike ρ x y

/-- How large the product of the whole numbers of some components can be in a row. -/
def magnitudeOf (σ : Store) (cs : List Component) (i : Nat) : Nat :=
  (cs.map (Component.magnitude σ · i)).prod

lemma Component.magnitude_pos (σ : Store) (c : Component) (i : Nat) : 0 < c.magnitude σ i := by
  rw [magnitude]
  cases (σ.component c.slot).value with
  | none => exact Nat.one_pos
  | some b => exact b.magnitude_pos i

lemma magnitudeOf_pos (σ : Store) (cs : List Component) (i : Nat) : 0 < magnitudeOf σ cs i :=
  Block.prod_pos (fun c _ i => c.magnitude_pos σ i) i

lemma magnitudeOf_append (σ : Store) (cs ds : List Component) (i : Nat) :
    magnitudeOf σ (cs ++ ds) i = magnitudeOf σ cs i * magnitudeOf σ ds i := by
  simp [magnitudeOf]

variable {f g : Frame} {flag : Nat → Bool} {σ : Store} {c : Component} {ρ : Pairing}

lemma Frame.Covers.alike (covers : g.Covers f) (mixed : c.WholeCoded σ → w) :
    c.AlikeIn (.same g.height w) f g σ where
  mixed := mixed
  column x found := ⟨x, (covers.columns _ x found).1, (covers.columns _ x found).2.alike⟩

/-! ### Components -/

lemma Store.putComponent_same (σ : Store) (slot : Nat) :
    σ.putComponent slot (σ.component slot) = σ := by
  have same : σ.components.setIfInBounds slot (σ.component slot) = σ.components := by
    refine Array.ext (by simp) fun i left right => ?_
    rw [Array.getElem_setIfInBounds]
    split
    · next own =>
      subst own
      simp [Store.component, right]
    · rfl
  rw [Store.putComponent, same]

/-- A settled variable gives its numbers again and stays as it is. -/
lemma Settles.newData (settles : Settles f flag σ c) (isVariable : c.IsVariable)
    (alike : c.AlikeIn ρ f g σ) :
    ∃ v v', (σ.component c.slot).value = some v ∧
      (∀ e, Ends (Fit.step c (Component.newDataBy e c.atom (.frame g))) σ v' σ) ∧
      v.Echoes ρ (c.magnitude σ) v' := by
  obtain ⟨x, found, settled⟩ := settles
  obtain ⟨y, column, same⟩ := alike.column x found
  obtain ⟨v, v', value, echoes, ends⟩ := settled.newData column same alike.mixed
  have size : v.magnitude = c.magnitude σ := by
    funext i
    simp [Component.magnitude, value]
  obtain ⟨n, r, atom⟩ := isVariable
  refine ⟨v, v', value, fun e => ends_step.mpr ⟨_, ?_, σ.putComponent_same c.slot⟩, size ▸ echoes⟩
  have ends := ends e
  rw [atom]
  rwa [Component.name, atom] at ends

lemma Block.Echoes.magnitude_beyond {h i : Nat} {k : Nat → Nat} {b b' : Block}
    (echoes : b.Echoes (.same h w) k b') (beyond : h ≤ i) : b.magnitude i = 1 := by
  obtain ⟨m, _, shape, _, rows⟩ := echoes.rows
  obtain ⟨d, grid⟩ := b
  cases grid with
  | vector xs =>
    cases shape
    have tall : xs.length = h := by
      simpa [Matrix.height, Matrix.ofVector, Pairing.same] using rows.height
    simp [magnitude, getElem?_eq_none (tall ▸ beyond)]
  | _ => rfl

lemma magnitudeOf_le (plain : ∀ c ∈ cs, c.IsVariable) (settled : ∀ c ∈ cs, Settles f flag σ c)
    (alike : ∀ c ∈ cs, c.AlikeIn (.same h w) f g σ) (small : ∀ i < h, magnitudeOf σ cs i ≤ 2 ^ 53)
    (i : Nat) : magnitudeOf σ cs i ≤ 2 ^ 53 := by
  rcases Nat.lt_or_ge i h with row | beyond
  · exact small i row
  -- beyond the rows of the frame there is nothing that could be large
  · have one : magnitudeOf σ cs i = 1 := by
      refine prod_eq_one fun k mem => ?_
      obtain ⟨c, inside, rfl⟩ := mem_map.mp mem
      obtain ⟨v, _, value, _, echoes⟩ :=
        (settled c inside).newData (plain c inside) (alike c inside)
      simpa [Component.magnitude, value] using echoes.magnitude_beyond beyond
    rw [one]
    norm_num

lemma ends_mapM_of_same {S α β : Type} {action : α → ExceptT Fault (StateM S) β} {new : α → β}
    {xs : List α} {s : S} (each : ∀ x ∈ xs, Ends (action x) s (new x) s) :
    Ends (xs.mapM action) s (xs.map new) s := by
  induction xs with
  | nil => exact ends_pure.mpr ⟨rfl, rfl⟩
  | cons x xs ih =>
    obtain ⟨first, others⟩ := forall_mem_cons.mp each
    rw [mapM_cons]
    exact ends_bind.mpr ⟨_, s, first, ends_bind.mpr ⟨_, s, ih others, ends_pure.mpr ⟨rfl, rfl⟩⟩⟩

/-! ### Effects -/

lemma ones_echoes (h : Nat) :
    (Effect.ones (some h)).Echoes (.same h w) (fun _ => 1) (Effect.ones (some h)) := by
  have tall : (Matrix.ofVector (List.replicate h (Datum.int 1))).height = h := by
    simp [Matrix.height, Matrix.ofVector]
  refine ⟨.int, _, _, rfl, rfl, rfl, tall, tall, ?_⟩
  rintro i _ r r' rfl found found'
  cases found.symm.trans found'
  obtain ⟨x, one, rfl⟩ := mem_map.mp (mem_of_getElem? found)
  rw [(mem_replicate.mp one).2]
  exact .cons (.int fun _ => by decide) .nil

/-- A term gives the product of what its components give. -/
lemma Term.ends_newData (known : (Effect.term t).Known f σ)
    (each : ∀ c ∈ t.components, Ends (Fit.step c (Component.newDataBy e c.atom source)) σ (new c) σ)
    (done : Block.interactAll (t.components.map new) = .ok b) : Ends (t.newDataBy e source) σ b σ := by
  have joint : (σ.part t.slot).kind = some .interaction ↔ 1 < t.components.length := by
    cases known with
    | term kind _ => exact kind.joint
  refine ends_bind.mpr ⟨σ, σ, ends_get.mpr ⟨rfl, rfl⟩, ?_⟩
  split
  next => exact ends_bind.mpr ⟨_, σ, ends_mapM_of_same each, ends_lift.mpr ⟨done, rfl⟩⟩
  next other =>
    -- a term of one component gives what the component gives
    have few := mt joint.mpr other
    rcases shape : t.components with _ | ⟨c, _ | ⟨d, rest⟩⟩
    · simp [shape, Block.interactAll] at done
    · have single : Block.interactAll (t.components.map new) = .ok (new c) := by
        rw [shape]
        rfl
      cases done.symm.trans single
      exact each c (by simp [shape])
    · rw [shape] at few
      simp at few

lemma Effect.interactAll_of_product
    (values : ∀ c ∈ t.components, (σ.component c.slot).value = some (old c))
    (product : (Effect.term t).product h σ = .ok b) :
    Block.interactAll (t.components.map old) = .ok b := by
  have blocks : t.components.mapM (fun c => Term.columnBlock (σ.component c.slot)) =
      .ok (t.components.map old) := by
    apply mapM_eq_map
    intro c mem
    rw [Term.columnBlock, values c mem]
  rwa [Effect.product, blocks] at product

lemma Term.newData_echoes (known : (Effect.term t).Known f σ)
    (plain : ∀ c ∈ t.components, c.IsVariable) (settled : ∀ c ∈ t.components, Settles f flag σ c)
    (alike : ∀ c ∈ t.components, c.AlikeIn ρ f g σ)
    (bound : ρ.Mixed → ∀ i, magnitudeOf σ t.components i ≤ 2 ^ 53)
    (product : (Effect.term t).product f.height σ = .ok b) :
    ∃ b', (∀ e, Ends (t.newDataBy e (.frame g)) σ b' σ) ∧
      b.Echoes ρ (magnitudeOf σ t.components) b' := by
  -- the old and the new block of each component, by which both products are known
  choose! old new value ends echo using fun c mem =>
    (settled c mem).newData (plain c mem) (alike c mem)
  obtain ⟨b', done, echoes⟩ := Block.echoes_interactAll (fun c _ i => c.magnitude_pos σ i)
    bound echo (Effect.interactAll_of_product value product)
  exact ⟨b', fun e => t.ends_newData known (fun c own => ends c own e) done, echoes⟩

lemma Effect.newData_echoes {e : Effect} (known : e.Known f σ)
    (plain : ∀ c ∈ e.held, c.IsVariable) (settled : ∀ c ∈ e.held, Settles f flag σ c)
    (covers : g.Covers f) (mixed : ∀ c ∈ e.held, c.WholeCoded σ → w)
    (bound : w → ∀ i, magnitudeOf σ e.held i ≤ 2 ^ 53) (product : e.product f.height σ = .ok b) :
    ∃ b', Ends (e.newData (.frame g)) σ b' σ ∧
      b.Echoes (.same g.height w) (magnitudeOf σ e.held) b' := by
  cases e with
  | intercept slot =>
    cases product
    refine ⟨ones (some g.height), ?_, ?_⟩
    · exact ends_bind.mpr ⟨_, σ, ends_lift.mpr ⟨rfl, rfl⟩, ends_pure.mpr ⟨rfl, rfl⟩⟩
    · rw [← covers.height]
      exact ones_echoes g.height
  | negated => cases product
  | term t =>
    obtain ⟨b', ends, echoes⟩ := Term.newData_echoes known plain settled
      (fun c own => covers.alike (mixed c own)) bound product
    exact ⟨b', ends .given, echoes⟩

/-! ### Parts -/

/-- The part of a known model, evaluated anew on its own data, gives them again. Only a coding by whole
numbers changes its sort, and only beside it the bound is needed. -/
lemma Part.newData_echoes {m : Model} (known : m.Known f σ) (mem : p ∈ m.parts)
    (current : p.Current f flag σ) (covers : g.Covers f) (mixed : ∀ c ∈ p.held, c.WholeCoded σ → w)
    (bound : w → ∀ i, magnitudeOf σ p.held i ≤ 2 ^ 53) (data : p.data? σ = .ok (some b)) :
    ∃ b', Ends (p.newData (.frame g)) σ b' σ ∧
      b.Echoes (.same g.height w) (magnitudeOf σ p.held) b' := by
  have product := current.data b data
  have plain : ∀ c ∈ p.held, c.IsVariable := fun c held =>
    known.plain_of_mem (Model.held_subset_of_mem_parts mem held)
  rcases mem_append.mp mem with common | group
  · obtain ⟨e, inside, rfl⟩ := mem_map.mp common
    exact e.newData_echoes (known.effects e (mem_append_left _ inside)) plain current.settled
      covers mixed bound product
  · obtain ⟨h, inside, rfl⟩ := mem_map.mp group
    obtain ⟨j, factor, product⟩ := bind_eq_ok.mp product
    obtain ⟨x, expr, product⟩ := bind_eq_ok.mp product
    -- a grouping multiplies factor and expression, so that their bounds are multiplied too
    have size : magnitudeOf σ h.held = fun i =>
        magnitudeOf σ h.factor.held i * magnitudeOf σ h.expr.held i := by
      funext i
      rw [GroupTerm.held, magnitudeOf_append, Nat.mul_comm]
    have bound (able : w) (i : Nat) :
        magnitudeOf σ h.factor.held i * magnitudeOf σ h.expr.held i ≤ 2 ^ 53 := by
      have whole := bound able i
      rwa [Part.held, size] at whole
    have effect {e : Effect} (inEffects : e ∈ h.effects) : e.Known f σ :=
      known.effects e (Model.mem_allEffects_of_group inside inEffects)
    obtain ⟨x', exprAgain, exprEchoes⟩ := h.expr.newData_echoes (effect (by simp [GroupTerm.effects]))
      (fun c held => plain c (mem_append_left _ held))
      (fun c held => current.settled c (mem_append_left _ held)) covers
      (fun c held => mixed c (mem_append_left _ held))
      (fun able i => (Nat.le_mul_of_pos_left _ (magnitudeOf_pos σ _ i)).trans (bound able i)) expr
    obtain ⟨j', factorAgain, factorEchoes⟩ := h.factor.newData_echoes
      (effect (by simp [GroupTerm.effects])) (fun c held => plain c (mem_append_right _ held))
      (fun c held => current.settled c (mem_append_right _ held)) covers
      (fun c held => mixed c (mem_append_right _ held))
      (fun able i => (Nat.le_mul_of_pos_right _ (magnitudeOf_pos σ _ i)).trans (bound able i)) factor
    obtain ⟨b', done, echoes⟩ := Block.Echoes.grouped (magnitudeOf_pos σ _) (magnitudeOf_pos σ _) bound
      factorEchoes exprEchoes product
    refine ⟨b', ends_bind.mpr ⟨x', σ, exprAgain, ends_bind.mpr ⟨j', σ, factorAgain, ?_⟩⟩, ?_⟩
    · exact ends_lift.mpr ⟨done, rfl⟩
    · rw [Part.held, size]
      exact echoes

end ModelFormula
