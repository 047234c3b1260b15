import ModelFormula.Proofs.Codings.ModelCodings

/-!
# Names of effects

If names tell the factors of effects apart, the group of the factors has the effects in the order of
the model. They do if no factor is named like the intercept or has the sign that joins names.
-/
namespace ModelFormula.Model

open List

lemma assign_of_mem {κ α : Type} [BEq κ] [LawfulBEq κ] {key : κ} {value : α}
    {acc : List (κ × α)} (keys : (acc.map (·.1)).Nodup) (mem : (key, value) ∈ acc) :
    assign key value acc = acc := by
  induction acc with
  | nil => cases mem
  | cons p acc ih =>
    obtain ⟨fresh, others⟩ := nodup_cons.mp keys
    rcases mem_cons.mp mem with rfl | later
    · simp [assign]
    · have other : p.1 ≠ key := fun eq => fresh (mem_map.mpr ⟨_, later, eq.symm⟩)
      simp [assign, other, ih others later]

/-- Effects of one name have the same factors. -/
def NamesTell (es : List Effect) : Prop :=
  ∀ d ∈ es, ∀ e ∈ es, d.name = e.name → d.factors = e.factors

lemma NamesTell.subset {es ds : List Effect} (names : NamesTell es) (subset : ds ⊆ es) :
    NamesTell ds :=
  fun d left e right => names d (subset left) e (subset right)

/-- Where names tell factors apart, binding them only appends, beginning with a first one that is
not bound yet. -/
lemma foldl_assign_told (es : List Effect) (acc : List (String × List String))
    (keys : (acc.map (·.1)).Nodup) (names : NamesTell es)
    (told : ∀ p ∈ acc, ∀ e ∈ es, p.1 = e.name → p.2 = e.factors) :
    ∃ more, es.foldl (fun acc e => assign e.name e.factors acc) acc = acc ++ more ∧
      (∀ p, p ∈ acc ++ more ↔ p ∈ acc ∨ ∃ e ∈ es, p = (e.name, e.factors)) ∧
      ∀ e ∈ es.head?, e.name ∉ acc.map (·.1) → more.head? = some (e.name, e.factors) := by
  induction es generalizing acc with
  | nil => exact ⟨[], by simp⟩
  | cons e es ih =>
    have rest : NamesTell es := names.subset (subset_cons_self e es)
    -- a name that is bound already has the same factors, so binding it anew changes nothing
    by_cases known : e.name ∈ acc.map (·.1)
    · obtain ⟨p, mem, eq⟩ := mem_map.mp known
      have entry : (e.name, e.factors) ∈ acc := by
        rw [← eq, ← told p mem e mem_cons_self eq]
        exact mem
      obtain ⟨more, fold, among, -⟩ := ih acc keys rest fun p mem d later =>
        told p mem d (mem_cons_of_mem _ later)
      refine ⟨more, by rw [foldl_cons, assign_of_mem keys entry, fold], fun p => ?_, ?_⟩
      · rw [among, exists_mem_cons_iff]
        constructor
        · exact Or.imp_right .inr
        · rintro (old | rfl | later)
          · exact .inl old
          · exact .inl entry
          · exact .inr later
      · rintro _ ⟨rfl⟩ fresh
        exact absurd known fresh
    · have fresh : ∀ p ∈ acc, (p.1 == e.name) = false := by
        intro p mem
        simpa using fun eq : p.1 = e.name => known (mem_map.mpr ⟨p, mem, eq⟩)
      have keys' : ((acc ++ [(e.name, e.factors)]).map (·.1)).Nodup := by
        rw [← assign_of_fresh fresh, keys_assign, if_neg known, nodup_append]
        refine ⟨keys, nodup_singleton _, ?_⟩
        rintro n inside _ last rfl
        exact known (mem_singleton.mp last ▸ inside)
      obtain ⟨more, fold, among, -⟩ := ih (acc ++ [(e.name, e.factors)]) keys' rest (by
        intro p mem d later eq
        rcases mem_append.mp mem with old | last
        · exact told p old d (mem_cons_of_mem _ later) eq
        · rw [mem_singleton.mp last] at eq ⊢
          exact names e mem_cons_self d (mem_cons_of_mem _ later) eq)
      refine ⟨(e.name, e.factors) :: more, ?_, fun p => ?_, ?_⟩
      · rw [foldl_cons, assign_of_fresh fresh, fold]
        simp
      · have := among p
        simp only [append_assoc, singleton_append, mem_append, mem_singleton, or_assoc] at this
        rw [exists_mem_cons_iff, mem_append, this]
      · rintro _ ⟨rfl⟩ _
        rfl

lemma factorGroup_eq (m : Model) :
    m.factorGroup = m.common.foldl (fun acc e => assign e.name e.factors acc) [] :=
  (foldl_assign_map Effect.factors m.common []).symm

lemma mem_factorGroup {m : Model} (names : NamesTell m.common) :
    p ∈ m.factorGroup ↔ ∃ e ∈ m.common, p = (e.name, e.factors) := by
  obtain ⟨more, fold, among, -⟩ := foldl_assign_told m.common [] (by simp) names (by simp)
  rw [factorGroup_eq, fold, among]
  simp

/-- In front of an effect the group has what stands in front of it in the model. -/
lemma factorGroup_split {m : Model} (common : m.common = pre ++ e :: post)
    (names : NamesTell m.common) (fresh : ∀ d ∈ pre, d.name ≠ e.name) :
    ∃ before after, m.factorGroup = before ++ (e.name, e.factors) :: after ∧
      ∀ p, p ∈ before ↔ ∃ d ∈ pre, p = (d.name, d.factors) := by
  rw [common] at names
  have front (p : String × List String) :
      p ∈ factorGroup { common := pre } ↔ ∃ d ∈ pre, p = (d.name, d.factors) :=
    mem_factorGroup (m := { common := pre }) (names.subset (by simp))
  obtain ⟨more, fold, -, first⟩ := foldl_assign_told (e :: post) (factorGroup { common := pre })
    (nodup_factorGroup _) (names.subset (by simp)) (by
      intro p mem d later eq
      obtain ⟨c, inside, rfl⟩ := (front p).mp mem
      exact names c (by simp [inside]) d (mem_append_right _ later) eq)
  have head := first e rfl (by
    intro bound
    obtain ⟨p, mem, eq⟩ := mem_map.mp bound
    obtain ⟨d, inside, rfl⟩ := (front p).mp mem
    exact fresh d inside eq)
  obtain ⟨after, rfl⟩ := head?_eq_some_iff.mp head
  refine ⟨factorGroup { common := pre }, after, ?_, front⟩
  rw [factorGroup_eq m, common, foldl_append, ← fold, factorGroup_eq { common := pre }]

/-! ### Names without the sign that joins them -/

lemma intercalate_injective (left : ∀ x ∈ xs, ':' ∉ x.toList) (right : ∀ y ∈ ys, ':' ∉ y.toList)
    (first : xs ≠ []) (second : ys ≠ []) (eq : ":".intercalate xs = ":".intercalate ys) :
    xs = ys := by
  have split {zs : List String} (clean : ∀ z ∈ zs, ':' ∉ z.toList) (some : zs ≠ []) :
      (":".intercalate zs).toList.splitOn ':' = zs.map String.toList := by
    rw [String.toList_intercalate]
    exact splitOn_intercalate ':' (by simpa using clean) (by simpa using some)
  have lists : xs.map String.toList = ys.map String.toList := by
    rw [← split left first, ← split right second, eq]
  exact map_injective_iff.mpr (fun _ _ => String.toList_inj.mp) lists

/-- A name that is not that of the intercept and does not look like that of an interaction. -/
def CleanName (n : String) : Prop := n ≠ "Intercept" ∧ ':' ∉ n.toList

instance (n : String) : Decidable (CleanName n) := inferInstanceAs (Decidable (_ ∧ _))

/-- What the name of an effect is joined from. -/
def nameParts : Effect → List String
  | .intercept _ => ["Intercept"]
  | e => e.factors

lemma namesTell_of_clean (typed : ∀ e ∈ es, Typed f σ e)
    (clean : ∀ e ∈ es, ∀ n ∈ e.factors, CleanName n) : NamesTell es := by
  -- the intercept is named as if it were a single factor of that name
  have parts : ∀ e ∈ es, e.name = ":".intercalate (nameParts e) ∧ nameParts e ≠ [] ∧
      ∀ n ∈ nameParts e, ':' ∉ n.toList := by
    intro e mem
    cases typed e mem with
    | intercept => exact ⟨by simp [Effect.name, nameParts], by simp [nameParts], by simp [nameParts]⟩
    | @term t _ _ nonempty _ =>
      refine ⟨rfl, by simpa [nameParts, Effect.factors, Effect.held] using nonempty, ?_⟩
      exact fun n inside => (clean _ mem n inside).2
  intro d left e right eq
  obtain ⟨dName, dSome, dClean⟩ := parts d left
  obtain ⟨eName, eSome, eClean⟩ := parts e right
  have same : nameParts d = nameParts e :=
    intercalate_injective dClean eClean dSome eSome (by rw [← dName, ← eName, eq])
  cases typed d left with
  | intercept =>
    cases typed e right with
    | intercept => rfl
    | @term t =>
      have inside : "Intercept" ∈ nameParts (.term t) := by
        rw [← same]
        exact mem_singleton_self _
      exact absurd rfl (clean _ right _ inside).1
  | @term t =>
    cases typed e right with
    | intercept =>
      have inside : "Intercept" ∈ nameParts (.term t) := by
        rw [same]
        exact mem_singleton_self _
      exact absurd rfl (clean _ left _ inside).1
    | term => exact same

/-!
### Terms that are added for further codings

Adding terms for codings leaves the effects of a model typed and separate, keeps all of them, and
brings in no factor set that is not inside that of an effect.
-/

open Component

variable {f : Frame} {levels : String → List Datum} {σ : Store} {m m' : Model}

/-- Every common effect is an intercept or a term of different factors. -/
structure OfFactors (f : Frame) (levels : String → List Datum) (m : Model) : Prop where
  positive : ∀ e ∈ m.common, e ≠ .negated
  factors : ∀ e ∈ m.common, ∀ c ∈ e.held, c.IsFactor f levels
  distinct : ∀ e ∈ m.common, e.factors.Nodup

/-- A model of factors whose common effects are known. -/
structure Prepared (f : Frame) (levels : String → List Datum) (σ : Store) (m : Model) : Prop
    extends m.KnownIn f m.common σ, m.OfFactors f levels

lemma Prepared.typed (prepared : Prepared f levels σ m) : ∀ e ∈ m.common, Typed f σ e := by
  have apart := apart_of_separate prepared.separate (subset_append_left m.common _)
  intro e mem
  refine (prepared.effects e mem).typed (prepared.positive e mem) (prepared.filled e mem)
    (prepared.factors e mem) (fun s slot => (apart.parts e mem s slot).2) fun c held => ?_
  exact (apart.components c (mem_flatMap.mpr ⟨e, mem, held⟩)).2

lemma Prepared.mono (prepared : Prepared f levels σ m) (common : m'.common ⊆ m.common)
    (group : m'.group = m.group) (response : m'.response = m.response) :
    Prepared f levels σ m' where
  toKnownIn := prepared.toKnownIn.mono common group response common (Subset.refl _)
    (subset_append_left _ _)
  positive e mem := prepared.positive e (common mem)
  factors e mem := prepared.factors e (common mem)
  distinct e mem := prepared.distinct e (common mem)

/-! ### The components of an added term -/

/-- The label that a component has by its atom. -/
lemma label_eq_of_atom {c d : Component} (same : c.atom = d.atom) : c.label = d.label := by
  simp [label, name, same]

lemma find?_name {cs : List Component} (apart : cs.Pairwise fun c d => (c.name == d.name) = false)
    (mem : c ∈ cs) (itself : c.name == c.name) : cs.find? (·.name == c.name) = some c := by
  induction cs with
  | nil => cases mem
  | cons d cs ih =>
    obtain ⟨first, others⟩ := pairwise_cons.mp apart
    rcases mem_cons.mp mem with rfl | later
    · simp [itself]
    · rw [find?_cons_of_neg (by simp [first c later]), ih others later]

/-- A term of factors has no components but those that a coding may mention. -/
lemma extraComponents_eq {t : Term} (coding : Coding.Flags Literal)
    (ready : ∀ c ∈ t.components, Ready f σ c) (factors : ∀ c ∈ t.components, c.IsFactor f levels)
    (nodup : (t.components.map label).Nodup) :
    extraComponents σ t coding = t.components.filter fun c => coding.any (·.1 == c.name) := by
  -- all components are categoric, so none is taken over as numeric
  have numeric : (t.components.filter fun c =>
      (σ.component c.slot).kind == some .numeric) = [] := by
    refine filter_eq_nil_iff.mpr fun c mem => ?_
    rw [(ready c mem).kind]
    decide
  have found : ∀ c ∈ t.components, t.component? c.name = some c := by
    intro c mem
    refine find?_name (names_apart factors nodup) mem ?_
    rw [(factors c mem).name.1, text_beq]
    exact beq_self_eq_true _
  have mentioned : ((t.components.filter fun c => coding.any (·.1 == c.name)).filterMap fun c =>
      t.component? c.name) = t.components.filter fun c => coding.any (·.1 == c.name) := by
    rw [filterMap_congr (g := some) fun c mem => found c (mem_of_mem_filter mem), filterMap_some]
  rw [extraComponents, mentioned, numeric, append_nil]

lemma labels_sublist {cs ds : List Component}
    (atoms : (ds.map (·.atom)).Sublist (cs.map (·.atom))) :
    (ds.map label).Sublist (cs.map label) := by
  have labels (cs : List Component) : cs.map label =
      (cs.map (·.atom)).map fun a => label ⟨0, a⟩ := by
    rw [map_map]
    exact map_congr_left fun c _ => label_eq_of_atom rfl
  rw [labels, labels]
  exact atoms.map _

/-! ### Adding a term -/

lemma extraTerm_prepared (prepared : Prepared f levels σ m) (mem : .term t ∈ m.common)
    (ends : Ends (extraTerm t coding (.frame f) scope) σ u τ) :
    Prepared f levels τ { m with common := .term u :: m.common } ∧ (Effect.term u).factors.Sublist
        ((Effect.term t).factors.filter fun x => coding.any (·.1 == .text x)) := by
  have factors := prepared.factors _ mem
  have mentioned := extraComponents_eq coding (prepared.typed _ mem).ready factors
    (prepared.distinct _ mem)
  obtain ⟨known, atoms⟩ := extraTerm_known prepared.toKnownIn mem ends
  rw [mentioned] at atoms
  have names : (Effect.term u).factors.Sublist
      ((Effect.term t).factors.filter fun x => coding.any (·.1 == .text x)) := by
    have byLabel : t.components.filter (fun c => coding.any (·.1 == c.name)) =
        t.components.filter ((fun x => coding.any (·.1 == .text x)) ∘ label) :=
      filter_congr fun c held => by rw [(factors c held).name.1, Function.comp_apply]
    have labels := labels_sublist atoms
    rwa [byLabel, ← filter_map] at labels
  refine ⟨⟨known, forall_mem_cons.mpr ⟨by simp, prepared.positive⟩,
    forall_mem_cons.mpr ⟨fun c held => ?_, prepared.factors⟩,
    forall_mem_cons.mpr ⟨(prepared.distinct _ mem).sublist (names.trans
      filter_sublist), prepared.distinct⟩⟩, names⟩
  -- a copy is a factor because its atom is that of one
  obtain ⟨d, original, same⟩ := mem_map.mp (atoms.subset (mem_map_of_mem held))
  obtain ⟨n, r, atom, has⟩ := factors d (mem_of_mem_filter original)
  exact ⟨n, r, by rw [← same, atom], has⟩

/-! ### All further terms -/

/-- A prepared model that has all effects of another, and others only inside of them. -/
structure Enlarged (f : Frame) (levels : String → List Datum) (m : Model) (m' : Model)
    (σ : Store) : Prop where
  prepared : Prepared f levels σ m'
  group : m'.group = m.group
  response : m'.response = m.response
  keeps : m.common ⊆ m'.common
  inside : ∀ e ∈ m'.common, ∃ d ∈ m.common, e.factors ⊆ d.factors

lemma Enlarged.refl (prepared : Prepared f levels σ m) : Enlarged f levels m m σ :=
  ⟨prepared, rfl, rfl, Subset.refl _, fun e mem => ⟨e, mem, Subset.refl _⟩⟩

lemma Enlarged.add (enlarged : Enlarged f levels m n σ) (mem : .term t ∈ n.common)
    (prepared : Prepared f levels τ { n with common := .term u :: n.common })
    (names : (Effect.term u).factors ⊆ (Effect.term t).factors) (kept : n.common ⊆ es)
    (old : es ⊆ .term u :: n.common) : Enlarged f levels m { n with common := es } τ where
  prepared := prepared.mono old rfl rfl
  group := enlarged.group
  response := enlarged.response
  keeps := Subset.trans enlarged.keeps kept
  inside e among := by
    rcases mem_cons.mp (old among) with rfl | before
    · obtain ⟨d, first, subset⟩ := enlarged.inside _ mem
      exact ⟨d, first, Subset.trans names subset⟩
    · exact enlarged.inside e before

lemma addExtraFor_enlarged {n n' : Model} {e : Effect} {codings : List (Coding.Flags Literal)}
    (enlarged : Enlarged f levels m n σ) (mem : e ∈ m.common)
    (ends : Ends (n.addExtraFor e codings (.frame f) scope) σ n' τ) : Enlarged f levels m n' τ := by
  refine invariant_of_foldlM (I := fun n σ => Enlarged f levels m n σ) ends ?_ enlarged
  intro coding _ n n' σ τ step enlarged
  cases e with
  | term t =>
    obtain ⟨u, ρ, extra, step⟩ := ends_bind.mp step
    obtain ⟨es, done, step⟩ := ends_withKinds_bind.mp step
    obtain ⟨rfl, rfl⟩ := ends_pure.mp step
    obtain ⟨prepared, names⟩ := extraTerm_prepared enlarged.prepared (enlarged.keeps mem) extra
    obtain ⟨kept, old⟩ := insertBefore_subset done
    exact enlarged.add (enlarged.keeps mem) prepared
      (Subset.trans names.subset (filter_subset_self _)) kept old
  | intercept | negated => exact (ends_throw step).elim

/-- Adding the terms that the codings need enlarges a model inside its factor sets. -/
lemma addExtraTerms_enlarged {codings : Codings} (prepared : Prepared f levels σ m)
    (ends : Ends (m.addExtraTerms codings (.frame f) scope) σ m' τ) : Enlarged f levels m m' τ := by
  refine invariant_of_foldlM (I := fun n σ => Enlarged f levels m n σ) ends ?_ (.refl prepared)
  intro e mem n n' σ τ step enlarged
  split at step
  · exact addExtraFor_enlarged enlarged mem step
  · obtain ⟨rfl, rfl⟩ := ends_pure.mp step
    exact enlarged

end ModelFormula.Model
