import ModelFormula.Proofs.Codings.MissingCodings

/-!
# Groups of numeric parts

An interaction of numeric and categoric components is entered in the group of its numeric part,
which begins with the name of that part if something is known under it.
-/
namespace ModelFormula.Model

open List Literal

variable {c n : List Literal} {α : Type} {known : String → Bool} {t : String × List Literal}
  {name : String} {names : List Literal}

open Coding (NamesApart)

/-! ### Parts of interactions -/

/-- The names of the numeric and of the categoric components of an interaction that has both. -/
def TermShape.parts? : TermShape → Option (List Literal × List Literal)
  | .single _ => none
  | .interaction kinds =>
    let numeric := namesOfKind .numeric kinds
    let categoric := namesOfKind .categoric kinds
    if categoric.isEmpty || numeric.isEmpty then none else some (numeric, categoric)

/-- The name of a term that has components of these names. -/
def jointText (names : List Literal) : String := ":".intercalate (names.map plain)

/-- All names are texts. -/
def AreTexts (names : List Literal) : Prop := ∀ x ∈ names, ∃ s, x = .text s

lemma TermShape.parts?_eq_some {s : TermShape} :
    s.parts? = some (n, c) ↔ ∃ kinds, s = .interaction kinds ∧ n = namesOfKind .numeric kinds ∧
      c = namesOfKind .categoric kinds ∧ n ≠ [] ∧ c ≠ [] := by
  cases s with
  | single => simp [parts?]
  | interaction kinds =>
    rw [parts?]
    split
    next missing =>
      simp only [Bool.or_eq_true, List.isEmpty_iff] at missing
      simp only [reduceCtorEq, TermShape.interaction.injEq, false_iff]
      rintro ⟨_, rfl, rfl, rfl, numeric, categoric⟩
      exact missing.elim categoric numeric
    next both =>
      simp only [Bool.or_eq_true, List.isEmpty_iff, not_or] at both
      simp only [Option.some.injEq, Prod.mk.injEq, TermShape.interaction.injEq]
      constructor
      · rintro ⟨rfl, rfl⟩
        exact ⟨kinds, rfl, rfl, rfl, both.2, both.1⟩
      · rintro ⟨_, rfl, rfl, rfl, _⟩
        exact ⟨rfl, rfl⟩

lemma jointName_eq_ok (joined : jointName names = .ok part) :
    AreTexts names ∧ part = jointText names := by
  obtain ⟨texts, read, done⟩ := bind_eq_ok.mp joined
  cases done
  have each := (mapM_ok_iff _ _ _).mp read
  have both : AreTexts names ∧ names.map plain = texts := by
    clear joined read
    induction each with
    | nil => exact ⟨by simp [AreTexts], rfl⟩
    | @cons x s names texts first _ ih =>
      cases x with
      | text t =>
        cases first
        refine ⟨?_, by simp [ih.2, plain]⟩
        exact forall_mem_cons.mpr ⟨⟨_, rfl⟩, ih.1⟩
      | int | float => cases first
  exact ⟨both.1, by rw [jointText, both.2]⟩

/-! ### Lists with the same names -/

lemma sameNames_iff : sameNames xs ys ↔
    (∀ x ∈ xs, ∃ y ∈ ys, (y == x)) ∧ ∀ y ∈ ys, ∃ x ∈ xs, (x == y) := by
  simp [sameNames, all_eq_true, any_eq_true]

lemma sameNames_symm (same : sameNames xs ys) : sameNames ys xs := by
  rw [sameNames_iff] at same ⊢
  exact same.symm

lemma sameNames_trans (first : sameNames xs ys) (second : sameNames ys zs) : sameNames xs zs := by
  rw [sameNames_iff] at first second ⊢
  constructor
  · intro x mem
    obtain ⟨y, inside, eq⟩ := first.1 x mem
    obtain ⟨z, among, eq'⟩ := second.1 y inside
    exact ⟨z, among, beq_trans eq' eq⟩
  · intro z mem
    obtain ⟨y, inside, eq⟩ := second.2 z mem
    obtain ⟨x, among, eq'⟩ := first.2 y inside
    exact ⟨x, among, beq_trans eq' eq⟩

lemma AreTexts.sameNames_self (texts : AreTexts xs) : sameNames xs xs := by
  have self : ∀ x ∈ xs, ∃ y ∈ xs, (y == x) := by
    intro x mem
    obtain ⟨s, rfl⟩ := texts x mem
    exact ⟨_, mem, by simp [text_beq]⟩
  exact sameNames_iff.mpr ⟨self, self⟩

/-! ### Names of interactions are longer than those of their parts -/

/-- The room that names take with a separator behind each. -/
def room (names : List String) : Nat := (names.map fun s => s.length + 1).sum

lemma length_intercalate {names : List String} (some : names ≠ []) :
    (":".intercalate names).length + 1 = room names := by
  have onLists : ∀ xss : List (List Char), xss ≠ [] →
      ([':'].intercalate xss).length + 1 = (xss.map fun xs => xs.length + 1).sum := by
    intro xss some
    induction xss with
    | nil => exact absurd rfl some
    | cons xs xss ih =>
      cases xss with
      | nil => simp
      | cons ys xss =>
        have rest := ih (by simp)
        rw [intercalate_cons_cons, map_cons, sum_cons, ← rest]
        simp only [length_append, length_singleton]
        omega
  have separator : ":".toList = [':'] := by decide
  rw [← String.length_toList, String.toList_intercalate, separator]
  have lists := onLists (names.map String.toList) (by simpa using some)
  rw [map_map] at lists
  simpa only [room, Function.comp_def, String.length_toList] using lists

lemma room_lt {names others : List String} (sublist : names.Sublist others)
    (fewer : names.length < others.length) : room names < room others := by
  induction sublist with
  | slnil => simp at fewer
  | @cons xs ys y inside _ =>
    have below : room xs ≤ room ys := Sublist.sum_le_sum (inside.map _) (by simp)
    simp only [room, map_cons, sum_cons] at below ⊢
    omega
  | @cons_cons xs ys y inside ih =>
    have less := ih (by simpa using fewer)
    simp only [room, map_cons, sum_cons] at less ⊢
    omega

lemma room_of_sameNames (left : AreTexts xs) (right : AreTexts ys) (apart : NamesApart xs)
    (apart' : NamesApart ys) (same : sameNames xs ys) :
    room (xs.map plain) = room (ys.map plain) := by
  have nodup : ∀ {zs : List Literal}, AreTexts zs → NamesApart zs → (zs.map plain).Nodup := by
    intro zs texts apart
    apply pairwise_map.mpr
    apply apart.imp_of_mem
    intro x y inside among different eq
    obtain ⟨s, rfl⟩ := texts x inside
    obtain ⟨t, rfl⟩ := texts y among
    simp only [plain] at eq
    simp [eq, text_beq] at different
  have below : ∀ {zs ws : List Literal}, AreTexts zs → AreTexts ws →
      (∀ z ∈ zs, ∃ w ∈ ws, (w == z)) → ∀ s ∈ zs.map plain, s ∈ ws.map plain := by
    intro zs ws texts texts' covered s mem
    obtain ⟨z, inside, rfl⟩ := mem_map.mp mem
    obtain ⟨w, among, eq⟩ := covered z inside
    obtain ⟨a, rfl⟩ := texts z inside
    obtain ⟨b, rfl⟩ := texts' w among
    rw [text_beq, beq_iff_eq] at eq
    exact mem_map.mpr ⟨_, among, by simp [plain, eq]⟩
  rw [sameNames_iff] at same
  have perm : (xs.map plain).Perm (ys.map plain) := by
    rw [perm_ext_iff_of_nodup (nodup left apart) (nodup right apart')]
    exact fun s => ⟨below left right same.1 s, below right left same.2 s⟩
  exact (perm.map _).sum_eq

lemma assign_keys_sublist (key : Literal) (value : α) (acc : List (Literal × α)) :
    ((assign key value acc).map (·.1)).Sublist (acc.map (·.1) ++ [key]) := by
  induction acc with
  | nil => simp [assign]
  | cons p acc ih =>
    rw [assign]
    split
    · simp
    · exact ih.cons_cons p.1

lemma foldl_assign_keys_sublist (σ : Store) (cs : List Component)
    (acc : List (Literal × Option Kind)) :
    ((cs.foldl (fun acc c => assign c.name (σ.component c.slot).kind acc) acc).map (·.1)).Sublist
      (acc.map (·.1) ++ cs.map (·.name)) := by
  induction cs generalizing acc with
  | nil => simp
  | cons c cs ih =>
    rw [foldl_cons, map_cons, ← singleton_append, ← append_assoc]
    exact (ih _).trans ((assign_keys_sublist _ _ acc).append_right _)

lemma fewer_numeric (categoric : namesOfKind .categoric kinds ≠ []) :
    (namesOfKind .numeric kinds).length < kinds.length := by
  obtain ⟨x, mem⟩ := exists_mem_of_ne_nil _ categoric
  obtain ⟨p, inside, _⟩ := mem_map.mp mem
  obtain ⟨among, kind⟩ := mem_filter.mp inside
  rw [namesOfKind, length_map, length_filter_lt_length_iff_exists]
  refine ⟨p, among, ?_⟩
  rw [beq_iff_eq.mp kind]
  decide

/-- The numeric part of an interaction has a shorter name than the interaction itself. -/
lemma room_numeric_lt {σ : Store} (mixed : (shape σ e).parts? = some (n, c)) :
    room (n.map plain) < e.name.length + 1 := by
  obtain ⟨kinds, shaped, rfl, rfl, numeric, categoric⟩ := TermShape.parts?_eq_some.mp mixed
  unfold shape at shaped
  split at shaped
  next t _ =>
    obtain rfl := TermShape.interaction.inj shaped
    have inside := foldl_assign_keys_sublist σ t.components []
    rw [map_nil, nil_append] at inside
    have sublist : (namesOfKind .numeric (t.components.foldl
        (fun acc c => assign c.name (σ.component c.slot).kind acc) [])).Sublist
        (t.components.map (·.name)) := (filter_sublist.map _).trans inside
    have fewer := (fewer_numeric categoric).trans_le (by simpa using inside.length_le)
    have named : t.components.map (·.name.plain) ≠ [] := by
      intro none
      rw [map_eq_nil_iff] at none
      simp [none] at fewer
    have less := room_lt (sublist.map plain) (by simpa using fewer)
    rw [map_map] at less
    exact less.trans_eq (length_intercalate named).symm
  next => cases shaped

/-! ### Groups of numeric parts -/

/-- Enters an interaction in the group of its numeric part, behind the name of that part if it is
known. -/
def enter (known : String → Bool) (name : String) (n c : List Literal) (group : CodingGroup) :
    CodingGroup :=
  assign name c (if known (jointText n) then assign (jointText n) [] group else group)

/-- What a group begins with. -/
def opening (known : String → Bool) (name : String) (n c : List Literal) : String × List Literal :=
  if known (jointText n) then (jointText n, []) else (name, c)

/-- The interaction has the numeric part. -/
def hasPart (names : List Literal) (p : String × TermShape) : Bool :=
  p.2.parts?.any fun parts => sameNames names parts.1

lemma updateGroup_cases (n : List Literal) (change : CodingGroup → CodingGroup)
    (groups : List (List Literal × CodingGroup)) :
    (∀ g ∈ groups, sameNames g.1 n = false) ∧
        updateGroup n change groups = groups ++ [(n, change [])] ∨
      ∃ before g after, groups = before ++ g :: after ∧ sameNames g.1 n ∧
        updateGroup n change groups = before ++ (g.1, change g.2) :: after := by
  induction groups with
  | nil => exact .inl ⟨by simp, rfl⟩
  | cons g groups ih =>
    rw [updateGroup]
    by_cases same : sameNames g.1 n
    · rw [if_pos same]
      exact .inr ⟨[], g, groups, rfl, same, rfl⟩
    · rw [if_neg same]
      rcases ih with ⟨none, eq⟩ | ⟨before, h, after, rfl, found, eq⟩
      · exact .inl ⟨forall_mem_cons.mpr ⟨by simpa using same, none⟩, by simp [eq]⟩
      · exact .inr ⟨g :: before, h, after, rfl, found, by simp [eq]⟩

/-- What holds of the part that is read so far, step by step, holds in the end. -/
lemma foldlM_along {β : Type} {f : β → α → Except Fault β} {P : List α → β → Prop} {xs : List α}
    {start last : β} (begins : P [] start)
    (step : ∀ done x b c, done ++ [x] <+: xs → P done b → f b x = .ok c → P (done ++ [x]) c)
    (ended : xs.foldlM f start = .ok last) : P xs last := by
  -- the part that is read and the rest make up the whole list
  have along : ∀ rest done b, done ++ rest = xs → P done b → rest.foldlM f b = .ok last →
      P xs last := by
    intro rest
    induction rest with
    | nil =>
      intro done b whole held ended
      cases ended
      rwa [← whole, append_nil]
    | cons x rest ih =>
      intro done b whole held ended
      rw [foldlM_cons] at ended
      obtain ⟨c, first, ended⟩ := bind_eq_ok.mp ended
      have whole' : done ++ [x] ++ rest = xs := by simpa using whole
      exact ih (done ++ [x]) c whole' (step done x b c ⟨rest, whole'⟩ held first) ended
  exact along xs [] start rfl begins ended

/-- Interactions with both parts are entered one after the other, and anything else is passed by. -/
lemma numericGroups_induction {shapes : List (String × TermShape)}
    {P : List (String × TermShape) → List (List Literal × CodingGroup) → Prop} (start : P [] [])
    (pass : ∀ done p groups, p.2.parts? = none → P done groups → P (done ++ [p]) groups)
    (enters : ∀ done p groups n c, done ++ [p] <+: shapes → p.2.parts? = some (n, c) → AreTexts n →
      P done groups →
        P (done ++ [p]) (updateGroup n (enter (fun k => shapes.any (·.1 == k)) p.1 n c) groups))
    {groups : List (List Literal × CodingGroup)} (grouped : numericGroups shapes = .ok groups) :
    P shapes groups := by
  refine foldlM_along start ?_ grouped
  rintro done ⟨name, s⟩ before after inside held step
  dsimp only at step
  cases s with
  | single =>
    cases step
    exact pass _ _ _ rfl held
  | interaction kinds =>
    dsimp only at step
    split at step
    next missing =>
      cases step
      exact pass _ _ _ (by simp [TermShape.parts?, missing]) held
    next both =>
      obtain ⟨part, joined, step⟩ := bind_eq_ok.mp step
      cases step
      obtain ⟨texts, rfl⟩ := jointName_eq_ok joined
      exact enters _ _ _ _ _ inside (by simp [TermShape.parts?, both]) texts held

/-! ### What a group begins with -/

/-- Binding a key keeps the first entry, unless it has the key and another value. -/
lemma assign_cons {value : α} {p : String × α} (rest : List (String × α))
    (kept : p.1 = key → p.2 = value) : ∃ rest', assign key value (p :: rest) = p :: rest' := by
  obtain ⟨k, v⟩ := p
  rw [assign]
  split
  next same =>
    obtain rfl : v = value := kept (eq_of_beq same)
    exact ⟨rest, rfl⟩
  next => exact ⟨_, rfl⟩

lemma mem_enter {group : CodingGroup} (mem : t ∈ enter known name n c group) :
    t = (name, c) ∨ t = (jointText n, []) ∨ t ∈ group := by
  rcases mem_assign mem with own | old
  · exact .inl own
  · split at old
    · exact .inr (mem_assign old)
    · exact .inr (.inr old)

lemma mem_keys_enter {name k : String} {group : CodingGroup}
    (mem : k = name ∨ k ∈ group.map (·.1)) : k ∈ (enter known name n c group).map (·.1) := by
  have kept : ∀ {key : String} {value : List Literal} {acc : CodingGroup},
      k = key ∨ k ∈ acc.map (·.1) → k ∈ (assign key value acc).map (·.1) := by
    intro key value acc either
    rw [keys_assign]
    split <;> grind
  apply kept
  rcases mem with own | old
  · exact .inl own
  · split
    · exact .inr (kept (.inr old))
    · exact .inr old

lemma enter_cons (known : String → Bool) (c : List Literal) (rest : CodingGroup)
    (different : t.1 ≠ name) (kept : t.1 = jointText n → t.2 = []) :
    ∃ rest', enter known name n c (t :: rest) = t :: rest' := by
  rw [enter]
  split
  · obtain ⟨_, eq⟩ := assign_cons rest kept
    rw [eq]
    exact assign_cons _ fun same => absurd same different
  · exact assign_cons _ fun same => absurd same different

lemma enter_nil (known : String → Bool) (c : List Literal) (different : jointText n ≠ name) :
    ∃ rest, enter known name n c [] = opening known name n c :: rest := by
  rw [enter, opening]
  split
  · exact assign_cons _ fun same => absurd same different
  · exact ⟨[], rfl⟩

/-- No interaction with the part is named like the part, and their names differ. -/
structure Separate (shapes : List (String × TermShape)) : Prop where
  distinct : (shapes.map (·.1)).Nodup
  parts : ∀ p ∈ shapes, ∀ q ∈ shapes, ∀ n c n' c', p.2.parts? = some (n, c) →
    q.2.parts? = some (n', c') → AreTexts n → AreTexts n' → sameNames n n' = true →
      jointText n ≠ q.1

/-- The groups of the interactions that are read so far. -/
structure Grouped (known : String → Bool) (done : List (String × TermShape))
    (groups : List (List Literal × CodingGroup)) : Prop where
  texts : ∀ p ∈ done, ∀ n c, p.2.parts? = some (n, c) → AreTexts n
  begins : ∀ g ∈ groups, ∃ p n c rest, done.find? (hasPart g.1) = some p ∧
    p.2.parts? = some (n, c) ∧ g.2 = opening known p.1 n c :: rest
  entries : ∀ g ∈ groups, ∀ t ∈ g.2, ∃ p ∈ done, ∃ n c, p.2.parts? = some (n, c) ∧
    sameNames g.1 n = true ∧ (t = (p.1, c) ∨ t = (jointText n, []))
  covers : ∀ p ∈ done, ∀ n c, p.2.parts? = some (n, c) →
    ∃ g ∈ groups, sameNames g.1 n = true ∧ p.1 ∈ g.2.map (·.1)

lemma hasPart_iff : hasPart names p ↔ ∃ n c, p.2.parts? = some (n, c) ∧ sameNames names n := by
  simp only [hasPart, Option.any_eq_true, Prod.exists]

section Step

variable {shapes done : List (String × TermShape)} {p : String × TermShape}
  {groups : List (List Literal × CodingGroup)}

lemma Grouped.pass (held : Grouped known done groups)
    (plain : p.2.parts? = none) : Grouped known (done ++ [p]) groups where
  texts := by
    intro q mem n c mixed
    rcases mem_append.mp mem with old | new
    · exact held.texts q old n c mixed
    · obtain rfl := mem_singleton.mp new
      simp [plain] at mixed
  begins := by
    intro g mem
    obtain ⟨q, n, c, rest, found, mixed, eq⟩ := held.begins g mem
    exact ⟨q, n, c, rest, by rw [find?_append, found]; rfl, mixed, eq⟩
  entries := by
    intro g mem t own
    obtain ⟨q, old, rest⟩ := held.entries g mem t own
    exact ⟨q, mem_append_left _ old, rest⟩
  covers := by
    intro q mem n c mixed
    rcases mem_append.mp mem with old | new
    · exact held.covers q old n c mixed
    · obtain rfl := mem_singleton.mp new
      simp [plain] at mixed

/-- No group of the part yet means that no interaction with it was read. -/
lemma Grouped.not_hasPart (held : Grouped known done groups)
    (none : ∀ g ∈ groups, sameNames g.1 n = false) : done.find? (hasPart n) = Option.none := by
  apply find?_eq_none.mpr
  intro q mem own
  obtain ⟨n', c', mixed, same⟩ := hasPart_iff.mp own
  obtain ⟨g, inside, eq, _⟩ := held.covers q mem n' c' mixed
  have contrary := sameNames_trans eq (sameNames_symm same)
  rw [none g inside] at contrary
  cases contrary

section

variable (held : Grouped known done groups) (separate : Separate (done ++ [p]))
  (mixed : p.2.parts? = some (n, c)) (texts : AreTexts n)
include held separate mixed texts

variable {g : List Literal × CodingGroup}

/-- Entering a later interaction leaves the beginning of the group in place. -/
lemma Grouped.enter_begins (mem : g ∈ groups) (same : sameNames g.1 n) :
    ∃ q n' c' rest, done.find? (hasPart g.1) = some q ∧ q.2.parts? = some (n', c') ∧
      enter known p.1 n c g.2 = opening known q.1 n' c' :: rest := by
  obtain ⟨q, n', c', rest, found, mixed', eq⟩ := held.begins g mem
  have old : q ∈ done := mem_of_find?_eq_some found
  have own : sameNames g.1 n' := by
    obtain ⟨_, _, again, own⟩ := hasPart_iff.mp (find?_some found)
    rw [mixed'] at again
    cases again
    exact own
  have texts' := held.texts q old _ _ mixed'
  have alike := sameNames_trans (sameNames_symm own) same
  have first : q ∈ done ++ [p] := mem_append_left _ old
  have last : p ∈ done ++ [p] := by simp
  -- neither the name nor the part of the new interaction binds the first entry anew
  have different : (opening known q.1 n' c').1 ≠ p.1 := by
    rw [opening]
    split
    · exact separate.parts q first p last _ _ _ _ mixed' mixed texts' texts alike
    · have nodup := separate.distinct
      rw [map_append, nodup_append] at nodup
      exact nodup.2.2 _ (mem_map_of_mem old) _ (by simp)
  have kept : (opening known q.1 n' c').1 = jointText n → (opening known q.1 n' c').2 = [] := by
    rw [opening]
    split
    · exact fun _ => rfl
    · intro named
      exact absurd named.symm
        (separate.parts p last q first _ _ _ _ mixed mixed' texts texts' (sameNames_symm alike))
  obtain ⟨rest', entered⟩ := enter_cons known c rest different kept
  exact ⟨q, n', c', rest', found, mixed', by rw [eq, entered]⟩

/-- A group that the new interaction is entered in, or that it opens. -/
structure Entered (known : String → Bool) (done : List (String × TermShape))
    (p : String × TermShape) (n c : List Literal) (g : List Literal × CodingGroup) : Prop where
  part : sameNames g.1 n = true
  named : p.1 ∈ g.2.map (·.1)
  begins : ∃ q n' c' rest, (done ++ [p]).find? (hasPart g.1) = some q ∧ q.2.parts? = some (n', c') ∧
    g.2 = opening known q.1 n' c' :: rest
  entries : ∀ t ∈ g.2, ∃ q ∈ done ++ [p], ∃ n' c', q.2.parts? = some (n', c') ∧
    sameNames g.1 n' = true ∧ (t = (q.1, c') ∨ t = (jointText n', []))

lemma Grouped.opened (none : ∀ g ∈ groups, sameNames g.1 n = false) :
    Entered known done p n c (n, enter known p.1 n c []) where
  part := texts.sameNames_self
  named := mem_keys_enter (.inl rfl)
  begins := by
    have last : p ∈ done ++ [p] := by simp
    obtain ⟨rest, eq⟩ := enter_nil known c
      (separate.parts p last p last _ _ _ _ mixed mixed texts texts texts.sameNames_self)
    refine ⟨p, n, c, rest, ?_, mixed, eq⟩
    rw [find?_append, held.not_hasPart none]
    have own : hasPart n p := hasPart_iff.mpr ⟨n, c, mixed, texts.sameNames_self⟩
    simp [own]
  entries := by
    intro t mem
    rcases mem_enter mem with own | part | old
    · exact ⟨p, by simp, n, c, mixed, texts.sameNames_self, .inl own⟩
    · exact ⟨p, by simp, n, c, mixed, texts.sameNames_self, .inr part⟩
    · cases old

lemma Grouped.extended (mem : g ∈ groups) (same : sameNames g.1 n) :
    Entered known done p n c (g.1, enter known p.1 n c g.2) where
  part := same
  named := mem_keys_enter (.inl rfl)
  begins := by
    obtain ⟨q, n', c', rest, found, mixed', eq⟩ := held.enter_begins separate mixed texts mem same
    exact ⟨q, n', c', rest, by simp [find?_append, found], mixed', eq⟩
  entries := by
    intro t inside
    rcases mem_enter inside with own | part | old
    · exact ⟨p, by simp, n, c, mixed, same, .inl own⟩
    · exact ⟨p, by simp, n, c, mixed, same, .inr part⟩
    · obtain ⟨q, among, rest⟩ := held.entries g mem t old
      exact ⟨q, mem_append_left _ among, rest⟩

/-- One more interaction: one group is opened or extended, and the others stay. -/
lemma Grouped.enters :
    Grouped known (done ++ [p]) (updateGroup n (enter known p.1 n c) groups) := by
  -- the group of the interaction is among groups that were there before
  obtain ⟨g, mem, own, others, kept⟩ : ∃ g ∈ updateGroup n (enter known p.1 n c) groups,
      Entered known done p n c g ∧
      (∀ h ∈ updateGroup n (enter known p.1 n c) groups, h = g ∨ h ∈ groups) ∧
      ∀ h ∈ groups, h ∈ updateGroup n (enter known p.1 n c) groups ∨
        h.1 = g.1 ∧ h.2.map (·.1) ⊆ g.2.map (·.1) := by
    rcases updateGroup_cases n (enter known p.1 n c) groups with
      ⟨none, eq⟩ | ⟨before, g, after, rfl, same, eq⟩
    · rw [eq]
      refine ⟨_, by simp, held.opened separate mixed texts none, ?_, ?_⟩
      · simp [or_comm]
      · exact fun h mem => .inl (mem_append_left _ mem)
    · rw [eq]
      refine ⟨_, by simp, held.extended separate mixed texts (by simp) same, ?_, ?_⟩
      · intro h mem
        simp only [mem_append, mem_cons] at mem ⊢
        grind
      · intro h mem
        simp only [mem_append, mem_cons] at mem ⊢
        rcases mem with early | rfl | late
        · exact .inl (.inl early)
        · exact .inr ⟨rfl, fun k inside => mem_keys_enter (.inr inside)⟩
        · exact .inl (.inr (.inr late))
  refine ⟨?_, ?_, ?_, ?_⟩
  · intro q mem n' c' mixed'
    rcases mem_append.mp mem with old | new
    · exact held.texts q old n' c' mixed'
    · obtain rfl := mem_singleton.mp new
      rw [mixed] at mixed'
      cases mixed'
      exact texts
  · intro h mem
    rcases others h mem with rfl | old
    · exact own.begins
    · obtain ⟨q, n', c', rest, found, rest'⟩ := held.begins h old
      exact ⟨q, n', c', rest, by simp [find?_append, found], rest'⟩
  · intro h mem t inside
    rcases others h mem with rfl | old
    · exact own.entries t inside
    · obtain ⟨q, among, rest⟩ := held.entries h old t inside
      exact ⟨q, mem_append_left _ among, rest⟩
  · intro q among n' c' mixed'
    rcases mem_append.mp among with old | new
    · obtain ⟨h, inside, same, named⟩ := held.covers q old n' c' mixed'
      rcases kept h inside with stays | ⟨eq, keys⟩
      · exact ⟨h, stays, same, named⟩
      · exact ⟨g, mem, eq ▸ same, keys named⟩
    · obtain rfl := mem_singleton.mp new
      rw [mixed] at mixed'
      cases mixed'
      exact ⟨g, mem, own.part, own.named⟩

end

end Step

lemma Separate.sublist {shapes done : List (String × TermShape)} (separate : Separate shapes)
    (inside : done.Sublist shapes) : Separate done where
  distinct := separate.distinct.sublist (inside.map _)
  parts p first q last := separate.parts p (inside.subset first) q (inside.subset last)

lemma grouped_numericGroups {shapes : List (String × TermShape)} (separate : Separate shapes)
    {groups : List (List Literal × CodingGroup)} (grouped : numericGroups shapes = .ok groups) :
    Grouped (fun k => shapes.any (·.1 == k)) shapes groups := by
  refine numericGroups_induction ?_ ?_ ?_ grouped
  · constructor <;> simp
  · intro done p groups plain held
    exact held.pass plain
  · intro done p groups n c inside mixed texts held
    exact held.enters (separate.sublist inside.sublist) mixed texts

/-!
### Numeric parts of interactions

Only what a group begins with can be coded in full. So an interaction has a reduced factor in each
coding if the model has a term of its numeric components in the same order.
-/

variable {p : String × TermShape} {t : Term}

/-! ### Models -/

lemma separate_shapes (σ : Store) (m : Model) : Separate (shapes σ m) where
  distinct := by
    rw [shapes_eq, map_map]
    exact nodup_byName m
  parts := by
    intro p first q last n c n' c' mixed mixed' texts texts' same named
    have apart : ∀ r ∈ shapes σ m, ∀ n c, r.2.parts? = some (n, c) → NamesApart n := by
      intro r mem n c mixed
      obtain ⟨kinds, eq, rfl, _⟩ := TermShape.parts?_eq_some.mp mixed
      have own := apart_shapes r mem
      rw [eq] at own
      exact own.sublist (filter_sublist.map _)
    have room := room_of_sameNames texts texts' (apart p first n c mixed) (apart q last n' c' mixed')
      same
    have some : n.map Literal.plain ≠ [] := by
      obtain ⟨_, _, _, _, some, _⟩ := TermShape.parts?_eq_some.mp mixed
      simpa using some
    rw [shapes_eq] at last
    obtain ⟨e, own, rfl⟩ := mem_map.mp last
    have less := room_numeric_lt mixed'
    rw [(mem_common_of_byName own).2, ← room, ← length_intercalate some, ← jointText] at less
    rw [show jointText n = e.1 from named] at less
    omega

section Mixed

variable {σ : Store} {m : Model} {cs : Codings} {early late : List (String × TermShape)}

lemma eq_of_name (own : (name, s) ∈ shapes σ m) (mem : p ∈ shapes σ m)
    (named : p.1 = name) : p = (name, s) :=
  inj_on_of_nodup_map (separate_shapes σ m).distinct mem own named

lemma parts_of_name (own : (name, s) ∈ shapes σ m) (mixed : s.parts? = some (n, c))
    (mem : p ∈ shapes σ m) (named : p.1 = name) (mixed' : p.2.parts? = some (n', c')) :
    n' = n ∧ c' = c := by
  rw [eq_of_name own mem named, mixed] at mixed'
  cases mixed'
  exact ⟨rfl, rfl⟩

lemma not_mem_categoricGroup (own : (name, s) ∈ shapes σ m) (mixed : s.parts? = some (n, c)) :
    name ∉ (categoricGroup (shapes σ m)).map (·.1) := by
  intro mem
  obtain ⟨t, inside, rfl⟩ := mem_map.mp mem
  obtain ⟨⟨name', s'⟩, among, entry⟩ := mem_filterMap.mp inside
  obtain ⟨kinds, rfl, rfl, _, numeric, _⟩ := TermShape.parts?_eq_some.mp mixed
  obtain ⟨x, own'⟩ := exists_mem_of_ne_nil _ numeric
  obtain ⟨q, filtered, _⟩ := mem_map.mp own'
  obtain ⟨listed, kind⟩ := mem_filter.mp filtered
  dsimp only at entry
  split at entry
  · cases entry
    cases eq_of_name own among rfl
  · cases entry
    cases eq_of_name own among rfl
  · cases entry
  · split at entry
    next all =>
      cases entry
      cases eq_of_name own among rfl
      have contrary := all_eq_true.mp all q listed
      rw [beq_iff_eq.mp kind] at contrary
      exact absurd contrary (by decide)
    next => cases entry

/-- A name that decides an interaction with a numeric part does so in the group of some such part. -/
lemma decides_of_mixed (coded : codings σ m = .ok cs) (own : (name, s) ∈ shapes σ m)
    (mixed : s.parts? = some (n, c)) :
    ∃ groups, Grouped (fun k => (shapes σ m).any (·.1 == k)) (shapes σ m) groups ∧
      codingGroups σ m = .ok (categoricGroup (shapes σ m) :: groups.map (·.2)) ∧
      (∃ front factors,
        Decides (categoricGroup (shapes σ m) :: groups.map (·.2)) name front factors) ∧
      ∀ front factors,
        Decides (categoricGroup (shapes σ m) :: groups.map (·.2)) name front factors →
          ∃ g ∈ groups, ∃ back, g.2 = front ++ (name, factors) :: back := by
  obtain ⟨all, grouped, _⟩ := bind_eq_ok.mp coded
  obtain ⟨groups, numeric, eq⟩ := bind_eq_ok.mp grouped
  cases eq
  have held := grouped_numericGroups (separate_shapes σ m) numeric
  refine ⟨groups, held, grouped, ?_, ?_⟩
  · obtain ⟨g, mem, _, named⟩ := held.covers _ own n c mixed
    exact exists_decides ⟨g.2, mem_cons_of_mem _ (mem_map_of_mem mem), named⟩
  · rintro front factors ⟨before, back, after, eq, _⟩
    have inside : front ++ (name, factors) :: back ∈
        categoricGroup (shapes σ m) :: groups.map (·.2) := by simp [eq]
    rcases mem_cons.mp inside with first | later
    · refine absurd ?_ (not_mem_categoricGroup own mixed)
      rw [← first]
      simp
    · obtain ⟨g, mem, eq⟩ := mem_map.mp later
      exact ⟨g, mem, back, eq⟩

/-- What comes after another interaction with its part is not the first that has it. -/
lemma placed_late (placed : shapes σ m = early ++ (name, s) :: late)
    (mixed : s.parts? = some (n, c)) (own : hasPart names (name, s)) (before : p ∈ early)
    (part : hasPart n p) : (shapes σ m).find? (hasPart names) ≠ some (name, s) := by
  obtain ⟨n', c', mixed', same⟩ := hasPart_iff.mp part
  obtain ⟨_, _, again, same'⟩ := hasPart_iff.mp own
  rw [mixed] at again
  cases again
  have also : hasPart names p := hasPart_iff.mpr ⟨n', c', mixed', sameNames_trans same' same⟩
  intro found
  have nodup := (separate_shapes σ m).distinct
  rw [placed, map_append, nodup_append] at nodup
  cases earlier : early.find? (hasPart names) with
  | none => exact find?_eq_none.mp earlier p before also
  | some q =>
    rw [placed, find?_append, earlier, Option.some_or] at found
    cases found
    exact nodup.2.2 name (mem_map_of_mem (mem_of_find?_eq_some earlier)) name (by simp) rfl

/-- Whatever comes after the beginning of its group has a reduced factor in each coding. -/
lemma exists_not_spans_of_begun (coded : codings σ m = .ok cs)
    (placed : shapes σ m = early ++ (name, s) :: late) (mixed : s.parts? = some (n, c))
    (begun : jointText n ∈ (shapes σ m).map (·.1) ∨ ∃ p ∈ early, hasPart n p) :
    ∃ codings, codingsOf? cs name = some codings ∧ ∀ d ∈ codings, ∃ x ∈ c, d.spans x = false := by
  have := Literal.partialEquiv
  have own : (name, s) ∈ shapes σ m := by simp [placed]
  obtain ⟨groups, held, grouped, ⟨front, factors, decides⟩, inGroup⟩ :=
    decides_of_mixed coded own mixed
  obtain ⟨merged, lookup, merges⟩ := codingsOf?_of_decides grouped coded decides
  refine ⟨_, lookup, ?_⟩
  rw [forall_mem_map]
  obtain ⟨g, mem, back, eq⟩ := inGroup front factors decides
  have apart := apart_codingGroups grouped g.2 (mem_cons_of_mem _ (mem_map_of_mem mem))
  rw [eq] at apart
  cases front with
  | nil =>
    obtain ⟨q, n', c', rest, found, mixed', opens⟩ := held.begins g mem
    have among : q ∈ shapes σ m := mem_of_find?_eq_some found
    rw [eq, nil_append, opening] at opens
    split at opens
    next =>
      -- the interaction is itself named like the numeric part that the group begins with
      obtain ⟨⟨_, rfl⟩, _⟩ : (name = _ ∧ factors = []) ∧ _ := by simpa using opens
      obtain ⟨_, _, _, _, _, some⟩ := TermShape.parts?_eq_some.mp mixed
      obtain ⟨x, inside⟩ := exists_mem_of_ne_nil c some
      exact fun d merged => ⟨x, inside, Coding.spans_of_no_factors merges d merged x⟩
    next unknown =>
      obtain ⟨⟨rfl, _⟩, _⟩ : (name = q.1 ∧ factors = c') ∧ _ := by simpa using opens
      have itself := eq_of_name own among rfl
      obtain ⟨rfl, rfl⟩ := parts_of_name own mixed among rfl mixed'
      rcases begun with known | ⟨p, first, part⟩
      · obtain ⟨r, inside, named⟩ := mem_map.mp known
        exact absurd (any_eq_true.mpr ⟨r, inside, by simp [named]⟩) unknown
      · rw [itself] at found
        exact absurd found (placed_late placed mixed (find?_some found) first part)
  | cons t front =>
    have reduced := Coding.exists_not_spans (fun u first => apart u (mem_append_left _ first))
      (apart (name, factors) (by simp)) (by simp) merges
    intro d inside
    obtain ⟨x, among, spans⟩ := reduced d inside
    refine ⟨x, ?_, spans⟩
    obtain ⟨p, inside, n', c', mixed', _, entry | entry⟩ :=
      held.entries g mem (name, factors) (by simp [eq])
    · obtain ⟨rfl, rfl⟩ := Prod.mk.inj entry
      exact (parts_of_name own mixed inside rfl mixed').2 ▸ among
    · obtain ⟨_, rfl⟩ := Prod.mk.inj entry
      cases among

end Mixed

/-! ### Terms of the numeric part -/

/-- The term has codings, each with one of the factors reduced. -/
def Codings.Reduces (cs : Codings) (name : String) (factors : List Literal) : Prop :=
  ∃ codings, codingsOf? cs name = some codings ∧ ∀ d ∈ codings, ∃ x ∈ factors, d.spans x = false

lemma mem_names_shapes : k ∈ (shapes σ m).map (·.1) ↔ ∃ e ∈ m.common, e.name = k := by
  rw [shapes_eq, map_map]
  have keys := mem_keys_foldl_assign (n := k) m.common []
  simpa [byName] using keys

lemma shapes_split (placed : m.byName = early ++ (t.name, .term t) :: late) :
    shapes σ m = (early.map fun p => (p.1, shape σ p.2)) ++
      (t.name, shape σ (.term t)) :: late.map fun p => (p.1, shape σ p.2) := by
  rw [shapes_eq, placed, map_append, map_cons]

/-- The codings of an interaction with numeric and categoric components. Each of them reduces a
categoric component if the model has a term of the numeric components in their order, or any effect
that is named like one, or if an earlier interaction has the same numeric components in any order. -/
theorem codings_of_mixed {σ : Store} {m : Model} {cs : Codings} (coded : codings σ m = .ok cs)
    {t : Term} {early late : List (String × Effect)}
    (placed : m.byName = early ++ (t.name, .term t) :: late) {numeric categoric : List Literal}
    (mixed : (shape σ (.term t)).parts? = some (numeric, categoric))
    (begun : (∃ u, .term u ∈ m.common ∧ u.components.map (·.name) = numeric) ∨
      (∃ e ∈ m.common, e.name = jointText numeric) ∨
      ∃ p ∈ early, ∃ n c, (shape σ p.2).parts? = some (n, c) ∧ sameNames numeric n = true) :
    cs.Reduces t.name categoric := by
  apply exists_not_spans_of_begun coded (shapes_split placed) mixed
  rcases begun with ⟨u, member, rfl⟩ | known | ⟨p, before, n, c, mixed', same⟩
  · have named : (Effect.term u).name = jointText (u.components.map (·.name)) := by
      simp [jointText, Effect.name, Term.name, Function.comp_def]
    exact .inl (mem_names_shapes.mpr ⟨.term u, member, named⟩)
  · exact .inl (mem_names_shapes.mpr known)
  · exact .inr ⟨_, mem_map_of_mem before, hasPart_iff.mpr ⟨n, c, mixed', same⟩⟩

/-- An interaction of two variables and a factor. -/
def pairWithFactor (first second : String) : Term :=
  ⟨8, [⟨2, .variable (.text first) none⟩, ⟨3, .variable (.text second) none⟩,
    ⟨4, .variable (.text "g") none⟩]⟩

/-- The model of `0 + x:z + z:x:g`, or with the variables in another order in the interaction. -/
def pairThenInteraction (first second : String) : Model where
  common := [.term ⟨3, [⟨0, .variable (.text "x") none⟩, ⟨1, .variable (.text "z") none⟩]⟩,
    .term (pairWithFactor first second)]

/-- The factor of `x:z:g` is reduced beside `x:z`. -/
theorem codings_pairThenInteraction :
    let numeric : Component.State := { kind := some .numeric }
    let σ : Store :=
      { components := #[numeric, numeric, numeric, numeric, { kind := some .categoric }]
        parts := Array.replicate 9 { kind := some .interaction } }
    ∃ cs, codings σ (pairThenInteraction "x" "z") = .ok cs ∧ cs.Reduces "x:z:g" [.text "g"] := by
  intro numeric σ
  have ok : (codings σ (pairThenInteraction "x" "z")).isOk := by decide +kernel
  cases done : codings σ (pairThenInteraction "x" "z") with
  | error => simp [done, Except.isOk, Except.toBool] at ok
  | ok cs =>
    exact ⟨cs, rfl, @codings_of_mixed σ _ cs done (pairWithFactor "x" "z") [("x:z", _)] [] (by cbv)
      [.text "x", .text "z"] [.text "g"] (by cbv) (.inl ⟨_, mem_cons_self, by cbv⟩)⟩

end ModelFormula.Model

namespace ModelFormula.Design

open List Model

set_option maxRecDepth 100000 in
/-- Beside the term `x:z` of its numeric components the interaction `z:x:g` is coded in full. -/
theorem reversed_pair_spans :
    let m := pairThenInteraction "z" "x"
    let f : Frame := ⟨3, [(.text "x", ⟨.plain .int, [.int 1, .int 2, .int 3]⟩),
      (.text "z", ⟨.plain .int, [.int 1, .int 3, .int 5]⟩),
      (.text "g", ⟨.plain .object, [.text "p", .text "q", .text "p"]⟩)]⟩
    ∃ σ τ cs u t n c, Ends (Operand.ofFormula "0 + x:z + z:x:g") {} (.model m) σ ∧
      Ends (m.setKinds (.frame f) ⟨[]⟩) σ () τ ∧ codings τ m = .ok cs ∧
      .term u ∈ m.common ∧ .term t ∈ m.common ∧ (shape τ (.term t)).parts? = some (n, c) ∧
      (u.components.map (·.name)).Perm n ∧
      ∃ d ∈ (codingsOf? cs t.name).getD [], ∀ x ∈ c, d.spans x = true := by
  intro m f
  have resolved : Ends (Operand.ofFormula "0 + x:z + z:x:g") {}
      (.model (pairThenInteraction "z" "x")) (untouched 5 9) := by
    unfold Ends
    cbv
  let coded : Fit Codings := do
    m.setKinds (.frame f) ⟨[]⟩
    Fit.withStore fun σ => codings σ m
  obtain ⟨cs, τ, ends, view⟩ := @exists_ends_store Store Codings
    (Option (List Literal × List Literal) × Option (List (Coding.Flags Literal)))
    coded (untouched 5 9)
    (fun cs τ => ((shape τ (.term (pairWithFactor "z" "x"))).parts?, codingsOf? cs "z:x:g"))
    (some ([.text "z", .text "x"], [.text "g"]), some [[(.text "g", true)]])
    (by cbv)
  obtain ⟨mixed, found⟩ := Prod.mk.inj view
  obtain ⟨_, σ₁, typing, ends⟩ := ends_bind.mp ends
  obtain ⟨done, rfl⟩ := ends_withStore.mp ends
  refine ⟨_, σ₁, cs, _, pairWithFactor "z" "x", _, _, resolved, typing, done, mem_cons_self,
    by simp [m, pairThenInteraction], mixed, Perm.swap _ _ _, [(.text "g", true)], ?_, ?_⟩
  · have named : (pairWithFactor "z" "x").name = "z:x:g" := by cbv
    rw [named, found]
    exact mem_singleton_self _
  · decide

end ModelFormula.Design
