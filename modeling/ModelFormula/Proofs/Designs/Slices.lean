import ModelFormula.Proofs.Algebra.TermNames
import ModelFormula.Proofs.Designs.ColumnProducts

/-!
# Slices of design matrices

The matrix is stacked at once and the slices are counted beside it. Both follow the order of the
parts: the slices tile the columns of the matrix, and each of them selects the data of the part whose
name it has.
-/
namespace ModelFormula

open List

/-- The columns of a block from left to right. -/
def Block.columnList (b : Block) : List (List Datum) := (b.matrix?.map Matrix.columnList).getD []

namespace Block

variable {α : Type} {b : Block}

lemma columnList_of_matrix? (shape : b.matrix? = some m) (sort : CellType) :
    (b.convertTo sort).columnList = m.columnList.map (·.map (convert sort)) := by
  rw [columnList, matrix?_convertTo shape, Option.map_some, Option.getD_some, Matrix.columnList_map]

lemma Regular.columnCount_convertTo (regular : b.Regular) (sort : CellType) :
    DesignMatrix.columnCount b = (b.convertTo sort).columnList.length := by
  obtain ⟨m, shape, _⟩ := regular.rows
  rw [columnList_of_matrix? shape, ← stacked_width (stacked_of_matrix? shape), length_map,
    Matrix.columnList, length_map, length_range]

/-- Cells that are of a sort already stay as they are. -/
lemma Regular.columnList_convertTo {sort : CellType} (regular : b.Regular)
    (own : b.cellType = sort) (other : sort ≠ .text) :
    (b.convertTo sort).columnList = b.columnList := by
  obtain ⟨m, shape, _, cells⟩ := regular.rows
  rw [columnList_of_matrix? shape, columnList, shape, Option.map_some, Option.getD_some]
  conv_rhs => rw [← map_id m.columnList]
  refine map_congr_left fun xs column => ?_
  conv_rhs => rw [id_eq, ← map_id xs]
  subst own
  exact map_congr_left fun x cell => (cells xs column x cell).convert_self other

/-- Of numbers only a large whole number is changed by a conversion. -/
lemma convert_same {sort : CellType} (other : sort ≠ .text)
    (small : ∀ n, x = .int n → n.natAbs ≤ 2 ^ 53) : x = convert sort x ∨ x == convert sort x := by
  cases sort with
  | text => exact absurd rfl other
  | bool | object => exact .inl rfl
  | int =>
    cases x with
    | bool b => exact .inr (beq_self_eq_true (Datum.ofBool b))
    | _ => exact .inl rfl
  | float =>
    cases x with
    | bool b => exact .inr (by cases b <;> decide +kernel)
    | int n => exact .inr (Decimal.intEqFloat_ofInt (small n rfl))
    | _ => exact .inl rfl

/-- Converted columns have the same values, as long as whole numbers are small. -/
lemma Regular.columnList_same {sort : CellType} (regular : b.Regular) (other : sort ≠ .text)
    (small : ∀ xs ∈ b.columnList, ∀ n, .int n ∈ xs → n.natAbs ≤ 2 ^ 53) :
    Forall₂ (Forall₂ fun x y => x = y ∨ x == y) b.columnList (b.convertTo sort).columnList := by
  obtain ⟨m, shape, _⟩ := regular.rows
  have own : b.columnList = m.columnList := by rw [columnList, shape, Option.map_some, Option.getD_some]
  rw [columnList_of_matrix? shape, ← own, forall₂_map_right_iff, forall₂_same]
  intro xs column
  rw [forall₂_map_right_iff, forall₂_same]
  exact fun x cell => convert_same other fun n whole => small xs column n (whole ▸ cell)

lemma height_of_length? (shape : b.matrix? = some m) (rows : b.grid.length? = some h) :
    m.height = h := by
  obtain ⟨d, grid⟩ := b
  cases grid with
  | vector xs =>
    cases shape
    simpa [Grid.length?, Grid.shape, Matrix.ofVector, Matrix.height] using rows
  | matrix m' =>
    cases shape
    simpa [Grid.length?, Grid.shape] using rows
  | deep => cases shape

/-- Blocks of one height can be stacked, and the stack has all their columns in order. -/
lemma stack_columns {items : List α} {data : α → Block} (some : items ≠ [])
    (regular : ∀ p ∈ items, (data p).Regular) (rows : ∀ p ∈ items, (data p).grid.length? = .some h) :
    ∃ m, stack (items.map data) = .ok ⟨joinAll (items.map data), .matrix m⟩ ∧ m.Rectangular ∧
      m.height = h ∧ m.columnList =
        items.flatMap fun p => ((data p).convertTo (joinAll (items.map data))).columnList := by
  choose! rowsOf shape held _ using fun p mem => (regular p mem).rows
  have tall (p) (mem : p ∈ items) := height_of_length? (shape p mem) (rows p mem)
  obtain ⟨p, items, rfl⟩ := exists_cons_of_ne_nil some
  refine ⟨_, stack_eq shape tall, ?_⟩
  generalize joinAll ((p :: items).map data) = sort
  have converted (q) (mem : q ∈ p :: items) : ((rowsOf q).map (convert sort)).Rectangular ∧
      ((rowsOf q).map (convert sort)).height = h :=
    ⟨(held q mem).map, by simpa [Matrix.height, Matrix.map] using tall q mem⟩
  obtain ⟨first, height⟩ := converted p mem_cons_self
  have others : ∀ n ∈ items.map fun q => (rowsOf q).map (convert sort),
      n.Rectangular ∧ n.height = ((rowsOf p).map (convert sort)).height := by
    rw [forall_mem_map, height]
    exact fun q mem => converted q (mem_cons_of_mem p mem)
  obtain ⟨rectangular, tall, columns⟩ := Matrix.foldl_beside first others
  refine ⟨rectangular, tall.trans height, ?_⟩
  have own (q) (mem : q ∈ p :: items) : ((data q).convertTo sort).columnList =
      ((rowsOf q).map (convert sort)).columnList := by
    rw [columnList_of_matrix? (shape q mem), Matrix.columnList_map]
  rw [columns, flatMap_map, flatMap_congr own, flatMap_cons]

end Block

/-- Each slice begins where the one before it ends, the first and the last at the given places. -/
def Slice.Tile : Nat → List Slice → Nat → Prop
  | start, [], stop => start = stop
  | start, s :: rest, stop => s.start = start ∧ s.start ≤ s.stop ∧ Tile s.stop rest stop

namespace Slice.Tile

variable {start stop j : Nat}

lemma bounds (tile : Tile start slices stop) :
    start ≤ stop ∧ ∀ s ∈ slices, start ≤ s.start ∧ s.stop ≤ stop := by
  induction slices generalizing start with
  | nil => exact ⟨Nat.le_of_eq tile, by simp⟩
  | cons s slices ih =>
    obtain ⟨rfl, proper, rest⟩ := tile
    obtain ⟨ordered, inside⟩ := ih rest
    refine ⟨proper.trans ordered, forall_mem_cons.mpr ⟨⟨Nat.le_refl _, ordered⟩, ?_⟩⟩
    exact fun u mem => ⟨proper.trans (inside u mem).1, (inside u mem).2⟩

/-- Every place belongs to one slice. -/
lemma existsUnique (tile : Tile start slices stop) (first : start ≤ j) (last : j < stop) :
    ∃! s, s ∈ slices ∧ s.start ≤ j ∧ j < s.stop := by
  induction slices generalizing start with
  | nil =>
    have : start = stop := tile
    omega
  | cons s slices ih =>
    obtain ⟨rfl, _, rest⟩ := tile
    by_cases here : j < s.stop
    · refine ⟨s, ⟨mem_cons_self, first, here⟩, ?_⟩
      rintro u ⟨mem, after, _⟩
      rcases mem_cons.mp mem with rfl | later
      · rfl
      · have := rest.bounds.2 u later
        omega
    · obtain ⟨u, ⟨mem, inside⟩, unique⟩ := ih rest (Nat.le_of_not_lt here)
      refine ⟨u, ⟨mem_cons_of_mem s mem, inside⟩, ?_⟩
      rintro v ⟨mem', inside'⟩
      rcases mem_cons.mp mem' with rfl | later
      · exact absurd inside'.2 here
      · exact unique v ⟨later, inside'⟩

end Slice.Tile

namespace DesignMatrix

variable {parts : List Part} {σ : Store} {h : Nat} {name : Part → String}

section Slices

variable {α β : Type} (key : α → String) (columns : α → List β)

lemma tile_slicesFrom (start : Nat) (items : List α) :
    Slice.Tile start (slicesFrom start (items.map fun p => (key p, (columns p).length)))
      (start + (items.flatMap columns).length) := by
  induction items generalizing start with
  | nil => simp [slicesFrom, Slice.Tile]
  | cons p items ih =>
    refine ⟨rfl, Nat.le_add_right _ _, ?_⟩
    rw [flatMap_cons, length_append, ← Nat.add_assoc]
    exact ih _

/-- A slice that is found by its name selects the columns of the item of that name. -/
lemma find?_slicesFrom {items : List α} (nodup : (items.map key).Nodup) {p : α}
    (mem : p ∈ items) (before : List β) :
    ∃ s, (slicesFrom before.length (items.map fun p => (key p, (columns p).length))).find?
        (·.name == key p) = some s ∧
      ((before ++ items.flatMap columns).take s.stop).drop s.start = columns p := by
  induction items generalizing before with
  | nil => cases mem
  | cons q items ih =>
    obtain ⟨fresh, nodup⟩ := nodup_cons.mp nodup
    rw [map_cons, slicesFrom, flatMap_cons]
    rcases mem_cons.mp mem with rfl | later
    · refine ⟨_, find?_cons_of_pos (by simp), ?_⟩
      rw [← append_assoc, take_left' (by simp), drop_left]
    · have other : key q ≠ key p := fun same => fresh (same ▸ mem_map_of_mem later)
      obtain ⟨s, found, selected⟩ := ih nodup later (before ++ columns q)
      rw [length_append] at found
      rw [append_assoc] at selected
      exact ⟨s, by rwa [find?_cons_of_neg (by simpa using other)], selected⟩

end Slices

lemma ofParts_eq (named : ∀ p ∈ parts, p.name = .ok (name p)) (nodup : (parts.map name).Nodup) :
    ofParts parts = .ok { parts := parts.map fun p => (name p, p) } := by
  have mapped : parts.mapM (fun p => do return (← p.name, p)) =
      (.ok (parts.map fun p => (name p, p)) : Except Fault _) := by
    apply mapM_eq_map
    intro p mem
    rw [named p mem]
    rfl
  have apart : (parts.map fun p => (name p, p)).Pairwise fun p q => (p.1 == q.1) = false := by
    rw [pairwise_map]
    exact (pairwise_map.mp nodup).imp fun different => by simpa using different
  have bound := Model.foldl_assign_of_fresh (parts.map fun p => (name p, p)) [] (by simpa using apart)
  rw [ofParts, mapped]
  simpa [ok_bind, pure_ok] using bound

lemma evaluate_eq (known : ∀ p ∈ parts, p.data? σ = .ok (some (data p)))
    (stacked : Block.stack (parts.map data) = .ok b) :
    evaluate { parts := parts.map fun p => (name p, p) } σ =
      .ok { parts := parts.map fun p => (name p, p)
            slices := slicesFrom 0 (parts.map fun p => (name p, columnCount (data p)))
            matrix := some b } := by
  have mapped : List.Forall₂ (fun (q : String × Part) (r : String × Block) =>
      q.2.data? σ = .ok (some r.2) ∧ q.1 = r.1) (parts.map fun p => (name p, p))
      (parts.map fun p => (name p, data p)) := by
    rw [forall₂_map_left_iff, forall₂_map_right_iff, forall₂_same]
    exact fun p mem => ⟨known p mem, rfl⟩
  refine bind_eq_ok.mpr ⟨parts.map fun p => (name p, data p), (mapM_ok_iff _ _ _).mpr ?_,
    bind_eq_ok.mpr ⟨b, ?_, ?_⟩⟩
  · apply mapped.imp
    rintro ⟨n, q⟩ ⟨n', c⟩ ⟨found, rfl⟩
    simp only at found
    simp [found, ok_bind, pure_ok]
  · simpa [map_map, Function.comp_def] using stacked
  · simp [pure_ok, Function.comp_def]

/-- A list of parts that are evaluated, with names of their own and as many rows each, makes a matrix
as long as it is not empty. The slices tile its columns, so that each column belongs to one of them;
and the slice of a name selects the data of the part of that name, in the sort of the matrix. Data
that are of that sort already are selected as they are, and others with the same values, as long as
whole numbers are exactly fractions. -/
theorem evaluate_tiles {data : Part → Block} (named : ∀ p ∈ parts, p.name = .ok (name p))
    (distinct : (parts.map name).Nodup) (known : ∀ p ∈ parts, p.data? σ = .ok (some (data p)))
    (regular : ∀ p ∈ parts, (data p).Regular)
    (rows : ∀ p ∈ parts, (data p).grid.length? = some h) :
    ∃ d, ofParts parts = .ok d ∧ (parts = [] → d.evaluate σ = .error .badValue) ∧
      (parts ≠ [] → ∃ d' sort m, d.evaluate σ = .ok d' ∧ d'.matrix = some ⟨sort, .matrix m⟩ ∧
        m.Rectangular ∧ m.height = h ∧ d'.slices.map Slice.name = parts.map name ∧
        Slice.Tile 0 d'.slices m.width ∧
        (∀ j < m.width, ∃! s, s ∈ d'.slices ∧ s.start ≤ j ∧ j < s.stop) ∧
        ∀ p ∈ parts, ∃ s, d'.slices.find? (·.name == name p) = some s ∧
          (m.columnList.take s.stop).drop s.start = ((data p).convertTo sort).columnList ∧
          ((data p).cellType = sort → sort ≠ .text →
            (m.columnList.take s.stop).drop s.start = (data p).columnList) ∧
          (sort ≠ .text → (∀ xs ∈ (data p).columnList, ∀ n, .int n ∈ xs → n.natAbs ≤ 2 ^ 53) →
            Forall₂ (Forall₂ fun x y => x = y ∨ (x == y) = true) (data p).columnList
              ((m.columnList.take s.stop).drop s.start))) := by
  refine ⟨_, ofParts_eq named distinct, ?_, fun some => ?_⟩
  · rintro rfl
    rfl
  obtain ⟨sort, chosen⟩ : ∃ sort, sort = Block.joinAll (parts.map data) := ⟨_, rfl⟩
  obtain ⟨m, stacked, held, tall, columns⟩ := Block.stack_columns some regular rows
  have widths : parts.map (fun p => (name p, columnCount (data p))) =
      parts.map fun p => (name p, ((data p).convertTo sort).columnList.length) :=
    map_congr_left fun p member => by rw [(regular p member).columnCount_convertTo]
  have width : m.width = (parts.flatMap fun p => ((data p).convertTo sort).columnList).length := by
    rw [chosen, ← columns, Matrix.columnList, length_map, length_range]
  have tile := tile_slicesFrom name (fun p => ((data p).convertTo sort).columnList) 0 parts
  rw [← widths, Nat.zero_add, ← width] at tile
  refine ⟨_, sort, m, evaluate_eq known stacked, by rw [chosen], held, tall, ?_, tile,
    fun j inside => tile.existsUnique (Nat.zero_le j) inside, fun p member => ?_⟩
  · rw [slicesFrom_names, map_map]
    rfl
  · obtain ⟨s, found, selected⟩ := find?_slicesFrom name
      (fun p => ((data p).convertTo sort).columnList) distinct member []
    rw [← widths] at found
    rw [nil_append, chosen, ← columns, ← chosen] at selected
    refine ⟨s, found, selected, ?_⟩
    rw [selected]
    exact ⟨(regular p member).columnList_convertTo, (regular p member).columnList_same⟩

/-- An intercept, a term without columns and a group-specific intercept with two groups. -/
def unevenParts : List Part :=
  [.effect (.intercept 0), .effect (.term ⟨1, [⟨0, .variable (.text "x") none⟩]⟩),
    .group ⟨2, .intercept 3, .term ⟨4, [⟨1, .variable (.text "g") none⟩]⟩⟩]

/-- The data of the parts: a vector and matrices with no column and with two. -/
def unevenData : Part → Block
  | .effect (.intercept _) => ⟨.int, .vector [.int 1, .int 1]⟩
  | .effect _ => ⟨.int, .matrix ⟨0, [[], []]⟩⟩
  | .group _ => ⟨.bool, .matrix ⟨2, [[.bool true, .bool false], [.bool false, .bool true]]⟩⟩

theorem evaluate_tiles_uneven :
    let σ : Store := { parts := (unevenParts.map fun p => { data := some (unevenData p) }).toArray }
    ∃ d d' sort m, ofParts unevenParts = .ok d ∧ d.evaluate σ = .ok d' ∧
      d'.matrix = some ⟨sort, .matrix m⟩ ∧ d'.slices.map Slice.name = ["Intercept", "x", "1|g"] ∧
      Slice.Tile 0 d'.slices m.width ∧ ∃ s, d'.slices.find? (·.name == "1|g") = some s ∧
        (m.columnList.take s.stop).drop s.start =
          ((unevenData (.group default)).convertTo sort).columnList := by
  intro σ
  have some : unevenParts ≠ [] := by decide
  obtain ⟨d, made, _, rest⟩ := @evaluate_tiles unevenParts σ 2 (fun p => p.name.toOption.getD "")
    unevenData (by simp [unevenParts]; exact ⟨rfl, rfl, rfl⟩) (by decide)
    (by simp [unevenParts]; exact ⟨rfl, rfl, rfl⟩) (by simp [unevenParts]; decide)
    (by simp [unevenParts]; decide)
  obtain ⟨d', sort, m, done, matrix, _, _, names, tile, _, selects⟩ := rest some
  obtain ⟨s, found, selected, _⟩ := selects _ (mem_cons_of_mem _ (mem_cons_of_mem _ mem_cons_self))
  exact ⟨d, d', sort, m, made, done, matrix, names, tile, s, found, selected⟩

/-- Beside fractions a whole number of more than 53 digits is selected as another one. -/
theorem evaluate_of_large :
    let part (slot : Nat) (x : String) : Part :=
      .effect (.term ⟨slot, [⟨slot, .variable (.text x) none⟩]⟩)
    let σ : Store := { parts := #[{ data := some ⟨.int, .vector [.int 9007199254740993]⟩ },
      { data := some ⟨.float, .vector [.float 0.5]⟩ }] }
    ∃ d d' m s, ofParts [part 0 "x", part 1 "z"] = .ok d ∧ d.evaluate σ = .ok d' ∧
      d'.matrix = some ⟨.float, .matrix m⟩ ∧ d'.slices.find? (·.name == "x") = some s ∧
      (m.columnList.take s.stop).drop s.start = [[.float 9007199254740992.0]] ∧
      (Datum.int 9007199254740993 == .float 9007199254740992.0) = false := by
  intro part σ
  exact ⟨_, _, _, _, rfl, rfl, rfl, rfl, rfl, by decide +kernel⟩

end DesignMatrix

end ModelFormula
