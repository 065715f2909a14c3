import Mathlib.Data.List.Basic
import Mathlib.Data.Rat.Defs
import RowAlgebra.Exec
import RowAlgebra.Handle.Blocks

/-!
# Rows and how they are put together

Rows come in partitions and in stacks. Rows that are spread are all there, in order, and there is a
partition even if there are no rows (`Collection.rows_spread`, `Collection.partitions_spread_ne_nil`).
Rows of one width make a dense matrix that has them as its rows (`Dense.ofRows?_eq_some`), so they can
be stacked (`Handle.exists_stacked`), and plain rows stay plain in a stack (`Handle.stacked_plain`).
-/

namespace RowAlgebra

variable {α : Type}

theorem mapM_ok {β γ : Type} {f : β → Except Error γ} {g : β → γ} {l : List β}
    (h : ∀ b ∈ l, f b = .ok (g b)) : l.mapM f = .ok (l.map g) := by
  induction l with
  | nil => rfl
  | cons b l ih =>
    obtain ⟨hb, hl⟩ := List.forall_mem_cons.1 h
    rw [List.mapM_cons, hb, ih hl]
    rfl

/-! ## Partitions -/

namespace Collection

theorem mem_rows_of_mem {c : Collection α} {p : List (KeyedRow α)} (hp : p ∈ c.partitions)
    {entry : KeyedRow α} (h : entry ∈ p) : entry ∈ c.rows :=
  List.mem_flatten_of_mem hp h

theorem cut_flatten {β : Type} {sizes : List ℕ} {items : List β} (h : items.length ≤ sizes.sum) :
    (cut sizes items).flatten = items := by
  induction sizes generalizing items with
  | nil => exact (List.length_eq_zero_iff.1 (Nat.le_zero.1 h)).symm
  | cons size sizes ih =>
    rw [List.sum_cons] at h
    rw [cut, List.flatten_cons, ih (by rw [List.length_drop]; omega), List.take_append_drop]

theorem length_cut {β : Type} (sizes : List ℕ) (items : List β) :
    (cut sizes items).length = sizes.length := by
  induction sizes generalizing items with
  | nil => rfl
  | cons size sizes ih => simp [cut, ih]

theorem sum_evenSizes {n k : ℕ} (hk : 0 < k) : (evenSizes n k).sum = n := by
  have hmod := Nat.mod_lt n hk
  have hdiv := Nat.mod_add_div n k
  have hsplit : n % k * (n / k) + (k - n % k) * (n / k) = k * (n / k) := by
    rw [← Nat.add_mul, Nat.add_sub_cancel' hmod.le]
  rw [evenSizes, List.sum_append_nat, List.sum_replicate_nat, List.sum_replicate_nat, Nat.mul_add]
  omega

theorem length_evenSizes (n : ℕ) {k : ℕ} (hk : 0 < k) : (evenSizes n k).length = k := by
  have hmod := Nat.mod_lt n hk
  rw [evenSizes, List.length_append, List.length_replicate, List.length_replicate]
  omega

/-- Parts differ by one item at most, and the larger ones come first. -/
theorem pairwise_evenSizes (n k : ℕ) :
    (evenSizes n k).Pairwise fun size later => later ≤ size ∧ size ≤ later + 1 := by
  rw [evenSizes, List.pairwise_append]
  refine ⟨List.pairwise_replicate.2 (.inr (by omega)), List.pairwise_replicate.2 (.inr (by omega)), ?_⟩
  intro size hsize later hlater
  rw [List.eq_of_mem_replicate hsize, List.eq_of_mem_replicate hlater]
  omega

theorem lengths_cut {β : Type} {sizes : List ℕ} {items : List β} (h : sizes.sum = items.length) :
    (cut sizes items).map List.length = sizes := by
  induction sizes generalizing items with
  | nil => rfl
  | cons size sizes ih =>
    rw [List.sum_cons] at h
    rw [cut, List.map_cons, List.length_take, ih (by rw [List.length_drop]; omega),
      min_eq_left (by omega)]

theorem rows_spread (rows : List (KeyedRow α)) {k : ℕ} (hk : 0 < k) (t : KeyType) :
    (spread rows k t).rows = rows :=
  cut_flatten (sum_evenSizes hk).ge

theorem length_partitions_spread (rows : List (KeyedRow α)) {k : ℕ} (hk : 0 < k) (t : KeyType) :
    (spread rows k t).partitions.length = k :=
  (length_cut _ _).trans (length_evenSizes _ hk)

theorem partitions_spread_ne_nil (rows : List (KeyedRow α)) {k : ℕ} (hk : 0 < k) (t : KeyType) :
    (spread rows k t).partitions ≠ [] := by
  rw [← List.length_pos_iff, length_partitions_spread rows hk]
  exact hk

end Collection

namespace Handle

theorem numbered_eq (first : ℕ) (rows : List (Row α)) :
    numbered first rows = rows.mapIdx fun i row => (.int ↑(first + i), .plain row) := by
  induction rows generalizing first with
  | nil => rfl
  | cons row rows ih =>
    rw [numbered, ih, List.mapIdx_cons]
    congr 1
    exact List.mapIdx_eq_mapIdx_iff.2 fun i _ => by rw [Nat.add_right_comm, Nat.add_assoc]

theorem inRange_int (start stop n : Int) :
    inRange start stop (.int n) = decide (start ≤ n ∧ n < stop) := by
  change ((n : ℚ).den == 1 && decide (start ≤ (n : ℚ).num) && decide ((n : ℚ).num < stop)) = _
  rw [Rat.den_intCast, Rat.num_intCast, beq_self_eq_true, Bool.true_and, Bool.decide_and]

theorem selected_rows (c : Collection α) (start stop : Int) :
    (selected c start stop).rows = (c.rows.filter fun entry => inRange start stop entry.1).map
      fun entry => (rekeyed start entry.1, entry.2) := by
  rw [Collection.rows, Collection.rows, List.filter_flatten, List.map_flatten, List.map_map]
  rfl

end Handle

theorem Row.paired_ok {β γ : Type} {a : Row β} {b : Row γ} (h : a.length = b.length) :
    Row.paired a b = .ok (a.zip b) := by
  unfold paired
  rw [if_pos h]

/-! ## Dense matrices -/

namespace Dense

theorem length_of_mem_rows {m : Dense α} {row : Row α} (h : row ∈ m.rows) : row.length = m.ncol := by
  obtain ⟨v, -, rfl⟩ := List.mem_map.1 h
  simp

theorem length_rows (m : Dense α) : m.rows.length = m.nrow := by
  simp [rows]

theorem ext_rows {m n : Dense α} (hncol : m.ncol = n.ncol) (hrows : m.rows = n.rows) : m = n := by
  have hnrow : m.nrow = n.nrow := by rw [← m.length_rows, hrows, n.length_rows]
  obtain ⟨r, c, cells⟩ := m
  obtain ⟨r', c', cells'⟩ := n
  obtain rfl : c = c' := hncol
  obtain rfl : r = r' := hnrow
  have hcells : cells.toList = cells'.toList :=
    List.map_injective_iff.2 (fun _ _ => Vector.toList_inj.1) hrows
  rw [Vector.toList_inj.1 hcells]

theorem cells_ofFn {r c : ℕ} (f : Fin r → Fin c → α) (i : Fin r) (j : Fin c) :
    (ofFn f).cells[i][j] = f i j := by
  change (Vector.ofFn fun i => Vector.ofFn fun j => f i j)[i.1][j.1] = f i j
  rw [Vector.getElem_ofFn, Vector.getElem_ofFn]

theorem ofFn_inj {r c : ℕ} {f g : Fin r → Fin c → α} : ofFn f = ofFn g ↔ ∀ i j, f i j = g i j := by
  refine ⟨fun h i j => ?_, fun h => congrArg ofFn (funext₂ h)⟩
  have hcells : (ofFn f).cells = (ofFn g).cells := by simpa [ofFn] using h
  exact (cells_ofFn f i j).symm.trans ((congrArg (fun cells => cells[i][j]) hcells).trans
    (cells_ofFn g i j))

theorem ofRows?_eq_some {c : ℕ} {rows : List (Row α)} (h : ∀ row ∈ rows, row.length = c) :
    ∃ d, ofRows? c rows = some d ∧ d.ncol = c ∧ d.rows = rows := by
  have hexact : ∃ vs : List (Vector α c), rows.mapM (exactly? c) = some vs ∧
      vs.map Vector.toList = rows := by
    induction rows with
    | nil => exact ⟨[], rfl, rfl⟩
    | cons row rows ih =>
      obtain ⟨hrow, hrows⟩ := List.forall_mem_cons.1 h
      obtain ⟨vs, hvs, hlist⟩ := ih hrows
      refine ⟨⟨row.toArray, by simpa using hrow⟩ :: vs, ?_, by simp [hlist]⟩
      rw [List.mapM_cons, hvs, exactly?, dif_pos hrow]
      rfl
  obtain ⟨vs, hvs, hlist⟩ := hexact
  refine ⟨⟨vs.length, c, ⟨vs.toArray, by simp⟩⟩, ?_, rfl, hlist⟩
  rw [ofRows?, hvs]
  rfl

theorem rows_of_ofRows? {c : ℕ} {rows : List (Row α)} {m : Dense α} (h : ofRows? c rows = some m) :
    m.rows = rows := by
  obtain ⟨vs, hvs, rfl⟩ := Option.map_eq_some_iff.1 h
  change vs.map Vector.toList = rows
  clear h
  induction rows generalizing vs with
  | nil =>
    cases hvs
    rfl
  | cons row rows ih =>
    rw [List.mapM_cons] at hvs
    obtain ⟨v, hv, hvs⟩ := Option.bind_eq_some_iff.1 hvs
    obtain ⟨vs', hvs', hcons⟩ := Option.bind_eq_some_iff.1 hvs
    cases hcons
    rw [List.map_cons, ih vs' hvs']
    unfold exactly? at hv
    split at hv
    · cases hv
      rfl
    · cases hv

end Dense

/-! ## Stacks -/

namespace Cells

theorem mapM_plain? (rows : List (Row α)) : (rows.map plain).mapM plain? = some rows := by
  induction rows with
  | nil => rfl
  | cons row rows ih =>
    rw [List.map_cons, List.mapM_cons, ih]
    rfl

theorem eq_of_mapM_plain? {cells : List (Cells α)} {rows : List (Row α)}
    (h : cells.mapM plain? = some rows) : cells = rows.map plain := by
  induction cells generalizing rows with
  | nil =>
    cases h
    rfl
  | cons c cells ih =>
    rw [List.mapM_cons] at h
    obtain ⟨row, hrow, h⟩ := Option.bind_eq_some_iff.1 h
    obtain ⟨rest, hrest, h⟩ := Option.bind_eq_some_iff.1 h
    cases h
    rw [ih hrest]
    cases c with
    | plain r =>
      cases hrow
      rfl
    | mixed r => cases hrow

/-- The first row tells the width of a stack. -/
theorem head_width {n : ℕ} {cells : List (Cells α)} (hne : cells ≠ [])
    (h : ∀ c ∈ cells, c.length = n) : cells.head?.elim 0 Cells.length = n := by
  obtain ⟨c, rest, rfl⟩ := List.exists_cons_of_ne_nil hne
  exact h c List.mem_cons_self

theorem length_toScalars [Cell α] (cells : Cells α) : cells.toScalars.length = cells.length := by
  cases cells with
  | plain row => exact List.length_map _
  | mixed row => rfl

end Cells

namespace Handle

/-- The cells of a row that is plain. -/
def cellsOf (entry : KeyedRow α) : Row α :=
  entry.2.plain?.getD []

variable [Cell α]

/-- Rows of one width can be stacked. -/
theorem exists_stacked {n : ℕ} {cells : List (Cells α)} (hne : cells ≠ [])
    (h : ∀ c ∈ cells, c.length = n) : ∃ block, stacked cells = .ok block := by
  unfold stacked
  dsimp only
  rw [Cells.head_width hne h]
  cases hp : cells.mapM Cells.plain? with
  | some rows =>
    rw [Cells.eq_of_mapM_plain? hp] at h
    obtain ⟨d, hd, -⟩ := Dense.ofRows?_eq_some (List.forall_mem_map.1 h)
    exact ⟨.plain d, by simp only [hd, Option.map_some]⟩
  | none =>
    have hscalars : ∀ row ∈ cells.map Cells.toScalars, row.length = n :=
      List.forall_mem_map.2 fun c hc => (Cells.length_toScalars c).trans (h c hc)
    obtain ⟨d, hd, -⟩ := Dense.ofRows?_eq_some hscalars
    exact ⟨.mixed d, by simp only [hd, Option.map_some]⟩

theorem rows_of_stacked {rows : List (Row α)} {block : Block α}
    (h : stacked (rows.map .plain) = .ok block) : ∃ m, block = .plain m ∧ m.rows = rows := by
  unfold stacked at h
  dsimp only at h
  rw [Cells.mapM_plain?] at h
  dsimp only at h
  generalize (rows.map Cells.plain).head?.elim 0 Cells.length = width at h
  cases hd : Dense.ofRows? width rows with
  | none =>
    rw [hd] at h
    cases h
  | some m =>
    rw [hd] at h
    cases h
    exact ⟨m, rfl, Dense.rows_of_ofRows? hd⟩

theorem stacked_plain {n : ℕ} {rows : List (Row α)} (hne : rows ≠ [])
    (h : ∀ row ∈ rows, row.length = n) :
    ∃ d : Dense α, stacked (rows.map .plain) = .ok (.plain d) ∧ d.ncol = n ∧ d.rows = rows := by
  obtain ⟨d, hd, hncol, hrows⟩ := Dense.ofRows?_eq_some h
  refine ⟨d, ?_, hncol, hrows⟩
  unfold stacked
  dsimp only
  rw [Cells.mapM_plain?, Cells.head_width (by simpa using hne) (List.forall_mem_map.2 h)]
  dsimp only
  rw [hd]
  rfl

end Handle

end RowAlgebra
