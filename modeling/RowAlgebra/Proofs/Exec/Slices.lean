import Mathlib.Data.List.Perm.Basic
import RowAlgebra.Expr.Algebra
import RowAlgebra.Proofs.Exec.Positions

/-!
# Slices of rows

A numbered collection lists its rows: each of them is there once, at the position that is its key
(`Collection.Lists`). Selecting a range of positions and counting them from its start lists the items
in between (`Collection.Lists.selected`). The bounds of a slice are resolved to positions as those of a
list are (`IndexRange.ofSlice_contiguous`), so **slicing an expression slices the list of its rows**
(`Expr.exec_slice`).
-/

namespace RowAlgebra

variable {α : Type}

/-! ## Slices of lists -/

namespace Slice

/-- The position among `n` items that a bound stands for. A negative bound counts from the end, and a
bound beyond the items stands for the nearer end. -/
def position (n : ℕ) (bound : Int) : ℕ :=
  min n (if bound < 0 then bound + n else bound).toNat

def first (n : ℕ) (start : Option Int) : ℕ :=
  start.elim 0 (position n)

def last (n : ℕ) (stop : Option Int) : ℕ :=
  stop.elim n (position n)

/-- The items from one position up to, but without, another one. -/
def between {β : Type} (first last : ℕ) (items : List β) : List β :=
  (items.take last).drop first

theorem last_le (n : ℕ) (stop : Option Int) : last n stop ≤ n := by
  cases stop with
  | none => exact Nat.le_refl n
  | some bound => exact Nat.min_le_left _ _

theorem length_between {β : Type} (first last : ℕ) (items : List β) (h : last ≤ items.length) :
    (between first last items).length = last - first := by
  rw [between, List.length_drop, List.length_take, Nat.min_eq_left h]

end Slice

namespace IndexRange

theorem resolveBound_eq (n : ℕ) (bound : Int) :
    resolveBound n 0 n bound = Slice.position n bound := by
  unfold resolveBound Slice.position
  split <;> omega

theorem ofSlice_contiguous (n : ℕ) (start stop : Option Int) {step : Option Int}
    (hstep : step = none ∨ step = some 1) :
    ofSlice n start stop step = .ok ⟨Slice.first n start, Slice.last n stop, 1⟩ := by
  have hone : step.getD 1 = 1 := by
    rcases hstep with rfl | rfl <;> rfl
  have hallowed : ¬((1 : Int) = 0 ∨ (n : Int) < 0) := by omega
  have hfirst : start.elim 0 (resolveBound n 0 n) = Slice.first n start := by
    cases start with
    | none => rfl
    | some bound => exact resolveBound_eq n bound
  have hlast : stop.elim (n : Int) (resolveBound n 0 n) = Slice.last n stop := by
    cases stop with
    | none => rfl
    | some bound => exact resolveBound_eq n bound
  unfold ofSlice
  rw [hone, if_neg hallowed, ← hfirst, ← hlast]
  rfl

/-- Any other step is refused, or is the step of the range. -/
theorem ofSlice_of_step (n : ℕ) (start stop : Option Int) {step : Option Int}
    (hstep : step ≠ none ∧ step ≠ some 1) :
    ofSlice n start stop step = .error (.fault .value) ∨
      ∃ r, ofSlice n start stop step = .ok r ∧ r.step ≠ 1 := by
  obtain ⟨k, rfl⟩ := Option.ne_none_iff_exists'.1 hstep.1
  have hk : k ≠ 1 := fun h => hstep.2 (congrArg some h)
  by_cases hrefused : k = 0 ∨ (n : Int) < 0
  · exact .inl (if_pos hrefused)
  · exact .inr ⟨_, if_neg hrefused, hk⟩

end IndexRange

/-! ## Collections that list rows -/

/-- Whether a collection has just the given rows, each of them once, keyed by its position. -/
def Collection.Lists (c : Collection α) (rows : List (Cells α)) : Prop :=
  c.rows.Perm (rows.mapIdx fun i row => (.int i, row))

namespace Collection

variable {c : Collection α}

theorem Lists.numbered {rows : List (Cells α)} (h : c.Lists rows) : c.Numbered rows.length := by
  refine ⟨Int.natCast_nonneg _, (h.map Prod.fst).trans (.of_eq ?_)⟩
  refine List.ext_getElem (by simp) fun i h₁ h₂ => ?_
  simp

/-- There is only one way to list the rows of a collection. -/
theorem Lists.unique {rows rows' : List (Cells α)} (h : c.Lists rows) (h' : c.Lists rows') :
    rows = rows' := by
  have hperm := h.symm.trans h'
  have hlength : rows.length = rows'.length := by simpa using hperm.length_eq
  refine List.ext_getElem hlength fun i hi hi' => ?_
  have hmem : (.int i, rows[i]) ∈ rows'.mapIdx fun i row => ((.int i, row) : KeyedRow α) :=
    hperm.mem_iff.1 (List.mem_mapIdx.2 ⟨i, hi, rfl⟩)
  obtain ⟨j, hj, hentry⟩ := List.mem_mapIdx.1 hmem
  obtain ⟨hkey, hrow⟩ := Prod.mk.inj hentry
  obtain rfl : j = i := Int.natCast_inj.1 (Key.int.inj hkey)
  exact hrow.symm

theorem Numbered.exists_lists {n : Int} (h : c.Numbered n) :
    ∃ rows, c.Lists rows ∧ (rows.length : Int) = n := by
  have hkeys : List.Forall₂ (fun key entry => key = entry.1) c.keys c.rows :=
    List.forall₂_map_left_iff.2 (List.forall₂_same.2 fun _ _ => rfl)
  obtain ⟨entries, hentries, hperm⟩ := List.perm_comp_forall₂ h.keys.symm hkeys
  refine ⟨entries.map Prod.snd, hperm.symm.trans (.of_eq ?_), ?_⟩
  · refine List.ext_getElem (by simp) fun i h₁ h₂ => ?_
    have hkey := (List.forall₂_iff_get.1 hentries).2 i (hentries.length_eq ▸ h₁) h₁
    simp only [List.get_eq_getElem, List.getElem_map, List.getElem_range] at hkey
    rw [List.getElem_mapIdx, List.getElem_map, hkey]
  · have hlength := hentries.length_eq
    rw [List.length_map, List.length_range] at hlength
    rw [List.length_map, ← hlength, Int.toNat_of_nonneg h.nonneg]

/-- The entries with the positions from `A.length` on, as many as `B` has. -/
theorem filter_mapIdx_append (A B C : List (Cells α)) :
    (((A ++ (B ++ C)).mapIdx fun i row => ((.int i, row) : KeyedRow α)).filter fun entry =>
        Handle.inRange A.length (A.length + B.length) entry.1).map
      (fun entry => (Handle.rekeyed A.length entry.1, entry.2)) =
    B.mapIdx fun i row => (.int i, row) := by
  simp only [List.mapIdx_append, List.filter_append, List.map_append]
  rw [List.filter_eq_nil_iff.2, List.filter_eq_self.2, List.filter_eq_nil_iff.2, List.map_nil,
    List.append_nil, List.nil_append]
  · refine List.ext_getElem (by simp) fun i h₁ h₂ => ?_
    simp [Handle.rekeyed]
  all_goals
    intro entry he
    obtain ⟨i, hi, rfl⟩ := List.mem_mapIdx.1 he
    rw [Handle.inRange_int, decide_eq_true_eq]
    omega

/-- The rows in a range of positions, counted from its start. -/
theorem Lists.selected {rows : List (Cells α)} (h : c.Lists rows) {first last : ℕ}
    (hle : first ≤ last) (hlast : last ≤ rows.length) :
    (Handle.selected c first last).Lists (Slice.between first last rows) := by
  have htake : rows.take first = (rows.take last).take first := by
    rw [List.take_take, Nat.min_eq_left hle]
  have hsplit : rows.take first ++ (Slice.between first last rows ++ rows.drop last) = rows := by
    rw [htake, Slice.between, ← List.append_assoc, List.take_append_drop, List.take_append_drop]
  have hbefore : (rows.take first).length = first := by
    rw [List.length_take]
    omega
  have hwidth : (first : Int) + ((last - first : ℕ) : Int) = last := by omega
  have hentries :=
    filter_mapIdx_append (rows.take first) (Slice.between first last rows) (rows.drop last)
  rw [hsplit, hbefore, Slice.length_between first last rows hlast, hwidth] at hentries
  rw [Lists, Handle.selected_rows]
  exact ((h.filter _).map _).trans (.of_eq hentries)

end Collection

/-! ## Slices of expressions -/

namespace Expr

variable {e : Expr α} {n : ℕ} (hkeys : e.keyType.isInt = true) (hn : e.schema.rows.count = .ok n)
  {start stop step : Option Int}

include hn in
theorem slice_eq (next : NodeId) : e.slice start stop step next =
    IndexRange.ofSlice n start stop step >>= fun r => e.ofRange r next := by
  refine (Build.lift_bind _ _ next).trans ?_
  rw [hn]
  exact Build.lift_bind _ _ next

include hkeys in
theorem ofRange_eq (r : IndexRange) (next : NodeId) : e.ofRange r next =
    if r.step = 1 then ofUnary (.rowRange r.start r.stop) e next
    else .error (.rangeStep r.text) := by
  refine (Build.lift_bind _ _ next).trans ?_
  rw [hkeys]
  change ((liftM (Build.require (r.step == 1) (.rangeStep r.text)) : Build Unit) >>= fun _ =>
    ofUnary (.rowRange r.start r.stop) e) next = _
  rw [Build.lift_bind]
  by_cases hstep : r.step = 1
  · rw [hstep, if_pos rfl]
    rfl
  · rw [beq_eq_false_iff_ne.2 hstep, if_neg hstep]
    rfl

include hkeys hn in
/-- A slice is refused for its step, or because it ends before it starts. -/
theorem slice_refused (next : NodeId)
    (h : (step ≠ none ∧ step ≠ some 1) ∨ Slice.last n stop < Slice.first n start) :
    ∃ error, e.slice start stop step next = .error error ∧ error.kind = .value := by
  rw [slice_eq hn]
  by_cases hstep : step ≠ none ∧ step ≠ some 1
  · rcases IndexRange.ofSlice_of_step n start stop hstep with hr | ⟨r, hr, hne⟩
    · rw [hr]
      exact ⟨_, rfl, rfl⟩
    · rw [hr]
      exact ⟨_, (ofRange_eq hkeys r next).trans (if_neg hne), rfl⟩
  · have hlt := h.resolve_left hstep
    have hone : step = none ∨ step = some 1 := by tauto
    have hrefused : (UnaryOp.rowRange (Slice.first n start) (Slice.last n stop) : UnaryOp α).admits
        e.schema = .error (.rangeBounds
          (rangeText (Slice.first n start) (Slice.last n stop)) n) := by
      have hint : e.schema.keyType.isInt = true := hkeys
      rw [UnaryOp.admits, hint, hn]
      exact if_neg (by rw [decide_eq_true_eq]; omega)
    rw [IndexRange.ofSlice_contiguous n start stop hone]
    exact ⟨_, (ofRange_eq hkeys _ next).trans
      ((if_pos rfl).trans (ofUnary_of_refused hrefused next)), rfl⟩

include hkeys hn in
theorem slice_of_le (next : NodeId) (hstep : step = none ∨ step = some 1)
    (hle : Slice.first n start ≤ Slice.last n stop) :
    e.slice start stop step next =
      .ok (unary next (.rowRange (Slice.first n start) (Slice.last n stop)) e, next + 1) := by
  have hlast := Slice.last_le n stop
  have hadm : (UnaryOp.rowRange (Slice.first n start) (Slice.last n stop) : UnaryOp α).admits
      e.schema = .ok () :=
    UnaryOp.admits_rowRange_iff.2 ⟨hkeys, by omega, by omega, n, Side.count_eq_ok_iff.1 hn, by omega⟩
  rw [slice_eq hn, IndexRange.ofSlice_contiguous n start stop hstep]
  exact (ofRange_eq hkeys _ next).trans ((if_pos rfl).trans (ofUnary_of_admits hadm next))

section Execution

variable [Cell α] {blocks : BlockCatalogue α} {call : Nat} {g : Handle α}
  (hg : (e.exec blocks call).result = .ok g)

include hg in
/-- A range is selected by one call, after everything below it. -/
theorem exec_rowRange (id : NodeId) (first last : Int) :
    ((unary id (.rowRange first last) e).exec blocks call).calls =
        (e.exec blocks call).calls ++ [⟨.rowRange, unary id (.rowRange first last) e, .nothing⟩] ∧
      ((unary id (.rowRange first last) e).exec blocks call).result =
        .ok (g.rowRange first last (call + e.size)) := by
  rw [exec_unary_eq rfl]
  refine ⟨Traced.calls_bind_ok hg _, ?_⟩
  rw [Traced.result_bind, hg]
  rfl

end Execution

end Expr

/-- **Slicing an expression slices the list of its rows.** If an expression with integer keys comes to
a collection with just the keys below its number of rows, then that collection lists some rows, and a
slice of the expression with any bounds and any step
- is refused with a value error exactly if it has a step other than one, or ends before it starts;
- comes otherwise, by one more call, to a collection that lists what the slice of the list selects,
  and has as many rows. -/
theorem Expr.exec_slice [Cell α] {e : Expr α} {n : Int} (hkeys : e.keyType.isInt = true)
    (hn : e.schema.rows.count = .ok n) {blocks : BlockCatalogue α} {call : Nat} {g : Handle α}
    (hg : (e.exec blocks call).result = .ok g) (hnumbered : g.collection.Numbered n) :
    ∃ rows : List (Cells α), g.collection.Lists rows ∧ (rows.length : Int) = n ∧
      ∀ (start stop step : Option Int) (next : NodeId),
        let first := Slice.first rows.length start
        let last := Slice.last rows.length stop
        let refused := (step ≠ none ∧ step ≠ some 1) ∨ last < first
        ((∃ error, e.slice start stop step next = .error error ∧ error.kind = .value) ↔ refused) ∧
        (¬refused → ∃ x, e.slice start stop step next = .ok (x, next + 1) ∧
          x.nrow = (Slice.between first last rows).length ∧
          (x.nrow < 2 ^ 63 → x.schema.rows.count = .ok x.nrow) ∧
          (x.exec blocks call).calls = (e.exec blocks call).calls ++ [⟨.rowRange, x, .nothing⟩] ∧
          ∃ h, (x.exec blocks call).result = .ok h ∧
            h.collection.Lists (Slice.between first last rows)) := by
  obtain ⟨rows, hrows, rfl⟩ := hnumbered.exists_lists
  refine ⟨rows, hrows, rfl, fun start stop step next => ?_⟩
  intro first last refused
  have hselect (h : ¬refused) : e.slice start stop step next =
      .ok (unary next (.rowRange first last) e, next + 1) := by
    obtain ⟨hstep, hle⟩ := not_or.1 h
    exact slice_of_le hkeys hn next (by tauto) (Nat.not_lt.1 hle)
  refine ⟨⟨fun ⟨error, herror, _⟩ => ?_, slice_refused hkeys hn next⟩, fun h => ?_⟩
  · by_contra h
    rw [hselect h] at herror
    cases herror
  · have hlast : last ≤ rows.length := Slice.last_le rows.length stop
    have hle : first ≤ last := Nat.not_lt.1 (not_or.1 h).2
    have hlists := hrows.selected hle hlast
    obtain ⟨hcalls, hresult⟩ := exec_rowRange hg next first last
    have hlength : ((last : Int) - first) = (Slice.between first last rows).length := by
      rw [Slice.length_between first last rows hlast]
      omega
    refine ⟨_, hselect h, hlength, fun hcount => ?_, hcalls, _, hresult, ?_⟩
    · exact Side.count_eq_ok_iff.2 (congrArg (Side.mk _) (decide_eq_true hcount))
    · rw [Handle.rowRange, Collection.settle_eq_self hlists.numbered.valued]
      exact hlists

/-! ### Three rows in two partitions -/

/-- Three rows, the last of which comes first. -/
def threeRows : Collection Float :=
  ⟨[[(.int 2, .plain [3.0])], [(.int 0, .plain [1.0]), (.int 1, .plain [2.0])]], .int⟩

/-- A leaf that has these rows, and keys of some type as far as it tells. -/
def threeRowsLeaf (keyType : KeyType) : Expr Float :=
  .checkpoint 0 ⟨⟨threeRows, 1⟩, 0, 3, 1, .unknown, .memoryOnly, 0, keyType⟩

theorem threeRows_lists : threeRows.Lists [.plain [1.0], .plain [2.0], .plain [3.0]] := by
  have hlast := List.perm_append_singleton ((.int 2, .plain [3.0]) : KeyedRow Float)
    [(.int 0, .plain [1.0]), (.int 1, .plain [2.0])]
  exact hlast.symm

/-- The last two rows. -/
theorem exec_slice_threeRows : ∃ x, (threeRowsLeaf .int).slice (some (-2)) none none 1 = .ok (x, 2) ∧
    x.nrow = 2 ∧ ∃ h, (x.exec (fun _ keys block => .ok ⟨keys, block, keys⟩) 0).result = .ok h ∧
      h.collection.Lists [.plain [2.0], .plain [3.0]] := by
  have hn : (threeRowsLeaf .int).schema.rows.count = .ok 3 := rfl
  have hg : ((threeRowsLeaf .int).exec (fun _ keys block => .ok ⟨keys, block, keys⟩) 0).result =
    .ok ⟨threeRows, 1⟩ := rfl
  obtain ⟨rows, hrows, -, hslices⟩ := Expr.exec_slice rfl hn hg threeRows_lists.numbered
  obtain rfl := hrows.unique threeRows_lists
  obtain ⟨x, hx, hnrow, -, -, h, hh, hlists⟩ :=
    (hslices (some (-2)) none none 1).2 (by decide)
  exact ⟨x, hx, hnrow, h, hh, hlists⟩

/-- A leaf that says that its keys are texts has no slices, whatever its keys are. -/
theorem slice_of_textKeys :
    ((threeRowsLeaf .text).exec (fun _ keys block => .ok ⟨keys, block, keys⟩) 0).result =
      .ok ⟨threeRows, 1⟩ ∧
    (threeRowsLeaf .text).schema.rows.count = .ok 3 ∧ threeRows.Numbered 3 ∧
    Slice.first 3 none ≤ Slice.last 3 none ∧
    (threeRowsLeaf .text).slice none none none 1 = .error .rangeKeys ∧
    Error.rangeKeys.kind = .value :=
  ⟨rfl, rfl, threeRows_lists.numbered, by decide, rfl, rfl⟩

end RowAlgebra
