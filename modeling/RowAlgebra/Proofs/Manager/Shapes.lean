import RowAlgebra.Proofs.Exec.Positions
import RowAlgebra.Proofs.Manager.Run
import RowAlgebra.Proofs.Plan.Metadata

/-!
# Shapes over whole runs

What is known of an expression without computing it is true of what is computed. All checkpoints of a
run are shaped as their schemas say (`Run.shaped`), whatever keys the leaves have got, over however
many partitions they are spread, and whatever block functions have done. If leaves are keyed by
positions and block functions keep keys, all checkpoints are numbered by their rows
(`Run.numbered`). So **logical shapes are physical shapes** (`Run.computed_shape`).

The type of keys is the exception. A leaf may have keys of a class that is derived from that of the
integers, and the planner lets them through where a double transposition has promised plain ones
(`Run.computed_shape_derived`). Without such leaves no run comes to a derived type
(`Run.plainKeys`).
-/

namespace RowAlgebra

variable {α : Type}

theorem Handle.Shaped.congr {h : Handle α} {s t : Schema} (hs : h.Shaped s) (hncol : s.ncol = t.ncol)
    (htype : s.keyType.Specializes t.keyType) : h.Shaped t :=
  ⟨hs.ncol.trans hncol, fun entry he => (hs.width entry he).trans hncol, hs.keyType.trans htype,
    hs.partitions⟩

/-! ## New checkpoints -/

namespace Managed

variable [Cell α] {s s' : Managed α}

section Leaves

variable {matrix : InCore α} {partitions : Int} {keys : Option GivenKeys} {level : StorageLevel}
  {m : Dense α} {n : NodeId} {c : Checkpoint α}
  (h : s.Distributed s' matrix partitions keys level m n c)

include h in
theorem Distributed.rows_eq :
    c.handle.collection.rows = (rowKeys m keys).keys.zip (m.rows.map .plain) := by
  obtain ⟨-, hpartitions, hspread⟩ := distribute_eq_ok h.rows
  rw [hspread, Collection.rows_spread _ (by omega)]

include h in
theorem Distributed.shaped : c.rows.Shaped c.schema := by
  obtain ⟨-, hpartitions, hspread⟩ := distribute_eq_ok h.rows
  refine ⟨rfl, fun entry he => ?_, .inl h.keyType.symm, ?_⟩
  · have hmem : entry ∈ (rowKeys m keys).keys.zip (m.rows.map .plain) := h.rows_eq ▸ he
    obtain ⟨row, hrow, hcells⟩ := List.mem_map.1 (List.of_mem_zip hmem).2
    have hncol : c.ncol = m.ncol := congrArg Shape.ncol h.shape
    rw [← hcells]
    change (row.length : Int) = c.ncol
    rw [Dense.length_of_mem_rows hrow, hncol]
  · change c.handle.collection.partitions ≠ []
    rw [hspread]
    exact Collection.partitions_spread_ne_nil _ (by omega) _

include h in
theorem Distributed.keys_eq : c.rows.collection.keys = (rowKeys m keys).keys := by
  obtain ⟨hlength, -, -⟩ := distribute_eq_ok h.rows
  change c.handle.collection.rows.map Prod.fst = _
  rw [h.rows_eq, List.map_fst_zip]
  rw [List.length_map, m.length_rows, hlength]

include h in
/-- A leaf is numbered if its keys are the positions of its rows, in any order. -/
theorem Distributed.numbered
    (hkeys : ∀ given ∈ keys,
      given.keys.Perm ((List.range given.keys.length).map fun (i : ℕ) => .int i)) :
    c.rows.collection.Numbered c.nrow := by
  obtain ⟨hlength, -, -⟩ := distribute_eq_ok h.rows
  have hnrow : c.nrow = m.nrow := congrArg Shape.nrow h.shape
  refine ⟨hnrow ▸ Int.natCast_nonneg _, ?_⟩
  rw [h.keys_eq, hnrow, Int.toNat_natCast]
  cases keys with
  | none => exact .refl _
  | some ks =>
    rw [← hlength]
    exact hkeys ks rfl

include h in
/-- Keys that are of no class of their own are of no derived type. -/
theorem Distributed.plainKeys (hkeys : ∀ given ∈ keys, ∀ i, given.derived i = none) :
    c.handle.collection.keyType.isDerived = false := by
  obtain ⟨given, hgiven⟩ : ∃ given : List Key, (rowKeys m keys).types = given.map Key.type := by
    cases keys with
    | none => exact ⟨_, GivenKeys.types_plain _⟩
    | some given => exact ⟨given.keys, GivenKeys.types_of_plain (hkeys given rfl)⟩
  rw [(distribute_eq_ok h.rows).2.2, hgiven]
  cases given with
  | nil => rfl
  | cons k _ => exact k.type_not_isDerived

include h in
/-- A leaf that has been made without keys lists its rows in order. -/
theorem Distributed.inOrder (hkeys : keys = none) : c.rows.collection.InOrder c.nrow := by
  subst hkeys
  have hnrow : c.nrow = m.nrow := congrArg Shape.nrow h.shape
  refine ⟨hnrow ▸ Int.natCast_nonneg _, ?_⟩
  rw [h.keys_eq, hnrow, Key.positions, Int.toNat_natCast]
  rfl

end Leaves

end Managed

/-! ## What is computed -/

section Plans

variable [Cell α] {next n n' : NodeId} {nodes : Set (Expr α)} (hp : Population next nodes)
  {e plan : Expr α} (he : e ∈ nodes) (hn : next ≤ n) (hplan : e.optimize n = .ok (plan, n'))
  (hleaves : ∀ i c, .checkpoint i c ∈ e.walk → c.rows.Shaped c.schema)

namespace Expr

include hp he hn hplan in
theorem admitted_of_optimize : e.Planned plan ∧ ∀ x ∈ plan.walk, x.Admitted := by
  obtain ⟨_, -, hp', hmem, hplanned⟩ := planned_of_optimize (hp.mono hn) he hplan
  exact ⟨hplanned, fun x hx => hp'.admitted x (hp'.walk_subset hmem x hx)⟩

include hp he hn hplan hleaves in
/-- Every node of a plan is computed in its shape. -/
theorem exec_node_shaped {x : Expr α} (hx : x ∈ plan.walk) (blocks : BlockCatalogue α) (call : Nat) :
    Ensures (x.exec blocks call).result (Handle.Shaped · x.schema) := by
  obtain ⟨hplanned, hadm⟩ := admitted_of_optimize hp he hn hplan
  refine exec_shaped (fun y hy => hadm y (mem_walk_trans hy hx)) (fun i c hc => ?_) call
  exact hleaves i c (hplanned.leaf_mem (mem_walk_trans hc hx))

include hp he hn hplan hleaves in
theorem exec_plan_shaped (blocks : BlockCatalogue α) (call : Nat) :
    Ensures (plan.exec blocks call).result (Handle.Shaped · e.schema) := by
  have hkept := (admitted_of_optimize hp he hn hplan).1.refines
  exact (exec_node_shaped hp he hn hplan hleaves (mem_walk_self plan) blocks call).imp fun g hg =>
    hg.congr (congrArg Side.length hkept.columns) hkept.keyType

include hp he hn hplan hleaves in
theorem exec_plan_numbered
    (hnumbered : ∀ i c, .checkpoint i c ∈ e.walk → c.rows.collection.Numbered c.nrow)
    {blocks : BlockCatalogue α} (hblocks : e.KeepsKeys blocks) (call : Nat) :
    Ensures (plan.exec blocks call).result fun g => g.collection.Numbered e.nrow := by
  obtain ⟨hplanned, hadm⟩ := admitted_of_optimize hp he hn hplan
  have hkeeps : plan.KeepsKeys blocks := by
    intro fn ncol keepsKeys hfn
    exact hblocks fn ncol keepsKeys ((hplanned.mem_unaries hfn).resolve_right nofun)
  refine (exec_numbered hadm hkeeps (fun i c hc => ?_) call).imp fun g hg =>
    hg.2.congr (congrArg Side.length hplanned.refines.rows)
  have hc := hplanned.leaf_mem hc
  exact ⟨hleaves i c hc, hnumbered i c hc⟩

end Expr

end Plans

namespace Stage.Housed

variable [Cell α] {s : Stage α} (hs : s.Housed) {s' : Managed α} {blocks : BlockCatalogue α}
  {e plan : Expr α} (he : e ∈ s.nodes) {level : StorageLevel} {n : NodeId} {c : Checkpoint α}
  (h : s.managed.Materialized blocks s' e level plan n c)
  (hshaped : ∀ i c, .checkpoint i c ∈ e.walk → c.rows.Shaped c.schema)

include hs he h hshaped in
theorem materialized_shaped : c.rows.Shaped c.schema := by
  have hcomputed := (Expr.exec_plan_shaped hs.population he (Nat.le_refl _) h.optimize hshaped blocks
    s.managed.substrate.nextCall).of_ok h.exec
  have hncol : e.schema.ncol = c.ncol :=
    congrArg Side.length (Schema.shape_eq_ok_iff.1 h.shape).2
  have hrows : c.rows = c.handle := by
    rw [Checkpoint.rows, ← hncol, ← hcomputed.ncol]
  rw [hrows]
  exact hcomputed.congr hncol (.inl h.keyType.symm)

include hs he h hshaped in
theorem materialized_numbered
    (hnumbered : ∀ i c, .checkpoint i c ∈ e.walk → c.rows.collection.Numbered c.nrow)
    (hblocks : e.KeepsKeys blocks) : c.rows.collection.Numbered c.nrow := by
  have hcomputed := (Expr.exec_plan_numbered hs.population he (Nat.le_refl _) h.optimize hshaped
    hnumbered hblocks s.managed.substrate.nextCall).of_ok h.exec
  exact hcomputed.congr (congrArg Side.length (Schema.shape_eq_ok_iff.1 h.shape).1)

end Stage.Housed

/-! ## Whole runs -/

/-- Whether an act makes no leaf whose keys are of classes of their own. -/
def Act.PlainKeys : Act α → Prop
  | .parallelize _ _ keys _ => ∀ given ∈ keys, ∀ i, given.derived i = none
  | _ => True

/-- Whether an act keeps rows at positions: a leaf is keyed by the positions of its rows, in any
order, and the block functions of what is materialized keep keys. -/
def Act.KeepsPositions : Act α → Prop
  | .parallelize _ _ keys _ =>
    ∀ given ∈ keys, given.keys.Perm ((List.range given.keys.length).map fun (i : ℕ) => .int i)
  | .checkpoint blocks e _ => e.KeepsKeys blocks
  | _ => True

section Runs

variable [Cell α] {start s : Stage α} {acts : List (Act α)} (h₀ : start.Initial)
  (h : Run start acts s)

include h₀ h in
theorem Run.shaped : ∀ i c, .checkpoint i c ∈ s.nodes → c.rows.Shaped c.schema := by
  refine h.checkpoints h₀ (fun _ _ _ _ _ _ _ _ _ _ hnew => hnew.shaped) ?_
  intro blocks e level _ s hs he hold s' plan n c hnew
  exact hs.materialized_shaped he hnew fun i c hc => hold i c (hs.population.walk_subset he _ hc)

include h₀ h in
theorem Run.numbered (hacts : ∀ act ∈ acts, act.KeepsPositions) :
    ∀ i c, .checkpoint i c ∈ s.nodes → c.rows.collection.Numbered c.nrow := by
  suffices hboth : ∀ i c, .checkpoint i c ∈ s.nodes →
      c.rows.Shaped c.schema ∧ c.rows.collection.Numbered c.nrow from fun i c hc => (hboth i c hc).2
  refine h.checkpoints h₀ (fun _ _ _ _ hact _ _ _ _ _ hnew => ?_) ?_
  · exact ⟨hnew.shaped, hnew.numbered (hacts _ hact)⟩
  · intro blocks e level hact s hs he hold s' plan n c hnew
    have hleaf := fun i c hc => hold i c (hs.population.walk_subset he _ hc)
    exact ⟨hs.materialized_shaped he hnew fun i c hc => (hleaf i c hc).1,
      hs.materialized_numbered he hnew (fun i c hc => (hleaf i c hc).1)
        (fun i c hc => (hleaf i c hc).2) (hacts _ hact)⟩

include h₀ h in
/-- Derived types of keys come from the leaves of a run. -/
theorem Run.plainKeys (hacts : ∀ act ∈ acts, act.PlainKeys) :
    ∀ i c, .checkpoint i c ∈ s.nodes → c.handle.collection.keyType.isDerived = false := by
  refine h.checkpoints h₀ (fun _ _ _ _ hact _ _ _ _ _ hnew => hnew.plainKeys (hacts _ hact)) ?_
  intro blocks e level _ s hs he hold s' plan n c hnew
  have hplanned := (Expr.admitted_of_optimize hs.population he (Nat.le_refl _) hnew.optimize).1
  refine (Expr.exec_plainKeys (fun i c hc => ?_) _).of_ok hnew.exec
  exact hold i c (hs.population.walk_subset he _ (hplanned.leaf_mem hc))

include h₀ h in
/-- **Logical shapes are physical shapes**: whatever the plan of an expression computes has the
columns of the expression, rows with as many cells, and at least one partition. So has every operand
on the way, so that rows can always be appended to the last partition. It has the type of keys of the
expression, or one that is derived from it, and the latter only if keys at the leaves are of a
derived type; no act of the run has made such a leaf if all have taken plain keys. If the block
functions of the expression keep keys, and its leaves are keyed by the positions of their rows, then
there are as many rows as the expression says, under these positions, and gathering them never fails
with an index. All checkpoints are keyed so if all acts of the run keep positions. -/
theorem Run.computed_shape [UnindexedCell α] :
    (∀ e ∈ s.nodes, ∀ n n' plan, s.next ≤ n → e.optimize n = .ok (plan, n') → ∀ blocks call,
      (∀ g, (plan.exec blocks call).result = .ok g → g.Shaped e.schema ∧
        ((∀ i c, .checkpoint i c ∈ e.walk → c.handle.collection.keyType.isDerived = false) →
          g.collection.keyType = e.keyType)) ∧
      (∀ x ∈ plan.walk, ∀ call' g, (x.exec blocks call').result = .ok g → g.Shaped x.schema ∧
        ∀ extra, ∃ ps, Handle.appendToLast extra g.collection.partitions = .ok ps) ∧
      (e.KeepsKeys blocks →
        (∀ i c, .checkpoint i c ∈ e.walk → c.handle.collection.Numbered c.nrow) →
        ∀ g, (plan.exec blocks call).result = .ok g →
          (g.collection.rows.length : Int) = e.nrow ∧ g.collection.Numbered e.nrow ∧
          ∀ error, g.collect (some e.nrow) = .error error ∨ g.collect none = .error error →
            error.kind ≠ .index)) ∧
    ((∀ act ∈ acts, act.KeepsPositions) →
      ∀ i c, .checkpoint i c ∈ s.nodes → c.handle.collection.Numbered c.nrow) ∧
    ((∀ act ∈ acts, act.PlainKeys) →
      ∀ i c, .checkpoint i c ∈ s.nodes → c.handle.collection.keyType.isDerived = false) := by
  have hs := h.housed h₀
  refine ⟨fun e he n n' plan hn hplan blocks call => ?_, h.numbered h₀, h.plainKeys h₀⟩
  have hleaves : ∀ i c, .checkpoint i c ∈ e.walk → c.rows.Shaped c.schema := fun i c hc =>
    h.shaped h₀ i c (hs.population.walk_subset he _ hc)
  refine ⟨fun g hg => ?_, fun x hx call' g hg => ?_, fun hblocks hnumbered g hg => ?_⟩
  · have hshaped := (Expr.exec_plan_shaped hs.population he hn hplan hleaves blocks call).of_ok hg
    have hplanned := (Expr.admitted_of_optimize hs.population he hn hplan).1
    refine ⟨hshaped, fun hplain => hshaped.keyType.eq_of_not_isDerived ?_⟩
    exact (Expr.exec_plainKeys (fun i c hc => hplain i c (hplanned.leaf_mem hc)) call).of_ok hg
  · have hshaped := (Expr.exec_node_shaped hs.population he hn hplan hleaves hx blocks call').of_ok hg
    have happend (extra : List (KeyedRow α)) :=
      (Handle.appendToLast_ends extra g.collection.partitions).mapBad fun _ h => hshaped.partitions h
    exact ⟨hshaped, fun extra => (happend extra).exists_ok.imp fun ps hps => hps.1⟩
  · have hpositions := (Expr.exec_plan_numbered hs.population he hn hplan hleaves hnumbered hblocks
      call).of_ok hg
    refine ⟨hpositions.length_rows, hpositions, fun error herror => ?_⟩
    rcases herror with herror | herror
    · exact (Handle.collect_in_bounds hpositions (some e.nrow) (by simp)).of_error herror
    · exact (Handle.collect_in_bounds hpositions none nofun).of_error herror

end Runs

/-! ### A block function over an empty partition -/

def swappedMatrix : Dense Float :=
  ⟨2, 1, (Vector.singleton (.singleton 1.0)).push (.singleton 2.0)⟩

/-- Two rows in three partitions, with the last row first. -/
def swappedLeaf : Expr Float :=
  .checkpoint 0 ⟨⟨⟨[[(.int 1, .plain [1.0])], [(.int 0, .plain [2.0])], []], .int⟩, 1⟩, 0, 2, 1,
    .known swappedMatrix.nonZeros, .memoryOnly, 7, .int⟩

def swappedActs : List (Act Float) :=
  [.parallelize (.matrix swappedMatrix) 3 (some (.plain [.int 1, .int 0])) .memoryOnly,
    .unary (.mapBlock "same" 1 false) swappedLeaf]

/-- A block function that changes nothing is not applied to the empty partition. -/
theorem Run.computed_shape_swapped :
    let e : Expr Float := .unary 1 (.mapBlock "same" 1 false) swappedLeaf
    ∃ s, Run (.ofScript [2 ^ 63, 2 ^ 63 + 7]) swappedActs s ∧ e ∈ s.nodes ∧
      ∃ g, (e.exec (fun _ keys block => .ok ⟨keys, block, keys⟩) 0).result = .ok g ∧
        g.Shaped e.schema ∧ g.collection.keyType = e.keyType ∧
        (g.collection.rows.length : Int) = 2 ∧ g.collection.Numbered 2 ∧
        ∀ error, g.collect (some 2) = .error error → error.kind ≠ .index := by
  intro e
  let first : Act Float :=
    .parallelize (.matrix swappedMatrix) 3 (some (.plain [.int 1, .int 0])) .memoryOnly
  have hleaf : swappedLeaf ∈ ((Stage.ofScript [2 ^ 63, 2 ^ 63 + 7]).step first).nodes := by
    rw [Stage.step, Stage.absorb_nodes_ok _ (e := swappedLeaf) rfl]
    exact Set.mem_insert _ _
  have hrun : Run (.ofScript [2 ^ 63, 2 ^ 63 + 7]) swappedActs _ :=
    (Run.refl.step first trivial).step (.unary (.mapBlock "same" 1 false) swappedLeaf) hleaf
  have hacts : ∀ act ∈ swappedActs, act.KeepsPositions := by
    refine List.forall_mem_cons.2 ⟨?_, List.forall_mem_singleton.2 trivial⟩
    rintro ks ⟨⟩
    exact .swap (Key.int 0) (Key.int 1) []
  have hplainKeys : ∀ act ∈ swappedActs, act.PlainKeys := by
    refine List.forall_mem_cons.2 ⟨?_, List.forall_mem_singleton.2 trivial⟩
    rintro given ⟨⟩ i
    rfl
  obtain ⟨hcomputed, hnumbered, hplain⟩ := hrun.computed_shape (Stage.initial_ofScript _)
  have hmem := Set.mem_insert e ((Stage.ofScript [2 ^ 63, 2 ^ 63 + 7]).step first).nodes
  obtain ⟨hshaped, -, hpositions⟩ := hcomputed e hmem 2 2 e (Nat.le_refl 2) rfl
    (fun _ keys block => .ok ⟨keys, block, keys⟩) 0
  have hkeeps : e.KeepsKeys fun _ keys block => .ok ⟨keys, block, keys⟩ := by
    rintro fn ncol keepsKeys - keys block result ⟨⟩
    rfl
  obtain ⟨g, hg⟩ : ∃ g, (e.exec (fun _ keys block => .ok ⟨keys, block, keys⟩) 0).result = .ok g :=
    ⟨_, rfl⟩
  have hleaves : ∀ i c, .checkpoint i c ∈ e.walk → c.handle.collection.Numbered c.nrow ∧
      c.handle.collection.keyType.isDerived = false := by
    intro i c hc
    obtain ⟨rfl, rfl⟩ := Expr.checkpoint.inj (List.mem_singleton.1 (Expr.leaf_mem_unary.1 hc))
    have hnode := Set.mem_insert_of_mem e hleaf
    exact ⟨hnumbered hacts 0 _ hnode, hplain hplainKeys 0 _ hnode⟩
  obtain ⟨hlength, hkeys, hcollect⟩ := hpositions hkeeps (fun i c hc => (hleaves i c hc).1) g hg
  obtain ⟨hg', htype⟩ := hshaped g hg
  exact ⟨_, hrun, hmem, g, hg, hg', htype fun i c hc => (hleaves i c hc).2, hlength, hkeys,
    fun error h => hcollect error (.inl h)⟩

/-! ### Keys of a derived class -/

/-- A leaf under an integer of a class of its own, which is transposed twice. -/
def derivedActs : List (Act Float) :=
  [.parallelize (.matrix ⟨1, 1, .singleton (.singleton 1.0)⟩) 1
      (some ⟨[.int 0], fun _ => some ⟨0, "RowId"⟩⟩) .memoryOnly,
    .unary .transpose Expr.derivedRow, .unary .transpose (.unary 1 .transpose Expr.derivedRow)]

/-- The keys of a matrix that is transposed twice should be plain integers, but its plan is the leaf,
and what is computed has the class of the keys of the leaf. -/
theorem Run.computed_shape_derived :
    ∃ s, Run (.ofScript [2 ^ 63, 2 ^ 63 + 7]) derivedActs s ∧ Expr.derivedRowTwice ∈ s.nodes ∧
      ∃ plan n g, Expr.derivedRowTwice.optimize s.next = .ok (plan, n) ∧
        (plan.exec BlockCatalogue.standard 0).result = .ok g ∧
        g.collection.keyType ≠ Expr.derivedRowTwice.keyType := by
  let first : Act Float := .parallelize (.matrix ⟨1, 1, .singleton (.singleton 1.0)⟩) 1
    (some ⟨[.int 0], fun _ => some ⟨0, "RowId"⟩⟩) .memoryOnly
  have hleaf : Expr.derivedRow ∈ ((Stage.ofScript [2 ^ 63, 2 ^ 63 + 7]).step first).nodes := by
    rw [Stage.step, Stage.absorb_nodes_ok _ (e := Expr.derivedRow) rfl]
    exact Set.mem_insert _ _
  have hrun : Run (.ofScript [2 ^ 63, 2 ^ 63 + 7]) derivedActs _ :=
    ((Run.refl.step first trivial).step (.unary .transpose Expr.derivedRow) hleaf).step
      (.unary .transpose (.unary 1 .transpose Expr.derivedRow)) (.inl rfl)
  refine ⟨_, hrun, .inl rfl, Expr.derivedRow, _, _, rfl, rfl, ?_⟩
  rintro ⟨⟩

end RowAlgebra
