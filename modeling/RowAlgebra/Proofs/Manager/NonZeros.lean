import RowAlgebra.Proofs.Keyed.NonZeros
import RowAlgebra.Proofs.Manager.Shapes

/-!
# Non-zero counts over whole runs

The count of an expression is derived from what the user has written, its cells are computed by its
plan. Both passes keep what can be derived (`Expr.Planned.nonZeroCount`), so the plan computes as
many cells that are not zero as the count says. A checkpoint is `Exact` if its count is unknown or
right, and if in the second case its rows are fit for more transpositions. Leaves whose integer keys
are the positions of their rows are exact (`Managed.Distributed.exact`), and so is what is
materialized over exact checkpoints. So **known counts are exact** over whole runs
(`Run.counts_exact`).
-/

namespace RowAlgebra

variable {α : Type}

/-! ## Plans -/

namespace Expr

/-- A count that is derived is that of a leaf. -/
theorem exists_leaf_of_nonZeroCount {e : Expr α} {count : NonZeroCount}
    (h : e.nonZeroCount = .ok count) : ∃ i c, checkpoint i c ∈ e.walk ∧ c.nonZeros = count := by
  induction e with
  | checkpoint i c => exact ⟨i, c, mem_walk_self _, Except.ok.inj h⟩
  | foreign i shape => cases h
  | unary i op a ih =>
    obtain ⟨j, c, hc, hcount⟩ := ih (nonZeroCount_unary.1 h).2
    exact ⟨j, c, leaf_mem_unary.2 hc, hcount⟩
  | binary i op a b => cases h

/-- An operator without a rule leaves the count unknown. -/
theorem nonZeroCount_of_determined {e : Expr α} {count : NonZeroCount}
    (h : e.determineNonZeroCount = .ok count) :
    count = .unknown ∨ e.nonZeroCount = .ok count := by
  unfold determineNonZeroCount at h
  split at h
  · cases h
    exact .inl rfl
  · exact .inr h

variable [Cell α]

theorem NormalForm.nonZeroCount {e e' : Expr α} (h : NormalForm e e') {count : NonZeroCount}
    (hc : e.nonZeroCount = .ok count) : e'.nonZeroCount = .ok count := by
  induction h with
  | checkpoint => exact hc
  | unary i j hop ha ih =>
    obtain ⟨hkeeps, hinput⟩ := nonZeroCount_unary.1 hc
    exact nonZeroCount_unary.2 ⟨hkeeps, ih hinput⟩
  | leftMultiply => cases (nonZeroCount_unary.1 hc).1
  | gramian | timesTransposed | transposedTimes | times | binary => cases hc

omit [Cell α] in
theorem CleanForm.nonZeroCount {e e' : Expr α} (h : CleanForm e e') {count : NonZeroCount}
    (hc : e.nonZeroCount = .ok count) : e'.nonZeroCount = .ok count := by
  induction h with
  | checkpoint => exact hc
  | double i j ha ih =>
    obtain ⟨-, hinner⟩ := nonZeroCount_unary.1 hc
    exact ih (nonZeroCount_unary.1 hinner).2
  | unary i j hop ht ha ih =>
    obtain ⟨hkeeps, hinput⟩ := nonZeroCount_unary.1 hc
    exact nonZeroCount_unary.2 ⟨hkeeps, ih hinput⟩
  | binary => cases hc

theorem Planned.nonZeroCount {e plan : Expr α} (h : e.Planned plan) {count : NonZeroCount}
    (hc : e.nonZeroCount = .ok count) : plan.nonZeroCount = .ok count := by
  obtain ⟨middle, hn, hclean⟩ := h
  exact hclean.cleanForm.nonZeroCount (hn.normalForm.nonZeroCount hc)

end Expr

/-! ## Exact checkpoints -/

/-- A checkpoint whose count is unknown or right. -/
def Checkpoint.Exact [Cell α] (c : Checkpoint α) : Prop :=
  c.nonZeros = .unknown ∨ ∃ v, c.nonZeros = .known v ∧ c.rows.Counted c.schema v

theorem Checkpoint.Exact.eq [Cell α] {c : Checkpoint α} (h : c.Exact) :
    c.nonZeros = .unknown ∨ c.nonZeros = .known c.handle.collection.nonZeros := by
  rcases h with h | ⟨v, h, hcounted⟩
  · exact .inl h
  · refine .inr (h.trans (congrArg NonZeroCount.known ?_))
    exact hcounted.nonZeros.symm

namespace Managed

variable [Cell α] {s s' : Managed α} {matrix : InCore α} {partitions : Int}
  {keys : Option GivenKeys} {level : StorageLevel} {m : Dense α} {n : NodeId} {c : Checkpoint α}
  (h : s.Distributed s' matrix partitions keys level m n c)

include h in
theorem Distributed.plain : c.rows.Plain := by
  intro entry he
  have hmem : entry ∈ (rowKeys m keys).keys.zip (m.rows.map .plain) := h.rows_eq ▸ he
  obtain ⟨row, -, hrow⟩ := List.mem_map.1 (List.of_mem_zip hmem).2
  exact hrow ▸ trivial

include h in
theorem Distributed.exact
    (hkeys : ∀ given ∈ keys, (∀ k ∈ given.keys, k.type = .int) →
      given.keys.Perm ((List.range given.keys.length).map fun (i : ℕ) => .int i)) : c.Exact := by
  obtain ⟨hlength, -, -⟩ := distribute_eq_ok h.rows
  refine .inr ⟨m.nonZeros, h.nonZeros, h.shaped, ?_, h.plain, fun hint => ?_, ?_⟩
  · have hncol : c.ncol = m.ncol := congrArg Shape.ncol h.shape
    exact (Int.natCast_nonneg m.ncol).trans_eq hncol.symm
  · refine h.numbered fun ks hks => hkeys ks hks fun k hk => ?_
    obtain ⟨t, ht, hk⟩ := GivenKeys.exists_type hk
    have htype := type_of_distribute h.rows t (by rwa [Option.mem_def.1 hks])
    rw [Key.type_eq_int_iff, ← hk, htype, ← h.keyType]
    exact hint
  · change (c.handle.collection.rows.map _).sum = _
    rw [h.rows_eq]
    exact m.sum_nonZeros _ hlength

end Managed

/-! ## What is computed -/

section Plans

variable [Cell α] [Field α] [ExactCell α] [ExactScalars α]

/-- A known count is that of whatever the plan computes. -/
theorem Expr.exec_plan_counted {next n n' : NodeId} {nodes : Set (Expr α)}
    (hp : Population next nodes) {e plan : Expr α} (he : e ∈ nodes) (hn : next ≤ n)
    (hplan : e.optimize n = .ok (plan, n'))
    (hleaves : ∀ i c, .checkpoint i c ∈ e.walk → c.Exact) {count : NonZeroCount}
    (hcount : e.nonZeroCount = .ok count) :
    count = .unknown ∨ ∃ v, count = .known v ∧ ∀ blocks call,
      Ensures (plan.exec blocks call).result fun g => g.Counted e.schema v := by
  obtain ⟨hplanned, hadm⟩ := admitted_of_optimize hp he hn hplan
  obtain ⟨i, c, hc, rfl⟩ := exists_leaf_of_nonZeroCount hcount
  refine (hleaves i c hc).imp_right ?_
  rintro ⟨v, hv, -⟩
  refine ⟨v, hv, fun blocks call => ?_⟩
  have hcounted : ∀ j d w, .checkpoint j d ∈ plan.walk → d.nonZeros = .known w →
      d.rows.Counted d.schema w := by
    intro j d w hd hw
    rcases hleaves j d (hplanned.leaf_mem hd) with hunknown | ⟨w', hw', hd⟩
    · cases hunknown.symm.trans hw
    · cases hw.symm.trans hw'
      exact hd
  have hkept := hplanned.refines
  refine (exec_counted hadm hcounted (hplanned.nonZeroCount (hv ▸ hcount)) call).imp
    fun g hg => hg.congr ?_ ?_ hkept.keyType
  · exact congrArg Side.length hkept.rows
  · exact congrArg Side.length hkept.columns

theorem Stage.Housed.materialized_exact {s : Stage α} (hs : s.Housed) {s' : Managed α}
    {blocks : BlockCatalogue α} {e plan : Expr α} (he : e ∈ s.nodes) {level : StorageLevel}
    {n : NodeId} {c : Checkpoint α} (h : s.managed.Materialized blocks s' e level plan n c)
    (hleaves : ∀ i d, .checkpoint i d ∈ e.walk → d.Exact) : c.Exact := by
  rcases Expr.nonZeroCount_of_determined h.count with hunknown | hcount
  · exact .inl hunknown
  · refine (Expr.exec_plan_counted hs.population he (Nat.le_refl _) h.optimize hleaves hcount).imp_right
      ?_
    rintro ⟨v, hv, hplan⟩
    have hcomputed := (hplan blocks s.managed.substrate.nextCall).of_ok h.exec
    obtain ⟨hrows, hcolumns⟩ := Schema.shape_eq_ok_iff.1 h.shape
    have hncol : e.schema.ncol = c.ncol := congrArg Side.length hcolumns
    have hhandle : c.rows = c.handle := by
      rw [Checkpoint.rows, ← hncol, ← hcomputed.shaped.ncol]
    rw [hhandle]
    exact ⟨v, hv, hcomputed.congr (congrArg Side.length hrows) hncol (.inl h.keyType.symm)⟩

end Plans

/-! ## Whole runs -/

/-- Whether an act that makes a leaf with integer keys keys its rows by their positions, in any
order. -/
def Act.KeysRows : Act α → Prop
  | .parallelize _ _ keys _ => ∀ given ∈ keys, (∀ k ∈ given.keys, k.type = .int) →
    given.keys.Perm ((List.range given.keys.length).map fun (i : ℕ) => .int i)
  | _ => True

section Runs

variable [Cell α] [Field α] [ExactCell α] [ExactScalars α] {start s : Stage α}
  {acts : List (Act α)} (h₀ : start.Initial) (h : Run start acts s)
  (hkeys : ∀ act ∈ acts, act.KeysRows)

include h₀ h hkeys in
theorem Run.exact : ∀ i c, .checkpoint i c ∈ s.nodes → c.Exact := by
  refine h.checkpoints h₀ (fun _ _ _ _ hact _ _ _ _ _ hnew => hnew.exact (hkeys _ hact)) ?_
  intro blocks e level _ s hs he hold s' plan n c hnew
  exact hs.materialized_exact he hnew fun i d hd => hold i d (hs.population.walk_subset he _ hd)

include h₀ h hkeys in
/-- **Known counts are exact**: if the count of an expression is known, then whatever its plan
computes has as many cells that are not zero, over whatever checkpoints it has been built and
whatever block functions have done elsewhere. So each checkpoint of the run has the right count or an
unknown one. -/
theorem Run.counts_exact :
    (∀ e ∈ s.nodes, ∀ count, e.determineNonZeroCount = .ok count → count.isKnown = true →
      ∀ n n' plan, s.next ≤ n → e.optimize n = .ok (plan, n') →
        ∀ blocks call g, (plan.exec blocks call).result = .ok g →
          count = .known g.collection.nonZeros) ∧
    ∀ i c, .checkpoint i c ∈ s.nodes →
      c.nonZeros = .unknown ∨ c.nonZeros = .known c.handle.collection.nonZeros := by
  have hs := h.housed h₀
  have hexact := h.exact h₀ hkeys
  refine ⟨fun e he count hcount hknown n n' plan hn hplan blocks call g hg => ?_,
    fun i c hc => (hexact i c hc).eq⟩
  have hunknown : count ≠ .unknown := by
    rintro rfl
    cases hknown
  have hderived := (Expr.nonZeroCount_of_determined hcount).resolve_left hunknown
  obtain ⟨v, hv, hcomputed⟩ := (Expr.exec_plan_counted hs.population he hn hplan
    (fun i c hc => hexact i c (hs.population.walk_subset he _ hc)) hderived).resolve_left hunknown
  rw [hv, ((hcomputed blocks call).of_ok hg).nonZeros]

end Runs

/-! ### A third of a transposed matrix -/

/-- Two rows, the last one of which comes first. -/
def sparseLeaf : Expr ℚ :=
  .checkpoint 0 ⟨⟨⟨[[(.int 1, .plain [0, 5])], [(.int 0, .plain [0, 2])]], .int⟩, 2⟩, 0, 2, 2,
    .known 2, .memoryOnly, 7, .int⟩

/-- The answer for the transposed rows. -/
def sparseResult : Expr ℚ :=
  .checkpoint 2 ⟨⟨⟨[[(.int 0, .plain [0, 0])], [(.int 1, .plain [2, 5])]], .int⟩, 2⟩, 2, 2, 2,
    .known 2, .diskOnly, 9, .int⟩

def sparseActs : List (Act ℚ) :=
  [.parallelize (.matrix ⟨2, 2, #v[#v[0, 5], #v[0, 2]]⟩) 2 (some (.plain [.int 1, .int 0])) .memoryOnly,
    .unary .transpose sparseLeaf,
    .checkpoint (fun _ keys block => .ok ⟨keys, block, keys⟩) (.unary 1 .transpose sparseLeaf) .diskOnly,
    .unary (.scalar .divide (.int 3)) sparseResult]

/-- The count outlasts a transposition, a materialization and a division. -/
theorem Run.counts_exact_third :
    let e : Expr ℚ := .unary 3 (.scalar .divide (.int 3)) sparseResult
    ∃ s, Run (.ofScript [2 ^ 63 + 7, 2 ^ 63 + 9]) sparseActs s ∧ e ∈ s.nodes ∧
      e.determineNonZeroCount = .ok (.known 2) ∧ ∀ blocks, ∃ g, (e.exec blocks 0).result = .ok g ∧
        g.collection.nonZeros = 2 := by
  intro e
  let first : Act ℚ := .parallelize (.matrix ⟨2, 2, #v[#v[0, 5], #v[0, 2]]⟩) 2
    (some (.plain [.int 1, .int 0])) .memoryOnly
  let blocks : BlockCatalogue ℚ := fun _ keys block => .ok ⟨keys, block, keys⟩
  have hresult : sparseResult ∈ ((sparseActs.take 3).foldl Stage.step
      (.ofScript [2 ^ 63 + 7, 2 ^ 63 + 9])).nodes := .inl rfl
  have hrun : Run (.ofScript [2 ^ 63 + 7, 2 ^ 63 + 9]) sparseActs _ :=
    (((Run.refl.step first trivial).step (.unary .transpose sparseLeaf) (.inl rfl)).step
      (.checkpoint blocks (.unary 1 .transpose sparseLeaf) .diskOnly) (.inl rfl)).step
        (.unary (.scalar .divide (.int 3)) sparseResult) hresult
  have hkeys : ∀ act ∈ sparseActs, act.KeysRows := by
    refine List.forall_mem_cons.2 ⟨?_, ?_⟩
    · rintro ks ⟨⟩ -
      exact .swap (Key.int 0) (Key.int 1) []
    · simp [Act.KeysRows]
  have hcount : e.determineNonZeroCount = .ok (.known 2) := rfl
  refine ⟨_, hrun, .inl rfl, hcount, fun blocks => ?_⟩
  obtain ⟨g, hg⟩ : ∃ g, (e.exec blocks 0).result = .ok g := ⟨_, rfl⟩
  obtain ⟨hexact, -⟩ := hrun.counts_exact (Stage.initial_ofScript _) hkeys
  have hknown := hexact e (.inl rfl) _ hcount rfl 4 4 e (Nat.le_refl 4) rfl blocks 0 g hg
  exact ⟨g, hg, (Int.ofNat.inj (congrArg NonZeroCount.get hknown)).symm⟩

end RowAlgebra
