import RowAlgebra.Proofs.Keyed.Meaning
import RowAlgebra.Proofs.Manager.Run
import RowAlgebra.Proofs.Plan.Metadata
import RowAlgebra.Proofs.Plan.Tags

/-!
# What results stand for

The plan of a tabular expression is tabular, and means the same matrix (`Planned.tabular`,
`Planned.meaning_eq`). So the result that a manager computes for an expression represents the matrix
of that expression (`Stage.Housed.materialized`). A stage is `Faithful` if this holds of all results
that are remembered. Every act keeps it (`Stage.Housed.faithful_step`), and hence whatever a manager
answers to a request represents the matrix that was asked for (`Stage.Housed.answer`), whether it is
computed or remembered. This does not hang on tags: a product that is zipped on account of them looks
at the keys first. Leaves without keys represent the matrices that they were made of
(`Managed.Distributed.represents`).
-/

namespace RowAlgebra

variable {α : Type} [Cell α] [Field α] [ExactCell α]
variable {blocks : BlockCatalogue α} {rowFn : BlockName → Key → Row α → Row α}

/-! ## Plans of tabular expressions -/

namespace Expr

omit [ExactCell α] in
theorem tabular_unary {i : NodeId} {op : UnaryOp α} {a : Expr α} :
    (unary i op a).Tabular blocks rowFn ↔
      op.ActsOnRows blocks rowFn a.schema ∧ a.Tabular blocks rowFn := by
  constructor
  · intro h
    refine ⟨h.operators i op a (mem_walk_self _), fun j c hc => ?_, fun j op' b hb => ?_⟩
    · exact h.leaves j c (leaf_mem_unary.2 hc)
    · exact h.operators j op' b (by simp [walk_unary, hb])
  · rintro ⟨hop, ha⟩
    refine ⟨fun j c hc => ha.leaves j c (leaf_mem_unary.1 hc), fun j op' b hb => ?_⟩
    rw [walk_unary] at hb
    rcases List.mem_cons.1 hb with heq | hb
    · cases heq
      exact hop
    · exact ha.operators j op' b hb

omit [ExactCell α] in
theorem tabular_binary {i : NodeId} {op : BinaryOp} {a b : Expr α} :
    (binary i op a b).Tabular blocks rowFn ↔
      a.Tabular blocks rowFn ∧ b.Tabular blocks rowFn := by
  constructor
  · intro h
    refine ⟨⟨fun j c hc => ?_, fun j op' x hx => ?_⟩, ⟨fun j c hc => ?_, fun j op' x hx => ?_⟩⟩
    · exact h.leaves j c (leaf_mem_binary.2 (.inl hc))
    · exact h.operators j op' x (by simp [walk_binary, hx])
    · exact h.leaves j c (leaf_mem_binary.2 (.inr hc))
    · exact h.operators j op' x (by simp [walk_binary, hx])
  · rintro ⟨ha, hb⟩
    refine ⟨fun j c hc => ?_, fun j op' x hx => ?_⟩
    · rcases leaf_mem_binary.1 hc with hc | hc
      · exact ha.leaves j c hc
      · exact hb.leaves j c hc
    · rw [walk_binary] at hx
      rcases List.mem_cons.1 hx with heq | hx
      · cases heq
      · rcases List.mem_append.1 hx with hx | hx
        · exact ha.operators j op' x hx
        · exact hb.operators j op' x hx

variable [LawfulScalars α] {next : NodeId} {nodes : Set (Expr α)}

/-- Expressions that mean the same matrix have equally many columns. -/
theorem ncol_eq_of_meaning {e e' : Expr α}
    (h : (Interpretation.ofRows rowFn).meaning e' = (Interpretation.ofRows rowFn).meaning e) :
    e'.schema.ncol.toNat = e.schema.ncol.toNat :=
  ((Interpretation.meaning_shape _ e').2.symm.trans (congrArg Mat.ncol h)).trans
    (Interpretation.meaning_shape _ e).2

theorem NormalForm.tabular (hp : Population next nodes) {e e' : Expr α} (h : NormalForm e e')
    (he : e ∈ nodes) (ht : e.Tabular blocks rowFn) : e'.Tabular blocks rowFn := by
  induction h with
  | checkpoint => exact ht
  | gramian i j k hop hs ha iha =>
    have hleft := (tabular_unary.1 (tabular_binary.1 ht).1).2
    exact tabular_unary.2 ⟨trivial, iha (hp.input (hp.left he)) hleft⟩
  | timesTransposed i j k hg ha hb iha ihb =>
    obtain ⟨hleft, hright⟩ := tabular_binary.1 ht
    exact tabular_binary.2
      ⟨iha (hp.left he) hleft, ihb (hp.input (hp.right he)) (tabular_unary.1 hright).2⟩
  | transposedTimes i j k hop hs ht' ha hb iha ihb =>
    obtain ⟨hleft, hright⟩ := tabular_binary.1 ht
    exact tabular_binary.2
      ⟨iha (hp.input (hp.left he)) (tabular_unary.1 hleft).2, ihb (hp.right he) hright⟩
  | @times i j k a a' b b' hl ht' ha hb iha ihb =>
    obtain ⟨hleft, hright⟩ := tabular_binary.1 ht
    have hflip : (transposition b.keyType).ActsOnRows blocks rowFn b'.schema := by
      unfold transposition
      split <;> trivial
    exact tabular_binary.2 ⟨iha (hp.left he) hleft,
      tabular_unary.2 ⟨hflip, ihb (hp.right he) hright⟩⟩
  | leftMultiply i j k l m ha iha =>
    have hinput := iha (hp.input he) (tabular_unary.1 ht).2
    exact tabular_unary.2 ⟨trivial, tabular_unary.2 ⟨trivial, tabular_unary.2 ⟨trivial, hinput⟩⟩⟩
  | unary i j hop ha iha =>
    obtain ⟨hacts, hinput⟩ := tabular_unary.1 ht
    have hncol := ncol_eq_of_meaning (ha.meaning_eq (.ofRows rowFn) hp (hp.input he))
    exact tabular_unary.2 ⟨hacts.congr hncol, iha (hp.input he) hinput⟩
  | binary i j hop ha hb iha ihb =>
    obtain ⟨hleft, hright⟩ := tabular_binary.1 ht
    exact tabular_binary.2 ⟨iha (hp.left he) hleft, ihb (hp.right he) hright⟩

theorem CleanForm.tabular {e e' : Expr α} (h : CleanForm e e') (ht : e.Tabular blocks rowFn) :
    e'.Tabular blocks rowFn := by
  induction h with
  | checkpoint => exact ht
  | double i j ha iha => exact iha (tabular_unary.1 (tabular_unary.1 ht).2).2
  | unary i j hop hd ha iha =>
    obtain ⟨hacts, hinput⟩ := tabular_unary.1 ht
    have hncol := ncol_eq_of_meaning (ha.meaning_eq (.ofRows rowFn))
    exact tabular_unary.2 ⟨hacts.congr hncol, iha hinput⟩
  | binary i j op ha hb iha ihb =>
    obtain ⟨hleft, hright⟩ := tabular_binary.1 ht
    exact tabular_binary.2 ⟨iha hleft, ihb hright⟩

theorem Planned.tabular (hp : Population next nodes) {e plan : Expr α} (h : e.Planned plan)
    (he : e ∈ nodes) (ht : e.Tabular blocks rowFn) : plan.Tabular blocks rowFn := by
  obtain ⟨middle, hn, hc⟩ := h
  exact hc.cleanForm.tabular (hn.normalForm.tabular hp he ht)

omit [Field α] [ExactCell α] [LawfulScalars α] in
theorem Planned.meaning_eq {R : Type} [CommRing R] (I : Interpretation α R)
    (hp : Population next nodes) {e plan : Expr α} (h : e.Planned plan) (he : e ∈ nodes) :
    I.meaning plan = I.meaning e := by
  obtain ⟨middle, hn, hc⟩ := h
  exact (hc.cleanForm.meaning_eq I).trans (hn.normalForm.meaning_eq I hp he)

/-- Whether a checkpoint has the type of keys of an expression, and represents its matrix if it is
tabular. -/
structure HasResult (blocks : BlockCatalogue α) (rowFn : BlockName → Key → Row α → Row α)
    (e : Expr α) (c : Checkpoint α) : Prop where
  keyType : c.keyType = e.keyType
  represents : e.Tabular blocks rowFn →
    c.handle.Represents c.schema ((Interpretation.ofRows rowFn).meaning e)

end Expr

/-! ## New results -/

namespace Stage

variable [LawfulScalars α] {s : Stage α}

/-- What is computed of an expression represents its matrix. -/
theorem Housed.materialized (hs : s.Housed) {e plan : Expr α} (he : e ∈ s.nodes) {s' : Managed α}
    {level : StorageLevel} {n : NodeId} {c : Checkpoint α}
    (h : s.managed.Materialized blocks s' e level plan n c) : e.HasResult blocks rowFn c := by
  refine ⟨h.keyType, fun ht => ?_⟩
  obtain ⟨nodes', -, hp', hmem, hplan⟩ := Expr.planned_of_optimize hs.population he h.optimize
  have hadm : ∀ x ∈ plan.walk, x.Admitted := fun x hx => hp'.admitted x (hp'.walk_subset hmem x hx)
  have hrep := (Expr.exec_represents (hplan.tabular hs.population he ht) hadm _).of_ok h.exec
  rw [hplan.meaning_eq _ hs.population he] at hrep
  -- the checkpoint has the shape of the expression, and so has the plan
  obtain ⟨hrows, hcolumns⟩ := Schema.shape_eq_ok_iff.1 h.shape
  refine ⟨hrep.tabulated, hrep.keyType, ?_, ?_, ?_⟩
  · exact hrep.fits.rows_eq (hplan.refines.rows.trans hrows)
  · exact hrep.fits.columns_eq (hplan.refines.columns.trans hcolumns)
  · have hint := hplan.refines.keyType.isInt_eq.symm.trans hrep.fits.keyType
    exact (congrArg KeyType.isInt h.keyType).trans hint

/-! ## Remembered results -/

/-- All results that are remembered represent the matrices of their nodes. -/
def Faithful (blocks : BlockCatalogue α) (rowFn : BlockName → Key → Row α → Row α)
    (s : Stage α) : Prop :=
  ∀ entry ∈ s.managed.manager.entries, ∃ e ∈ s.nodes, e.id = entry.node ∧
    e.HasResult blocks rowFn entry.checkpoint

/-- Whatever a manager answers to a request is a result of the expression that was asked for. -/
theorem Housed.answer (hs : s.Housed) (hf : s.Faithful blocks rowFn) {e r : Expr α}
    (he : e ∈ s.nodes) {level : StorageLevel}
    (h : (s.managed.checkpoint blocks e level).1 = .ok r) :
    ∃ n c, r = .checkpoint n c ∧ e.HasResult blocks rowFn c := by
  rcases s.managed.checkpoint_cases blocks e level with
    ⟨i, c, rfl, hc⟩ | ⟨entry, hentry, hnode, hc⟩ | ⟨error, herror, -⟩ | ⟨plan, n, c, hok, hnew⟩
  · rw [hc] at h
    cases h
    exact ⟨i, c, rfl, rfl, fun ht => ht.leaves i c (Expr.mem_walk_self _)⟩
  · rw [hc] at h
    cases h
    obtain ⟨e', he', hid, hresult⟩ := hf entry hentry
    obtain rfl : e' = e := hs.population.identified e' he' e he (hid.trans hnode)
    exact ⟨entry.id, entry.checkpoint, rfl, hresult⟩
  · rw [herror] at h
    cases h
  · rw [hok] at h
    cases h
    exact ⟨n, c, rfl, hs.materialized he hnew⟩

/-- A stage stays faithful if each result that it remembers was remembered or is a right one. -/
theorem Faithful.keep {t : Stage α} (hf : s.Faithful blocks rowFn) (hnodes : s.nodes ⊆ t.nodes)
    (hentries : ∀ entry ∈ t.managed.manager.entries, entry ∈ s.managed.manager.entries ∨
      ∃ e ∈ s.nodes, e.id = entry.node ∧ e.HasResult blocks rowFn entry.checkpoint) :
    t.Faithful blocks rowFn := by
  intro entry hentry
  have hold : ∃ e ∈ s.nodes, e.id = entry.node ∧ e.HasResult blocks rowFn entry.checkpoint :=
    (hentries entry hentry).elim (hf entry) id
  obtain ⟨e, he, hid, hresult⟩ := hold
  exact ⟨e, hnodes he, hid, hresult⟩

theorem Housed.faithful_checkpoint (hs : s.Housed) (hf : s.Faithful blocks rowFn) {e : Expr α}
    (he : e ∈ s.nodes) (level : StorageLevel) :
    (s.absorb (s.managed.checkpoint blocks e level)).Faithful blocks rowFn := by
  refine hf.keep (s.subset_absorb _) fun entry hentry => ?_
  change entry ∈ (s.managed.checkpoint blocks e level).2.manager.entries at hentry
  rcases s.managed.checkpoint_cases blocks e level with
    ⟨i, c, rfl, h⟩ | ⟨found, -, -, h⟩ | ⟨error, -, h⟩ | ⟨plan, n, c, -, h⟩
  · rw [h] at hentry
    exact .inl hentry
  · rw [h] at hentry
    exact .inl hentry
  · exact .inl (h.entries ▸ hentry)
  · rcases List.mem_append.1 (h.entries ▸ hentry) with hold | hnew
    · exact .inl hold
    · obtain rfl := List.mem_singleton.1 hnew
      exact .inr ⟨e, he, rfl, hs.materialized he h⟩

end Stage

/-- Whether an act that runs block functions takes them from a catalogue. -/
def Act.Uses (blocks : BlockCatalogue α) : Act α → Prop
  | .checkpoint blocks' _ _ => blocks' = blocks
  | _ => True

variable [LawfulScalars α]

theorem Stage.Housed.faithful_step {s : Stage α} (hs : s.Housed) (hf : s.Faithful blocks rowFn)
    {act : Act α} (on : act.IsOn s.nodes) (huses : act.Uses blocks) :
    (s.step act).Faithful blocks rowFn := by
  have hnodes := s.subset_step act
  cases act with
  | parallelize matrix partitions keys level =>
    refine hf.keep hnodes fun entry hentry => .inl ?_
    change entry ∈ (s.managed.parallelize matrix partitions keys level).2.manager.entries at hentry
    rcases s.managed.parallelize_cases matrix partitions keys level with
      ⟨error, h⟩ | ⟨m, n, c, -, h⟩
    · rw [h] at hentry
      exact hentry
    · exact h.entries ▸ hentry
  | checkpoint blocks' e level =>
    obtain rfl : blocks' = blocks := huses
    exact hs.faithful_checkpoint hf on level
  | unary | binary | foreign =>
    refine hf.keep hnodes fun entry hentry => .inl ?_
    exact s.build_manager _ ▸ hentry
  | forget node => exact hf.keep hnodes fun entry hentry => .inl (List.mem_of_mem_filter hentry)
  | clear => exact hf.keep hnodes fun entry hentry => absurd hentry List.not_mem_nil
  | release c => exact hf.keep hnodes fun entry hentry => .inl hentry

/-- **Results are right over whole runs**: what is remembered represents the matrices of its nodes. -/
theorem Run.faithful {start s : Stage α} {acts : List (Act α)} (h₀ : start.Initial)
    (h : Run start acts s) (huses : ∀ act ∈ acts, act.Uses blocks) : s.Faithful blocks rowFn := by
  induction h with
  | refl =>
    intro entry hentry
    rw [h₀.entries] at hentry
    cases hentry
  | step hrun act on ih =>
    obtain ⟨huses, hact⟩ := List.forall_mem_append.1 huses
    exact (hrun.housed h₀).faithful_step (ih huses) on (hact act (List.mem_singleton_self act))

/-! ## Leaves without keys -/

namespace Managed.Distributed

variable {s s' : Managed α} {matrix : InCore α} {partitions : Int} {level : StorageLevel}
  {m : Dense α} {n : NodeId} {c : Checkpoint α}
  (h : s.Distributed s' matrix partitions none level m n c)

include h

omit [LawfulScalars α] [ExactCell α] [Field α] in
/-- The keys of a leaf without keys are positions. -/
theorem keyType_int : c.handle.collection.keyType = .int := by
  rw [(distribute_eq_ok h.rows).2.2]
  change (GivenKeys.plain ((List.range m.nrow).map fun (i : ℕ) => Key.int i)).types.headD .int = _
  rw [GivenKeys.types_plain]
  cases m.nrow with
  | zero => rfl
  | succ n =>
    rw [List.range_succ_eq_map]
    rfl

omit [LawfulScalars α] [ExactCell α] in
/-- A leaf without keys represents the matrix that it was made of. -/
theorem represents : c.handle.Represents c.schema m.mat := by
  obtain ⟨-, hpartitions, hspread⟩ := distribute_eq_ok h.rows
  have hk : 0 < partitions.toNat := by omega
  have hrows : c.handle.collection.rows =
      ((List.range m.nrow).map .ofNat).map m.matrix.entry := by
    rw [hspread, Collection.rows_spread _ hk]
    change ((List.range m.nrow).map fun (i : ℕ) => Key.int i).zip (m.rows.map Cells.plain) = _
    refine List.ext_getElem (by simp [Dense.length_rows]) fun i h₁ h₂ => ?_
    have hi : i < m.rows.length := by simpa [m.length_rows] using h₂
    have hrow : m.rows[i] = (List.range m.ncol).map fun j => m.rows[i].getD j Cell.zero := by
      rw [← Dense.length_of_mem_rows (List.getElem_mem hi), map_range_getD]
    have hentry : m.matrix.entry (.ofNat i) = (.int i, .plain m.rows[i]) := by
      rw [hrow]
      simp [KeyedMatrix.entry, KeyedMatrix.row, Dense.matrix, KeyedMatrix.ofFn,
        KeyedMatrix.atPositions, KeyValue.index_ofNat, List.getElem?_eq_getElem hi]
    simp [hentry]
  have hholds : c.handle.Holds m.matrix := by
    refine ⟨h.ncol, ?_, _, KeyedMatrix.enumerates_ofFn _ _ _, hrows⟩
    rw [hspread]
    exact Collection.partitions_spread_ne_nil _ hk _
  have hint : c.handle.collection.keyType.isInt = true := congrArg KeyType.isInt h.keyType_int
  refine ⟨⟨m.matrix, hholds, m.tabulates⟩, hint, ?_, ?_, (congrArg KeyType.isInt h.keyType).trans hint⟩
  · exact congrArg Shape.nrow h.shape
  · exact congrArg Shape.ncol h.shape

end Managed.Distributed

end RowAlgebra
