import RowAlgebra.Proofs.Manager.Results

/-!
# Replacing parts of an expression by their results

`Answers start acts act r` says that `r` was the answer to an act of a run. An expression is
`Rewritten` if some of its parts have been replaced by what a manager answered for them in a run.
What is asked for may have been rewritten before, so parts can be nested, and nothing is said of the
order, of storage levels or of what is forgotten in between.

A rewritten expression may get quite another plan, but it is tabular and means the same matrix
(`Expr.Rewritten.tabular`). So it does not matter whether an expression is computed at once or piece
by piece (`Run.collect_of_rewritten`).
-/

namespace RowAlgebra

variable {α : Type} [Cell α]

/-! ## The answers of a run -/

namespace Stage

/-- What the manager of a stage answers to an act, if it is a request. -/
def reply (s : Stage α) : Act α → Option (Except Error (Expr α))
  | .parallelize matrix partitions keys level =>
    some (s.managed.parallelize matrix partitions keys level).1
  | .checkpoint blocks e level => some (s.managed.checkpoint blocks e level).1
  | _ => none

def after (start : Stage α) (acts : List (Act α)) : Stage α :=
  acts.foldl step start

end Stage

/-- Whether an act of a run was answered by an expression. -/
def Answers (start : Stage α) (acts : List (Act α)) (act : Act α) (r : Expr α) : Prop :=
  ∃ before rest, acts = before ++ act :: rest ∧ (start.after before).reply act = some (.ok r)

section Runs

variable {start s : Stage α} {acts : List (Act α)}

theorem Run.eq_after (h : Run start acts s) : s = start.after acts := by
  induction h with
  | refl => rfl
  | step _ act _ ih => rw [Stage.after, List.foldl_concat, ih, Stage.after]

/-- The stage of a run at which an act is taken. -/
theorem Run.split (h : Run start acts s) {before rest : List (Act α)} {act : Act α}
    (hacts : acts = before ++ act :: rest) :
    Run start before (start.after before) ∧ act.IsOn (start.after before).nodes := by
  induction h generalizing rest with
  | refl => simp at hacts
  | @step acts' s' hrun act' on ih =>
    rcases List.eq_nil_or_concat rest with rfl | ⟨rest, last, rfl⟩
    · obtain ⟨rfl, hact⟩ := List.append_inj' hacts rfl
      obtain rfl : act' = act := by simpa using hact
      rw [← hrun.eq_after]
      exact ⟨hrun, on⟩
    · have hsplit : acts' ++ [act'] = (before ++ act :: rest) ++ [last] := by simpa using hacts
      exact ih (List.append_inj' hsplit rfl).1

omit s in
/-- What a request for a leaf is answered with has been distributed. -/
theorem Answers.distributed {matrix : InCore α} {partitions : Int} {keys : Option GivenKeys}
    {level : StorageLevel} {r : Expr α}
    (h : Answers start acts (.parallelize matrix partitions keys level) r) :
    ∃ s s' m n c, r = .checkpoint n c ∧
      Managed.Distributed s s' matrix partitions keys level m n c := by
  obtain ⟨before, rest, -, hreply⟩ := h
  have hok := Option.some.inj hreply
  rcases (start.after before).managed.parallelize_cases matrix partitions keys level with
    ⟨error, herror⟩ | ⟨m, n, c, hnew, hdistributed⟩
  · rw [herror] at hok
    cases hok
  · rw [hnew] at hok
    cases hok
    exact ⟨_, _, m, n, c, rfl, hdistributed⟩

end Runs

/-! ## Rewriting -/

namespace Expr

/-- The expressions in which some parts of an expression have been replaced by their results. -/
inductive Rewritten (blocks : BlockCatalogue α) (start : Stage α) (acts : List (Act α)) :
    Expr α → Expr α → Prop
  | refl (e : Expr α) : Rewritten blocks start acts e e
  | unary (i j : NodeId) (op : UnaryOp α) {a a' : Expr α} (h : Rewritten blocks start acts a a') :
      Rewritten blocks start acts (unary i op a) (unary j op a')
  | binary (i j : NodeId) (op : BinaryOp) {a a' b b' : Expr α}
      (ha : Rewritten blocks start acts a a') (hb : Rewritten blocks start acts b b') :
      Rewritten blocks start acts (binary i op a b) (binary j op a' b')
  /-- What was asked for, which may be rewritten already, gives way to the answer. -/
  | result {e e' r : Expr α} {level : StorageLevel} (h : Rewritten blocks start acts e e')
      (hr : Answers start acts (.checkpoint blocks e' level) r) : Rewritten blocks start acts e r

end Expr

section Rewriting

variable [Field α] [ExactCell α] [LawfulScalars α] {blocks : BlockCatalogue α}
  {rowFn : BlockName → Key → Row α → Row α} {start s : Stage α} {acts : List (Act α)}

/-- A run whose block functions are those of one catalogue. -/
structure Run.Regular (blocks : BlockCatalogue α) (start : Stage α) (acts : List (Act α))
    (s : Stage α) : Prop where
  initial : start.Initial
  run : Run start acts s
  uses : ∀ act ∈ acts, act.Uses blocks

/-- An answer is a result of the expression that was asked for. -/
theorem Run.Regular.answer (h : Run.Regular blocks start acts s) {e r : Expr α}
    {level : StorageLevel} (hr : Answers start acts (.checkpoint blocks e level) r) :
    ∃ n c, r = .checkpoint n c ∧ e.HasResult blocks rowFn c := by
  obtain ⟨before, rest, hacts, hreply⟩ := hr
  obtain ⟨hrun, on⟩ := h.run.split hacts
  have huses : ∀ act ∈ before, act.Uses blocks := fun act ha => h.uses act (by simp [hacts, ha])
  have hf : (start.after before).Faithful blocks rowFn := hrun.faithful h.initial huses
  exact (hrun.housed h.initial).answer hf on (Option.some.inj hreply)

omit [ExactCell α] [LawfulScalars α] in
/-- A leaf without keys represents a matrix, and its keys are plain integers. -/
theorem Answers.leaf {matrix : InCore α} {partitions : Int} {level : StorageLevel} {i : NodeId}
    {c : Checkpoint α}
    (h : Answers start acts (.parallelize matrix partitions none level) (.checkpoint i c)) :
    c.handle.Represents c.schema c.mat ∧ c.keyType = .int := by
  obtain ⟨s, s', m, n, c', hleaf, hdistributed⟩ := h.distributed
  cases hleaf
  have hrep := hdistributed.represents
  rw [hrep.mat_eq]
  exact ⟨hrep, hdistributed.keyType.trans hdistributed.keyType_int⟩

/-- A rewritten expression has the same type of keys. -/
theorem Expr.Rewritten.keyType_eq (h : Run.Regular blocks start acts s) {e e' : Expr α}
    (hrw : e.Rewritten blocks start acts e') : e'.keyType = e.keyType := by
  induction hrw with
  | refl e => rfl
  | @unary i j op a a' _ ih =>
    rw [keyType, keyType, schema, schema, UnaryOp.keyType_schema, UnaryOp.keyType_schema]
    exact congrArg op.cleanKeyType ih
  | binary i j op _ _ iha ihb =>
    rcases op.keyType_schema with hop | hop <;> simp only [keyType, schema, hop]
    exact iha
  | result _ hr ih =>
    let rowFn : BlockName → Key → Row α → Row α := fun _ _ row => row
    obtain ⟨n, c, rfl, hresult⟩ : ∃ n c, _ = checkpoint n c ∧ HasResult blocks rowFn _ c :=
      h.answer hr
    exact hresult.keyType.trans ih

/-- A rewritten expression is tabular, and means the same matrix. -/
theorem Expr.Rewritten.tabular (h : Run.Regular blocks start acts s) {e e' : Expr α}
    (hrw : e.Rewritten blocks start acts e') (ht : e.Tabular blocks rowFn) :
    e'.Tabular blocks rowFn ∧ (Interpretation.ofRows rowFn).meaning e' =
      (Interpretation.ofRows rowFn).meaning e := by
  induction hrw with
  | refl e => exact ⟨ht, rfl⟩
  | unary i j op _ ih =>
    obtain ⟨hop, ha⟩ := tabular_unary.1 ht
    obtain ⟨ha', hmeaning⟩ := ih ha
    refine ⟨tabular_unary.2 ⟨hop.congr (ncol_eq_of_meaning hmeaning), ha'⟩, ?_⟩
    simp only [Interpretation.meaning, hmeaning]
  | binary i j op _ _ iha ihb =>
    obtain ⟨ha, hb⟩ := tabular_binary.1 ht
    obtain ⟨ha', hmeaning⟩ := iha ha
    obtain ⟨hb', hmeaning'⟩ := ihb hb
    refine ⟨tabular_binary.2 ⟨ha', hb'⟩, ?_⟩
    simp only [Interpretation.meaning, hmeaning, hmeaning']
  | result _ hr ih =>
    obtain ⟨ht', hmeaning⟩ := ih ht
    obtain ⟨n, c, rfl, hresult⟩ := h.answer hr
    have hrep := hresult.represents ht'
    have hmat := hrep.mat_eq
    refine ⟨⟨fun i c' hc' => ?_, fun i op a ha => ?_⟩, hmat.trans hmeaning⟩
    · obtain ⟨rfl, rfl⟩ : i = n ∧ c' = c := by simpa [walk] using hc'
      rw [hmat]
      exact hrep
    · simp [walk] at ha

/-- **Replacing parts by their results keeps the answer**: let the leaves of an expression be
distributed without keys, let its scalars be cells, and let its block functions keep keys and work
row by row. If both the expression and a rewritten one have been answered, then both answers have the
same shape and integer keys, and gathering them gives the same matrix. -/
theorem Run.collect_of_rewritten (h : Run.Regular blocks start acts s) {e e' : Expr α}
    (hleaves : ∀ i c, .checkpoint i c ∈ e.walk → ∃ matrix partitions level,
      Answers start acts (.parallelize matrix partitions none level) (.checkpoint i c))
    (hoperators : ∀ i op a, .unary i op a ∈ e.walk → op.ActsOnRows blocks rowFn a.schema)
    (hrw : e.Rewritten blocks start acts e') {level level' : StorageLevel} {r r' : Expr α}
    (hr : Answers start acts (.checkpoint blocks e level) r)
    (hr' : Answers start acts (.checkpoint blocks e' level') r') :
    ∃ n c n' c', r = .checkpoint n c ∧ r' = .checkpoint n' c' ∧ c'.shape = c.shape ∧
      c.keyType = .int ∧ c'.keyType = .int ∧ ∃ m, c.handle.collect (some c.nrow) = .ok m ∧
        c'.handle.collect (some c'.nrow) = .ok m := by
  have ht : e.Tabular blocks rowFn := by
    refine ⟨fun i c hc => ?_, hoperators⟩
    obtain ⟨matrix, partitions, level, hleaf⟩ := hleaves i c hc
    exact hleaf.leaf.1
  have hplain : e.hasDerivedKeys = false := by
    by_contra hderived
    obtain ⟨i, c, hc, hderived⟩ :=
      Expr.exists_leaf_of_hasDerivedKeys (Bool.not_eq_false _ ▸ hderived)
    obtain ⟨matrix, partitions, level, hleaf⟩ := hleaves i c hc
    rw [hleaf.leaf.2] at hderived
    cases hderived
  obtain ⟨ht', hmeaning⟩ := hrw.tabular h ht
  obtain ⟨n, c, rfl, hresult⟩ : ∃ n c, r = .checkpoint n c ∧ e.HasResult blocks rowFn c :=
    h.answer hr
  obtain ⟨n', c', rfl, hresult'⟩ : ∃ n c, r' = .checkpoint n c ∧ e'.HasResult blocks rowFn c :=
    h.answer hr'
  have hc := hresult.represents ht
  have hc' := hresult'.represents ht'
  have htype : c.keyType = .int := by
    refine KeyType.eq_int hc.fits.keyType ?_
    rw [hresult.keyType]
    exact Bool.eq_false_iff.2 fun hd =>
      Bool.eq_false_iff.1 hplain (Expr.hasDerivedKeys_of_isDerived hd)
  have htype' : c'.keyType = .int :=
    hresult'.keyType.trans ((hrw.keyType_eq h).trans (hresult.keyType.symm.trans htype))
  rw [hmeaning] at hc'
  have hnrow : c'.nrow = c.nrow := hc'.fits.nrow.trans hc.fits.nrow.symm
  have hncol : c'.ncol = c.ncol := hc'.fits.ncol.trans hc.fits.ncol.symm
  refine ⟨n, c, n', c', rfl, rfl, ?_, htype, htype', _, hc.collect_eq, hc'.collect_eq⟩
  rw [Checkpoint.shape, Checkpoint.shape, hnrow, hncol]

end Rewriting

/-! ### A column that is transposed twice -/

def sampleColumn : Dense ℚ :=
  ⟨2, 1, #v[#v[1], #v[2]]⟩

/-- The column in two partitions. -/
def columnLeaf : Expr ℚ :=
  .checkpoint 0 ⟨⟨⟨[[(.int 0, .plain [1])], [(.int 1, .plain [2])]], .int⟩, 1⟩, 0, 2, 1,
    .known sampleColumn.nonZeros, .memoryOnly, 7, .int⟩

def columnTransposed : Expr ℚ :=
  .unary 1 .transpose columnLeaf

/-- The answer for the transposed column. -/
def columnRow : Expr ℚ :=
  .checkpoint 2 ⟨⟨⟨[[(.int 0, .plain [1, 2])]], .int⟩, 2⟩, 2, 1, 2, .known sampleColumn.nonZeros,
    .diskOnly, 9, .int⟩

def columnStart : Stage ℚ :=
  .ofScript [2 ^ 63, 2 ^ 63 + 7, 2 ^ 63 + 9, 2 ^ 63 + 11]

def columnBlocks : BlockCatalogue ℚ :=
  fun _ keys block => .ok ⟨keys, block, keys⟩

/-- The transposed column is computed and forgotten; then it is transposed again, as it is and as
its result. -/
def columnActs : List (Act ℚ) :=
  [.parallelize (.matrix sampleColumn) 2 none .memoryOnly, .unary .transpose columnLeaf,
    .checkpoint columnBlocks columnTransposed .diskOnly, .forget 1,
    .unary .transpose columnTransposed, .unary .transpose columnRow,
    .checkpoint columnBlocks (.unary 3 .transpose columnTransposed) .none,
    .checkpoint columnBlocks (.unary 4 .transpose columnRow) .memoryOnly]

theorem columnActs_regular :
    Run.Regular columnBlocks columnStart columnActs (columnStart.after columnActs) := by
  have hleaf : columnLeaf ∈ (columnStart.after (columnActs.take 1)).nodes := .inl rfl
  have hx : columnTransposed ∈ (columnStart.after (columnActs.take 2)).nodes := .inl rfl
  have hx' : columnTransposed ∈ (columnStart.after (columnActs.take 4)).nodes := .inr (.inl rfl)
  have hrow : columnRow ∈ (columnStart.after (columnActs.take 5)).nodes := .inr (.inl rfl)
  have he : .unary 3 .transpose columnTransposed ∈ (columnStart.after (columnActs.take 6)).nodes :=
    .inr (.inl rfl)
  have he' : .unary 4 .transpose columnRow ∈ (columnStart.after (columnActs.take 7)).nodes :=
    .inr (.inl rfl)
  refine ⟨Stage.initial_ofScript _, ?_, ?_⟩
  · exact (((((((Run.refl.step (.parallelize (.matrix sampleColumn) 2 none .memoryOnly) trivial).step
      (.unary .transpose columnLeaf) hleaf).step
      (.checkpoint columnBlocks columnTransposed .diskOnly) hx).step (.forget 1) trivial).step
      (.unary .transpose columnTransposed) hx').step (.unary .transpose columnRow) hrow).step
      (.checkpoint columnBlocks _ .none) he).step (.checkpoint columnBlocks _ .memoryOnly) he'
  · simp [columnActs, Act.Uses]

/-- The plan of one expression is the leaf itself, and that of the other one transposes a row, but
both come to one matrix. -/
theorem Run.collect_of_rewritten_column :
    let e : Expr ℚ := .unary 3 .transpose columnTransposed
    let e' : Expr ℚ := .unary 4 .transpose columnRow
    e.Rewritten columnBlocks columnStart columnActs e' ∧ ∃ n c n' c' m,
      Answers columnStart columnActs (.checkpoint columnBlocks e .none) (.checkpoint n c) ∧
      Answers columnStart columnActs (.checkpoint columnBlocks e' .memoryOnly) (.checkpoint n' c') ∧
      c.handle.collect (some c.nrow) = .ok m ∧ c'.handle.collect (some c'.nrow) = .ok m := by
  intro e e'
  have hrow : Answers columnStart columnActs (.checkpoint columnBlocks columnTransposed .diskOnly)
      columnRow := ⟨columnActs.take 2, columnActs.drop 3, rfl, rfl⟩
  have hrw : e.Rewritten columnBlocks columnStart columnActs e' :=
    .unary 3 4 .transpose (.result (.refl _) hrow)
  obtain ⟨r, hr⟩ : ∃ r, Answers columnStart columnActs (.checkpoint columnBlocks e .none) r :=
    ⟨_, columnActs.take 6, columnActs.drop 7, rfl, rfl⟩
  obtain ⟨r', hr'⟩ : ∃ r,
      Answers columnStart columnActs (.checkpoint columnBlocks e' .memoryOnly) r :=
    ⟨_, columnActs.take 7, columnActs.drop 8, rfl, rfl⟩
  have hleaves : ∀ i c, .checkpoint i c ∈ e.walk → ∃ matrix partitions level,
      Answers columnStart columnActs (.parallelize matrix partitions none level)
        (.checkpoint i c) := by
    intro i c hc
    have hleaf : .checkpoint i c = columnLeaf :=
      List.mem_singleton.1 (Expr.leaf_mem_unary.1 (Expr.leaf_mem_unary.1 hc))
    rw [hleaf]
    exact ⟨.matrix sampleColumn, 2, .memoryOnly, [], _, rfl, rfl⟩
  have hoperators : ∀ i op a, .unary i op a ∈ e.walk →
      op.ActsOnRows columnBlocks (fun _ _ row => row) a.schema := by
    intro i op a ha
    have hop : op = .transpose := by
      rcases List.mem_cons.1 ha with hroot | ha
      · exact (Expr.unary.inj hroot).2.1
      · rcases List.mem_cons.1 ha with hinput | ha
        · exact (Expr.unary.inj hinput).2.1
        · cases List.mem_singleton.1 ha
    subst hop
    trivial
  obtain ⟨n, c, n', c', rfl, rfl, -, -, -, m, hm, hm'⟩ :=
    Run.collect_of_rewritten columnActs_regular hleaves hoperators hrw hr hr'
  exact ⟨hrw, n, c, n', c', m, hr, hr', hm, hm'⟩

end RowAlgebra
