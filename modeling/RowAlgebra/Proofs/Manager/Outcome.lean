import RowAlgebra.Manager
import RowAlgebra.Proofs.Exec.Placed

/-!
# What a manager answers

`Managed.checkpoint` answers in one of four ways (`Managed.checkpoint_cases`): an expression that is
materialized already is its own answer, a remembered result is found again, a new result is
`Managed.Materialized`, or else the manager has `Managed.Failed` and remembers nothing.
`Managed.parallelize` makes a leaf, or fails without a trace (`Managed.parallelize_cases`).
-/

namespace RowAlgebra.Managed

variable {α : Type}

/-- A new checkpoint `c` with the number `n`, and what there is afterwards. Its collection is the
last one that has been made, behind others that are not cached. -/
structure Created (s s' : Managed α) (n : NodeId) (c : Checkpoint α) : Prop where
  nextNode : s'.substrate.nextNode = n + 1
  storage : ∃ others, c.slot = s.substrate.storage.nextSlot + others ∧
    s'.substrate.storage = (s.substrate.storage.reserve others).allocate c.level

/-- The tag of a new checkpoint, where `t` is the tag of its rows: a fresh one if that is
unknown. -/
structure Tagged (s s' : Managed α) (t : Tag) (c : Checkpoint α) : Prop where
  tag : c.tag = if t = .unknown then s.substrate.tags.next.1 else t
  tags : s'.substrate.tags =
    if t = .unknown then s.substrate.tags.next.2 else s.substrate.tags

theorem resultTag_eq (s : Managed α) (t : Tag) : s.resultTag t =
    (if t = .unknown then s.substrate.tags.next.1 else t,
      { s with substrate := { s.substrate with
          tags := if t = .unknown then s.substrate.tags.next.2 else s.substrate.tags } }) := by
  unfold resultTag drawTag
  split <;> rfl

/-! ## Checkpoints -/

section Checkpoints

variable [Cell α] (blocks : BlockCatalogue α)

/-- What a failing materialization leaves: results and storage as they were. It may have made a plan
and calls, and drawn a tag. -/
structure Failed (s s' : Managed α) (e : Expr α) : Prop where
  entries : s'.manager.entries = s.manager.entries
  storage : s'.substrate.storage = s.substrate.storage
  nextNode : s'.substrate.nextNode = s.substrate.nextNode ∨
    ∃ plan, e.optimize s.substrate.nextNode = .ok (plan, s'.substrate.nextNode)
  tags : s'.substrate.tags = s.substrate.tags ∨ s'.substrate.tags = s.substrate.tags.next.2
  trace : s.manager.library.trace <+: s'.manager.library.trace

/-- The result `c` of an expression, computed by a plan. -/
structure Materialized (s s' : Managed α) (e : Expr α) (level : StorageLevel) (plan : Expr α)
    (n : NodeId) (c : Checkpoint α) : Prop extends Created s s' n c, Tagged s s' plan.tag c where
  count : e.determineNonZeroCount = .ok c.nonZeros
  optimize : e.optimize s.substrate.nextNode = .ok (plan, n)
  announced : ∃ words, s.announcement e plan = .ok words
  exec : (plan.exec blocks s.substrate.nextCall).result = .ok c.handle
  shape : e.shape = .ok c.shape
  keyType : c.keyType = e.keyType
  level : c.level = level
  entries : s'.manager.entries = s.manager.entries ++ [⟨e.id, n, c⟩]

theorem materialize_cases (s : Managed α) (e : Expr α) (level : StorageLevel) :
    (∃ error, (s.materialize blocks e level).1 = .error error ∧
      s.Failed (s.materialize blocks e level).2 e) ∨
    ∃ plan n c, (s.materialize blocks e level).1 = .ok (.checkpoint n c) ∧
      s.Materialized blocks (s.materialize blocks e level).2 e level plan n c := by
  unfold materialize
  cases hc : e.determineNonZeroCount with
  | error error => exact .inl ⟨error, rfl, rfl, rfl, .inl rfl, .inl rfl, List.prefix_refl _⟩
  | ok count =>
    dsimp only
    cases ho : e.optimize s.substrate.nextNode with
    | error error => exact .inl ⟨error, rfl, rfl, rfl, .inl rfl, .inl rfl, List.prefix_refl _⟩
    | ok result =>
      obtain ⟨plan, n⟩ := result
      dsimp only
      cases ha : s.announcement e plan with
      | error error => exact .inl ⟨error, rfl, rfl, rfl, .inl rfl, .inl rfl, List.prefix_refl _⟩
      | ok words =>
        dsimp only
        rw [Expr.execPlaced_result]
        cases hx : (plan.exec blocks s.substrate.nextCall).result with
        | error error =>
          exact .inl ⟨error, rfl, rfl, rfl, .inr ⟨plan, ho⟩, .inl rfl, List.prefix_append _ _⟩
        | ok handle =>
          dsimp only [Except.map]
          unfold finish
          rw [resultTag_eq]
          dsimp only
          cases hs : e.shape with
          | error error =>
            refine .inl ⟨error, rfl, rfl, rfl, .inr ⟨plan, ho⟩, ?_, List.prefix_append _ _⟩
            by_cases ht : plan.tag = .unknown
            · exact .inr (if_pos ht)
            · exact .inl (if_neg ht)
          | ok shape =>
            refine .inr ⟨plan, n, _, rfl, ⟨⟨rfl, plan.size - 1, rfl, ?_⟩, ⟨rfl, rfl⟩, hc, ho, ?_, hx,
              hs, rfl, rfl, rfl⟩⟩
            · exact plan.set_placed s.substrate.storage level
            · exact ⟨words, ha⟩

section Operators

variable (s : Managed α) {e : Expr α} (level : StorageLevel) (he : ∀ i c, e ≠ .checkpoint i c)

include he in
/-- The result of an operator is looked up before it is computed. -/
theorem checkpoint_of_operator : s.checkpoint blocks e level =
    match s.manager.find? e.id with
    | some entry => (.ok entry.result, s)
    | none => s.materialize blocks e level := by
  cases e with
  | checkpoint i c => exact absurd rfl (he i c)
  | foreign | unary | binary => rfl

include he in
theorem checkpoint_of_remembered {entry : Entry α} (h : s.manager.find? e.id = some entry) :
    s.checkpoint blocks e level = (.ok entry.result, s) := by
  rw [s.checkpoint_of_operator blocks level he, h]

include he in
theorem checkpoint_of_forgotten (h : s.manager.find? e.id = none) :
    s.checkpoint blocks e level = s.materialize blocks e level := by
  rw [s.checkpoint_of_operator blocks level he, h]

end Operators

theorem checkpoint_cases (s : Managed α) (e : Expr α) (level : StorageLevel) :
    (∃ i c, e = .checkpoint i c ∧ s.checkpoint blocks e level = (.ok e, s)) ∨
    (∃ entry ∈ s.manager.entries, entry.node = e.id ∧
      s.checkpoint blocks e level = (.ok entry.result, s)) ∨
    (∃ error, (s.checkpoint blocks e level).1 = .error error ∧
      s.Failed (s.checkpoint blocks e level).2 e) ∨
    ∃ plan n c, (s.checkpoint blocks e level).1 = .ok (.checkpoint n c) ∧
      s.Materialized blocks (s.checkpoint blocks e level).2 e level plan n c := by
  by_cases hleaf : ∃ i c, e = .checkpoint i c
  · obtain ⟨i, c, rfl⟩ := hleaf
    exact .inl ⟨i, c, rfl, rfl⟩
  · have he : ∀ i c, e ≠ .checkpoint i c := fun i c h => hleaf ⟨i, c, h⟩
    cases hf : s.manager.find? e.id with
    | some entry =>
      have hnode := List.find?_some hf
      exact .inr (.inl ⟨entry, List.mem_of_find?_eq_some hf, by simpa using hnode,
        s.checkpoint_of_remembered blocks level he hf⟩)
    | none =>
      rw [s.checkpoint_of_forgotten blocks level he hf]
      exact .inr (.inr (s.materialize_cases blocks e level))

end Checkpoints

/-! ## Leaves -/

/-- What is distributed are the rows with their keys, over as many partitions as are asked for. -/
theorem distribute_eq_ok {m : Dense α} {partitions : Int} {keys : Option GivenKeys}
    {c : Collection α} (h : distribute m partitions keys = .ok c) :
    (rowKeys m keys).keys.length = m.nrow ∧ 0 < partitions ∧
      c = .spread ((rowKeys m keys).keys.zip (m.rows.map .plain)) partitions.toNat
        ((rowKeys m keys).types.headD .int) := by
  unfold distribute at h
  change (if (rowKeys m keys).keys.length ≠ m.nrow then _
    else if (rowKeys m keys).types.any _ then _ else Collection.parallelize _ _ _) = _ at h
  split at h
  · cases h
  · next hlength =>
    split at h
    · cases h
    · unfold Collection.parallelize at h
      split at h
      · cases h
      · next hpartitions =>
        obtain ⟨_, -, h⟩ := bind_eq_ok_iff.1 h
        cases h
        exact ⟨not_not.1 hlength, by omega, rfl⟩

/-- Keys of several types are not distributed. -/
theorem type_of_distribute {m : Dense α} {partitions : Int} {keys : Option GivenKeys}
    {c : Collection α} (h : distribute m partitions keys = .ok c) :
    ∀ t ∈ (rowKeys m keys).types, t = c.keyType := by
  have htype : c.keyType = (rowKeys m keys).types.headD .int := by
    rw [(distribute_eq_ok h).2.2]
    rfl
  unfold distribute at h
  change (if (rowKeys m keys).keys.length ≠ m.nrow then _
    else if (rowKeys m keys).types.any _ then _ else Collection.parallelize _ _ _) = _ at h
  split at h
  · cases h
  · split at h
    · cases h
    · next hmixed =>
      intro t ht
      have hsame := List.any_eq_false.1 (Bool.not_eq_true _ ▸ hmixed) t ht
      rw [htype]
      simpa using hsame

structure Distributed [Cell α] (s s' : Managed α) (matrix : InCore α) (partitions : Int)
    (keys : Option GivenKeys) (level : StorageLevel) (m : Dense α) (n : NodeId)
    (c : Checkpoint α) : Prop extends Created s s' n c, Tagged s s' .unknown c where
  matrix : matrix.toDense .notDistributable = .ok m
  rows : distribute m partitions keys = .ok c.handle.collection
  ncol : c.handle.ncol = m.ncol
  shape : c.shape = m.shape
  nonZeros : c.nonZeros = .known m.nonZeros
  keyType : c.keyType = c.handle.collection.keyType
  level : c.level = level
  number : n = s.substrate.nextNode
  entries : s'.manager.entries = s.manager.entries

theorem parallelize_cases [Cell α] (s : Managed α) (matrix : InCore α) (partitions : Int)
    (keys : Option GivenKeys) (level : StorageLevel) :
    (∃ error, s.parallelize matrix partitions keys level = (.error error, s)) ∨
    ∃ m n c, (s.parallelize matrix partitions keys level).1 = .ok (.checkpoint n c) ∧
      s.Distributed (s.parallelize matrix partitions keys level).2 matrix partitions keys level
        m n c := by
  unfold parallelize
  cases hm : matrix.toDense .notDistributable with
  | error error => exact .inl ⟨error, rfl⟩
  | ok m =>
    dsimp only
    cases hd : distribute m partitions keys with
    | error error => exact .inl ⟨error, rfl⟩
    | ok collection =>
      exact .inr ⟨m, _, _, rfl,
        ⟨⟨rfl, 0, rfl, s.substrate.storage.set_reserve 0 level⟩, ⟨rfl, rfl⟩, hm, hd, rfl, rfl, rfl,
          rfl, rfl, rfl, rfl⟩⟩

end RowAlgebra.Managed
