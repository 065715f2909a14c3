import RowAlgebra.Proofs.Manager.Outcome
import RowAlgebra.Proofs.Plan.Optimized

/-!
# Runs of a manager

A `Stage` is what there is at some point of a run: the manager with what it shares, the nodes that
have been built or delivered so far, and the tags drawn so far. An `Act` is one step of its driver;
`Stage.step` is what it makes of a stage, whether it succeeds or not. A `Run` is any sequence of
acts on nodes that exist. At every stage the nodes are a population, and the results that the
manager remembers are among them (`Run.housed`).
-/

namespace RowAlgebra

variable {α : Type}

/-- One step of the driver of a manager. -/
inductive Act (α : Type) where
  | parallelize (matrix : InCore α) (partitions : Int) (keys : Option GivenKeys)
    (level : StorageLevel)
  | unary (op : UnaryOp α) (a : Expr α)
  | binary (op : BinaryOp) (a b : Expr α)
  | foreign (shape : Shape)
  | checkpoint (blocks : BlockCatalogue α) (e : Expr α) (level : StorageLevel)
  /-- The result of a node is taken back, by the driver or because the node is gone. -/
  | forget (node : NodeId)
  | clear
  /-- A checkpoint gives its storage back. -/
  | release (c : Checkpoint α)

structure Stage (α : Type) where
  managed : Managed α
  nodes : Set (Expr α)
  drawn : List Tag

namespace Stage

def next (s : Stage α) : NodeId :=
  s.managed.substrate.nextNode

/-- Adds the node that a builder yields. -/
def build (s : Stage α) (b : Build (Expr α)) : Stage α :=
  match b s.next with
  | .ok (e, nextNode) =>
    { s with
      managed := { s.managed with substrate := { s.managed.substrate with nextNode } }
      nodes := insert e s.nodes }
  | .error _ => s

/-- The nodes after an answer of the manager. -/
def delivered (nodes : Set (Expr α)) : Except Error (Expr α) → Set (Expr α)
  | .ok e => insert e nodes
  | .error _ => nodes

/-- Takes over an answer of the manager, and what it has become. A step that moves the source of
tags on has drawn one tag from it. -/
def absorb (s : Stage α) (answer : Except Error (Expr α) × Managed α) : Stage α where
  managed := answer.2
  nodes := delivered s.nodes answer.1
  drawn :=
    if answer.2.substrate.tags = s.managed.substrate.tags then s.drawn
    else s.drawn ++ [s.managed.substrate.tags.next.1]

theorem absorb_nodes_ok (s : Stage α) {answer : Except Error (Expr α) × Managed α} {e : Expr α}
    (h : answer.1 = .ok e) : (s.absorb answer).nodes = insert e s.nodes := by
  change delivered s.nodes answer.1 = _
  rw [h]
  rfl

theorem absorb_nodes_error (s : Stage α) {answer : Except Error (Expr α) × Managed α}
    {error : Error} (h : answer.1 = .error error) : (s.absorb answer).nodes = s.nodes := by
  change delivered s.nodes answer.1 = _
  rw [h]
  rfl

def step [Cell α] (s : Stage α) : Act α → Stage α
  | .parallelize matrix partitions keys level =>
    s.absorb (s.managed.parallelize matrix partitions keys level)
  | .unary op a => s.build (Expr.ofUnary op a)
  | .binary op a b => s.build (Expr.ofBinary op a b)
  | .foreign shape => s.build do return .foreign (← Build.fresh) shape
  | .checkpoint blocks e level => s.absorb (s.managed.checkpoint blocks e level)
  | .forget node => { s with managed := s.managed.forget node }
  | .clear => { s with managed := s.managed.clear }
  | .release c =>
    { s with managed := { s.managed with substrate := { s.managed.substrate with
        storage := s.managed.substrate.storage.release c.slot } } }

/-! ## Nodes only join -/

theorem subset_absorb (s : Stage α) (answer : Except Error (Expr α) × Managed α) :
    s.nodes ⊆ (s.absorb answer).nodes := by
  change s.nodes ⊆ delivered s.nodes answer.1
  unfold delivered
  split
  · exact Set.subset_insert _ _
  · exact Set.Subset.rfl

theorem subset_build (s : Stage α) (b : Build (Expr α)) : s.nodes ⊆ (s.build b).nodes := by
  unfold build
  split
  · exact Set.subset_insert _ _
  · exact Set.Subset.rfl

theorem subset_step [Cell α] (s : Stage α) (act : Act α) : s.nodes ⊆ (s.step act).nodes := by
  cases act with
  | parallelize | checkpoint => exact s.subset_absorb _
  | unary | binary | foreign => exact s.subset_build _
  | forget | clear | release => exact Set.Subset.rfl

theorem build_manager (s : Stage α) (b : Build (Expr α)) :
    (s.build b).managed.manager = s.managed.manager := by
  unfold build
  split <;> rfl

/-- A builder of operators touches neither storage nor results, and makes no checkpoint. -/
theorem build_eq (s : Stage α) {b : Build (Expr α)}
    (hb : ∀ e n, b s.next = .ok (e, n) → ∀ i c, e ≠ .checkpoint i c) :
    (s.build b).managed.substrate.storage = s.managed.substrate.storage ∧
    (s.build b).managed.manager = s.managed.manager ∧
    ∀ i c, .checkpoint i c ∈ (s.build b).nodes → .checkpoint i c ∈ s.nodes := by
  unfold build
  split
  · next e n h =>
    refine ⟨rfl, rfl, fun i c hc => ?_⟩
    rcases Set.mem_insert_iff.1 hc with heq | hold
    · exact absurd heq.symm (hb e n h i c)
    · exact hold
  · exact ⟨rfl, rfl, fun _ _ hc => hc⟩

end Stage

/-- Whether the nodes that an act is about exist. -/
def Act.IsOn (nodes : Set (Expr α)) : Act α → Prop
  | .unary _ a => a ∈ nodes
  | .binary _ a b => a ∈ nodes ∧ b ∈ nodes
  | .checkpoint _ e _ => e ∈ nodes
  | _ => True

/-- A manager that has not been used yet. -/
structure Stage.Initial (s : Stage α) : Prop where
  nodes : s.nodes = ∅
  drawn : s.drawn = []
  entries : s.managed.manager.entries = []

/-- A manager with a source of draws. -/
def Stage.ofScript (draws : List Int) : Stage α :=
  ⟨⟨.ofScript draws, .ofLibrary 0⟩, ∅, []⟩

theorem Stage.initial_ofScript (draws : List Int) : (ofScript draws : Stage α).Initial :=
  ⟨rfl, rfl, rfl⟩

/-- The stages that a sequence of acts leads to. -/
inductive Run [Cell α] (start : Stage α) : List (Act α) → Stage α → Prop
  | refl : Run start [] start
  | step {acts : List (Act α)} {s : Stage α} (h : Run start acts s) (act : Act α)
      (on : act.IsOn s.nodes) : Run start (acts ++ [act]) (s.step act)

/-! ## Nodes and results -/

/-- The nodes of a stage are a population, and the remembered results are among them. -/
structure Stage.Housed (s : Stage α) : Prop where
  population : Population s.next s.nodes
  entries : ∀ entry ∈ s.managed.manager.entries, entry.result ∈ s.nodes

namespace Stage.Housed

theorem of_initial {s : Stage α} (h : s.Initial) : s.Housed := by
  refine ⟨?_, ?_⟩
  · rw [h.nodes]
    exact .empty s.next
  · simp [h.entries]

theorem build {s : Stage α} (hs : s.Housed) {b : Build (Expr α)}
    (hb : ∀ e n, b s.next = .ok (e, n) → n = s.next + 1 ∧ e.id = s.next ∧
      (∀ a ∈ e.children, a ∈ s.nodes) ∧ e.Admitted) : (s.build b).Housed := by
  unfold Stage.build
  cases h : b s.next with
  | error error => exact hs
  | ok result =>
    obtain ⟨e, n⟩ := result
    obtain ⟨hn, hid, hc, ha⟩ := hb e n h
    refine ⟨?_, fun entry he => Set.mem_insert_of_mem _ (hs.entries entry he)⟩
    change Population n (insert e s.nodes)
    exact hn ▸ hs.population.insert hid hc ha

/-- A stage may go on with a larger next number and fewer results. -/
theorem keep {s t : Stage α} (hs : s.Housed) (hn : s.next ≤ t.next) (hnodes : t.nodes = s.nodes)
    (he : ∀ entry ∈ t.managed.manager.entries, entry ∈ s.managed.manager.entries) : t.Housed := by
  refine ⟨hnodes ▸ hs.population.mono hn, fun entry hentry => ?_⟩
  rw [hnodes]
  exact hs.entries entry (he entry hentry)

theorem created {s t : Stage α} (hs : s.Housed) {n : NodeId} {c : Checkpoint α}
    (h : s.managed.Created t.managed n c) (hn : s.next ≤ n)
    (hnodes : t.nodes = insert (.checkpoint n c) s.nodes)
    (he : ∀ entry ∈ t.managed.manager.entries, entry ∈ s.managed.manager.entries ∨
      entry.result = .checkpoint n c) : t.Housed := by
  refine ⟨?_, fun entry hentry => ?_⟩
  · rw [hnodes, Stage.next, h.nextNode]
    exact (hs.population.mono hn).insert rfl (by simp [Expr.children]) trivial
  · rw [hnodes]
    rcases he entry hentry with hold | hnew
    · exact Set.mem_insert_of_mem _ (hs.entries entry hold)
    · exact hnew ▸ Set.mem_insert _ _

theorem unary {s : Stage α} (hs : s.Housed) (op : UnaryOp α) {a : Expr α} (ha : a ∈ s.nodes) :
    (s.build (Expr.ofUnary op a)).Housed := by
  refine hs.build fun e n h => ?_
  obtain ⟨hadm, rfl, rfl⟩ := Expr.ofUnary_eq_ok h
  exact ⟨rfl, rfl, by simpa [Expr.children] using ha, hadm⟩

theorem binary {s : Stage α} (hs : s.Housed) (op : BinaryOp) {a b : Expr α} (ha : a ∈ s.nodes)
    (hb : b ∈ s.nodes) : (s.build (Expr.ofBinary op a b)).Housed := by
  refine hs.build fun e n h => ?_
  obtain ⟨hadm, rfl, rfl⟩ := Expr.ofBinary_eq_ok h
  exact ⟨rfl, rfl, by simpa [Expr.children] using ⟨ha, hb⟩, hadm⟩

theorem foreign {s : Stage α} (hs : s.Housed) (shape : Shape) :
    (s.build do return .foreign (← Build.fresh) shape).Housed := by
  refine hs.build fun e n h => ?_
  cases h
  exact ⟨rfl, rfl, by simp [Expr.children], trivial⟩

variable [Cell α]

theorem next_le_of_optimize {s : Stage α} (hs : s.Housed) {e plan : Expr α} (he : e ∈ s.nodes)
    {n : NodeId} (h : e.optimize s.next = .ok (plan, n)) : s.next ≤ n := by
  rcases Expr.optimize_yields hs.population he with ⟨error, hm, -⟩ | ⟨_, n', _, hm, hn, -⟩
  · rw [h] at hm
    cases hm
  · rw [h] at hm
    cases hm
    exact hn

theorem checkpoint {s : Stage α} (hs : s.Housed) (blocks : BlockCatalogue α) {e : Expr α}
    (he : e ∈ s.nodes) (level : StorageLevel) :
    (s.absorb (s.managed.checkpoint blocks e level)).Housed := by
  rcases s.managed.checkpoint_cases blocks e level with
    ⟨i, c, rfl, h⟩ | ⟨entry, hentry, -, h⟩ | ⟨error, herror, h⟩ | ⟨plan, n, c, hok, h⟩
  · rw [h]
    exact hs.keep (Nat.le_refl _) (Set.insert_eq_of_mem he) fun _ hm => hm
  · rw [h]
    exact hs.keep (Nat.le_refl _) (Set.insert_eq_of_mem (hs.entries entry hentry)) fun _ hm => hm
  · refine hs.keep ?_ (s.absorb_nodes_error herror) fun entry hentry => h.entries ▸ hentry
    rcases h.nextNode with hn | ⟨plan, hn⟩
    · exact hn.symm.le
    · exact hs.next_le_of_optimize he hn
  · refine hs.created h.toCreated (hs.next_le_of_optimize he h.optimize) (s.absorb_nodes_ok hok)
      fun entry hentry => ?_
    rcases List.mem_append.1 (h.entries ▸ hentry) with hold | hnew
    · exact .inl hold
    · obtain rfl := List.mem_singleton.1 hnew
      exact .inr rfl

theorem parallelize {s : Stage α} (hs : s.Housed) (matrix : InCore α) (partitions : Int)
    (keys : Option GivenKeys) (level : StorageLevel) :
    (s.absorb (s.managed.parallelize matrix partitions keys level)).Housed := by
  rcases s.managed.parallelize_cases matrix partitions keys level with
    ⟨error, h⟩ | ⟨m, n, c, hok, h⟩
  · rw [h]
    exact hs.keep (Nat.le_refl _) rfl fun _ hm => hm
  · exact hs.created h.toCreated h.number.symm.le (s.absorb_nodes_ok hok)
      fun entry hentry => .inl (h.entries ▸ hentry)

theorem step {s : Stage α} (hs : s.Housed) (act : Act α) (on : act.IsOn s.nodes) :
    (s.step act).Housed := by
  cases act with
  | parallelize matrix partitions keys level => exact hs.parallelize matrix partitions keys level
  | unary op a => exact hs.unary op on
  | binary op a b => exact hs.binary op on.1 on.2
  | foreign shape => exact hs.foreign shape
  | checkpoint blocks e level => exact hs.checkpoint blocks on level
  | forget node =>
    exact hs.keep (Nat.le_refl _) rfl fun entry he => List.mem_of_mem_filter he
  | clear =>
    exact hs.keep (Nat.le_refl _) rfl fun _ he => by simp [Stage.step, Managed.clear] at he
  | release c => exact hs.keep (Nat.le_refl _) rfl fun _ hm => hm

end Stage.Housed

/-- The checkpoints after an act are those before it, and one that the act has made. -/
theorem Stage.Housed.checkpoint_mem_step [Cell α] {s : Stage α} (hs : s.Housed) {act : Act α}
    (on : act.IsOn s.nodes) {i : NodeId} {c : Checkpoint α}
    (hc : .checkpoint i c ∈ (s.step act).nodes) : .checkpoint i c ∈ s.nodes ∨
      (∃ matrix partitions keys level s' m, act = .parallelize matrix partitions keys level ∧
        s.managed.Distributed s' matrix partitions keys level m i c) ∨
      ∃ blocks e level s' plan, act = .checkpoint blocks e level ∧
        s.managed.Materialized blocks s' e level plan i c := by
  have hcases {answer : Except Error (Expr α) × Managed α} {j : NodeId} {c' : Checkpoint α}
      (h : answer.1 = .ok (.checkpoint j c')) (hc : .checkpoint i c ∈ (s.absorb answer).nodes) :
      .checkpoint i c ∈ s.nodes ∨ i = j ∧ c = c' := by
    rw [s.absorb_nodes_ok h] at hc
    rcases Set.mem_insert_iff.1 hc with hnew | hold
    · cases hnew
      exact .inr ⟨rfl, rfl⟩
    · exact .inl hold
  cases act with
  | parallelize matrix partitions keys level =>
    rcases s.managed.parallelize_cases matrix partitions keys level with
      ⟨error, h⟩ | ⟨m, n, c', hok, h⟩
    · exact .inl (s.absorb_nodes_error (congrArg Prod.fst h) ▸ hc)
    · refine (hcases hok hc).imp_right ?_
      rintro ⟨rfl, rfl⟩
      exact .inl ⟨_, _, _, _, _, m, rfl, h⟩
  | checkpoint blocks e level =>
    rcases s.managed.checkpoint_cases blocks e level with
      ⟨j, c', rfl, h⟩ | ⟨entry, hentry, -, h⟩ | ⟨error, herror, -⟩ | ⟨plan, n, c', hok, h⟩
    · refine (hcases (congrArg Prod.fst h) hc).elim .inl ?_
      rintro ⟨rfl, rfl⟩
      exact .inl on
    · refine (hcases (congrArg Prod.fst h) hc).elim .inl ?_
      rintro ⟨rfl, rfl⟩
      exact .inl (hs.entries entry hentry)
    · exact .inl (s.absorb_nodes_error herror ▸ hc)
    · refine (hcases hok hc).imp_right ?_
      rintro ⟨rfl, rfl⟩
      exact .inr ⟨_, _, _, _, plan, rfl, h⟩
  | unary op a =>
    refine .inl ((s.build_eq fun e n h j c' he => ?_).2.2 i c hc)
    rw [(Expr.ofUnary_eq_ok h).2.1] at he
    cases he
  | binary op a b =>
    refine .inl ((s.build_eq fun e n h j c' he => ?_).2.2 i c hc)
    rw [(Expr.ofBinary_eq_ok h).2.1] at he
    cases he
  | foreign shape =>
    refine .inl ((s.build_eq fun e n h j c' he => ?_).2.2 i c hc)
    cases h
    cases he
  | forget | clear | release => exact .inl hc

theorem Run.housed [Cell α] {start s : Stage α} {acts : List (Act α)} (h₀ : start.Initial)
    (h : Run start acts s) : s.Housed := by
  induction h with
  | refl => exact .of_initial h₀
  | step _ act on ih => exact ih.step act on

/-- What holds of each leaf that is made, and carries over from all checkpoints to what is computed
of an expression, holds of all checkpoints of a run. -/
theorem Run.checkpoints [Cell α] {start s : Stage α} {acts : List (Act α)} (h₀ : start.Initial)
    (h : Run start acts s) {P : Checkpoint α → Prop}
    (hleaf : ∀ matrix partitions keys level, .parallelize matrix partitions keys level ∈ acts →
      ∀ s s' m n c, Managed.Distributed s s' matrix partitions keys level m n c → P c)
    (hresult : ∀ blocks e level, .checkpoint blocks e level ∈ acts →
      ∀ s : Stage α, s.Housed → e ∈ s.nodes → (∀ i c, .checkpoint i c ∈ s.nodes → P c) →
      ∀ s' plan n c, s.managed.Materialized blocks s' e level plan n c → P c) :
    ∀ i c, .checkpoint i c ∈ s.nodes → P c := by
  induction h with
  | refl =>
    intro i c hc
    rw [h₀.nodes] at hc
    cases hc
  | @step acts s hrun act on ih =>
    have hs := hrun.housed h₀
    have hold := ih (fun _ _ _ _ hmem => hleaf _ _ _ _ (List.mem_append_left _ hmem))
      fun _ _ _ hmem => hresult _ _ _ (List.mem_append_left _ hmem)
    intro i c hc
    rcases hs.checkpoint_mem_step on hc with
      hc | ⟨matrix, partitions, keys, level, s', m, rfl, hnew⟩ | ⟨blocks, e, level, s', plan, rfl, hnew⟩
    · exact hold i c hc
    · exact hleaf _ _ _ _ (List.mem_append_right _ (List.mem_singleton_self _)) _ _ _ _ _ hnew
    · exact hresult _ _ _ (List.mem_append_right _ (List.mem_singleton_self _)) s hs on hold _ _ _ _
        hnew

end RowAlgebra
