import RowAlgebra.Proofs.Workspace.Scene

/-!
# Effects of steps

What a step does to results and to storage is said once, by `Scene.Effect`: it touches neither,
creates one checkpoint, drops the results that it evicts, or takes the storage of one checkpoint
back. Every step has such an effect (`Scene.step_effect`), and what holds in all scenes of a run is
derived from it: the scenes are `Scene.Orderly` (`Scene.Leads.orderly`), so that no two checkpoints
share a collection, and a result belongs to one node of one manager.
-/

namespace RowAlgebra

variable {α : Type}

/-! ## Storage -/

namespace Storage

theorem nextSlot_release (s : Storage) (slot : Slot) : (s.release slot).nextSlot = s.nextSlot := by
  simp [nextSlot, release, set]

theorem level_release (s : Storage) (slot other : Slot) :
    (s.release slot).level other = if slot = other then .none else s.level other := by
  by_cases h : slot = other
  · subst h
    by_cases hs : slot < s.levels.length <;> simp [Storage.level, release, set, List.getD, hs]
  · rw [if_neg h]
    exact level_set_of_ne s h _

theorem level_allocate (s : Storage) (l : StorageLevel) (slot : Slot) :
    (s.allocate l).level slot = if slot = s.nextSlot then l else s.level slot := by
  rcases Nat.lt_trichotomy slot s.nextSlot with h | rfl | h
  · rw [if_neg (Nat.ne_of_lt h)]
    simp [Storage.level, allocate, List.getD, List.getElem?_append_left h]
  · rw [if_pos rfl]
    exact s.level_allocate_self l
  · have hlength : (s.levels ++ [l]).length ≤ slot := by
      rw [List.length_append]
      exact h
    rw [if_neg (Nat.ne_of_gt h), Storage.level, Storage.level, List.getD, List.getD, allocate,
      List.getElem?_eq_none hlength, List.getElem?_eq_none (Nat.le_of_lt h)]

theorem nextSlot_allocate (s : Storage) (l : StorageLevel) :
    (s.allocate l).nextSlot = s.nextSlot + 1 := by
  simp [nextSlot, allocate]

/-- Nothing is cached in slots that have only been made. -/
theorem level_reserve (s : Storage) (n : Nat) (slot : Slot) :
    (s.reserve n).level slot = s.level slot := by
  induction n with
  | zero => rw [reserve, List.replicate_zero, List.append_nil]
  | succ n ih =>
    rw [← reserve_add, ← allocate_none, level_allocate, ih]
    split
    · next hslot =>
      have hlength : s.levels.length ≤ slot := by
        rw [hslot, nextSlot_reserve]
        exact Nat.le_add_right _ _
      rw [Storage.level, List.getD, List.getElem?_eq_none hlength]
      rfl
    · rfl

end Storage

namespace Managed

theorem nextSlot_release (s : Managed α) (entries : List (Entry α)) :
    (s.release entries).substrate.storage.nextSlot = s.substrate.storage.nextSlot := by
  suffices H : ∀ storage : Storage,
      (entries.foldl (fun st e => st.release e.checkpoint.slot) storage).nextSlot =
        storage.nextSlot from H _
  induction entries with
  | nil => exact fun _ => rfl
  | cons entry entries ih => exact fun storage => (ih _).trans (storage.nextSlot_release _)

/-- Exactly the collections of the given entries are released. -/
theorem level_release (s : Managed α) (entries : List (Entry α)) (slot : Slot) :
    ((∃ entry ∈ entries, entry.checkpoint.slot = slot) →
      (s.release entries).substrate.storage.level slot = .none) ∧
    ((∀ entry ∈ entries, entry.checkpoint.slot ≠ slot) →
      (s.release entries).substrate.storage.level slot = s.substrate.storage.level slot) := by
  suffices H : ∀ storage : Storage,
      (entries.foldl (fun st e => st.release e.checkpoint.slot) storage).level slot =
        if ∃ entry ∈ entries, entry.checkpoint.slot = slot then .none else storage.level slot by
    refine ⟨fun h => (H _).trans (if_pos h), fun h => (H _).trans (if_neg ?_)⟩
    rintro ⟨entry, he, hslot⟩
    exact h entry he hslot
  induction entries with
  | nil => simp
  | cons entry entries ih =>
    intro storage
    rw [List.foldl_cons, ih, storage.level_release]
    by_cases hrest : ∃ entry ∈ entries, entry.checkpoint.slot = slot
    · simp [hrest]
    · by_cases hslot : entry.checkpoint.slot = slot <;> simp [hrest, hslot]

end Managed

namespace Scene

/-- A checkpoint over a new collection has come into being. -/
structure Created (s t : Scene α) (n : NodeId) (c : Checkpoint α) : Prop where
  number : s.next ≤ n
  storage : ∃ others, c.slot = s.storage.nextSlot + others ∧
    t.storage = (s.storage.reserve others).allocate c.level
  nodes : t.nodes = insert (.checkpoint n c) s.nodes

namespace Created

variable {s t : Scene α} {n : NodeId} {c : Checkpoint α}

theorem nextSlot_le (h : s.Created t n c) : s.storage.nextSlot ≤ c.slot := by
  obtain ⟨others, hslot, -⟩ := h.storage
  exact hslot ▸ Nat.le_add_right _ _

theorem nextSlot_eq (h : s.Created t n c) : t.storage.nextSlot = c.slot + 1 := by
  obtain ⟨others, hslot, hstorage⟩ := h.storage
  rw [hstorage, Storage.nextSlot_allocate, Storage.nextSlot_reserve, hslot]

end Created

/-- What a step does to the results and the storage of a scene. -/
inductive Effect (s : Scene α) (step : Step α) (t : Scene α) : Prop
  | quiet (storage : t.storage = s.storage) (entries : ∀ i, t.entries i = s.entries i)
      (nodes : s.nodes ⊆ t.nodes)
      (leaves : ∀ n c, .checkpoint n c ∈ t.nodes → .checkpoint n c ∈ s.nodes)
      (keeps : ∀ i node, step.evicts s.workspace i node = false)
  | leaf (n : NodeId) (c : Checkpoint α) (created : s.Created t n c)
      (entries : ∀ i, t.entries i = s.entries i)
      (keeps : ∀ i node, step.evicts s.workspace i node = false)
  /-- A manager gains the result of a node that it has not remembered. -/
  | result (n : NodeId) (c : Checkpoint α) (created : s.Created t n c) (i : ManagerId)
      (e : Expr α) (request : ∃ blocks level, step = .act i (.checkpoint blocks e level))
      (he : e ∈ s.nodes) (operator : ∀ m d, e ≠ .checkpoint m d)
      (forgotten : ∀ entry ∈ s.entries i, entry.node ≠ e.id)
      (entries : ∀ j, t.entries j = if j = i then s.entries i ++ [⟨e.id, n, c⟩] else s.entries j)
      (keeps : ∀ i node, step.evicts s.workspace i node = false)
  /-- The results that the step evicts are gone, and so is their storage. -/
  | drop (nodes : t.nodes = s.nodes) (slots : t.storage.nextSlot = s.storage.nextSlot)
      (entries : ∀ i, t.entries i =
        (s.entries i).filter fun entry => !step.evicts s.workspace i entry.node)
      (released : ∀ i, ∀ entry ∈ s.entries i, step.evicts s.workspace i entry.node = true →
        t.level entry.checkpoint.slot = .none)
      (others : ∀ slot, (∀ i, ∀ entry ∈ s.entries i, step.evicts s.workspace i entry.node = true →
        entry.checkpoint.slot ≠ slot) → t.level slot = s.level slot)
  | release (i : ManagerId) (c : Checkpoint α) (eq : step = .act i (.release c))
      (storage : t.storage = s.storage.release c.slot) (nodes : t.nodes = s.nodes)
      (entries : ∀ i, t.entries i = s.entries i)

namespace Effect

variable {s t : Scene α} {step : Step α}

theorem subset (h : s.Effect step t) : s.nodes ⊆ t.nodes := by
  cases h with
  | quiet _ _ nodes => exact nodes
  | leaf _ _ created => exact created.nodes ▸ Set.subset_insert _ _
  | result _ _ created => exact created.nodes ▸ Set.subset_insert _ _
  | drop nodes => exact nodes.symm.subset
  | release _ _ _ _ nodes => exact nodes.symm.subset

/-- What a step does not evict is still remembered. -/
theorem keeps_entry (h : s.Effect step t) {i : ManagerId} {entry : Entry α}
    (he : entry ∈ s.entries i) (hk : step.evicts s.workspace i entry.node = false) :
    entry ∈ t.entries i := by
  cases h with
  | quiet _ entries | leaf _ _ _ entries | release _ _ _ _ _ entries => exact entries i ▸ he
  | result n c _ j e _ _ _ _ entries =>
    rw [entries]
    split
    · next hi => exact List.mem_append_left _ (hi ▸ he)
    · exact he
  | drop _ _ entries =>
    rw [entries]
    exact List.mem_filter.2 ⟨he, by rw [hk]; rfl⟩

/-- A result that has been there before a step is remembered since, or the step is a request for
its node. -/
theorem entry_cases (h : s.Effect step t) {i : ManagerId} {entry : Entry α}
    (he : entry ∈ t.entries i) :
    (entry ∈ s.entries i ∧ step.evicts s.workspace i entry.node = false) ∨
      s.next ≤ entry.id := by
  cases h with
  | quiet _ entries _ _ keeps => exact .inl ⟨entries i ▸ he, keeps i _⟩
  | leaf _ _ _ entries keeps => exact .inl ⟨entries i ▸ he, keeps i _⟩
  | result n c created j e _ _ _ _ entries keeps =>
    rw [entries] at he
    split at he
    · next hi =>
      rcases List.mem_append.1 he with hold | hnew
      · exact .inl ⟨hi ▸ hold, keeps i _⟩
      · obtain rfl := List.mem_singleton.1 hnew
        exact .inr created.number
    · exact .inl ⟨he, keeps i _⟩
  | drop _ _ entries =>
    rw [entries] at he
    obtain ⟨hold, hk⟩ := List.mem_filter.1 he
    exact .inl ⟨hold, by simpa using hk⟩
  | release j c eq _ _ entries => exact .inl ⟨entries i ▸ he, by rw [eq]; rfl⟩

theorem level_of_evicts (h : s.Effect step t) {i : ManagerId} {entry : Entry α}
    (he : entry ∈ s.entries i) (hk : step.evicts s.workspace i entry.node = true) :
    t.level entry.checkpoint.slot = .none := by
  cases h with
  | quiet _ _ _ _ keeps => exact absurd hk (by simp [keeps])
  | leaf _ _ _ _ keeps => exact absurd hk (by simp [keeps])
  | result _ _ _ _ _ _ _ _ _ _ keeps => exact absurd hk (by simp [keeps])
  | drop _ _ _ released => exact released i entry he hk
  | release j c eq => exact absurd hk (by rw [eq]; simp [Step.evicts])

theorem forgets (h : s.Effect step t) {i : ManagerId} {node : NodeId}
    (hk : step.evicts s.workspace i node = true) : ∀ entry ∈ t.entries i, entry.node ≠ node := by
  intro entry he hnode
  rcases h.entry_cases he with ⟨-, hkept⟩ | hnew
  · rw [hnode, hk] at hkept
    cases hkept
  · cases h with
    | quiet _ _ _ _ keeps => exact absurd hk (by simp [keeps])
    | leaf _ _ _ _ keeps => exact absurd hk (by simp [keeps])
    | result _ _ _ _ _ _ _ _ _ _ keeps => exact absurd hk (by simp [keeps])
    | drop _ _ entries =>
      rw [entries] at he
      simpa [hnode, hk] using (List.mem_filter.1 he).2
    | release j c eq => exact absurd hk (by rw [eq]; simp [Step.evicts])

end Effect

/-! ## Each step has an effect -/

section Steps

variable {s : Scene α} {i : ManagerId}

theorem Undisturbed.effect {t : Scene α} (h : s.Undisturbed t) {step : Step α}
    (keeps : ∀ i node, step.evicts s.workspace i node = false) : s.Effect step t :=
  .quiet (congrArg Substrate.storage h.substrate) h.entries h.nodes.symm.subset
    (fun _ _ hc => h.nodes ▸ hc) keeps

/-- A step that makes one manager forget some nodes, and nothing else. -/
theorem effect_drop {step : Step α} {t : Scene α} (drops : NodeId → Bool)
    (hevicts : ∀ j node, step.evicts s.workspace j node = (decide (j = i) && drops node))
    (hnodes : t.nodes = s.nodes)
    (hstorage : t.storage = ((s.workspace.managed i).release
      ((s.entries i).filter fun entry => drops entry.node)).substrate.storage)
    (hentries : ∀ j, t.entries j =
      if j = i then (s.entries i).filter fun entry => !drops entry.node else s.entries j) :
    s.Effect step t := by
  refine .drop hnodes ?_ (fun j => ?_) (fun j entry he hevict => ?_) fun slot hslot => ?_
  · rw [hstorage]
    exact Managed.nextSlot_release _ _
  · rw [hentries]
    by_cases hj : j = i
    · simp [hevicts, hj]
    · simp [hevicts, hj]
  · rw [hevicts] at hevict
    obtain ⟨hj, hdrops⟩ := Bool.and_eq_true_iff.1 hevict
    obtain rfl := of_decide_eq_true hj
    rw [level, hstorage]
    exact ((s.workspace.managed j).level_release _ _).1
      ⟨entry, List.mem_filter.2 ⟨he, hdrops⟩, rfl⟩
  · rw [level, hstorage]
    refine ((s.workspace.managed i).level_release _ _).2 fun entry he => ?_
    obtain ⟨hmem, hdrops⟩ := List.mem_filter.1 he
    exact hslot i entry hmem (by simp [hevicts, hdrops])

variable [Cell α]

theorem effect_build (hi : i < s.workspace.managers.length) (deed : Act α) {b : Build (Expr α)}
    (hdeed : (s.stage i).step deed = (s.stage i).build b)
    (hb : ∀ e n, b s.next = .ok (e, n) → ∀ m c, e ≠ .checkpoint m c)
    (keeps : ∀ j node, (Step.act i deed).evicts s.workspace j node = false) :
    s.Effect (.act i deed) (s.step (.act i deed)) := by
  obtain ⟨hstorage, hmanager, hleaves⟩ := (s.stage i).build_eq hb
  rw [← hdeed] at hstorage hmanager hleaves
  refine .quiet hstorage (entries_act_eq hi (congrArg Manager.entries hmanager)) ?_ hleaves keeps
  exact (s.stage i).subset_step deed

theorem effect_parallelize (hi : i < s.workspace.managers.length) (matrix : InCore α)
    (partitions : Int) (keys : Option GivenKeys) (level : StorageLevel) :
    s.Effect (.act i (.parallelize matrix partitions keys level))
      (s.step (.act i (.parallelize matrix partitions keys level))) := by
  have keeps : ∀ j node, (Step.act i (.parallelize matrix partitions keys level)).evicts
      s.workspace j node = false := fun _ _ => rfl
  rcases (s.workspace.managed i).parallelize_cases matrix partitions keys level with
    ⟨error, h⟩ | ⟨m, n, c, hok, h⟩
  · have hstep : (s.stage i).step (.parallelize matrix partitions keys level) =
        (s.stage i).absorb (.error error, s.workspace.managed i) :=
      congrArg (s.stage i).absorb h
    have hstorage : (s.step (.act i (.parallelize matrix partitions keys level))).storage =
        s.storage := congrArg (fun t => t.managed.substrate.storage) hstep
    have hnodes : (s.step (.act i (.parallelize matrix partitions keys level))).nodes = s.nodes :=
      congrArg Stage.nodes hstep
    refine .quiet hstorage (entries_act_eq hi ?_) hnodes.symm.subset (fun _ _ hc => hnodes ▸ hc)
      keeps
    exact congrArg (fun t => t.managed.manager.entries) hstep
  · have hcreated : s.Created (s.step (.act i (.parallelize matrix partitions keys level))) n c :=
      ⟨h.number.symm.le, h.storage, (s.stage i).absorb_nodes_ok hok⟩
    exact .leaf n c hcreated (entries_act_eq hi h.entries) keeps

theorem effect_checkpoint (hs : s.Housed) (hi : i < s.workspace.managers.length)
    (blocks : BlockCatalogue α) {e : Expr α} (he : e ∈ s.nodes) (level : StorageLevel) :
    s.Effect (.act i (.checkpoint blocks e level))
      (s.step (.act i (.checkpoint blocks e level))) := by
  have keeps : ∀ j node, (Step.act i (.checkpoint blocks e level)).evicts s.workspace j node =
      false := fun _ _ => rfl
  -- an answer that is there already, or none, leaves storage and results alone
  have quiet : ∀ answer, (s.workspace.managed i).checkpoint blocks e level = answer →
      answer.2.substrate.storage = s.storage → answer.2.manager.entries = s.entries i →
      ((s.stage i).absorb answer).nodes = s.nodes →
      s.Effect (.act i (.checkpoint blocks e level))
        (s.step (.act i (.checkpoint blocks e level))) := by
    rintro _ rfl hstorage hentries hnodes
    exact .quiet hstorage (entries_act_eq hi hentries) hnodes.symm.subset
      (fun _ _ hc => hnodes ▸ hc) keeps
  by_cases hleaf : ∃ m d, e = .checkpoint m d
  · obtain ⟨m, d, rfl⟩ := hleaf
    exact quiet _ rfl rfl rfl (Set.insert_eq_of_mem he)
  · cases hf : (s.workspace.manager i).find? e.id with
    | some entry =>
      have hanswer := (s.workspace.managed i).checkpoint_of_remembered blocks level
        (fun m d h => hleaf ⟨m, d, h⟩) hf
      refine quiet _ hanswer rfl rfl (Set.insert_eq_of_mem ?_)
      exact hs.entries i entry (List.mem_of_find?_eq_some hf)
    | none =>
      have hanswer := (s.workspace.managed i).checkpoint_of_forgotten blocks level
        (fun m d h => hleaf ⟨m, d, h⟩) hf
      rcases (s.workspace.managed i).materialize_cases blocks e level with
        ⟨error, herror, h⟩ | ⟨plan, n, c, hok, h⟩
      · exact quiet _ hanswer h.storage h.entries ((s.stage i).absorb_nodes_error herror)
      · rw [← hanswer] at hok h
        have hcreated : s.Created (s.step (.act i (.checkpoint blocks e level))) n c :=
          ⟨(hs.stage i).next_le_of_optimize he h.optimize, h.storage,
            (s.stage i).absorb_nodes_ok hok⟩
        refine .result n c hcreated i e ⟨blocks, level, rfl⟩ he (fun m d h => hleaf ⟨m, d, h⟩) ?_ ?_
          keeps
        · intro entry hentry hnode
          have hnone := List.find?_eq_none.1 hf entry hentry
          simp [hnode] at hnone
        · intro j
          have hentries : ((s.stage i).step (.checkpoint blocks e level)).managed.manager.entries =
              s.entries i ++ [⟨e.id, n, c⟩] := h.entries
          rw [entries_act hi, hentries]

theorem effect_act (hs : s.Housed) (hi : i < s.workspace.managers.length) (deed : Act α)
    (on : deed.IsOn s.nodes) : s.Effect (.act i deed) (s.step (.act i deed)) := by
  cases deed with
  | parallelize matrix partitions keys level =>
    exact effect_parallelize hi matrix partitions keys level
  | unary op a =>
    have hb : ∀ next e n, Expr.ofUnary op a next = .ok (e, n) → ∀ m c, e ≠ .checkpoint m c := by
      intro next e n h m c
      obtain ⟨-, rfl, -⟩ := Expr.ofUnary_eq_ok h
      nofun
    exact effect_build hi (.unary op a) rfl (hb s.next) fun _ _ => rfl
  | binary op a b =>
    have hb : ∀ next e n, Expr.ofBinary op a b next = .ok (e, n) → ∀ m c, e ≠ .checkpoint m c := by
      intro next e n h m c
      obtain ⟨-, rfl, -⟩ := Expr.ofBinary_eq_ok h
      nofun
    exact effect_build hi (.binary op a b) rfl (hb s.next) fun _ _ => rfl
  | foreign shape =>
    have hb : ∀ next e n, (do return .foreign (← Build.fresh) shape : Build (Expr α)) next =
        .ok (e, n) → ∀ m c, e ≠ .checkpoint m c := by
      intro next e n h m c
      cases h
      nofun
    exact effect_build hi (.foreign shape) rfl (hb s.next) fun _ _ => rfl
  | checkpoint blocks e level => exact effect_checkpoint hs hi blocks on level
  | forget node =>
    refine effect_drop (i := i) (fun n => n == node) (fun j n => ?_) rfl rfl fun j => ?_
    · simp only [Step.evicts, beq_eq_decide, eq_comm]
    · exact entries_act hi (.forget node) j
  | clear =>
    refine effect_drop (i := i) (fun _ => true) (fun j n => ?_) rfl ?_ fun j => ?_
    · simp only [Step.evicts, beq_eq_decide, eq_comm, Bool.and_true]
    · rw [List.filter_true]
      rfl
    · rw [Bool.not_true, List.filter_false]
      exact entries_act hi .clear j
  | release c => exact .release i c rfl rfl rfl (entries_act_eq hi rfl)

theorem effect_closeSession (s : Scene α) (i : SessionId) :
    s.Effect (.closeSession i) (s.step (.closeSession i)) := by
  rcases Workspace.closeSession_eq i s.workspace with
    ⟨h, hclosed⟩ | ⟨session, hsession, hopen, hsubstrate, hmanagers⟩
  · have hstep : s.step (.closeSession i) = s := by rw [Scene.step, h]
    rw [hstep]
    refine .quiet rfl (fun _ => rfl) Set.Subset.rfl (fun _ _ hc => hc) fun j node => ?_
    cases hsession : s.workspace.sessions[i]? with
    | none => simp only [Step.evicts, hsession]
    | some session => simp only [Step.evicts, hsession, hclosed session hsession, Bool.not_true,
        Bool.false_and]
  · refine effect_drop (i := session.manager) (fun _ => true) (fun j n => ?_) rfl ?_
      fun j => ?_
    · simp only [Step.evicts, hsession, hopen, beq_eq_decide, eq_comm, Bool.and_true,
        Bool.not_false, Bool.true_and]
    · rw [List.filter_true, storage, Scene.step, hsubstrate]
      rfl
    · rw [Bool.not_true, List.filter_false]
      exact entries_closeSession hmanagers j

theorem step_effect (hs : s.Housed) (step : Step α) (on : step.IsOn s) :
    s.Effect step (s.step step) := by
  cases step with
  | act i deed => exact effect_act hs on.1 deed on.2.1
  | openSession around script request isPrivate =>
    exact (s.undisturbed_openSession around script request isPrivate).effect fun _ _ => rfl
  | joinSessions i j => exact (s.undisturbed_joinSessions i j).effect fun _ _ => rfl
  | closeSession i => exact effect_closeSession s i

/-- A new answer for an operator is remembered, and a known one is what is remembered. -/
theorem answer_cases (hs : s.Housed) {blocks : BlockCatalogue α} {e : Expr α}
    {level : StorageLevel} (on : (Step.act i (.checkpoint blocks e level)).IsOn s)
    (operator : ∀ m d, e ≠ .checkpoint m d) {r : Expr α}
    (h : s.answer i blocks e level = .ok r) :
    (∃ entry ∈ s.entries i, entry.node = e.id ∧ entry.result = r) ∨
    ∃ n c, r = .checkpoint n c ∧
      s.Created (s.step (.act i (.checkpoint blocks e level))) n c ∧ c.level = level ∧
      ⟨e.id, n, c⟩ ∈ (s.step (.act i (.checkpoint blocks e level))).entries i := by
  rcases (s.workspace.managed i).checkpoint_cases blocks e level with
    ⟨m, d, rfl, -⟩ | ⟨entry, hentry, hnode, hanswer⟩ | ⟨error, herror, -⟩ | ⟨plan, n, c, hok, hm⟩
  · exact absurd rfl (operator m d)
  · have hresult : s.answer i blocks e level = .ok entry.result := congrArg Prod.fst hanswer
    exact .inl ⟨entry, hentry, hnode, Except.ok.inj (hresult.symm.trans h)⟩
  · have hfails : s.answer i blocks e level = .error error := herror
    rw [hfails] at h
    cases h
  · have hresult : s.answer i blocks e level = .ok (.checkpoint n c) := hok
    refine .inr ⟨n, c, Except.ok.inj (h.symm.trans hresult), ?_, hm.level, ?_⟩
    · exact ⟨(hs.stage i).next_le_of_optimize on.2.1 hm.optimize, hm.storage,
        (s.stage i).absorb_nodes_ok hok⟩
    · rw [entries_act on.1, if_pos rfl]
      exact hm.entries ▸ List.mem_append_right _ (List.mem_singleton_self _)

end Steps

/-! ## Order -/

/-- Collections and results are not shared: neither by two checkpoints, nor by two entries. -/
structure Orderly (s : Scene α) : Prop extends Housed s where
  operators : ∀ i, ∀ entry ∈ s.entries i, ∃ e ∈ s.nodes, e.id = entry.node ∧
    ∀ m c, e ≠ .checkpoint m c
  nodup : ∀ i, ((s.entries i).map Entry.node).Nodup
  owned : ∀ i j, ∀ a ∈ s.entries i, ∀ b ∈ s.entries j, a.id = b.id → i = j ∧ a = b
  slots : ∀ m c n d, .checkpoint m c ∈ s.nodes → .checkpoint n d ∈ s.nodes → c.slot = d.slot → m = n
  allocated : ∀ n c, .checkpoint n c ∈ s.nodes → c.slot < s.storage.nextSlot

namespace Orderly

variable {s t : Scene α}

theorem of_initial (h : s.Initial) : s.Orderly where
  population := h.nodes ▸ .empty s.next
  entries i entry he := absurd he (by simp [h.entries])
  operators i entry he := absurd he (by simp [h.entries])
  nodup i := by simp [h.entries]
  owned i j a ha := absurd ha (by simp [h.entries])
  slots m c n d hc := absurd hc (by simp [h.nodes])
  allocated n c hc := absurd hc (by simp [h.nodes])

/-- The number of a result is below that of anything new. -/
theorem result_lt (hs : s.Orderly) {i : ManagerId} {entry : Entry α} (he : entry ∈ s.entries i) :
    entry.id < s.next :=
  hs.population.numbered _ (hs.entries i entry he)

theorem same_checkpoint (hs : s.Orderly) {m n : NodeId} {c d : Checkpoint α}
    (hc : .checkpoint m c ∈ s.nodes) (hd : .checkpoint n d ∈ s.nodes) (h : c.slot = d.slot) :
    m = n ∧ c = d := by
  have hid := hs.slots m c n d hc hd h
  cases hs.population.identified _ hc _ hd hid
  exact ⟨rfl, rfl⟩

/-- Entries with one collection are one entry. -/
theorem same_entry (hs : s.Orderly) {i j : ManagerId} {a b : Entry α} (ha : a ∈ s.entries i)
    (hb : b ∈ s.entries j) (h : a.checkpoint.slot = b.checkpoint.slot) : i = j ∧ a = b :=
  hs.owned i j a ha b hb (hs.same_checkpoint (hs.entries i a ha) (hs.entries j b hb) h).1

/-- The collection of a new checkpoint is one that none of the others has. -/
theorem slots_created (hs : s.Orderly) {n : NodeId} {c : Checkpoint α} (h : s.Created t n c) :
    (∀ m c n d, .checkpoint m c ∈ t.nodes → .checkpoint n d ∈ t.nodes → c.slot = d.slot → m = n) ∧
    ∀ n c, .checkpoint n c ∈ t.nodes → c.slot < t.storage.nextSlot := by
  have hfresh : ∀ m d, .checkpoint m d ∈ s.nodes → d.slot ≠ c.slot :=
    fun m d hd => Nat.ne_of_lt ((hs.allocated m d hd).trans_le h.nextSlot_le)
  rw [h.nodes]
  refine ⟨?_, ?_⟩
  · rintro m c' n' d (hm | hm) (hn | hn) hslot
    · cases hm
      cases hn
      rfl
    · cases hm
      exact absurd hslot.symm (hfresh n' d hn)
    · cases hn
      exact absurd hslot (hfresh m c' hm)
    · exact hs.slots m c' n' d hm hn hslot
  · rw [h.nextSlot_eq]
    rintro m d (hm | hm)
    · cases hm
      exact Nat.lt_succ_self _
    · exact Nat.lt_succ_of_le ((hs.allocated m d hm).le.trans h.nextSlot_le)

/-- A scene with no other entries than before keeps what holds of them. -/
theorem fewer (hs : s.Orderly) (ht : t.Housed) (hnodes : s.nodes ⊆ t.nodes)
    (he : ∀ i, (t.entries i).Sublist (s.entries i))
    (hslots : ∀ m c n d, .checkpoint m c ∈ t.nodes → .checkpoint n d ∈ t.nodes →
      c.slot = d.slot → m = n)
    (hallocated : ∀ n c, .checkpoint n c ∈ t.nodes → c.slot < t.storage.nextSlot) : t.Orderly := by
  refine ⟨ht, fun i entry hmem => ?_, fun i => ((he i).map _).nodup (hs.nodup i),
    fun i j a ha b hb => hs.owned i j a ((he i).subset ha) b ((he j).subset hb), hslots, hallocated⟩
  obtain ⟨e, hin, hid, hop⟩ := hs.operators i entry ((he i).subset hmem)
  exact ⟨e, hnodes hin, hid, hop⟩

theorem effect (hs : s.Orderly) (ht : t.Housed) {step : Step α} (h : s.Effect step t) :
    t.Orderly := by
  cases h with
  | quiet storage entries nodes leaves keeps =>
    refine hs.fewer ht nodes (fun i => entries i ▸ List.Sublist.refl _) ?_ ?_
    · exact fun m c n d hc hd => hs.slots m c n d (leaves m c hc) (leaves n d hd)
    · exact fun n c hc => storage ▸ hs.allocated n c (leaves n c hc)
  | leaf n c created entries keeps =>
    obtain ⟨hslots, hallocated⟩ := hs.slots_created created
    refine hs.fewer ht ?_ (fun i => entries i ▸ List.Sublist.refl _) hslots hallocated
    exact created.nodes ▸ Set.subset_insert _ _
  | result n c created i e _ he operator forgotten entries keeps =>
    obtain ⟨hslots, hallocated⟩ := hs.slots_created created
    have hnodes : s.nodes ⊆ t.nodes := created.nodes ▸ Set.subset_insert _ _
    have hcases : ∀ j, ∀ entry ∈ t.entries j,
        entry ∈ s.entries j ∨ j = i ∧ entry = ⟨e.id, n, c⟩ := by
      intro j entry hentry
      rw [entries] at hentry
      split at hentry
      · next hj =>
        rcases List.mem_append.1 hentry with hold | hnew
        · exact .inl (hj ▸ hold)
        · exact .inr ⟨hj, List.mem_singleton.1 hnew⟩
      · exact .inl hentry
    have hfresh : ∀ j, ∀ a ∈ s.entries j, a.id ≠ n :=
      fun j a ha => Nat.ne_of_lt (Nat.lt_of_lt_of_le (hs.result_lt ha) created.number)
    refine ⟨ht, fun j entry hentry => ?_, fun j => ?_, fun j k a ha b hb hid => ?_, hslots,
      hallocated⟩
    · rcases hcases j entry hentry with hold | ⟨-, rfl⟩
      · obtain ⟨e', hin, hid, hop⟩ := hs.operators j entry hold
        exact ⟨e', hnodes hin, hid, hop⟩
      · exact ⟨e, hnodes he, rfl, operator⟩
    · rw [entries]
      split
      · rw [List.map_append, List.nodup_append]
        refine ⟨hs.nodup i, by simp, ?_⟩
        intro x hx y hy
        obtain ⟨entry, hentry, rfl⟩ := List.mem_map.1 hx
        obtain rfl : y = e.id := by simpa using hy
        exact forgotten entry hentry
      · exact hs.nodup j
    · rcases hcases j a ha with hold | ⟨hj, rfl⟩ <;> rcases hcases k b hb with hold' | ⟨hk, rfl⟩
      · exact hs.owned j k a hold b hold' hid
      · exact absurd hid (hfresh j a hold)
      · exact absurd hid.symm (hfresh k b hold')
      · exact ⟨hj.trans hk.symm, rfl⟩
  | drop nodes slots entries released others =>
    refine hs.fewer ht nodes.symm.subset (fun i => entries i ▸ List.filter_sublist) ?_ ?_
    · rw [nodes]
      exact hs.slots
    · rw [nodes, slots]
      exact hs.allocated
  | release i c eq storage nodes entries =>
    refine hs.fewer ht nodes.symm.subset (fun i => entries i ▸ List.Sublist.refl _) ?_ ?_
    · rw [nodes]
      exact hs.slots
    · rw [nodes, storage, Storage.nextSlot_release]
      exact hs.allocated

theorem step [Cell α] (hs : s.Orderly) (step : Step α) (on : step.IsOn s) :
    (s.step step).Orderly :=
  hs.effect (hs.toHoused.step step on) (step_effect hs.toHoused step on)

end Orderly

section Runs

variable [Cell α] {Allowed : Scene α → Step α → Prop} {s t : Scene α}

theorem Leads.orderly (hs : s.Orderly) (h : s.Leads Allowed t) : t.Orderly :=
  h.keeps hs fun _ step hu on _ => hu.step step on

/-- What every allowed step keeps of an orderly scene holds all along. -/
theorem Leads.keeps_orderly {P : Scene α → Prop} (h : s.Leads Allowed t) (hs : s.Orderly)
    (hP : P s)
    (hstep : ∀ u step, u.Orderly → P u → step.IsOn u → Allowed u step → P (u.step step)) : P t := by
  have hboth : t.Orderly ∧ P t := by
    refine h.keeps (P := fun u => u.Orderly ∧ P u) ⟨hs, hP⟩ fun u step hu on allowed => ?_
    exact ⟨hu.1.step step on, hstep u step hu.1 hu.2 on allowed⟩
  exact hboth.2

end Runs

end Scene

end RowAlgebra
