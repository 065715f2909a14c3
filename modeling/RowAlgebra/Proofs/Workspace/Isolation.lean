import RowAlgebra.Proofs.Manager.Tags
import RowAlgebra.Proofs.Workspace.Effects

/-!
# Isolation of storage

Managers that work on shared nodes do not touch each other's collections. A checkpoint is over the
collection that its plan has been executed to, and this is a new one, also if the plan is a mere
checkpoint (`Expr.execPlaced_eq`). So every checkpoint has a collection of its own, and a step
changes the storage level only of collections that it `Step.Names`: that of a checkpoint which it
creates or takes back, or those of the results which its manager forgets. So the result of a
materialization occupies storage just as long as its manager remembers it
(`Scene.storage_isolated`).
-/

namespace RowAlgebra

variable {α : Type}

/-- Whether a collection is one that a step is about: that of a new checkpoint, that of the checkpoint
which gives its storage back, or that of a result which is forgotten. -/
def Step.Names [Cell α] (s : Scene α) (step : Step α) (slot : Slot) : Prop :=
  (∃ n c, .checkpoint n c ∈ (s.step step).nodes ∧ .checkpoint n c ∉ s.nodes ∧ c.slot = slot) ∨
  (∃ i c, step = .act i (.release c) ∧ c.slot = slot) ∨
  ∃ i, ∃ entry ∈ s.entries i, step.evicts s.workspace i entry.node = true ∧
    entry.checkpoint.slot = slot

namespace Scene

variable {s t : Scene α} {n : NodeId} {c : Checkpoint α}

theorem Created.not_mem (hs : s.Housed) (h : s.Created t n c) : .checkpoint n c ∉ s.nodes :=
  fun hmem => Nat.not_lt_of_le h.number (hs.population.numbered _ hmem)

theorem Created.mem (h : s.Created t n c) : .checkpoint n c ∈ t.nodes :=
  h.nodes ▸ Set.mem_insert _ _

theorem Created.level (h : s.Created t n c) (slot : Slot) :
    t.level slot = if slot = c.slot then c.level else s.level slot := by
  obtain ⟨others, hslot, hstorage⟩ := h.storage
  rw [Scene.level, hstorage, Storage.level_allocate, Storage.nextSlot_reserve, ← hslot,
    s.storage.level_reserve]
  rfl

variable [Cell α]

theorem Orderly.names_of_level_ne (hs : s.Orderly) {step : Step α} (on : step.IsOn s) {slot : Slot}
    (h : (s.step step).level slot ≠ s.level slot) : step.Names s slot := by
  have named : ∀ n c, s.Created (s.step step) n c → step.Names s slot := by
    intro n c hc
    refine .inl ⟨n, c, hc.mem, hc.not_mem hs.toHoused, ?_⟩
    by_contra hslot
    exact h ((hc.level slot).trans (if_neg (Ne.symm hslot)))
  cases step_effect hs.toHoused step on with
  | quiet storage => exact absurd (congrArg (Storage.level · slot) storage) h
  | leaf n c created => exact named n c created
  | result n c created => exact named n c created
  | drop _ _ _ _ others =>
    by_contra hnames
    refine h (others slot fun i entry he hevict hslot => hnames ?_)
    exact .inr (.inr ⟨i, entry, he, hevict, hslot⟩)
  | release i c eq storage =>
    refine .inr (.inl ⟨i, c, eq, ?_⟩)
    by_contra hslot
    refine h ?_
    rw [level, storage, s.storage.level_release, if_neg hslot]
    rfl

/-- A step does not move a collection to another level than none. -/
theorem Orderly.level_step (hs : s.Orderly) {step : Step α} (on : step.IsOn s)
    (hc : .checkpoint n c ∈ s.nodes) :
    (s.step step).level c.slot = s.level c.slot ∨ (s.step step).level c.slot = .none := by
  by_contra hlevel
  obtain ⟨hne, hnone⟩ := not_or.1 hlevel
  rcases hs.names_of_level_ne on hne with
    ⟨m, d, hd, hnew, hslot⟩ | ⟨i, d, rfl, hslot⟩ | ⟨i, entry, he, hevict, hslot⟩
  · have hsub := (step_effect hs.toHoused step on).subset
    obtain ⟨rfl, rfl⟩ := (hs.step step on).same_checkpoint hd (hsub hc) hslot
    exact hnew hc
  · have hreleased : (s.step (.act i (.release d))).level c.slot =
        (s.storage.release d.slot).level c.slot := rfl
    rw [hreleased, s.storage.level_release, if_pos hslot] at hnone
    exact hnone rfl
  · exact hnone (hslot ▸ (step_effect hs.toHoused step on).level_of_evicts he hevict)

/-! ## The storage of one result -/

/-- The result of a materialization at some level: it is at that level or at none, and at none once
it has been forgotten. -/
structure Tended (s : Scene α) (i : ManagerId) (n : NodeId) (c : Checkpoint α)
    (level : StorageLevel) : Prop where
  mem : .checkpoint n c ∈ s.nodes
  level_or : s.level c.slot = level ∨ s.level c.slot = .none
  remembered : s.level c.slot ≠ .none → ∃ entry ∈ s.entries i, entry.result = .checkpoint n c

theorem Tended.step {i : ManagerId} {level : StorageLevel} (h : s.Tended i n c level)
    (hs : s.Orderly) {step : Step α} (on : step.IsOn s) : (s.step step).Tended i n c level := by
  have heffect := step_effect hs.toHoused step on
  refine ⟨heffect.subset h.mem, ?_, fun hlevel => ?_⟩
  · rcases hs.level_step on h.mem with hsame | hnone
    · exact hsame ▸ h.level_or
    · exact .inr hnone
  · have hsame := (hs.level_step on h.mem).resolve_right hlevel
    obtain ⟨entry, he, hresult⟩ := h.remembered (hsame ▸ hlevel)
    refine ⟨entry, heffect.keeps_entry he ?_, hresult⟩
    cases hresult
    exact Bool.eq_false_iff.2 fun hevict => hlevel (heffect.level_of_evicts he hevict)

/-- A result that is remembered is at its level, as long as it has not been taken back. -/
structure Held (s : Scene α) (i : ManagerId) (n : NodeId) (c : Checkpoint α)
    (level : StorageLevel) : Prop where
  mem : .checkpoint n c ∈ s.nodes
  level_eq : ∀ entry ∈ s.entries i, entry.result = .checkpoint n c → s.level c.slot = level

theorem Held.step {i : ManagerId} {level : StorageLevel} (h : s.Held i n c level)
    (hs : s.Orderly) {step : Step α} (on : step.IsOn s) (hkeeps : ∀ j, step ≠ .act j (.release c)) :
    (s.step step).Held i n c level := by
  have heffect := step_effect hs.toHoused step on
  have hmem := heffect.subset h.mem
  refine ⟨hmem, fun entry he hresult => ?_⟩
  cases hresult
  rcases heffect.entry_cases he with ⟨hold, hkept⟩ | hnew
  · rw [← h.level_eq entry hold rfl]
    by_contra hlevel
    rcases hs.names_of_level_ne on hlevel with
      ⟨m, d, hd, hnew, hslot⟩ | ⟨j, d, rfl, hslot⟩ | ⟨j, other, ho, hevict, hslot⟩
    · obtain ⟨rfl, rfl⟩ := (hs.step step on).same_checkpoint hd hmem hslot
      exact hnew h.mem
    · obtain ⟨m, hd⟩ := on.2.2
      obtain ⟨-, rfl⟩ := hs.same_checkpoint hd h.mem hslot
      exact hkeeps j rfl
    · obtain ⟨rfl, rfl⟩ := hs.same_entry ho hold hslot
      rw [hevict] at hkept
      cases hkept
  · exact absurd (hs.population.numbered _ h.mem) (Nat.not_lt_of_le hnew)

/-- **Storage is isolated and does not leak**: no two checkpoints share a collection, a step changes
the level of those only that it names, and a result is cached only while the manager that has
created it remembers it. It is then at the level that was asked for, unless it has been taken
back. -/
theorem storage_isolated {start : Scene α} (h₀ : start.Initial) (h : start.Reaches s) :
    (∀ m c n d, .checkpoint m c ∈ s.nodes → .checkpoint n d ∈ s.nodes → c.slot = d.slot →
      m = n ∧ c = d) ∧
    (∀ step : Step α, step.IsOn s → ∀ slot, (s.step step).level slot ≠ s.level slot →
      step.Names s slot) ∧
    ∀ i blocks e level n c, (Step.act i (.checkpoint blocks e level)).IsOn s →
      s.answer i blocks e level = .ok (.checkpoint n c) → .checkpoint n c ∉ s.nodes →
      (∀ t, (s.step (.act i (.checkpoint blocks e level))).Reaches t → t.level c.slot ≠ .none →
        t.level c.slot = level ∧ ∃ entry ∈ t.entries i, entry.result = .checkpoint n c) ∧
      ∀ t, (s.step (.act i (.checkpoint blocks e level))).Leads
          (fun _ step => ∀ j, step ≠ .act j (.release c)) t →
        (∃ entry ∈ t.entries i, entry.result = .checkpoint n c) → t.level c.slot = level := by
  have hs := h.orderly (.of_initial h₀)
  refine ⟨fun m c n d hc hd => hs.same_checkpoint hc hd, fun step on slot => hs.names_of_level_ne on,
    ?_⟩
  intro i blocks e level n c on hanswer hnew
  have hnext := hs.step _ on
  have hoperator : ∀ m d, e ≠ .checkpoint m d := by
    rintro m d rfl
    have hitself : s.answer i blocks (.checkpoint m d) level = .ok (.checkpoint m d) := rfl
    rw [hitself] at hanswer
    cases hanswer
    exact hnew on.2.1
  rcases answer_cases hs.toHoused on hoperator hanswer with
    ⟨entry, he, -, hresult⟩ | ⟨n', c', heq, hcreated, hlevel, hentry⟩
  · exact absurd (hresult ▸ hs.entries i entry he) hnew
  · cases heq
    have hcached : (s.step (.act i (.checkpoint blocks e level))).level c.slot = level :=
      (hcreated.level c.slot).trans ((if_pos rfl).trans hlevel)
    have htended : (s.step (.act i (.checkpoint blocks e level))).Tended i n c level :=
      ⟨hcreated.mem, .inl hcached, fun _ => ⟨_, hentry, rfl⟩⟩
    have hheld : (s.step (.act i (.checkpoint blocks e level))).Held i n c level :=
      ⟨hcreated.mem, fun _ _ _ => hcached⟩
    refine ⟨fun t ht hnone => ?_, fun t ht hremembered => ?_⟩
    · have ht' := ht.keeps_orderly (P := fun u => u.Tended i n c level) hnext htended
        fun u step hu h on _ => h.step hu on
      exact ⟨ht'.level_or.resolve_right hnone, ht'.remembered hnone⟩
    · have ht' := ht.keeps_orderly (P := fun u => u.Held i n c level) hnext hheld
        fun u step hu h on hkeeps => h.step hu on hkeeps
      obtain ⟨entry, he, hresult⟩ := hremembered
      exact ht'.level_eq entry he hresult

/-- A result stays where it is when another manager is cleared. -/
theorem storage_isolated_cleared : ∃ c,
    sampleScene.answer 1 .standard sampleSum .diskOnly = .ok (.checkpoint 2 c) ∧
      ((sampleScene.step (.act 1 (.checkpoint .standard sampleSum .diskOnly))).step
        (.act 0 .clear)).level c.slot = .diskOnly := by
  have hisolated := storage_isolated (initial_ofScript _ _) reaches_sampleScene
  have hs := reaches_sampleScene.orderly (.of_initial (initial_ofScript _ _))
  have hnew : ∀ c, .checkpoint 2 c ∉ sampleScene.nodes :=
    fun c hmem => absurd (hs.population.numbered _ hmem) (Nat.lt_irrefl 2)
  have hanswer : ∃ c, sampleScene.answer 1 .standard sampleSum .diskOnly = .ok (.checkpoint 2 c) ∧
      (sampleScene.step (.act 1 (.checkpoint .standard sampleSum .diskOnly))).entries 1 =
        [⟨1, 2, c⟩] := ⟨_, rfl, rfl⟩
  obtain ⟨c, hc, hentries⟩ := hanswer
  have hheld := (hisolated.2.2 1 .standard sampleSum .diskOnly 2 c
    ⟨by decide, sampleSum_mem, trivial⟩ hc (hnew c)).2
  refine ⟨c, hc, hheld _ (Leads.refl.step (.act 0 .clear) ⟨?_, trivial, trivial⟩ nofun)
    ⟨⟨1, 2, c⟩, ?_, rfl⟩⟩
  · exact Nat.zero_lt_succ 1
  · rw [entries_act (Nat.zero_lt_succ 1), if_neg (by decide), hentries]
    exact List.mem_singleton_self _

end Scene

end RowAlgebra
