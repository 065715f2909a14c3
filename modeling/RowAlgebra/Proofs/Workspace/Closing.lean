import RowAlgebra.Proofs.Workspace.Lifecycle

/-!
# What is still cached when a session has closed

A checkpoint comes into being as a leaf or as the result of a materialization
(`Scene.Orderly.made_cases`). A result is remembered by its manager, and so it is released when a
session over that manager closes. A leaf is remembered by nobody (`Scene.Loose`): it stays cached
unless the driver takes it back itself, and closing the session does not touch it
(`Scene.level_closeSession`).
-/

namespace RowAlgebra

variable {α : Type}

/-- The step does not take the storage of a checkpoint back at the hands of the driver. -/
def Step.Spares (c : Checkpoint α) (step : Step α) : Prop :=
  ∀ i, step ≠ .act i (.release c)

namespace Scene

variable [Cell α] {s t : Scene α} {i : ManagerId} {n : NodeId} {c : Checkpoint α}

/-! ## How checkpoints come into being -/

omit [Cell α] in
/-- A new checkpoint is the one that has been created. -/
theorem Created.eq_of_mem {m : NodeId} {d : Checkpoint α} (h : s.Created t m d)
    (hnew : .checkpoint n c ∉ s.nodes) (hmade : .checkpoint n c ∈ t.nodes) : n = m ∧ c = d := by
  rw [h.nodes] at hmade
  rcases Set.mem_insert_iff.1 hmade with heq | hold
  · cases heq
    exact ⟨rfl, rfl⟩
  · exact absurd hold hnew

/-- A leaf is created, and no manager remembers more than before. -/
theorem made_parallelize (hi : i < s.workspace.managers.length) {matrix : InCore α}
    {partitions : Int} {keys : Option GivenKeys} {level : StorageLevel}
    (hnew : .checkpoint n c ∉ s.nodes)
    (hmade : .checkpoint n c ∈ (s.step (.act i (.parallelize matrix partitions keys level))).nodes) :
    s.Created (s.step (.act i (.parallelize matrix partitions keys level))) n c ∧
      ∀ j, (s.step (.act i (.parallelize matrix partitions keys level))).entries j =
        s.entries j := by
  cases effect_parallelize hi matrix partitions keys level with
  | quiet _ _ _ leaves => exact absurd (leaves n c hmade) hnew
  | leaf m d created entries =>
    obtain ⟨rfl, rfl⟩ := created.eq_of_mem hnew hmade
    exact ⟨created, entries⟩
  | result _ _ _ _ _ request =>
    obtain ⟨blocks, level, heq⟩ := request
    cases heq
  | drop nodes => exact absurd (nodes ▸ hmade) hnew
  | release _ _ _ _ nodes => exact absurd (nodes ▸ hmade) hnew

/-- A result is created, and its manager remembers it. -/
theorem made_checkpoint (hs : s.Housed) {blocks : BlockCatalogue α} {e : Expr α}
    {level : StorageLevel} (on : (Step.act i (.checkpoint blocks e level)).IsOn s)
    (hnew : .checkpoint n c ∉ s.nodes)
    (hmade : .checkpoint n c ∈ (s.step (.act i (.checkpoint blocks e level))).nodes) :
    s.Created (s.step (.act i (.checkpoint blocks e level))) n c ∧
      ∃ entry ∈ (s.step (.act i (.checkpoint blocks e level))).entries i,
        entry.result = .checkpoint n c := by
  cases hanswer : s.answer i blocks e level with
  | error error =>
    have hnodes : (s.step (.act i (.checkpoint blocks e level))).nodes = s.nodes :=
      (s.stage i).absorb_nodes_error hanswer
    exact absurd (hnodes ▸ hmade) hnew
  | ok r =>
    have hnodes : (s.step (.act i (.checkpoint blocks e level))).nodes = insert r s.nodes :=
      (s.stage i).absorb_nodes_ok hanswer
    rw [hnodes] at hmade
    obtain rfl : .checkpoint n c = r := (Set.mem_insert_iff.1 hmade).resolve_right hnew
    have hoperator : ∀ m d, e ≠ .checkpoint m d := by
      rintro m d rfl
      cases hanswer
      exact hnew on.2.1
    rcases answer_cases hs on hoperator hanswer with
      ⟨entry, hentry, -, hresult⟩ | ⟨m, d, heq, hcreated, -, hentry⟩
    · exact absurd (hresult ▸ hs.entries i entry hentry) hnew
    · cases heq
      exact ⟨hcreated, _, hentry, rfl⟩

/-! ## Leaves -/

/-- A leaf that no manager remembers. -/
structure Loose (s : Scene α) (n : NodeId) (c : Checkpoint α) : Prop where
  mem : .checkpoint n c ∈ s.nodes
  unknown : ∀ i, ∀ entry ∈ s.entries i, entry.id ≠ n

/-- What is not cached stays so. -/
theorem Orderly.not_cached_step (hs : s.Orderly) {step : Step α} (on : step.IsOn s)
    (hc : .checkpoint n c ∈ s.nodes) (h : s.level c.slot = .none) :
    (s.step step).level c.slot = .none :=
  (hs.level_step on hc).elim (fun hsame => hsame.trans h) id

theorem level_release (s : Scene α) (i : ManagerId) (c : Checkpoint α) :
    (s.step (.act i (.release c))).level c.slot = .none :=
  (s.storage.level_release c.slot c.slot).trans (if_pos rfl)

namespace Loose

theorem step (h : s.Loose n c) (hs : s.Orderly) {step : Step α} (on : step.IsOn s) :
    (s.step step).Loose n c := by
  have heffect := step_effect hs.toHoused step on
  refine ⟨heffect.subset h.mem, fun i entry hentry => ?_⟩
  rcases heffect.entry_cases hentry with ⟨hold, -⟩ | hnew
  · exact h.unknown i entry hold
  · exact Nat.ne_of_gt (Nat.lt_of_lt_of_le (hs.population.numbered _ h.mem) hnew)

/-- Nothing but the driver moves a leaf to another level. -/
theorem level_step (h : s.Loose n c) (hs : s.Orderly) {step : Step α} (on : step.IsOn s)
    (hspares : step.Spares c) : (s.step step).level c.slot = s.level c.slot := by
  by_contra hlevel
  rcases hs.names_of_level_ne on hlevel with
    ⟨m, d, hd, hnew, hslot⟩ | ⟨i, d, rfl, hslot⟩ | ⟨i, entry, hentry, -, hslot⟩
  · obtain ⟨rfl, rfl⟩ := (hs.step step on).same_checkpoint hd (h.step hs on).mem hslot
    exact hnew h.mem
  · obtain ⟨m, hd⟩ := on.2.2
    obtain ⟨-, rfl⟩ := hs.same_checkpoint hd h.mem hslot
    exact hspares i rfl
  · exact h.unknown i entry hentry
      (hs.same_checkpoint (hs.entries i entry hentry) h.mem hslot).1

/-- After a run that spares a leaf, it is where it was; and after any other run, it is not cached. -/
theorem level_run (h : s.Loose n c) (hs : s.Orderly) (hrun : s.Reaches t) :
    (s.Leads (fun _ step => step.Spares c) t → t.level c.slot = s.level c.slot) ∧
      (¬s.Leads (fun _ step => step.Spares c) t → t.level c.slot = .none) := by
  constructor
  · intro hspared
    have hkept := hspared.keeps_orderly (P := fun u => u.Loose n c ∧ u.level c.slot = s.level c.slot)
      hs ⟨h, rfl⟩ fun u step hu hP on hspares =>
        ⟨hP.1.step hu on, (hP.1.level_step hu on hspares).trans hP.2⟩
    exact hkept.2
  · intro hspared
    have hkept := hrun.keeps_orderly
      (P := fun u => u.Loose n c ∧ (s.Leads (fun _ step => step.Spares c) u ∨ u.level c.slot = .none))
      hs ⟨h, .inl .refl⟩ fun u step hu hP on _ => ?_
    · exact hkept.2.resolve_left hspared
    · refine ⟨hP.1.step hu on, ?_⟩
      rcases hP.2 with hleads | hnone
      · by_cases hspares : step.Spares c
        · exact .inl (hleads.step step on hspares)
        · obtain ⟨i, rfl⟩ : ∃ i, step = .act i (.release c) := by
            by_contra hother
            exact hspares fun i hi => hother ⟨i, hi⟩
          exact .inr (u.level_release i c)
      · exact .inr (hu.not_cached_step on hP.1.mem hnone)

end Loose

/-- A leaf is loose from the beginning, and at the level that was asked for. -/
theorem Orderly.loose_of_made (hs : s.Orderly) (hi : i < s.workspace.managers.length)
    {matrix : InCore α} {partitions : Int} {keys : Option GivenKeys} {level : StorageLevel}
    (hnew : .checkpoint n c ∉ s.nodes)
    (hmade : .checkpoint n c ∈ (s.step (.act i (.parallelize matrix partitions keys level))).nodes)
    (hlevel : c.level = level) :
    (s.step (.act i (.parallelize matrix partitions keys level))).Loose n c ∧
      (s.step (.act i (.parallelize matrix partitions keys level))).level c.slot = level := by
  obtain ⟨hcreated, hentries⟩ := made_parallelize hi hnew hmade
  refine ⟨⟨hmade, fun j entry hentry => ?_⟩, ?_⟩
  · rw [hentries] at hentry
    exact Nat.ne_of_lt (Nat.lt_of_lt_of_le (hs.result_lt hentry) hcreated.number)
  · exact (hcreated.level c.slot).trans ((if_pos rfl).trans hlevel)

/-- A result is tended from the beginning, for its manager remembers it. -/
theorem Orderly.tended_of_made (hs : s.Orderly) {blocks : BlockCatalogue α} {e : Expr α}
    {level : StorageLevel} (on : (Step.act i (.checkpoint blocks e level)).IsOn s)
    (hnew : .checkpoint n c ∉ s.nodes)
    (hmade : .checkpoint n c ∈ (s.step (.act i (.checkpoint blocks e level))).nodes)
    (hlevel : c.level = level) :
    (s.step (.act i (.checkpoint blocks e level))).Tended i n c level := by
  obtain ⟨hcreated, hentry⟩ := made_checkpoint hs.toHoused on hnew hmade
  refine ⟨hmade, .inl ?_, fun _ => hentry⟩
  exact (hcreated.level c.slot).trans ((if_pos rfl).trans hlevel)

/-! ## Closing -/

/-- A leaf is where it was when a session closes. -/
theorem Loose.level_closeSession (h : s.Loose n c) (hs : s.Orderly) (k : SessionId) :
    (s.step (.closeSession k)).level c.slot = s.level c.slot :=
  h.level_step hs trivial nofun

/-- A result is not cached any more when a session over its manager has closed. -/
theorem Tended.level_closeSession {level : StorageLevel} (h : s.Tended i n c level)
    (hs : s.Orderly) {k : SessionId} {session : Session} (hfound : s.sessions[k]? = some session)
    (hopen : session.closed = false) (hmanager : session.manager = i) :
    (s.step (.closeSession k)).level c.slot = .none := by
  by_cases hlevel : s.level c.slot = .none
  · exact hs.not_cached_step trivial h.mem hlevel
  · obtain ⟨entry, hentry, hresult⟩ := h.remembered hlevel
    obtain ⟨-, hgone⟩ := gone_closeSession hs hfound hopen
    have hreleased := (hgone.released entry (hmanager ▸ hentry)).2
    cases hresult
    exact hreleased

/-- **Closing a session releases its results, and not its leaves.** Whatever happens between the making
of a checkpoint and the closing of a session over the manager that has made it, a result is not cached
any more. A leaf is cached just as it was asked for, unless the driver has taken it back. -/
theorem level_after_closing {start : Scene α} (h₀ : start.Initial) (h : start.Reaches s)
    {deed : Act α} (on : (Step.act i deed).IsOn s) (hnew : .checkpoint n c ∉ s.nodes)
    (hmade : .checkpoint n c ∈ (s.step (.act i deed)).nodes)
    (later : (s.step (.act i deed)).Reaches t) {k : SessionId} {session : Session}
    (hfound : t.sessions[k]? = some session) (hopen : session.closed = false)
    (hmanager : session.manager = i) :
    (∃ blocks e level, deed = .checkpoint blocks e level) ∧
        (t.step (.closeSession k)).level c.slot = .none ∨
      ∃ matrix partitions keys level, deed = .parallelize matrix partitions keys level ∧
        ((s.step (.act i deed)).Leads (fun _ step => step.Spares c) t →
          (t.step (.closeSession k)).level c.slot = level) ∧
        (¬(s.step (.act i deed)).Leads (fun _ step => step.Spares c) t →
          (t.step (.closeSession k)).level c.slot = .none) := by
  have hs := h.orderly (.of_initial h₀)
  have hs' := hs.step _ on
  have ht := later.orderly hs'
  rcases (hs.toHoused.stage i).checkpoint_mem_step on.2.1 hmade with
    hold | ⟨matrix, partitions, keys, level, s', m, rfl, hleaf⟩ |
      ⟨blocks, e, level, s', plan, rfl, hresult⟩
  · exact absurd hold hnew
  · obtain ⟨hloose, hlevel⟩ := hs.loose_of_made on.1 hnew hmade hleaf.level
    obtain ⟨hspared, htaken⟩ := hloose.level_run hs' later
    have hloose' : t.Loose n c := later.keeps_orderly (P := fun u => u.Loose n c) hs' hloose
      fun u step hu hP on _ => hP.step hu on
    rw [hloose'.level_closeSession ht k]
    exact .inr ⟨matrix, partitions, keys, level, rfl, fun hrun => (hspared hrun).trans hlevel, htaken⟩
  · have htended : t.Tended i n c level := later.keeps_orderly (P := fun u => u.Tended i n c level)
      hs' (hs.tended_of_made on hnew hmade hresult.level) fun u step hu hP on _ => hP.step hu on
    exact .inl ⟨⟨blocks, e, level, rfl⟩, htended.level_closeSession ht hfound hopen hmanager⟩

/-! ### A session with a leaf and a result -/

def sampleOpened : Scene Float :=
  (ofScript [2 ^ 63, 2 ^ 63 + 7] 1).step
    (.openSession ⟨⟨"/", []⟩, [], none⟩ (fun _ => .unusable)
      ⟨SessionConfig.localMaster, "app", [], .empty, .empty⟩ false)

def sampleLeafAct : Act Float :=
  .parallelize (.matrix sampleMatrix) 2 (some (.plain [.int 5, .int 3])) .memoryOnly

def sampleSumAct : Act Float :=
  .checkpoint .standard sampleSum .diskOnly

theorem reaches_sampleOpened : Reaches (ofScript [2 ^ 63, 2 ^ 63 + 7] 1) sampleOpened :=
  Leads.refl.step _ trivial trivial

theorem leads_sampleSession : (sampleOpened.step (.act 1 sampleLeafAct)).Leads
    (fun _ step => ∀ c, step.Spares c) sampleSession := by
  have hsum : (Step.act 1 (.unary (.scalar .plus (.int 1)) sampleLeaf)).IsOn
      (sampleOpened.step (.act 1 sampleLeafAct)) :=
    ⟨by decide, Set.mem_insert sampleLeaf _, trivial⟩
  have hspares (c : Checkpoint Float) :
      (Step.act 1 (.unary (.scalar .plus (.int 1)) sampleLeaf)).Spares c := by
    intro i h
    cases h
  have hopened : (sampleOpened.step (.act 1 sampleLeafAct)).Leads
      (fun _ step => ∀ c, step.Spares c) (sampleOpened.step (.act 1 sampleLeafAct)) := .refl
  exact hopened.step _ hsum hspares

/-- The session is closed after the sum has been materialized. -/
theorem level_after_closing_sampleSum :
    (∃ c, sampleLeaf = .checkpoint 0 c ∧
      ((sampleSession.step (.act 1 sampleSumAct)).step (.closeSession 0)).level c.slot =
        .memoryOnly) ∧
    ∃ c, .checkpoint 2 c ∈ (sampleSession.step (.act 1 sampleSumAct)).nodes ∧
      ((sampleSession.step (.act 1 sampleSumAct)).step (.closeSession 0)).level c.slot = .none := by
  have hleafOn : (Step.act 1 sampleLeafAct).IsOn sampleOpened := ⟨by decide, trivial, trivial⟩
  have hsumOn : (Step.act 1 sampleSumAct).IsOn sampleSession :=
    ⟨Nat.lt_succ_self 1, Set.mem_insert sampleSum _, trivial⟩
  have hspares (c : Checkpoint Float) : (Step.act 1 sampleSumAct).Spares c := by
    intro i h
    cases h
  have hlater := leads_sampleSession.step _ hsumOn hspares
  obtain ⟨session, hfound, hopen, hmanager⟩ :
      ∃ session, (sampleSession.step (.act 1 sampleSumAct)).sessions[0]? = some session ∧
        session.closed = false ∧ session.manager = 1 := ⟨_, rfl, rfl, rfl⟩
  constructor
  · obtain ⟨c, hc⟩ : ∃ c, sampleLeaf = .checkpoint 0 c := ⟨_, rfl⟩
    have hmade : .checkpoint 0 c ∈ (sampleOpened.step (.act 1 sampleLeafAct)).nodes :=
      hc ▸ Set.mem_insert sampleLeaf _
    have hnew : .checkpoint 0 c ∉ sampleOpened.nodes := Set.notMem_empty _
    rcases level_after_closing (initial_ofScript _ _) reaches_sampleOpened hleafOn hnew hmade
      (hlater.mono fun _ _ _ => trivial) hfound hopen hmanager with
      ⟨⟨blocks, e, level, h⟩, -⟩ | ⟨matrix, partitions, keys, level, h, hcached, -⟩
    · cases h
    · cases h
      exact ⟨c, hc, hcached (hlater.mono fun _ _ hspares => hspares c)⟩
  · have hreaches : Reaches (ofScript [2 ^ 63, 2 ^ 63 + 7] 1) sampleSession :=
      (reaches_sampleOpened.step _ hleafOn trivial).trans
        (leads_sampleSession.mono fun _ _ _ => trivial)
    have hpopulation := (hreaches.orderly (.of_initial (initial_ofScript _ _))).population
    obtain ⟨c, hmade⟩ :
        ∃ c, .checkpoint 2 c ∈ (sampleSession.step (.act 1 sampleSumAct)).nodes :=
      ⟨_, Set.mem_insert _ _⟩
    have hnew : .checkpoint 2 c ∉ sampleSession.nodes :=
      fun hold => Nat.lt_irrefl 2 (hpopulation.numbered _ hold)
    rcases level_after_closing (initial_ofScript _ _) hreaches hsumOn hnew hmade .refl hfound hopen
      hmanager with ⟨-, hreleased⟩ | ⟨matrix, partitions, keys, level, h, -⟩
    · exact ⟨c, hmade, hreleased⟩
    · cases h

/-- The leaf is cached when its session has closed. -/
theorem leaf_cached_after_closing : ∃ c, sampleLeaf = .checkpoint 0 c ∧
    sampleLeaf ∈ sampleSession.nodes ∧
      (sampleSession.step (.closeSession 0)).level c.slot = .memoryOnly :=
  ⟨_, rfl, Set.mem_insert_of_mem _ (Set.mem_insert sampleLeaf _), rfl⟩

end Scene

end RowAlgebra
