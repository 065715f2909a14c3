import Mathlib.Data.Set.Card
import RowAlgebra.Proofs.Workspace.Effects

/-!
# What managers remember

A manager computes a node at most once. Once an operator has been answered, the manager gives the
same checkpoint again and does nothing else, until a step makes it forget the node; the next answer
is then a new checkpoint. Nodes are told apart by their identity, and a manager remembers as many
of them as it has entries (`Scene.materialized_once`).
-/

namespace RowAlgebra

variable {α : Type}

theorem Workspace.update_managed (w : Workspace α) (i : ManagerId) :
    w.update i (w.managed i) = w := by
  have hset : w.managers.set i (w.manager i) = w.managers := by
    by_cases hi : i < w.managers.length
    · have hmanager : w.manager i = w.managers[i] := by simp [manager, List.getD, hi]
      rw [hmanager, List.set_getElem_self]
    · exact List.set_eq_of_length_le (Nat.le_of_not_lt hi)
  rw [update, managed, hset]

namespace Scene

/-- Whether a manager remembers a result of a node. -/
def Remembers (s : Scene α) (i : ManagerId) (e r : Expr α) : Prop :=
  ∃ entry ∈ s.entries i, entry.node = e.id ∧ entry.result = r

/-- Whether a manager remembers no result of a node. -/
def Forgets (s : Scene α) (i : ManagerId) (e : Expr α) : Prop :=
  ∀ entry ∈ s.entries i, entry.node ≠ e.id

namespace Orderly

variable {s : Scene α} {i : ManagerId}

theorem find_eq (hs : s.Orderly) {entry : Entry α} (he : entry ∈ s.entries i) :
    (s.workspace.manager i).find? entry.node = some entry := by
  cases hf : (s.workspace.manager i).find? entry.node with
  | none =>
    have hnone := List.find?_eq_none.1 hf entry he
    simp at hnone
  | some other =>
    have hnode : other.node = entry.node := by simpa using List.find?_some hf
    exact congrArg some
      (List.inj_on_of_nodup_map (hs.nodup i) (List.mem_of_find?_eq_some hf) he hnode)

/-- The results of two nodes differ. -/
theorem result_ne (hs : s.Orderly) {e e' : Expr α} (he : e ∈ s.nodes) (he' : e' ∈ s.nodes)
    (hne : e' ≠ e) {a b : Entry α} (ha : (s.workspace.manager i).find? e.id = some a)
    (hb : (s.workspace.manager i).find? e'.id = some b) : a.result ≠ b.result := by
  intro hresult
  have hid : a.id = b.id := congrArg Expr.id hresult
  obtain ⟨-, rfl⟩ := hs.owned i i a (List.mem_of_find?_eq_some ha) b (List.mem_of_find?_eq_some hb) hid
  have hnode : a.node = e.id := by simpa using List.find?_some ha
  have hnode' : a.node = e'.id := by simpa using List.find?_some hb
  exact hne (hs.population.identified e' he' e he (hnode'.symm.trans hnode))

theorem size_eq (hs : s.Orderly) : (s.workspace.manager i).size =
    {x ∈ s.nodes | (s.workspace.manager i).isCheckpointed x = true}.ncard := by
  have hinj : Set.InjOn Expr.id {x ∈ s.nodes | (s.workspace.manager i).isCheckpointed x = true} :=
    fun a ha b hb => hs.population.identified a ha.1 b hb.1
  have himage : Expr.id '' {x ∈ s.nodes | (s.workspace.manager i).isCheckpointed x = true} =
      ↑((s.entries i).map Entry.node).toFinset := by
    ext node
    rw [Set.mem_image, List.coe_toFinset, Set.mem_ofPred_eq, List.mem_map]
    constructor
    · rintro ⟨x, ⟨-, hx⟩, rfl⟩
      obtain ⟨entry, hentry⟩ := Option.isSome_iff_exists.1 hx
      exact ⟨entry, List.mem_of_find?_eq_some hentry, by simpa using List.find?_some hentry⟩
    · rintro ⟨entry, he, rfl⟩
      obtain ⟨x, hx, hid, -⟩ := hs.operators i entry he
      refine ⟨x, ⟨hx, ?_⟩, hid⟩
      rw [Manager.isCheckpointed, hid, hs.find_eq he]
      rfl
  rw [← hinj.ncard_image, himage, Set.ncard_coe_finset,
    List.toFinset_card_of_nodup (hs.nodup i), List.length_map]
  rfl

end Orderly

section Steps

variable [Cell α] {s t : Scene α} {i : ManagerId} {e r : Expr α}

/-- A remembered result is answered, and nothing else happens. -/
theorem Remembers.checkpoint (h : s.Remembers i e r) (hs : s.Orderly)
    (operator : ∀ m c, e ≠ .checkpoint m c) (blocks : BlockCatalogue α) (level : StorageLevel) :
    Workspace.checkpoint blocks i e level s.workspace = (.ok r, s.workspace) := by
  obtain ⟨entry, he, hnode, rfl⟩ := h
  have hfind := hs.find_eq he
  rw [hnode] at hfind
  have hanswer := (s.workspace.managed i).checkpoint_of_remembered blocks level operator hfind
  change (((s.workspace.managed i).checkpoint blocks e level).1,
    s.workspace.update i ((s.workspace.managed i).checkpoint blocks e level).2) = _
  rw [hanswer, s.workspace.update_managed]

theorem Remembers.step (h : s.Remembers i e r) (hs : s.Orderly) {step : Step α}
    (on : step.IsOn s) (hkeeps : step.evicts s.workspace i e.id = false) :
    (s.step step).Remembers i e r := by
  obtain ⟨entry, he, hnode, hresult⟩ := h
  exact ⟨entry, (step_effect hs.toHoused step on).keeps_entry he (hnode ▸ hkeeps), hnode, hresult⟩

/-- What an operator has been answered is remembered. -/
theorem remembers_of_answer (hs : s.Orderly) {blocks : BlockCatalogue α} {level : StorageLevel}
    (on : (Step.act i (.checkpoint blocks e level)).IsOn s)
    (operator : ∀ m c, e ≠ .checkpoint m c) (h : s.answer i blocks e level = .ok r) :
    (s.step (.act i (.checkpoint blocks e level))).Remembers i e r := by
  rcases answer_cases hs.toHoused on operator h with
    ⟨entry, he, hnode, hresult⟩ | ⟨n, c, rfl, -, -, hentry⟩
  · have hremembers : s.Remembers i e r := ⟨entry, he, hnode, hresult⟩
    exact hremembers.step hs on rfl
  · exact ⟨_, hentry, rfl, rfl⟩

theorem entries_of_error {blocks : BlockCatalogue α} {level : StorageLevel}
    (on : (Step.act i (.checkpoint blocks e level)).IsOn s) {error : Error}
    (h : s.answer i blocks e level = .error error) (j : ManagerId) :
    (s.step (.act i (.checkpoint blocks e level))).entries j = s.entries j := by
  refine entries_act_eq on.1 ?_ j
  have herror : ((s.workspace.managed i).checkpoint blocks e level).1 = .error error := h
  rcases (s.workspace.managed i).checkpoint_cases blocks e level with
    ⟨m, d, -, hanswer⟩ | ⟨entry, -, -, hanswer⟩ | ⟨_, -, hfailed⟩ | ⟨plan, n, c, hok, -⟩
  · rw [hanswer] at herror
    cases herror
  · rw [hanswer] at herror
    cases herror
  · exact hfailed.entries
  · rw [hok] at herror
    cases herror

/-- A forgotten node stays forgotten until it is computed again. -/
theorem Forgets.step (h : s.Forgets i e) (hs : s.Orderly) (he : e ∈ s.nodes) {step : Step α}
    (on : step.IsOn s) (hfails : ∀ blocks level, step = .act i (.checkpoint blocks e level) →
      ∀ r, s.answer i blocks e level ≠ .ok r) : (s.step step).Forgets i e := by
  intro entry hentry hnode
  cases step_effect hs.toHoused step on with
  | quiet _ entries | leaf _ _ _ entries | release _ _ _ _ _ entries =>
    exact h entry (entries i ▸ hentry) hnode
  | drop _ _ entries =>
    rw [entries] at hentry
    exact h entry (List.mem_filter.1 hentry).1 hnode
  | result n c created j e' request he' operator forgotten entries =>
    obtain ⟨blocks, level, rfl⟩ := request
    have hmem := hentry
    rw [entries] at hmem
    split at hmem
    · next hi =>
      subst hi
      rcases List.mem_append.1 hmem with hold | hnew
      · exact h entry hold hnode
      · -- the request is one for the node, so that it has been refused
        obtain rfl := List.mem_singleton.1 hnew
        obtain rfl := hs.population.identified e' he' e he hnode
        cases hanswer : s.answer i blocks e' level with
        | ok r => exact hfails blocks level rfl r hanswer
        | error error =>
          rw [entries_of_error on hanswer] at hentry
          exact h _ hentry hnode
    · exact h entry hmem hnode

/-- The answer for a forgotten node is a new checkpoint. -/
theorem Forgets.answer_new (h : s.Forgets i e) (hs : s.Housed) (he : e ∈ s.nodes)
    (operator : ∀ m c, e ≠ .checkpoint m c) {blocks : BlockCatalogue α} {level : StorageLevel}
    (hanswer : s.answer i blocks e level = .ok r) : ∃ n c, r = .checkpoint n c ∧ r ∉ s.nodes := by
  have hok : ((s.workspace.managed i).checkpoint blocks e level).1 = .ok r := hanswer
  rcases (s.workspace.managed i).checkpoint_cases blocks e level with
    ⟨m, d, rfl, -⟩ | ⟨entry, hentry, hnode, -⟩ | ⟨error, herror, -⟩ | ⟨plan, n, c, hnew, hm⟩
  · exact absurd rfl (operator m d)
  · exact absurd hnode (h entry hentry)
  · rw [herror] at hok
    cases hok
  · obtain rfl := Except.ok.inj (hok.symm.trans hnew)
    refine ⟨n, c, rfl, fun hmem => ?_⟩
    have hnumber := (hs.stage i).next_le_of_optimize he hm.optimize
    exact Nat.not_lt_of_le hnumber (hs.population.numbered _ hmem)

/-- **A node is materialized at most once**: what has been answered is answered again, and nothing
else happens, until the manager is made to forget the node; what is answered then is new. The results
of two nodes differ, and a manager counts the nodes that it remembers. -/
theorem materialized_once {start : Scene α} (h₀ : start.Initial) (h : start.Reaches s)
    (hi : i < s.workspace.managers.length) (he : e ∈ s.nodes)
    (operator : ∀ m c, e ≠ .checkpoint m c) :
    (∀ blocks level r, s.answer i blocks e level = .ok r →
      ∀ t, (s.step (.act i (.checkpoint blocks e level))).Leads
          (fun u step => step.evicts u.workspace i e.id = false) t →
        ∀ blocks' level',
          Workspace.checkpoint blocks' i e level' t.workspace = (.ok r, t.workspace)) ∧
    (∀ step, step.IsOn s → step.evicts s.workspace i e.id = true →
      ∀ t, (s.step step).Leads (fun u step => ∀ blocks level,
          step = .act i (.checkpoint blocks e level) → ∀ r, u.answer i blocks e level ≠ .ok r) t →
        ∀ blocks level r, t.answer i blocks e level = .ok r →
          ∃ n c, r = .checkpoint n c ∧ r ∉ t.nodes) ∧
    (∀ e' ∈ s.nodes, e' ≠ e → ∀ a b, (s.workspace.manager i).find? e.id = some a →
      (s.workspace.manager i).find? e'.id = some b → a.result ≠ b.result) ∧
    (s.workspace.manager i).size =
      {x ∈ s.nodes | (s.workspace.manager i).isCheckpointed x = true}.ncard := by
  have hs := h.orderly (.of_initial h₀)
  refine ⟨fun blocks level r hanswer t ht blocks' level' => ?_,
    fun step on hevicts t ht blocks level r hanswer => ?_,
    fun e' he' hne a b ha hb => hs.result_ne he he' hne ha hb, hs.size_eq⟩
  · have on : (Step.act i (.checkpoint blocks e level)).IsOn s := ⟨hi, he, trivial⟩
    have hremembers : t.Remembers i e r :=
      ht.keeps_orderly (P := fun u => u.Remembers i e r) (hs.step _ on)
        (remembers_of_answer hs on operator hanswer) fun u step hu h on hkeeps => h.step hu on hkeeps
    exact hremembers.checkpoint (ht.orderly (hs.step _ on)) operator blocks' level'
  · have hnext := hs.step step on
    have heffect := step_effect hs.toHoused step on
    have hforgets : e ∈ t.nodes ∧ t.Forgets i e :=
      ht.keeps_orderly (P := fun u => e ∈ u.nodes ∧ u.Forgets i e) hnext
        ⟨heffect.subset he, heffect.forgets hevicts⟩ fun u step hu h on hfails =>
          ⟨(step_effect hu.toHoused step on).subset h.1, h.2.step hu h.1 on hfails⟩
    exact hforgets.2.answer_new (ht.orderly hnext).toHoused hforgets.1 operator hanswer

end Steps

/-- A sum is answered again at another level after another manager has been cleared. -/
theorem materialized_once_sum : ∃ r,
    sampleScene.answer 1 .standard sampleSum .diskOnly = .ok r ∧
      let t := (sampleScene.step (.act 1 (.checkpoint .standard sampleSum .diskOnly))).step
        (.act 0 .clear)
      Workspace.checkpoint .standard 1 sampleSum .memoryOnly t.workspace = (.ok r, t.workspace) := by
  have honce := materialized_once (initial_ofScript _ _) reaches_sampleScene (i := 1)
    (by decide) sampleSum_mem fun m c h => by cases h
  have hanswer : ∃ r, sampleScene.answer 1 .standard sampleSum .diskOnly = .ok r := ⟨_, rfl⟩
  obtain ⟨r, hr⟩ := hanswer
  have hclear : (Step.act 0 .clear).IsOn
      (sampleScene.step (.act 1 (.checkpoint .standard sampleSum .diskOnly))) :=
    ⟨Nat.zero_lt_succ 1, trivial, trivial⟩
  exact ⟨r, hr, honce.1 .standard .diskOnly r hr _ (Leads.refl.step (.act 0 .clear) hclear rfl)
    .standard .memoryOnly⟩

end Scene

end RowAlgebra
