import RowAlgebra.Handle.StandardBlocks
import RowAlgebra.Proofs.Manager.Tags
import RowAlgebra.Workspace

/-!
# Runs of a whole workspace

A `Scene` is what there is while any number of managers and sessions work on shared nodes: the
workspace, and the nodes that have been built or delivered so far. A `Step` is an act of one of the
managers, or it opens, joins or closes a session. `Scene.Leads` relates a scene to those that steps
of some kind lead to.

A step of one manager leaves the others as they are (`Scene.entries_act`), and the sessions that open
or join disturb none of them. All along, the nodes are a population, and all remembered results are
among them (`Scene.Housed.step`).
-/

namespace RowAlgebra

variable {α : Type}

/-! ## Scenes and steps -/

structure Scene (α : Type) where
  workspace : Workspace α
  nodes : Set (Expr α)

/-- One step of the driver of a workspace. -/
inductive Step (α : Type) where
  | act (i : ManagerId) (deed : Act α)
  | openSession (around : Surroundings) (script : FilePath → Script) (request : SessionRequest)
    (isPrivate : Bool)
  /-- A further session joins the library of one session and the manager of another. -/
  | joinSessions (i j : SessionId)
  | closeSession (i : SessionId)

namespace Scene

def entries (s : Scene α) (i : ManagerId) : List (Entry α) :=
  (s.workspace.manager i).entries

def storage (s : Scene α) : Storage :=
  s.workspace.substrate.storage

def level (s : Scene α) (slot : Slot) : StorageLevel :=
  s.storage.level slot

def next (s : Scene α) : NodeId :=
  s.workspace.substrate.nextNode

/-- What one of the managers sees. -/
def stage (s : Scene α) (i : ManagerId) : Stage α :=
  ⟨s.workspace.managed i, s.nodes, []⟩

def step [Cell α] (s : Scene α) : Step α → Scene α
  | .act i deed =>
    let t := (s.stage i).step deed
    ⟨s.workspace.update i t.managed, t.nodes⟩
  | .openSession around script request isPrivate =>
    { s with
      workspace := (Workspace.openSession around script request isPrivate s.workspace).2 }
  | .joinSessions i j =>
    match (Workspace.joinSessions i j s.workspace).1 with
    | .ok session =>
      { s with workspace := { s.workspace with sessions := s.workspace.sessions ++ [session] } }
    | .error _ => s
  | .closeSession i => { s with workspace := (Workspace.closeSession i s.workspace).2 }

/-- What a request for the materialized form of an expression is answered. -/
def answer [Cell α] (s : Scene α) (i : ManagerId) (blocks : BlockCatalogue α) (e : Expr α)
    (level : StorageLevel) : Except Error (Expr α) :=
  (Workspace.checkpoint blocks i e level s.workspace).1

/-- Managers that have not been used yet, in any number. -/
structure Initial (s : Scene α) : Prop where
  nodes : s.nodes = ∅
  entries : ∀ i, s.entries i = []

/-- Some managers that share a source of draws. -/
def ofScript (draws : List Int) (managers : Nat) : Scene α :=
  ⟨⟨.ofScript draws, (List.range managers).map .ofLibrary, [], .empty⟩, ∅⟩

theorem initial_ofScript (draws : List Int) (managers : Nat) :
    (ofScript draws managers : Scene α).Initial := by
  refine ⟨rfl, fun i => ?_⟩
  rw [entries, Workspace.manager, ofScript, List.getD, List.getElem?_map]
  cases (List.range managers)[i]? <;> rfl

end Scene

/-- Whether a checkpoint that gives its storage back is among the nodes. -/
def Act.ReleasesFrom (nodes : Set (Expr α)) : Act α → Prop
  | .release c => ∃ n, .checkpoint n c ∈ nodes
  | _ => True

namespace Step

/-- Whether the manager and the nodes that a step is about exist. -/
def IsOn (s : Scene α) : Step α → Prop
  | .act i deed => i < s.workspace.managers.length ∧ deed.IsOn s.nodes ∧ deed.ReleasesFrom s.nodes
  | _ => True

/-- Whether a step makes a manager forget the result of a node. A session that closes makes its
manager forget everything. -/
def evicts (w : Workspace α) (i : ManagerId) (node : NodeId) : Step α → Bool
  | .act j (.forget n) => j == i && n == node
  | .act j .clear => j == i
  | .closeSession k =>
    match w.sessions[k]? with
    | some session => !session.closed && session.manager == i
    | none => false
  | _ => false

end Step

/-- The scenes that steps of some kind lead to. -/
inductive Scene.Leads [Cell α] (Allowed : Scene α → Step α → Prop) (start : Scene α) :
    Scene α → Prop
  | refl : Leads Allowed start start
  | step {s : Scene α} (h : Leads Allowed start s) (step : Step α) (on : step.IsOn s)
      (allowed : Allowed s step) : Leads Allowed start (s.step step)

/-- The scenes that any steps lead to. -/
abbrev Scene.Reaches [Cell α] (start s : Scene α) : Prop :=
  start.Leads (fun _ _ => True) s

namespace Scene.Leads

variable [Cell α] {Allowed : Scene α → Step α → Prop} {s t : Scene α}

/-- What every allowed step keeps holds all along. -/
theorem keeps {P : Scene α → Prop} (h : s.Leads Allowed t) (hs : P s)
    (hstep : ∀ u step, P u → step.IsOn u → Allowed u step → P (u.step step)) : P t := by
  induction h with
  | refl => exact hs
  | step _ step on allowed ih => exact hstep _ step ih on allowed

theorem mono {Allowed' : Scene α → Step α → Prop} (h : s.Leads Allowed t)
    (hallowed : ∀ u step, Allowed u step → Allowed' u step) : s.Leads Allowed' t := by
  induction h with
  | refl => exact .refl
  | step _ step on allowed ih => exact ih.step step on (hallowed _ step allowed)

theorem trans {u : Scene α} (h : s.Leads Allowed t) (h' : t.Leads Allowed u) :
    s.Leads Allowed u := by
  induction h' with
  | refl => exact h
  | step _ step on allowed ih => exact ih.step step on allowed

end Scene.Leads

/-! ## What steps do -/

namespace Workspace

variable {β γ : Type}

theorem bind_ok {x : Action α β} {f : β → Action α γ} {w w' : Workspace α} {b : β}
    (h : x w = (.ok b, w')) : (x >>= f) w = f b w' := by
  change (let r := x w; ExceptT.bindCont f r.1 r.2) = _
  rw [h]
  rfl

theorem bind_error {x : Action α β} {f : β → Action α γ} {w w' : Workspace α} {error : Error}
    (h : x w = (.error error, w')) : (x >>= f) w = (.error error, w') := by
  change (let r := x w; ExceptT.bindCont f r.1 r.2) = _
  rw [h]
  rfl

theorem session_of_some {i : SessionId} {w : Workspace α} {s : Session}
    (h : w.sessions[i]? = some s) : session i w = (.ok s, w) := by
  have hget : (get : Action α (Workspace α)) w = (.ok w, w) := rfl
  rw [session, bind_ok hget, h]
  rfl

theorem session_of_none {i : SessionId} {w : Workspace α}
    (h : w.sessions[i]? = none) : session i w = (.error (.fault .key), w) := by
  have hget : (get : Action α (Workspace α)) w = (.ok w, w) := rfl
  rw [session, bind_ok hget, h]
  rfl

theorem manager_update (w : Workspace α) (s : Managed α) {i : ManagerId}
    (hi : i < w.managers.length) (j : ManagerId) :
    (w.update i s).manager j = if j = i then s.manager else w.manager j := by
  by_cases h : j = i
  · subst h
    simp [manager, update, List.getD, hi]
  · rw [if_neg h]
    simp [manager, update, List.getD, Ne.symm h]

theorem entries_of_length_le (w : Workspace α) {i : ManagerId} (h : w.managers.length ≤ i) :
    (w.manager i).entries = [] := by
  rw [manager, List.getD, List.getElem?_eq_none h]
  rfl

/-- A session that opens brings a new manager along, or there is none. -/
theorem openSession_eq (around : Surroundings) (script : FilePath → Script)
    (request : SessionRequest) (isPrivate : Bool) (w : Workspace α) :
    let w' := (openSession around script request isPrivate w).2
    w'.substrate = w.substrate ∧ w.managers.length ≤ w'.managers.length ∧
      ∀ i, (w'.manager i).entries = (w.manager i).entries := by
  intro w'
  cases hconfig : request.config around script with
  | error error =>
    have h : w' = w := by
      simp only [w', openSession, hconfig]
      rfl
    rw [h]
    exact ⟨rfl, Nat.le_refl _, fun _ => rfl⟩
  | ok config =>
    have hsubstrate : w'.substrate = w.substrate := by
      simp only [w', openSession, hconfig]
      cases isPrivate <;> rfl
    have hmanagers : w'.managers = w.managers ++ [.ofLibrary w.managers.length] := by
      simp only [w', openSession, hconfig]
      cases isPrivate <;> rfl
    refine ⟨hsubstrate, by simp [hmanagers], fun i => ?_⟩
    by_cases hi : i < w.managers.length
    · simp [manager, hmanagers, List.getD, List.getElem?_append_left hi]
    · rw [w.entries_of_length_le (Nat.le_of_not_lt hi), manager, hmanagers, List.getD]
      rcases Nat.lt_or_eq_of_le (Nat.le_of_not_lt hi) with hlt | rfl
      · have hlength : w.managers.length + 1 ≤ i := hlt
        rw [List.getElem?_eq_none (by simpa using hlength)]
        rfl
      · simp [Manager.ofLibrary]

/-- A session that is open makes its manager forget everything, and else nothing happens. -/
theorem closeSession_eq (i : SessionId) (w : Workspace α) :
    let w' := (closeSession i w).2
    (w' = w ∧ ∀ session, w.sessions[i]? = some session → session.closed = true) ∨
    ∃ session, w.sessions[i]? = some session ∧ session.closed = false ∧
      w'.substrate = (w.managed session.manager).clear.substrate ∧
      w'.managers = w.managers.set session.manager (w.managed session.manager).clear.manager := by
  intro w'
  cases hs : w.sessions[i]? with
  | none =>
    refine .inl ⟨?_, nofun⟩
    simp only [w', closeSession, bind_error (session_of_none hs)]
  | some session =>
    cases hc : session.closed with
    | true =>
      refine .inl ⟨?_, ?_⟩
      · simp only [w', closeSession, bind_ok (session_of_some hs), hc]
        rfl
      · rintro _ ⟨⟩
        exact hc
    | false =>
      refine .inr ⟨session, rfl, hc, ?_⟩
      simp only [w', closeSession, bind_ok (session_of_some hs), hc]
      exact ⟨rfl, rfl⟩

end Workspace

/-! ## Nodes and results -/

namespace Scene

/-- The nodes of a scene are a population, and all remembered results are among them. -/
structure Housed (s : Scene α) : Prop where
  population : Population s.next s.nodes
  entries : ∀ i, ∀ entry ∈ s.entries i, entry.result ∈ s.nodes

theorem Housed.stage {s : Scene α} (hs : s.Housed) (i : ManagerId) : (s.stage i).Housed :=
  ⟨hs.population, hs.entries i⟩

/-- A scene that differs from an earlier one at most in its sessions, and in managers that have not
been used. -/
structure Undisturbed (s t : Scene α) : Prop where
  substrate : t.workspace.substrate = s.workspace.substrate
  managers : s.workspace.managers.length ≤ t.workspace.managers.length
  entries : ∀ i, t.entries i = s.entries i
  nodes : t.nodes = s.nodes

theorem Housed.undisturbed {s t : Scene α} (hs : s.Housed) (h : s.Undisturbed t) : t.Housed := by
  refine ⟨?_, fun i entry he => ?_⟩
  · rw [Scene.next, h.substrate, h.nodes]
    exact hs.population
  · rw [h.entries] at he
    exact h.nodes ▸ hs.entries i entry he

section Steps

variable [Cell α] {s : Scene α}

theorem entries_act {i : ManagerId} (hi : i < s.workspace.managers.length) (deed : Act α)
    (j : ManagerId) : (s.step (.act i deed)).entries j =
      if j = i then ((s.stage i).step deed).managed.manager.entries else s.entries j := by
  change ((s.workspace.update i ((s.stage i).step deed).managed).manager j).entries = _
  rw [s.workspace.manager_update _ hi]
  split <;> rfl

/-- A manager that keeps its entries keeps those of all managers. -/
theorem entries_act_eq {i : ManagerId} (hi : i < s.workspace.managers.length) {deed : Act α}
    (h : ((s.stage i).step deed).managed.manager.entries = s.entries i) (j : ManagerId) :
    (s.step (.act i deed)).entries j = s.entries j := by
  rw [entries_act hi, h]
  split
  · next hj => rw [hj]
  · rfl

theorem undisturbed_openSession (s : Scene α) (around : Surroundings)
    (script : FilePath → Script) (request : SessionRequest) (isPrivate : Bool) :
    s.Undisturbed (s.step (.openSession around script request isPrivate)) := by
  obtain ⟨hsubstrate, hmanagers, hentries⟩ :=
    Workspace.openSession_eq around script request isPrivate s.workspace
  exact ⟨hsubstrate, hmanagers, hentries, rfl⟩

theorem undisturbed_joinSessions (s : Scene α) (i j : SessionId) :
    s.Undisturbed (s.step (.joinSessions i j)) := by
  unfold step
  dsimp only
  split <;> exact ⟨rfl, Nat.le_refl _, fun _ => rfl, rfl⟩

theorem entries_closeSession {i : SessionId} {session : Session}
    (h : (s.step (.closeSession i)).workspace.managers = s.workspace.managers.set session.manager
      (s.workspace.managed session.manager).clear.manager) (j : ManagerId) :
    (s.step (.closeSession i)).entries j = if j = session.manager then [] else s.entries j := by
  have hj : (s.step (.closeSession i)).entries j =
      ((s.workspace.update session.manager
        (s.workspace.managed session.manager).clear).manager j).entries := by
    rw [entries, Workspace.manager, h]
    rfl
  rw [hj]
  by_cases hlength : session.manager < s.workspace.managers.length
  · rw [s.workspace.manager_update _ hlength]
    split <;> rfl
  · have hset : s.workspace.managers.set session.manager
        (s.workspace.managed session.manager).clear.manager = s.workspace.managers :=
      List.set_eq_of_length_le (Nat.le_of_not_lt hlength)
    rw [Workspace.manager, Workspace.update, hset]
    split
    · next hsession =>
      rw [hsession]
      exact s.workspace.entries_of_length_le (Nat.le_of_not_lt hlength)
    · rfl

theorem Housed.step (hs : s.Housed) (step : Step α) (on : step.IsOn s) : (s.step step).Housed := by
  cases step with
  | act i deed =>
    have ht := (hs.stage i).step deed on.2.1
    refine ⟨ht.population, fun j entry he => ?_⟩
    rw [entries_act on.1] at he
    split at he
    · exact ht.entries entry he
    · exact (s.stage i).subset_step deed (hs.entries j entry he)
  | openSession around script request isPrivate =>
    exact hs.undisturbed (s.undisturbed_openSession around script request isPrivate)
  | joinSessions i j => exact hs.undisturbed (s.undisturbed_joinSessions i j)
  | closeSession i =>
    rcases Workspace.closeSession_eq i s.workspace with
      ⟨h, -⟩ | ⟨session, -, -, hsubstrate, hmanagers⟩
    · rw [Scene.step, h]
      exact hs
    · refine ⟨?_, fun j entry he => hs.entries j entry ?_⟩
      · rw [Scene.next, Scene.step, hsubstrate]
        exact hs.population
      · rw [entries_closeSession hmanagers] at he
        split at he
        · cases he
        · exact he

end Steps

/-! ### A short run -/

def sampleSum : Expr Float :=
  .unary 1 (.scalar .plus (.int 1)) sampleLeaf

/-- One of two managers has made a leaf, and its sum with a scalar has been built. -/
def sampleScene : Scene Float :=
  ((ofScript [2 ^ 63, 2 ^ 63 + 7] 2).step
    (.act 0 (.parallelize (.matrix sampleMatrix) 2 (some (.plain [.int 5, .int 3])) .memoryOnly))).step
    (.act 1 (.unary (.scalar .plus (.int 1)) sampleLeaf))

theorem sampleSum_mem : sampleSum ∈ sampleScene.nodes :=
  Set.mem_insert sampleSum _

theorem reaches_sampleScene : (ofScript [2 ^ 63, 2 ^ 63 + 7] 2).Reaches sampleScene := by
  let leaf : Step Float :=
    .act 0 (.parallelize (.matrix sampleMatrix) 2 (some (.plain [.int 5, .int 3])) .memoryOnly)
  let sum : Step Float := .act 1 (.unary (.scalar .plus (.int 1)) sampleLeaf)
  have hleaf : leaf.IsOn (ofScript [2 ^ 63, 2 ^ 63 + 7] 2) := ⟨by decide, trivial, trivial⟩
  have hsum : sum.IsOn ((ofScript [2 ^ 63, 2 ^ 63 + 7] 2).step leaf) :=
    ⟨by decide, Set.mem_insert sampleLeaf _, trivial⟩
  exact (Leads.refl.step leaf hleaf trivial).step sum hsum trivial

end Scene

end RowAlgebra
