import RowAlgebra.Exec.Invoke
import RowAlgebra.Session

/-!
# Workspaces

A `Workspace` is everything that lives while a program runs: the shared substrate, the managers, the
sessions and the pool. An `Action` on it may fail; what it did before it failed remains.
-/

namespace RowAlgebra

structure Workspace (α : Type) where
  substrate : Substrate
  managers : List (Manager α)
  sessions : List Session
  pool : Pool

/-- A computation on a workspace that may fail. -/
abbrev Action (α β : Type) := ExceptT Error (StateM (Workspace α)) β

namespace Workspace

variable {α : Type}

/-- A workspace with one manager, outside of any session. -/
def initial (draws : List Int) : Workspace α :=
  ⟨.ofScript draws, [.ofLibrary 0], [], .empty⟩

/-- The manager that belongs to no session. -/
def defaultManager : ManagerId := 0

def manager (w : Workspace α) (i : ManagerId) : Manager α :=
  w.managers.getD i (.ofLibrary i)

def managed (w : Workspace α) (i : ManagerId) : Managed α :=
  ⟨w.substrate, w.manager i⟩

/-- Puts a manager and what it shares back. -/
def update (w : Workspace α) (i : ManagerId) (s : Managed α) : Workspace α :=
  { w with substrate := s.substrate, managers := w.managers.set i s.manager }

/-! ## Managers -/

/-- Lets a manager answer. -/
def ask {β : Type} (i : ManagerId) (f : Managed α → Except Error β × Managed α) : Action α β :=
  fun w =>
    let (answer, s) := f (w.managed i)
    (answer, w.update i s)

def act (i : ManagerId) (f : Managed α → Managed α) : Action α Unit :=
  modify fun w => w.update i (f (w.managed i))

def build {β : Type} (b : Build β) : Action α β := fun w =>
  match b w.substrate.nextNode with
  | .ok (x, nextNode) => (.ok x, { w with substrate := { w.substrate with nextNode } })
  | .error e => (.error e, w)

def checkpoint [Cell α] (blocks : BlockCatalogue α) (i : ManagerId) (e : Expr α)
    (level : StorageLevel) : Action α (Expr α) :=
  ask i fun s => s.checkpoint blocks e level

def parallelize [Cell α] (i : ManagerId) (matrix : InCore α) (partitions : Int)
    (keys : Option GivenKeys) (level : StorageLevel) : Action α (Expr α) :=
  ask i fun s => s.parallelize matrix partitions keys level

/-- A checkpoint over given rows, which is not cached. -/
def adopt (describe : Slot → Checkpoint α) : Action α (Expr α) := do
  let w ← get
  let storage := w.substrate.storage
  let ((id, c), s) := (w.managed defaultManager).create (describe storage.nextSlot)
    (storage.allocate .none) .none
  set { w with substrate := s.substrate }
  return .checkpoint id c

/-- Forgets the result of a node. -/
def forget (i : ManagerId) (e : Expr α) : Action α Unit :=
  act i fun s => s.forget e.id

def clear (i : ManagerId) : Action α Unit :=
  act i Managed.clear

def releaseCheckpoint (c : Checkpoint α) : Action α Unit :=
  modify fun w => { w with substrate := { w.substrate with
    storage := w.substrate.storage.release c.slot } }

def clearTrace (i : ManagerId) : Action α Unit :=
  act i fun s => { s with manager := { s.manager with library.trace := [] } }

/-- Executes a plan as it is, with the library of a manager. -/
def exec [Cell α] (blocks : BlockCatalogue α) (i : ManagerId) (plan : Expr α) :
    Action α (Handle α) :=
  ask i fun s =>
    let run := plan.exec blocks s.substrate.nextCall
    (run.result, s.record run.calls)

/-- Invokes one operator of the library of a manager. -/
def invoke [Cell α] (blocks : BlockCatalogue α) (i : ManagerId) (family : Family) (node : Expr α)
    (args : List (Argument α)) (zippable : Option Bool) : Action α (Handle α) :=
  ask i fun s =>
    let run := family.invoke blocks s.substrate.nextCall node args zippable
    (run.result, s.record run.calls)

/-- Fresh tags, `n` of them. -/
def drawTags : Nat → Action α (List Tag)
  | 0 => return []
  | n + 1 => do
    let w ← get
    let (tag, tags) := w.substrate.tags.next
    set { w with substrate := { w.substrate with tags } }
    return tag :: (← drawTags n)

/-! ## Sessions -/

def session (i : SessionId) : Action α Session := do
  match (← get).sessions[i]? with
  | some s => return s
  | none => throw (.fault .key)

def sessionManager (i : SessionId) : Action α ManagerId := do
  (← session i).manager?

/-- Opens a session with a manager of its own, and registers it unless it is private. -/
def openSession (around : Surroundings) (script : FilePath → Script) (r : SessionRequest)
    (isPrivate : Bool) : Action α SessionId := do
  let config ← r.config around script
  let w ← get
  let manager := w.managers.length
  let id := w.sessions.length
  let w : Workspace α := { w with
    managers := w.managers ++ [Manager.ofLibrary manager]
    sessions := w.sessions ++ [⟨config, manager, manager, false⟩] }
  set (if isPrivate then w else { w with pool := (w.pool.register config.appName id).2 })
  return id

/-- Closes a session: its results are forgotten and it leaves the pool. A closed session stays as it
is. -/
def closeSession (i : SessionId) : Action α Unit := do
  let s ← session i
  if s.closed then return ()
  clear s.manager
  modify fun w => { w with
    sessions := w.sessions.set i { s with closed := true }
    pool := w.pool.remove i }

/-- A further session from the configuration and library of one session and the manager of
another. -/
def joinSessions (i j : SessionId) : Action α Session := do
  let s ← session i
  let other ← session j
  Session.join s.config s.library other.manager ((← get).manager other.manager).library.id

def currentManager : Action α ManagerId := do
  sessionManager (← (← get).pool.current)

def poolDisplay (w : Workspace α) : Text :=
  let entry (e : Text × SessionId) : Text :=
    e.1.quoted ++ ": " ++ ((w.sessions[e.2]?).elim .empty Session.display)
  "SessionPool " ++ Text.bracketed "\x7b" "\x7d" (w.pool.entries.map entry)

end Workspace

end RowAlgebra
