import RowAlgebra.Proofs.Workspace.Isolation
import RowAlgebra.Proofs.Workspace.Registry

/-!
# The life of a session

A session is opened, is found in the pool as long as nobody clears it, and is closed. What an event
can do to the sessions and to their pool is said once, by `Scene.Turn`; what holds all along a
`Scene.Course` is derived from it. A pooled session is open and has been registered once
(`Scene.Pooled`), and a session that has been closed stays so, together with its results
(`Scene.Gone`). The main result is `Scene.session_lifecycle`.
-/

namespace RowAlgebra

variable {α : Type}

/-! ## Opening and closing -/

namespace Workspace

variable {around : Surroundings} {script : FilePath → Script} {request : SessionRequest}
  {isPrivate : Bool} {w : Workspace α}

/-- What there is after a session has been opened with some configuration. -/
def opened (w : Workspace α) (config : SessionConfig) (isPrivate : Bool) : Workspace α :=
  let manager := w.managers.length
  let id := w.sessions.length
  { w with
    managers := w.managers ++ [.ofLibrary manager]
    sessions := w.sessions ++ [⟨config, manager, manager, false⟩]
    pool := if isPrivate then w.pool else (w.pool.register config.appName id).2 }

theorem openSession_of_ok {config : SessionConfig} (h : request.config around script = .ok config) :
    openSession around script request isPrivate w =
      (.ok w.sessions.length, w.opened config isPrivate) := by
  simp only [openSession, h]
  cases isPrivate <;> rfl

theorem openSession_of_error {error : Error} (h : request.config around script = .error error) :
    openSession around script request isPrivate w = (.error error, w) := by
  simp only [openSession, h]
  rfl

theorem appName_config {config : SessionConfig} (h : request.config around script = .ok config) :
    config.appName = request.appName := by
  rw [SessionRequest.config] at h
  cases hjars : request.jars around script with
  | error error =>
    rw [hjars] at h
    cases h
  | ok jars =>
    rw [hjars] at h
    cases h
    rfl

/-- A session that cannot be opened changes nothing. One that can be is a new one, which is open; it is
registered for its name unless it is private. -/
theorem openSession_cases (around : Surroundings) (script : FilePath → Script)
    (request : SessionRequest) (isPrivate : Bool) (w : Workspace α) :
    (∃ error, openSession around script request isPrivate w = (.error error, w)) ∨
    ∃ session w', openSession around script request isPrivate w = (.ok w.sessions.length, w') ∧
      w'.sessions = w.sessions ++ [session] ∧ session.closed = false ∧
      if isPrivate then w'.pool = w.pool
      else ∃ key, w.pool.Registers request.appName w.sessions.length key w'.pool := by
  cases hconfig : request.config around script with
  | error error => exact .inl ⟨error, openSession_of_error hconfig⟩
  | ok config =>
    refine .inr ⟨_, _, openSession_of_ok hconfig, rfl, rfl, ?_⟩
    cases isPrivate with
    | true => exact (if_pos rfl).mpr rfl
    | false =>
      have hregisters := w.pool.registers_register config.appName w.sessions.length
      rw [appName_config hconfig] at hregisters
      have hpool : (w.opened config false).pool =
          (w.pool.register request.appName w.sessions.length).2 := by
        rw [← appName_config hconfig]
        rfl
      rw [if_neg Bool.false_ne_true, hpool]
      exact ⟨_, hregisters⟩

theorem closeSession_of_closed {i : SessionId} {session : Session}
    (h : w.sessions[i]? = some session) (hclosed : session.closed = true) :
    closeSession i w = (.ok (), w) := by
  rw [closeSession, bind_ok (session_of_some h), hclosed]
  rfl

/-- What there is after a session has been closed. -/
def withoutSession (w : Workspace α) (i : SessionId) (session : Session) : Workspace α :=
  let s := (w.managed session.manager).clear
  { w.update session.manager s with
    sessions := w.sessions.set i { session with closed := true }
    pool := w.pool.remove i }

theorem closeSession_of_open {i : SessionId} {session : Session}
    (h : w.sessions[i]? = some session) (hopen : session.closed = false) :
    closeSession i w = (.ok (), w.withoutSession i session) := by
  rw [closeSession, bind_ok (session_of_some h), hopen]
  rfl

theorem sessionManager_of_closed {i : SessionId} {session : Session}
    (h : w.sessions[i]? = some session) (hclosed : session.closed = true) :
    sessionManager i w = (.error (.sessionClosed session.config.appName), w) := by
  rw [sessionManager, bind_ok (session_of_some h), Session.manager?, if_pos hclosed]
  rfl

end Workspace

/-! ## Courses of events -/

/-- A step of a scene, or the pool is cleared. -/
inductive Event (α : Type) where
  | step (step : Step α)
  | clearPool

/-- Whether the manager and the nodes that an event is about exist. -/
def Event.IsOn (s : Scene α) : Event α → Prop
  | .step taken => taken.IsOn s
  | .clearPool => True

namespace Scene

def pool (s : Scene α) : Pool :=
  s.workspace.pool

def sessions (s : Scene α) : List Session :=
  s.workspace.sessions

def after [Cell α] (s : Scene α) : Event α → Scene α
  | .step taken => s.step taken
  | .clearPool => { s with workspace := { s.workspace with pool := .empty } }

/-- What has been registered between two scenes. -/
def registered (s t : Scene α) : List (Text × SessionId) :=
  t.pool.entries.filter fun e => e ∉ s.pool.entries

/-- Before the first session, with managers that have not been used. -/
structure Fresh (s : Scene α) : Prop extends Initial s where
  sessions : s.sessions = []
  pool : s.pool.entries = []

/-- The scenes that events lead to, with all that has been registered on the way. -/
inductive Course [Cell α] (start : Scene α) : List (Text × SessionId) → Scene α → Prop
  | refl : Course start [] start
  | event {log : List (Text × SessionId)} {s : Scene α} (h : Course start log s) (event : Event α)
      (on : event.IsOn s) : Course start (log ++ s.registered (s.after event)) (s.after event)

/-! ## What an event does to the sessions -/

/-- What an event does to the sessions and to the pool. -/
inductive Turn (s t : Scene α) : Prop
  | stay (sessions : ∃ joined, t.sessions = s.sessions ++ joined) (pool : t.pool = s.pool)
  | register (session : Session) (isOpen : session.closed = false) (name key : Text)
      (sessions : t.sessions = s.sessions ++ [session])
      (registers : s.pool.Registers name s.sessions.length key t.pool)
  | close (i : SessionId) (session : Session) (found : s.sessions[i]? = some session)
      (isOpen : session.closed = false)
      (sessions : t.sessions = s.sessions.set i { session with closed := true })
      (pool : t.pool = s.pool.remove i)
  | clear (sessions : t.sessions = s.sessions) (pool : t.pool = .empty)

section Turns

variable [Cell α]

theorem turn_openSession (s : Scene α) (around : Surroundings) (script : FilePath → Script)
    (request : SessionRequest) (isPrivate : Bool) :
    s.Turn (s.step (.openSession around script request isPrivate)) := by
  have hstep : (s.step (.openSession around script request isPrivate)).workspace =
      (Workspace.openSession around script request isPrivate s.workspace).2 := rfl
  rcases Workspace.openSession_cases around script request isPrivate s.workspace with
    ⟨error, herror⟩ | ⟨session, w, hok, hsessions, hopen, hpool⟩
  · rw [herror] at hstep
    refine .stay ⟨[], ?_⟩ (congrArg Workspace.pool hstep)
    rw [List.append_nil]
    exact congrArg Workspace.sessions hstep
  · rw [hok] at hstep
    have ht := (congrArg Workspace.sessions hstep).trans hsessions
    cases isPrivate with
    | true => exact .stay ⟨_, ht⟩ ((congrArg Workspace.pool hstep).trans hpool)
    | false =>
      obtain ⟨key, hregisters⟩ := hpool
      refine .register session hopen request.appName key ht ?_
      change s.pool.Registers request.appName s.sessions.length key (s.step _).workspace.pool
      rw [hstep]
      exact hregisters

theorem turn_closeSession (s : Scene α) (i : SessionId) :
    s.Turn (s.step (.closeSession i)) := by
  have hstep : (s.step (.closeSession i)).workspace =
      (Workspace.closeSession i s.workspace).2 := rfl
  have stays (h : (Workspace.closeSession i s.workspace).2 = s.workspace) :
      s.Turn (s.step (.closeSession i)) := by
    rw [h] at hstep
    refine .stay ⟨[], ?_⟩ (congrArg Workspace.pool hstep)
    rw [List.append_nil]
    exact congrArg Workspace.sessions hstep
  cases hi : s.workspace.sessions[i]? with
  | none =>
    apply stays
    rw [Workspace.closeSession, Workspace.bind_error (Workspace.session_of_none hi)]
  | some session =>
    cases hclosed : session.closed with
    | true =>
      apply stays
      rw [Workspace.closeSession_of_closed hi hclosed]
    | false =>
      rw [Workspace.closeSession_of_open hi hclosed] at hstep
      exact .close i session hi hclosed (congrArg Workspace.sessions hstep)
        (congrArg Workspace.pool hstep)

theorem turn_joinSessions (s : Scene α) (i j : SessionId) :
    s.Turn (s.step (.joinSessions i j)) := by
  rw [step]
  split
  · exact .stay ⟨_, rfl⟩ rfl
  · exact .stay ⟨[], (List.append_nil _).symm⟩ rfl

theorem turn_after (s : Scene α) (event : Event α) : s.Turn (s.after event) := by
  cases event with
  | clearPool => exact .clear rfl rfl
  | step step =>
    cases step with
    | act i deed => exact .stay ⟨[], (List.append_nil _).symm⟩ rfl
    | openSession around script request isPrivate =>
      exact s.turn_openSession around script request isPrivate
    | joinSessions i j => exact s.turn_joinSessions i j
    | closeSession i => exact s.turn_closeSession i

end Turns

theorem found_append {sessions : List Session} {i : SessionId} {session : Session}
    (h : sessions[i]? = some session) (more : List Session) :
    (sessions ++ more)[i]? = some session := by
  rw [List.getElem?_append_left (List.getElem?_eq_some_iff.1 h).1, h]

namespace Turn

variable {s t : Scene α}

/-- There are no fewer sessions than before. -/
theorem length_le (h : s.Turn t) : s.sessions.length ≤ t.sessions.length := by
  cases h with
  | stay sessions pool =>
    obtain ⟨joined, hjoined⟩ := sessions
    rw [hjoined, List.length_append]
    omega
  | register session isOpen name key sessions registers =>
    rw [sessions, List.length_append]
    omega
  | close i session found isOpen sessions pool =>
    rw [sessions, List.length_set]
  | clear sessions pool => rw [sessions]

/-- A session that is closed is closed after every event. -/
theorem closed (h : s.Turn t) {i : SessionId}
    (hclosed : ∃ session, s.sessions[i]? = some session ∧ session.closed = true) :
    ∃ session, t.sessions[i]? = some session ∧ session.closed = true := by
  obtain ⟨session, hi, hsession⟩ := hclosed
  cases h with
  | stay sessions pool =>
    obtain ⟨joined, hjoined⟩ := sessions
    exact ⟨session, hjoined ▸ found_append hi joined, hsession⟩
  | register other isOpen name key sessions registers =>
    exact ⟨session, sessions ▸ found_append hi [other], hsession⟩
  | clear sessions pool => exact ⟨session, sessions ▸ hi, hsession⟩
  | close j other found isOpen sessions pool =>
    refine ⟨session, ?_, hsession⟩
    rw [sessions, List.getElem?_set_ne, hi]
    rintro rfl
    rw [found] at hi
    cases hi
    rw [isOpen] at hsession
    cases hsession

/-- What is in the pool was there before, or belongs to a session that has just been opened. -/
theorem entry_cases (h : s.Turn t) {e : Text × SessionId} (he : e ∈ t.pool.entries) :
    e ∈ s.pool.entries ∨ e.2 = s.sessions.length := by
  cases h with
  | stay sessions pool => exact .inl (pool ▸ he)
  | register session isOpen name key sessions registers =>
    rw [registers.entries] at he
    rcases List.mem_append.1 he with hold | hnew
    · exact .inl hold
    · right
      rw [List.mem_singleton.1 hnew]
  | close i session found isOpen sessions pool =>
    rw [pool] at he
    exact .inl (Pool.mem_remove.1 he).1
  | clear sessions pool =>
    rw [pool] at he
    cases he

end Turn

/-! ## Sessions in the pool -/

/-- What is in the pool is open, has a key of its own, and has been registered once. -/
structure Pooled (s : Scene α) (log : List (Text × SessionId)) : Prop where
  keys : s.pool.keys.Nodup
  isOpen : ∀ e ∈ s.pool.entries,
    ∃ session, s.sessions[e.2]? = some session ∧ session.closed = false
  logged : ∀ e ∈ s.pool.entries, e ∈ log
  once : (log.map Prod.snd).Nodup
  known : ∀ e ∈ log, e.2 < s.sessions.length

theorem registered_of_subset {s t : Scene α} (h : t.pool.entries ⊆ s.pool.entries) :
    s.registered t = [] := by
  rw [registered, List.filter_eq_nil_iff]
  intro e he
  simpa using h he

theorem registered_of_registers {s t : Scene α} {name key : Text} {session : SessionId}
    (h : s.pool.Registers name session key t.pool) : s.registered t = [(key, session)] := by
  have hnew : (key, session) ∉ s.pool.entries :=
    fun hmem => h.new (List.mem_map_of_mem hmem)
  rw [registered, h.entries, List.filter_append]
  simp [hnew]

namespace Pooled

variable {s t : Scene α} {log : List (Text × SessionId)}

theorem of_fresh (h : s.Fresh) : s.Pooled [] where
  keys := by simp [Pool.keys, h.pool]
  isOpen e he := absurd he (by simp [h.pool])
  logged e he := absurd he (by simp [h.pool])
  once := by simp
  known e he := absurd he (by simp)

/-- Fewer entries of the same open sessions are pooled as well. -/
theorem fewer (h : s.Pooled log) (hpool : t.pool.entries.Sublist s.pool.entries)
    (hlength : s.sessions.length ≤ t.sessions.length)
    (hopen : ∀ e ∈ t.pool.entries,
      ∃ session, t.sessions[e.2]? = some session ∧ session.closed = false) :
    t.Pooled (log ++ s.registered t) := by
  rw [registered_of_subset hpool.subset, List.append_nil]
  exact ⟨(hpool.map _).nodup h.keys, hopen, fun e he => h.logged e (hpool.subset he), h.once,
    fun e he => Nat.lt_of_lt_of_le (h.known e he) hlength⟩

theorem turn (h : s.Pooled log) (ht : s.Turn t) : t.Pooled (log ++ s.registered t) := by
  cases ht with
  | stay sessions pool =>
    have hlength := (Turn.stay sessions pool).length_le
    obtain ⟨joined, hjoined⟩ := sessions
    refine h.fewer (pool ▸ List.Sublist.refl _) hlength ?_
    intro e he
    rw [pool] at he
    obtain ⟨session, hfound, hopen⟩ := h.isOpen e he
    exact ⟨session, hjoined ▸ found_append hfound joined, hopen⟩
  | register session isOpen name key sessions registers =>
    rw [registered_of_registers registers]
    have hlength : t.sessions.length = s.sessions.length + 1 := by
      rw [sessions, List.length_append, List.length_singleton]
    have hfresh : s.sessions.length ∉ log.map Prod.snd := by
      intro hmem
      obtain ⟨e, he, hid⟩ := List.mem_map.1 hmem
      exact Nat.ne_of_lt (h.known e he) hid
    refine ⟨?_, ?_, ?_, ?_, ?_⟩
    · rw [Pool.keys, registers.entries, List.map_append, List.map_singleton, ← List.concat_eq_append]
      exact h.keys.concat registers.new
    · intro e he
      rw [registers.entries] at he
      rcases List.mem_append.1 he with hold | hnew
      · obtain ⟨other, hfound, hopen⟩ := h.isOpen e hold
        exact ⟨other, sessions ▸ found_append hfound [session], hopen⟩
      · rw [List.mem_singleton.1 hnew, sessions]
        exact ⟨session, List.getElem?_concat_length, isOpen⟩
    · intro e he
      rw [registers.entries] at he
      rcases List.mem_append.1 he with hold | hnew
      · exact List.mem_append_left _ (h.logged e hold)
      · exact List.mem_append_right _ hnew
    · rw [List.map_append, List.map_singleton, ← List.concat_eq_append]
      exact h.once.concat hfresh
    · intro e he
      rcases List.mem_append.1 he with hold | hnew
      · exact Nat.lt_of_lt_of_le (h.known e hold) (by omega)
      · rw [List.mem_singleton.1 hnew, hlength]
        exact Nat.lt_succ_self _
  | close i session found isOpen sessions pool =>
    have hsublist : t.pool.entries.Sublist s.pool.entries := pool ▸ List.filter_sublist
    refine h.fewer hsublist (Turn.close i session found isOpen sessions pool).length_le ?_
    intro e he
    rw [pool] at he
    obtain ⟨hold, hne⟩ := Pool.mem_remove.1 he
    obtain ⟨other, hfound, hopen⟩ := h.isOpen e hold
    refine ⟨other, ?_, hopen⟩
    rw [sessions, List.getElem?_set_ne (Ne.symm hne), hfound]
  | clear sessions pool =>
    refine h.fewer (pool ▸ List.nil_sublist _) (Turn.clear sessions pool).length_le ?_
    intro e he
    rw [pool] at he
    cases he

/-- A session in the pool has been registered just once. -/
theorem count_eq_one (h : s.Pooled log) {e : Text × SessionId} (he : e ∈ s.pool.entries) :
    (log.map Prod.snd).count e.2 = 1 :=
  List.count_eq_one_of_mem h.once (List.mem_map_of_mem (h.logged e he))

end Pooled

/-! ## Sessions that have been closed -/

/-- A session is closed, it is not in the pool, and some collections are not cached. -/
structure Gone (s : Scene α) (i : SessionId) (results : List (Entry α)) : Prop where
  closed : ∃ session, s.sessions[i]? = some session ∧ session.closed = true
  absent : ∀ e ∈ s.pool.entries, e.2 ≠ i
  released : ∀ entry ∈ results, entry.result ∈ s.nodes ∧ s.level entry.checkpoint.slot = .none

section Runs

variable [Cell α] {s t start : Scene α} {log : List (Text × SessionId)} {i : SessionId}
  {results : List (Entry α)}

theorem Orderly.after (hs : s.Orderly) (event : Event α) (on : event.IsOn s) :
    (s.after event).Orderly := by
  cases event with
  | step step => exact hs.step step on
  | clearPool =>
    exact ⟨⟨hs.population, hs.entries⟩, hs.operators, hs.nodup, hs.owned, hs.slots, hs.allocated⟩

theorem Gone.after (h : s.Gone i results) (hs : s.Orderly) (event : Event α) (on : event.IsOn s) :
    (s.after event).Gone i results := by
  have hturn := s.turn_after event
  refine ⟨hturn.closed h.closed, ?_, ?_⟩
  · intro e he
    rcases hturn.entry_cases he with hold | hnew
    · exact h.absent e hold
    · obtain ⟨session, hfound, -⟩ := h.closed
      rw [hnew]
      exact Nat.ne_of_gt (List.getElem?_eq_some_iff.1 hfound).1
  · intro entry hentry
    obtain ⟨hmem, hlevel⟩ := h.released entry hentry
    cases event with
    | clearPool => exact ⟨hmem, hlevel⟩
    | step step =>
      refine ⟨(step_effect hs.toHoused step on).subset hmem, ?_⟩
      rcases hs.level_step on hmem with hsame | hnone
      · exact hsame.trans hlevel
      · exact hnone

/-- What every event keeps of an orderly scene holds all along. -/
theorem Course.keeps_orderly {P : Scene α → Prop} (h : s.Course log t) (hs : s.Orderly) (hP : P s)
    (hstep : ∀ u event, u.Orderly → P u → event.IsOn u → P (u.after event)) :
    t.Orderly ∧ P t := by
  induction h with
  | refl => exact ⟨hs, hP⟩
  | event _ event on ih => exact ⟨ih.1.after event on, hstep _ event ih.1 ih.2 on⟩

theorem Course.pooled (h₀ : start.Fresh) (h : start.Course log s) : s.Pooled log := by
  induction h with
  | refl => exact .of_fresh h₀
  | event _ event _ ih => exact ih.turn (turn_after _ event)

/-- A session that has just been closed is gone, with all results of its manager. -/
theorem gone_closeSession (hs : s.Orderly) {session : Session}
    (hfound : s.sessions[i]? = some session) (hopen : session.closed = false) :
    (s.step (.closeSession i)).entries session.manager = [] ∧
      (s.step (.closeSession i)).Gone i (s.entries session.manager) := by
  have heffect := effect_closeSession s i
  have hevicts (node : NodeId) :
      (Step.closeSession i : Step α).evicts s.workspace session.manager node = true := by
    simp only [Step.evicts, show s.workspace.sessions[i]? = some session from hfound, hopen]
    simp
  have hstep : (s.step (.closeSession i)).workspace = s.workspace.withoutSession i session :=
    congrArg Prod.snd (Workspace.closeSession_of_open hfound hopen)
  have hi := (List.getElem?_eq_some_iff.1 hfound).1
  refine ⟨?_, ⟨{ session with closed := true }, ?_, rfl⟩, ?_, ?_⟩
  · rw [entries_closeSession (congrArg Workspace.managers hstep), if_pos rfl]
  · rw [sessions, hstep]
    exact List.getElem?_set_self hi
  · intro e he
    rw [pool, hstep] at he
    exact (Pool.mem_remove.1 he).2
  · intro entry hentry
    exact ⟨heffect.subset (hs.entries _ entry hentry),
      heffect.level_of_evicts hentry (hevicts entry.node)⟩

omit [Cell α] in
/-- A session that is gone has no manager, and there is nothing left to close. -/
theorem Gone.answers (h : s.Gone i results) :
    (∃ error, Workspace.sessionManager i s.workspace = (.error error, s.workspace) ∧
      error.kind = .state) ∧
    Workspace.closeSession i s.workspace = (.ok (), s.workspace) := by
  obtain ⟨session, hfound, hclosed⟩ := h.closed
  exact ⟨⟨_, Workspace.sessionManager_of_closed hfound hclosed, rfl⟩,
    Workspace.closeSession_of_closed hfound hclosed⟩

/-- **The life of a session.** A name can always be registered, under the first key that is free, and
nothing else in the pool changes. A session that cannot be opened changes nothing at all. What is in
the pool is open and has been registered once. A session that is closed leaves the pool, its results
are forgotten and no longer cached, it has no manager any more, and closing it again does nothing,
whatever happens later. There is a current session just if one session is in the pool. -/
theorem session_lifecycle (h₀ : start.Fresh) (h : start.Course log s) :
    (∀ name session, s.pool.Registers name session (s.pool.register name session).1
      (s.pool.register name session).2) ∧
    (∀ around script request isPrivate,
      (∃ error, Workspace.openSession around script request isPrivate s.workspace =
        (.error error, s.workspace)) ∨
      ∃ session w, Workspace.openSession around script request isPrivate s.workspace =
          (.ok s.sessions.length, w) ∧
        w.sessions = s.sessions ++ [session] ∧ session.closed = false ∧
        if isPrivate then w.pool = s.pool
        else ∃ key, s.pool.Registers request.appName s.sessions.length key w.pool) ∧
    (∀ e ∈ s.pool.entries,
      (∃ session, s.sessions[e.2]? = some session ∧ session.closed = false) ∧
      (log.map Prod.snd).count e.2 = 1) ∧
    (∀ i session, s.sessions[i]? = some session → session.closed = false →
      (Workspace.closeSession i s.workspace).1 = .ok () ∧
      (s.step (.closeSession i)).pool = s.pool.remove i ∧
      (s.step (.closeSession i)).entries session.manager = [] ∧
      ∀ later t, (s.step (.closeSession i)).Course later t →
        (∀ e ∈ t.pool.entries, e.2 ≠ i) ∧
        (∀ entry ∈ s.entries session.manager, t.level entry.checkpoint.slot = .none) ∧
        (∃ error, Workspace.sessionManager i t.workspace = (.error error, t.workspace) ∧
          error.kind = .state) ∧
        Workspace.closeSession i t.workspace = (.ok (), t.workspace)) ∧
    ∀ i, s.pool.current = .ok i ↔ ∃ key, s.pool.entries = [(key, i)] := by
  have hpooled := h.pooled h₀
  have hs : s.Orderly :=
    (h.keeps_orderly (P := fun _ => True) (.of_initial h₀.toInitial) trivial
      fun _ _ _ _ _ => trivial).1
  refine ⟨s.pool.registers_register, fun around script request isPrivate =>
    Workspace.openSession_cases around script request isPrivate s.workspace, fun e he => ?_,
    fun i session hfound hopen => ?_, fun i => Pool.current_eq_ok_iff⟩
  · exact ⟨hpooled.isOpen e he, hpooled.count_eq_one he⟩
  · have hclose := Workspace.closeSession_of_open (w := s.workspace) hfound hopen
    obtain ⟨hentries, hgone⟩ := gone_closeSession hs hfound hopen
    refine ⟨congrArg Prod.fst hclose, congrArg (fun r => r.2.pool) hclose, hentries, ?_⟩
    intro later t ht
    have hlater := (ht.keeps_orderly (P := fun u => u.Gone i (s.entries session.manager))
      (hs.step _ trivial) hgone fun u event hu hg on => hg.after hu event on).2
    exact ⟨hlater.absent, fun entry he => (hlater.released entry he).2, hlater.answers⟩

end Runs

/-! ### Two sessions of one name -/

def sampleOpening : Event Float :=
  .step (.openSession ⟨⟨"/", []⟩, [], none⟩ (fun _ => .unusable)
    ⟨SessionConfig.localMaster, "app", [], .empty, .empty⟩ false)

/-- The first session, in which a sum has been built. -/
def sampleSession : Scene Float :=
  (((ofScript [2 ^ 63, 2 ^ 63 + 7] 1).after sampleOpening).after
    (.step (.act 1 (.parallelize (.matrix sampleMatrix) 2 (some (.plain [.int 5, .int 3])) .memoryOnly)))).after
    (.step (.act 1 (.unary (.scalar .plus (.int 1)) sampleLeaf)))

/-- The sum has been materialized, and a second session has been opened. -/
def sampleSessions : Scene Float :=
  (sampleSession.after (.step (.act 1 (.checkpoint .standard sampleSum .diskOnly)))).after
    sampleOpening

theorem course_sampleSessions :
    ∃ log, (ofScript [2 ^ 63, 2 ^ 63 + 7] 1 : Scene Float).Course log sampleSessions := by
  have hstart : (ofScript [2 ^ 63, 2 ^ 63 + 7] 1 : Scene Float).Course [] (ofScript _ 1) := .refl
  have hopened := hstart.event sampleOpening trivial
  have hleaf := hopened.event
    (.step (.act 1 (.parallelize (.matrix sampleMatrix) 2 (some (.plain [.int 5, .int 3])) .memoryOnly)))
    ⟨by decide, trivial, trivial⟩
  have hsum := hleaf.event (.step (.act 1 (.unary (.scalar .plus (.int 1)) sampleLeaf)))
    ⟨by decide, Set.mem_insert sampleLeaf _, trivial⟩
  have hresult := hsum.event (.step (.act 1 (.checkpoint .standard sampleSum .diskOnly)))
    ⟨Nat.lt_succ_self 1, Set.mem_insert sampleSum _, trivial⟩
  exact ⟨_, hresult.event sampleOpening trivial⟩

/-- Of two sessions of one name, the second is the current one once the first has been closed, and
the result of the first is no longer cached. -/
theorem session_lifecycle_app :
    sampleSessions.pool.entries = [(("app" : Text), 0), (("app - 2" : Text), 1)] ∧
    let t := sampleSessions.step (.closeSession 0)
    t.pool.current = .ok 1 ∧ (∃ entry ∈ sampleSessions.entries 1,
      t.level entry.checkpoint.slot = .none) ∧
    Workspace.closeSession 0 t.workspace = (.ok (), t.workspace) := by
  have hfresh : (ofScript [2 ^ 63, 2 ^ 63 + 7] 1 : Scene Float).Fresh :=
    ⟨initial_ofScript _ _, rfl, rfl⟩
  obtain ⟨log, hcourse⟩ := course_sampleSessions
  have hfound : ∃ session, sampleSessions.sessions[0]? = some session ∧ session.closed = false ∧
      session.manager = 1 := ⟨_, rfl, rfl, rfl⟩
  obtain ⟨session, hsession, hopen, hmanager⟩ := hfound
  have hentry : ∃ entry, entry ∈ sampleSessions.entries 1 := ⟨_, List.mem_cons_self⟩
  obtain ⟨entry, hentry⟩ := hentry
  obtain ⟨-, -, -, hclosed, -⟩ := session_lifecycle hfresh hcourse
  obtain ⟨-, -, -, hlater⟩ := hclosed 0 session hsession hopen
  obtain ⟨-, hreleased, -, hagain⟩ := hlater [] _ .refl
  rw [hmanager] at hreleased
  exact ⟨rfl, rfl, ⟨entry, hentry, hreleased entry hentry⟩, hagain⟩

end Scene

end RowAlgebra
