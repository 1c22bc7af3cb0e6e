import Mathlib.Data.Fintype.Card
import Mathlib.Logic.Function.Basic
import BackupManager.Transition.Run

/-! The threads that serve `async_accept`, and who holds a handler. `start_server` keeps the first one,
a later one is held by its callback alone; the last reference is released by the thread that has run
the callback, which then joins the session's thread in `~ClientHandler`. -/
namespace BackupManager.Server.AcceptPool
open Transition

/-- `action_handler`: not started, in its loop, or past it. -/
inductive ActionHandler where
  | notStarted
  | running
  | finished
  deriving DecidableEq, Repr

/-- A handler, with the number of the shared pointers to it. -/
structure Handler where
  useCount : ℕ
  actionHandler : ActionHandler
  deriving DecidableEq, Repr

/-- A thread of the pool waits in `run`, is in `handler->start()`, or is in `~ClientHandler`. -/
inductive PoolThread where
  | waiting
  | starting (handler : ℕ)
  | destroying (handler : ℕ)
  deriving DecidableEq, Repr

structure State (threadCount : ℕ) where
  /-- Handlers are numbered as they are made; that of `start_server` is the first. -/
  made : ℕ
  handler : ℕ → Handler
  /-- The handler of the pending `async_accept`. -/
  accepting : Option ℕ
  pool : Fin threadCount → PoolThread

variable {threadCount : ℕ}

namespace State

variable (s : State threadCount)

def set (h : ℕ) (handler : Handler) : State threadCount :=
  { s with handler := Function.update s.handler h handler }

def thread (t : Fin threadCount) (p : PoolThread) : State threadCount :=
  { s with pool := Function.update s.pool t p }

/-- `make_shared<ConnectionHandler>(io_service_)`, the new handler being number `s.made`. -/
def makeShared : State threadCount :=
  { s.set s.made ⟨1, .notStarted⟩ with made := s.made + 1 }

/-- One more shared pointer to a handler. -/
def copy (h : ℕ) : State threadCount :=
  s.set h { s.handler h with useCount := (s.handler h).useCount + 1 }

/-- A thread gives up a shared pointer; with the last one it goes on in `~ClientHandler`. -/
def release (t : Fin threadCount) (h : ℕ) : State threadCount :=
  let released := s.set h { s.handler h with useCount := (s.handler h).useCount - 1 }
  if (s.handler h).useCount = 1 then released.thread t (.destroying h) else released

/-- What `start` leaves: the session's thread, when `login` and `send_file_hash` went through. -/
def started (h : ℕ) (loggedIn : Bool) : State threadCount :=
  if loggedIn then s.set h { s.handler h with actionHandler := .running } else s

/-- `async_accept` with a callback that holds the handler. -/
def asyncAccept (h : ℕ) : State threadCount := { s.copy h with accepting := some h }

/-- `handle_new_connection` from the return of `start` on, with the release of `new_handler` and of
the parameter. -/
def handleNewConnection (t : Fin threadCount) (h : ℕ) : State threadCount :=
  (((s.makeShared.asyncAccept s.made).release t s.made).release t h)

end State

/-- `start_server`: its own pointer to the first handler, and that of the first callback. -/
def startServer (threadCount : ℕ) : State threadCount :=
  State.asyncAccept
    (State.makeShared ⟨0, fun _ => ⟨0, .notStarted⟩, none, fun _ => .waiting⟩) 0

inductive Event (threadCount : ℕ) where
  /-- A connection is accepted, and this thread calls the callback. -/
  | accepted (t : Fin threadCount)
  /-- `start` returns to this thread, with the session's thread started or not. -/
  | startReturned (t : Fin threadCount) (loggedIn : Bool)
  /-- The session's thread is over. -/
  | sessionEnded (h : ℕ)
  /-- `~ClientHandler` returns to this thread. -/
  | destroyed (t : Fin threadCount)
  deriving DecidableEq, Repr

def step (s : State threadCount) : Event threadCount → Option (State threadCount)
  | .accepted t =>
    match s.pool t, s.accepting with
    -- the parameter of `handle_new_connection` is a copy of the pointer in the callback
    | .waiting, some h => some ({ s.copy h with accepting := none }.thread t (.starting h))
    | _, _ => none
  | .startReturned t loggedIn =>
    match s.pool t with
    -- last the callback is destroyed, and its pointer with it
    | .starting h =>
      some ((((s.started h loggedIn).handleNewConnection t h).thread t .waiting).release t h)
    | _ => none
  | .sessionEnded h =>
    if (s.handler h).actionHandler = .running then
      some (s.set h { s.handler h with actionHandler := .finished })
    else none
  | .destroyed t =>
    match s.pool t with
    | .destroying h =>
      if (s.handler h).actionHandler = .running then none else some (s.thread t .waiting)
    | _ => none

/-- No client is in the middle of `login`. -/
def State.Quiet (s : State threadCount) : Prop := ∀ t h, s.pool t ≠ .starting h

/-- The thread has to wait for the end of a session. -/
def State.blocked (s : State threadCount) (t : Fin threadCount) : Bool :=
  match s.pool t with
  | .destroying h => (s.handler h).actionHandler = .running
  | _ => false

/-- An `async_accept` is pending, and a thread of the pool is not blocked. -/
def State.AbleToAccept (s : State threadCount) : Prop :=
  s.accepting.isSome = true ∧ ∃ t, s.blocked t = false

/-- The live sessions but that of the first connection. -/
def State.laterSessions (s : State threadCount) : Finset ℕ :=
  (Finset.range s.made).filter fun h => h ≠ 0 ∧ (s.handler h).actionHandler = .running

/-- A session that starts on a later connection leaves a thread of the pool without one. -/
def RoomLeft (s : State threadCount) : Event threadCount → Prop
  | .startReturned t true =>
    ∀ h, s.pool t = .starting h → h ≠ 0 → s.laterSessions.card + 1 < threadCount
  | _ => True

/-- Which handlers are held, by whom, and which sessions a thread waits for. The last handler is that of
the pending accept or of the connection that is logging in. -/
structure Inv (s : State threadCount) : Prop where
  positive : 0 < s.made
  accepting : ∀ h, s.accepting = some h → h + 1 = s.made ∧ s.Quiet
  starting : ∀ t h, s.pool t = .starting h → h + 1 = s.made ∧ s.accepting = none ∧
    ∀ t' h', s.pool t' = .starting h' → t' = t
  served : s.Quiet → s.accepting.isSome = true
  keeps : ∀ h, h + 1 < s.made → (s.handler h).useCount = if h = 0 then 1 else 0
  holds : ∀ h, h + 1 = s.made → (s.handler h).useCount =
    (if h = 0 then 1 else 0) + if s.accepting.isSome then 1 else 2
  fresh : ∀ h, s.made ≤ h + 1 → (s.handler h).actionHandler = .notStarted
  destroying : ∀ t h, s.pool t = .destroying h → h ≠ 0 ∧ h + 1 < s.made
  once : ∀ t t' h, s.pool t = .destroying h → s.pool t' = .destroying h → t = t'
  joined : ∀ h, h ≠ 0 → (s.handler h).actionHandler = .running → ∃ t, s.pool t = .destroying h

section Steps

variable {s s' : State threadCount} {t : Fin threadCount} {h : ℕ}

theorem startServer_handler (h : ℕ) :
    (startServer threadCount).handler h = ⟨if h = 0 then 2 else 0, .notStarted⟩ := by
  by_cases hzero : h = 0
  · subst hzero
    rfl
  · simp [startServer, State.asyncAccept, State.copy, State.set, State.makeShared, hzero]

theorem inv_startServer : Inv (startServer threadCount) := by
  have hmade : (startServer threadCount).made = 1 := rfl
  have hwaits : ∀ t h, (startServer threadCount).pool t ≠ .starting h ∧
      (startServer threadCount).pool t ≠ .destroying h := fun _ _ => ⟨nofun, nofun⟩
  refine ⟨by omega, fun h hh => ?_, fun t h hh => absurd hh (hwaits t h).1, fun _ => rfl,
    fun h hh => by omega, fun h hh => ?_, fun h _ => by rw [startServer_handler],
    fun t h hh => absurd hh (hwaits t h).2, fun t t' h hh => absurd hh (hwaits t h).2,
    fun h _ hh => ?_⟩
  · have hzero : 0 = h := Option.some.inj hh
    exact ⟨by omega, fun t h => (hwaits t h).1⟩
  · have hzero : h = 0 := by omega
    rw [startServer_handler, hzero]
    rfl
  · rw [startServer_handler] at hh
    cases hh

theorem release_shared (hcount : (s.handler h).useCount ≠ 1) : s.release t h =
    s.set h ⟨(s.handler h).useCount - 1, (s.handler h).actionHandler⟩ := by
  rw [State.release, if_neg hcount]

theorem release_last (hcount : (s.handler h).useCount = 1) : s.release t h =
    (s.set h ⟨0, (s.handler h).actionHandler⟩).thread t (.destroying h) := by
  rw [State.release, if_pos hcount, hcount]

theorem makeShared_asyncAccept (s : State threadCount) : s.makeShared.asyncAccept s.made =
    { s.set s.made ⟨2, .notStarted⟩ with made := s.made + 1, accepting := some s.made } := by
  simp [State.asyncAccept, State.copy, State.makeShared, State.set]

/-- The new handler stays with its callback, the old one with the callback that is about to be over. -/
theorem handleNewConnection_eq (hne : h ≠ s.made) (hcount : (s.handler h).useCount ≠ 1) :
    s.handleNewConnection t h =
      { (s.set h ⟨(s.handler h).useCount - 1, (s.handler h).actionHandler⟩).set s.made
          ⟨1, .notStarted⟩ with made := s.made + 1, accepting := some s.made } := by
  rw [State.handleNewConnection, makeShared_asyncAccept, release_shared (h := s.made) (by simp [State.set]),
    release_shared]
  · simp [State.set, Function.update_comm hne, hne]
  · simpa [State.set, hne] using hcount

/-- What the end of a login leaves: another handler, whose accept is pending, and for all but the first
connection a thread in `~ClientHandler`. -/
theorem startReturned_eq (hs : Inv s) (hpool : s.pool t = .starting h) (loggedIn : Bool) :
    step s (.startReturned t loggedIn) = some
      { made := s.made + 1
        handler := Function.update (Function.update s.handler h
          ⟨if h = 0 then 1 else 0, if loggedIn then .running else .notStarted⟩) s.made ⟨1, .notStarted⟩
        accepting := some s.made
        pool := Function.update s.pool t (if h = 0 then .waiting else .destroying h) } := by
  obtain ⟨hlast, hnone, -⟩ := hs.starting t h hpool
  have hne : h ≠ s.made := by omega
  have huse : (s.handler h).useCount = (if h = 0 then 1 else 0) + 2 := by
    rw [hs.holds h hlast, hnone]
    rfl
  have hfresh : (s.handler h).actionHandler = .notStarted := hs.fresh h (by omega)
  have hstarted : s.started h loggedIn = s.set h
      ⟨(if h = 0 then 1 else 0) + 2, if loggedIn then .running else .notStarted⟩ := by
    cases loggedIn with
    | false =>
      have hsame : s.handler h = ⟨(if h = 0 then 1 else 0) + 2, .notStarted⟩ := by
        cases hh : s.handler h
        simp_all
      simp [State.started, State.set, ← hsame]
    | true => simp [State.started, huse]
  have hcall : (s.started h loggedIn).handleNewConnection t h =
      { made := s.made + 1
        handler := Function.update (Function.update s.handler h
          ⟨(if h = 0 then 1 else 0) + 1, if loggedIn then .running else .notStarted⟩) s.made
            ⟨1, .notStarted⟩
        accepting := some s.made
        pool := s.pool } := by
    rw [hstarted, handleNewConnection_eq (by exact hne) (by simp [State.set])]
    simp [State.set]
  have hat : ∀ a b : Handler,
      Function.update (Function.update s.handler h a) s.made b h = a := by
    intro a b
    rw [Function.update_of_ne hne, Function.update_self]
  have hset : ∀ a b c : Handler, Function.update (Function.update (Function.update s.handler h a)
      s.made b) h c = Function.update (Function.update s.handler h c) s.made b := by
    intro a b c
    rw [Function.update_comm (Ne.symm hne), Function.update_idem]
  simp only [step, hpool, hcall]
  by_cases hzero : h = 0
  · simp only [if_pos hzero]
    rw [release_shared]
    · simp [State.set, State.thread, hat, hset]
    · simp [State.thread, hat]
  · simp only [if_neg hzero]
    rw [release_last]
    · simp [State.set, State.thread, hat, hset]
    · simp [State.thread, hat]

/-- A thread's state after another one has been set. -/
theorem pool_update {t' : Fin threadCount} {p q : PoolThread} (hne : p ≠ q)
    (h : Function.update s.pool t p t' = q) : t' ≠ t ∧ s.pool t' = q := by
  by_cases ht : t' = t
  · rw [ht, Function.update_self] at h
    exact absurd h hne
  · rw [Function.update_of_ne ht] at h
    exact ⟨ht, h⟩

/-- Setting a thread changes nothing for a state that it was not in. -/
theorem pool_update_of_ne {t' : Fin threadCount} {p q : PoolThread} (hne : s.pool t ≠ q)
    (h : s.pool t' = q) : Function.update s.pool t p t' = q := by
  have ht : t' ≠ t := by
    rintro rfl
    exact hne h
  rw [Function.update_of_ne ht, h]

theorem inv_accepted (hs : Inv s) (hstep : step s (.accepted t) = some s') : Inv s' := by
  cases hpool : s.pool t with
  | starting h => simp [step, hpool] at hstep
  | destroying h => simp [step, hpool] at hstep
  | waiting =>
  cases hpending : s.accepting with
  | none => simp [step, hpool, hpending] at hstep
  | some h =>
  have heq : { s.copy h with accepting := none }.thread t (.starting h) = s' := by
    simpa [step, hpool, hpending] using hstep
  subst heq
  obtain ⟨hlast, hquiet⟩ := hs.accepting h hpending
  have hother : ∀ k, k ≠ h → ((s.copy h).handler k) = s.handler k :=
    fun k hk => Function.update_of_ne hk ..
  have hself : (s.copy h).handler h = ⟨(s.handler h).useCount + 1, (s.handler h).actionHandler⟩ :=
    Function.update_self ..
  have haction : ∀ k, ((s.copy h).handler k).actionHandler = (s.handler k).actionHandler := by
    intro k
    by_cases hk : k = h
    · rw [hk, hself]
    · rw [hother k hk]
  have hstarting : ∀ t' k, Function.update s.pool t (.starting h) t' = .starting k → t' = t ∧ k = h := by
    intro t' k hk
    by_cases ht : t' = t
    · rw [ht, Function.update_self, PoolThread.starting.injEq] at hk
      exact ⟨ht, hk.symm⟩
    · rw [Function.update_of_ne ht] at hk
      exact absurd hk (hquiet t' k)
  refine ⟨hs.positive, nofun, fun t' k hk => ?_, fun hq => ?_, fun k hk => ?_, fun k hk => ?_,
    fun k hk => ?_, fun t' k hk => ?_, fun t₁ t₂ k h₁ h₂ => ?_, fun k hk hrun => ?_⟩
  · obtain ⟨ht, rfl⟩ := hstarting t' k hk
    refine ⟨hlast, rfl, fun t'' k' hk' => ?_⟩
    rw [ht]
    exact (hstarting t'' k' hk').1
  · exact absurd (Function.update_self ..) (hq t h)
  · have hlt : k + 1 < s.made := hk
    have hkne : k ≠ h := by omega
    exact (congrArg Handler.useCount (hother k hkne)).trans (hs.keeps k hk)
  · have hkh : k = h := by
      have hlt : k + 1 = s.made := hk
      omega
    have hcount := hs.holds h hlast
    have hcopied : ((s.copy h).handler h).useCount = (if h = 0 then 1 else 0) + 2 := by
      rw [hself, hcount, hpending]
      rfl
    rw [hkh]
    exact hcopied
  · exact (haction k).trans (hs.fresh k hk)
  · exact hs.destroying t' k (pool_update (by simp) hk).2
  · exact hs.once t₁ t₂ k (pool_update (by simp) h₁).2 (pool_update (by simp) h₂).2
  · obtain ⟨t', ht'⟩ := hs.joined k hk ((haction k).symm.trans hrun)
    have hne : s.pool t ≠ .destroying k := by simp [hpool]
    exact ⟨t', pool_update_of_ne hne ht'⟩

theorem inv_startReturned {loggedIn : Bool} (hs : Inv s)
    (hstep : step s (.startReturned t loggedIn) = some s') : Inv s' := by
  cases hpool : s.pool t with
  | waiting => simp [step, hpool] at hstep
  | destroying h => simp [step, hpool] at hstep
  | starting h =>
  rw [startReturned_eq hs hpool] at hstep
  have heq := Option.some.inj hstep
  subst heq
  obtain ⟨hlast, hnone, hone⟩ := hs.starting t h hpool
  have hwaits : ∀ k, (if h = 0 then PoolThread.waiting else .destroying h) ≠ .starting k := by
    intro k
    split <;> simp
  have hquiet : ∀ t' k, Function.update s.pool t
      (if h = 0 then PoolThread.waiting else .destroying h) t' ≠ .starting k := by
    intro t' k hk
    obtain ⟨hne, hat⟩ := pool_update (hwaits k) hk
    exact hne (hone t' k hat)
  have hdestroying : ∀ t' k, Function.update s.pool t
      (if h = 0 then PoolThread.waiting else .destroying h) t' = .destroying k →
      t' = t ∧ k = h ∧ h ≠ 0 ∨ t' ≠ t ∧ s.pool t' = .destroying k := by
    intro t' k hk
    by_cases ht : t' = t
    · rw [ht, Function.update_self] at hk
      split_ifs at hk with hzero
      · exact Or.inl ⟨ht, (PoolThread.destroying.inj hk).symm, hzero⟩
    · rw [Function.update_of_ne ht] at hk
      exact Or.inr ⟨ht, hk⟩
  have hmade : ∀ a b : Handler, Function.update (Function.update s.handler h a) s.made b s.made = b :=
    fun a b => Function.update_self ..
  have hold : ∀ a b : Handler, ∀ k, k < s.made →
      Function.update (Function.update s.handler h a) s.made b k =
        if k = h then a else s.handler k := by
    intro a b k hk
    rw [Function.update_of_ne (Nat.ne_of_lt hk), Function.update_apply]
  refine ⟨Nat.succ_pos _, fun k hk => ?_, fun t' k hk => absurd hk (hquiet t' k), fun _ => rfl,
    fun k hk => ?_, fun k hk => ?_, fun k hk => ?_, fun t' k hk => ?_, fun t₁ t₂ k h₁ h₂ => ?_,
    fun k hk hrun => ?_⟩
  · have hk' : s.made = k := Option.some.inj hk
    exact ⟨congrArg (· + 1) hk'.symm, hquiet⟩
  · have hlt : k < s.made := Nat.lt_of_succ_lt_succ hk
    dsimp only
    rw [hold _ _ k hlt]
    by_cases hkh : k = h
    · rw [if_pos hkh, hkh]
    · rw [if_neg hkh]
      exact hs.keeps k (by omega)
  · have hk' : k = s.made := Nat.succ.inj hk
    have hpos := hs.positive
    dsimp only
    rw [hk', hmade, if_neg (by omega)]
    rfl
  · have hle : s.made ≤ k := Nat.le_of_succ_le_succ hk
    dsimp only
    by_cases hk' : k = s.made
    · rw [hk', hmade]
    · rw [Function.update_of_ne hk', Function.update_of_ne (by omega)]
      exact hs.fresh k (by omega)
  · rcases hdestroying t' k hk with ⟨-, rfl, hzero⟩ | ⟨-, hat⟩
    · exact ⟨hzero, Nat.lt_succ_of_le (by omega)⟩
    · obtain ⟨hzero, hlt⟩ := hs.destroying t' k hat
      exact ⟨hzero, Nat.lt_succ_of_lt hlt⟩
  · rcases hdestroying t₁ k h₁ with ⟨ht₁, rfl, -⟩ | ⟨-, hat₁⟩ <;>
      rcases hdestroying t₂ k h₂ with ⟨ht₂, hkh, -⟩ | ⟨-, hat₂⟩
    · exact ht₁.trans ht₂.symm
    · have := (hs.destroying t₂ k hat₂).2
      omega
    · have := (hs.destroying t₁ k hat₁).2
      omega
    · exact hs.once t₁ t₂ k hat₁ hat₂
  · dsimp only at hrun
    by_cases hkm : k = s.made
    · rw [hkm, hmade] at hrun
      cases hrun
    · rw [Function.update_of_ne hkm, Function.update_apply] at hrun
      by_cases hkh : k = h
      · have hzero : h ≠ 0 := hkh ▸ hk
        refine ⟨t, ?_⟩
        dsimp only
        rw [Function.update_self, if_neg hzero, hkh]
      · rw [if_neg hkh] at hrun
        obtain ⟨t', ht'⟩ := hs.joined k hk hrun
        exact ⟨t', pool_update_of_ne (by simp [hpool]) ht'⟩

theorem inv_sessionEnded (hs : Inv s) (hstep : step s (.sessionEnded h) = some s') : Inv s' := by
  rw [step] at hstep
  split_ifs at hstep with hrun
  have heq := Option.some.inj hstep
  subst heq
  have huse : ∀ k, ((s.set h ⟨(s.handler h).useCount, .finished⟩).handler k).useCount =
      (s.handler k).useCount := by
    intro k
    by_cases hk : k = h
    · simp [State.set, hk]
    · simp [State.set, hk]
  have hother : ∀ k, k ≠ h → (s.set h ⟨(s.handler h).useCount, .finished⟩).handler k = s.handler k :=
    fun k hk => Function.update_of_ne hk ..
  have hlast : ∀ k, s.made ≤ k + 1 → k ≠ h := by
    rintro k hk rfl
    rw [hs.fresh k hk] at hrun
    cases hrun
  refine ⟨hs.positive, hs.accepting, hs.starting, hs.served, fun k hk => (huse k).trans (hs.keeps k hk),
    fun k hk => (huse k).trans (hs.holds k hk), fun k hk => ?_, hs.destroying, hs.once,
    fun k hk hrunning => ?_⟩
  · rw [hother k (hlast k hk)]
    exact hs.fresh k hk
  · by_cases hkh : k = h
    · rw [hkh] at hrunning
      have hself := congrArg Handler.actionHandler (Function.update_self h
        (⟨(s.handler h).useCount, .finished⟩ : Handler) s.handler)
      rw [State.set, hself] at hrunning
      cases hrunning
    · rw [hother k hkh] at hrunning
      exact hs.joined k hk hrunning

theorem inv_destroyed (hs : Inv s) (hstep : step s (.destroyed t) = some s') : Inv s' := by
  cases hpool : s.pool t with
  | waiting => simp [step, hpool] at hstep
  | starting h => simp [step, hpool] at hstep
  | destroying h =>
  simp only [step, hpool] at hstep
  split_ifs at hstep with hrun
  have heq := Option.some.inj hstep
  subst heq
  have hquiet : (s.thread t .waiting).Quiet ↔ s.Quiet := by
    refine ⟨fun hq t' k hk => ?_, fun hq t' k hk => hq t' k (pool_update (by simp) hk).2⟩
    exact hq t' k (pool_update_of_ne (by simp [hpool]) hk)
  refine ⟨hs.positive, fun k hk => ?_, fun t' k hk => ?_, fun hq => hs.served (hquiet.mp hq), hs.keeps,
    hs.holds, hs.fresh, fun t' k hk => hs.destroying t' k (pool_update (by simp) hk).2,
    fun t₁ t₂ k h₁ h₂ => hs.once t₁ t₂ k (pool_update (by simp) h₁).2 (pool_update (by simp) h₂).2,
    fun k hk hrunning => ?_⟩
  · obtain ⟨hlast, hq⟩ := hs.accepting k hk
    exact ⟨hlast, hquiet.mpr hq⟩
  · obtain ⟨hlast, hnone, hone⟩ := hs.starting t' k (pool_update (by simp) hk).2
    exact ⟨hlast, hnone, fun t'' k' hk' => hone t'' k' (pool_update (by simp) hk').2⟩
  · obtain ⟨t', ht'⟩ := hs.joined k hk hrunning
    have hne : k ≠ h := by
      rintro rfl
      exact hrun hrunning
    refine ⟨t', pool_update_of_ne ?_ ht'⟩
    rw [hpool, ne_eq, PoolThread.destroying.injEq]
    exact Ne.symm hne

theorem inv_step {e : Event threadCount} (hs : Inv s) (hstep : step s e = some s') : Inv s' := by
  cases e with
  | accepted t => exact inv_accepted hs hstep
  | startReturned t loggedIn => exact inv_startReturned hs hstep
  | sessionEnded h => exact inv_sessionEnded hs hstep
  | destroyed t => exact inv_destroyed hs hstep

end Steps

section Sessions

variable {s s' : State threadCount} {t : Fin threadCount} {h : ℕ}

theorem mem_laterSessions : h ∈ s.laterSessions ↔
    h < s.made ∧ h ≠ 0 ∧ (s.handler h).actionHandler = .running := by
  rw [State.laterSessions, Finset.mem_filter, Finset.mem_range]

theorem blocked_iff : s.blocked t = true ↔
    ∃ h, s.pool t = .destroying h ∧ (s.handler h).actionHandler = .running := by
  cases hpool : s.pool t with
  | destroying h => simp [State.blocked, hpool]
  | _ => simp [State.blocked, hpool]

/-- Each live session but the first connection's blocks one thread. -/
theorem card_blocked (hs : Inv s) :
    (Finset.univ.filter fun t => s.blocked t = true).card = s.laterSessions.card := by
  have hjoins : ∀ t ∈ Finset.univ.filter fun t => s.blocked t = true,
      ∃ h ∈ s.laterSessions, s.pool t = .destroying h := by
    intro t ht
    obtain ⟨h, hpool, hrun⟩ := blocked_iff.mp (Finset.mem_filter.mp ht).2
    obtain ⟨hzero, hlt⟩ := hs.destroying t h hpool
    exact ⟨h, mem_laterSessions.mpr ⟨by omega, hzero, hrun⟩, hpool⟩
  choose session hsession hpool using hjoins
  apply Finset.card_bij session hsession
  · intro t ht t' ht' heq
    exact hs.once t t' _ (hpool t ht) (heq ▸ hpool t' ht')
  · intro h hh
    obtain ⟨-, hzero, hrun⟩ := mem_laterSessions.mp hh
    obtain ⟨t, ht⟩ := hs.joined h hzero hrun
    have hmem : t ∈ Finset.univ.filter fun t => s.blocked t = true :=
      Finset.mem_filter.mpr ⟨Finset.mem_univ t, blocked_iff.mpr ⟨h, ht, hrun⟩⟩
    have heq := (hpool t hmem).symm.trans ht
    exact ⟨t, hmem, PoolThread.destroying.inj heq⟩

theorem ableToAccept_iff (hs : Inv s) (hquiet : s.Quiet) :
    s.AbleToAccept ↔ s.laterSessions.card < threadCount := by
  have hall : (∃ t, s.blocked t = false) ↔
      (Finset.univ.filter fun t => s.blocked t = true) ⊂ Finset.univ := by
    rw [Finset.filter_ssubset]
    simp
  have hcard : Finset.univ.card = threadCount := Finset.card_fin threadCount
  rw [State.AbleToAccept, hall, ← card_blocked hs]
  constructor
  · rintro ⟨-, hsub⟩
    have hlt := Finset.card_lt_card hsub
    omega
  · intro hlt
    refine ⟨hs.served hquiet, Finset.ssubset_univ_iff.mpr fun heq => ?_⟩
    rw [heq] at hlt
    omega

theorem laterSessions_startReturned (hs : Inv s) (hpool : s.pool t = .starting h) {loggedIn : Bool}
    (hstep : step s (.startReturned t loggedIn) = some s') : s'.laterSessions =
      if loggedIn = true ∧ h ≠ 0 then insert h s.laterSessions else s.laterSessions := by
  obtain ⟨hlast, -, -⟩ := hs.starting t h hpool
  have hfresh : ∀ k, s.made ≤ k + 1 → k ∉ s.laterSessions := by
    intro k hk hmem
    have hrun := (mem_laterSessions.mp hmem).2.2
    rw [hs.fresh k hk] at hrun
    cases hrun
  rw [startReturned_eq hs hpool] at hstep
  have heq := Option.some.inj hstep
  subst heq
  ext k
  have hright : k ∈ (if loggedIn = true ∧ h ≠ 0 then insert h s.laterSessions else s.laterSessions) ↔
      k ∈ s.laterSessions ∨ (loggedIn = true ∧ h ≠ 0) ∧ k = h := by
    split_ifs with hlater
    · simp [hlater, or_comm]
    · simp [hlater]
  rw [hright, mem_laterSessions]
  dsimp only
  by_cases hkm : k = s.made
  · have hnot : k ∉ s.laterSessions := hfresh k (by omega)
    have hkh : k ≠ h := by omega
    rw [hkm, Function.update_self]
    rw [hkm] at hnot hkh
    simp [hnot, hkh]
  · rw [Function.update_of_ne hkm, Function.update_apply]
    by_cases hkh : k = h
    · have hnot : h ∉ s.laterSessions := hfresh h (by omega)
      have hlt : h < s.made + 1 := by omega
      rw [if_pos hkh, hkh]
      cases loggedIn <;> simp [hnot, hlt]
    · rw [if_neg hkh, mem_laterSessions]
      have hlt : k < s.made + 1 ↔ k < s.made := by omega
      simp [hkh, hlt]

/-- A login that leaves a session on a later connection. -/
theorem laterSessions_card_startReturned (hs : Inv s) (hpool : s.pool t = .starting h)
    (hzero : h ≠ 0) (hstep : step s (.startReturned t true) = some s') :
    s'.laterSessions.card = s.laterSessions.card + 1 := by
  obtain ⟨hlast, -⟩ := hs.starting t h hpool
  rw [laterSessions_startReturned hs hpool hstep, if_pos ⟨rfl, hzero⟩]
  apply Finset.card_insert_of_notMem
  rw [mem_laterSessions, hs.fresh h (by omega)]
  simp

theorem laterSessions_card_le (hmade : s'.made = s.made)
    (hrun : ∀ k, (s'.handler k).actionHandler = .running → (s.handler k).actionHandler = .running) :
    s'.laterSessions.card ≤ s.laterSessions.card := by
  apply Finset.card_le_card
  intro k hk
  obtain ⟨hlt, hzero, hk'⟩ := mem_laterSessions.mp hk
  exact mem_laterSessions.mpr ⟨hmade ▸ hlt, hzero, hrun k hk'⟩

/-- Only a login on a later connection adds to the live sessions. -/
theorem laterSessions_lt (hs : Inv s) {e : Event threadCount} (hroom : RoomLeft s e)
    (hlt : s.laterSessions.card < threadCount) (hstep : step s e = some s') :
    s'.laterSessions.card < threadCount := by
  cases e with
  | accepted t =>
    apply lt_of_le_of_lt _ hlt
    simp only [step] at hstep
    split at hstep
    next _ _ h _ _ =>
      have heq := Option.some.inj hstep
      subst heq
      apply laterSessions_card_le (by rfl)
      intro k hk
      by_cases hkh : k = h
      · subst hkh
        simpa [State.thread, State.copy, State.set] using hk
      · simpa [State.thread, State.copy, State.set, hkh] using hk
    next => cases hstep
  | startReturned t loggedIn =>
    cases hpool : s.pool t with
    | waiting => simp [step, hpool] at hstep
    | destroying h => simp [step, hpool] at hstep
    | starting h =>
      by_cases hlater : loggedIn = true ∧ h ≠ 0
      · obtain ⟨rfl, hzero⟩ := hlater
        rw [laterSessions_card_startReturned hs hpool hzero hstep]
        exact hroom h hpool hzero
      · rw [laterSessions_startReturned hs hpool hstep, if_neg hlater]
        exact hlt
  | sessionEnded h =>
    apply lt_of_le_of_lt _ hlt
    simp only [step] at hstep
    split at hstep
    · have heq := Option.some.inj hstep
      subst heq
      apply laterSessions_card_le (by rfl)
      intro k hk
      by_cases hkh : k = h
      · simp [State.set, hkh] at hk
      · simpa [State.set, hkh] using hk
    · cases hstep
  | destroyed t =>
    apply lt_of_le_of_lt _ hlt
    simp only [step] at hstep
    split at hstep
    · split at hstep
      · cases hstep
      · have heq := Option.some.inj hstep
        subst heq
        exact laterSessions_card_le rfl fun _ hk => hk
    · cases hstep

theorem inv_run {events : List (Event threadCount)}
    (hrun : run step (startServer threadCount) events = some s) : Inv s :=
  run_keeps (fun _ _ _ hs hstep => inv_step hs hstep) inv_startServer hrun

end Sessions

/-- With a thread left for the accept at every login but the first connection's, the server is able to
accept whenever no client is logging in; and the first login without one leaves a server that is not. -/
theorem able_to_accept (hpositive : 0 < threadCount) :
    (∀ events (s : State threadCount), Meets step RoomLeft (startServer threadCount) events →
      run step (startServer threadCount) events = some s → s.Quiet → s.AbleToAccept) ∧
    ∀ events (s s' : State threadCount) e, run step (startServer threadCount) events = some s →
      step s e = some s' → ¬RoomLeft s e → s'.Quiet ∧ ¬s'.AbleToAccept := by
  constructor
  · intro events s hmeets hrun hquiet
    have hempty : (startServer threadCount).laterSessions.card = 0 := by
      rw [Finset.card_eq_zero, Finset.eq_empty_iff_forall_notMem]
      intro h hh
      have hlive := (mem_laterSessions.mp hh).2.2
      rw [startServer_handler] at hlive
      cases hlive
    have hkept : Inv s ∧ s.laterSessions.card < threadCount := by
      apply run_invariant (I := fun s => Inv s ∧ s.laterSessions.card < threadCount) _
        ⟨inv_startServer, by omega⟩ hmeets hrun
      intro s e s' hs hroom hstep
      exact ⟨inv_step hs.1 hstep, laterSessions_lt hs.1 hroom hs.2 hstep⟩
    exact (ableToAccept_iff hkept.1 hquiet).mpr hkept.2
  · intro events s s' e hrun hstep hroom
    have hs := inv_run hrun
    have hs' := inv_step hs hstep
    cases e with
    | accepted t => exact absurd trivial hroom
    | sessionEnded h => exact absurd trivial hroom
    | destroyed t => exact absurd trivial hroom
    | startReturned t loggedIn =>
      cases loggedIn with
      | false => exact absurd trivial hroom
      | true =>
        simp only [RoomLeft, not_forall] at hroom
        obtain ⟨h, hpool, hzero, hfull⟩ := hroom
        have hquiet : s'.Quiet := by
          have hnext := hstep
          rw [startReturned_eq hs hpool] at hnext
          have heq := Option.some.inj hnext
          exact (hs'.accepting s.made (by rw [← heq])).2
        have hcard := laterSessions_card_startReturned hs hpool hzero hstep
        refine ⟨hquiet, fun hable => ?_⟩
        have hlt := (ableToAccept_iff hs' hquiet).mp hable
        omega

/-- A client connects and logs in. -/
def Event.session (t : Fin threadCount) : List (Event threadCount) :=
  [.accepted t, .startReturned t true]

/-- Two threads are enough for two sessions: the first connection's blocks none. -/
theorem able_to_accept_two : ∃ s : State 2,
    run step (startServer 2) (Event.session 0 ++ Event.session 1) = some s ∧ s.AbleToAccept := by
  have hrun : (run step (startServer 2) (Event.session 0 ++ Event.session 1)).isSome = true := by decide
  obtain ⟨s, hs⟩ := Option.isSome_iff_exists.mp hrun
  have hmeets : Meets step RoomLeft (startServer 2) (Event.session 0 ++ Event.session 1) := by
    refine Meets.cons trivial rfl (Meets.cons (fun h hpool hzero => ?_) rfl
      (Meets.cons trivial rfl (Meets.cons (fun _ _ _ => ?_) rfl trivial)))
    · exact absurd (PoolThread.starting.inj hpool).symm hzero
    · decide
  have hpool : (s.pool 0, s.pool 1) = (.waiting, .destroying 1) := by
    apply Option.some.inj
    rw [← Option.map_some (f := fun s : State 2 => (s.pool 0, s.pool 1)), ← hs]
    decide
  obtain ⟨hfirst, hsecond⟩ := Prod.mk.inj hpool
  have hquiet : s.Quiet := Fin.forall_fin_two.mpr ⟨fun h => by simp [hfirst], fun h => by simp [hsecond]⟩
  exact ⟨s, hs, (able_to_accept (by decide)).1 _ s hmeets hs hquiet⟩

/-- The pool of `main` has two threads, and the sessions of the second and the third client block both
of them. -/
theorem pool_exhausted : ¬∀ threadCount, 0 < threadCount → ∀ events (s : State threadCount),
    run step (startServer threadCount) events = some s → s.Quiet → s.AbleToAccept := by
  intro haccepts
  have hrun : (run step (startServer 2)
      (Event.session 0 ++ Event.session 0 ++ Event.session 1)).isSome = true := by decide
  obtain ⟨s, hs⟩ := Option.isSome_iff_exists.mp hrun
  have hstate : (s.pool 0, s.pool 1, (s.handler 1).actionHandler, (s.handler 2).actionHandler) =
      (.destroying 1, .destroying 2, .running, .running) := by
    apply Option.some.inj
    rw [← Option.map_some (f := fun s : State 2 =>
      (s.pool 0, s.pool 1, (s.handler 1).actionHandler, (s.handler 2).actionHandler)), ← hs]
    decide
  simp only [Prod.mk.injEq] at hstate
  obtain ⟨hfirst, hsecond, hlive, hlive'⟩ := hstate
  have hquiet : s.Quiet := Fin.forall_fin_two.mpr ⟨fun h => by simp [hfirst], fun h => by simp [hsecond]⟩
  have hblocked : ∀ t, s.blocked t = true :=
    Fin.forall_fin_two.mpr ⟨blocked_iff.mpr ⟨1, hfirst, hlive⟩, blocked_iff.mpr ⟨2, hsecond, hlive'⟩⟩
  obtain ⟨-, t, hfree⟩ := haccepts 2 (by omega) _ s hs hquiet
  rw [hblocked t] at hfree
  cases hfree

end BackupManager.Server.AcceptPool
