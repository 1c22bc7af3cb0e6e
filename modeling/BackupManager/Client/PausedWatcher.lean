import BackupManager.Client.Action
import BackupManager.Transition.Run

/-! The watcher thread and `action_restore` around the mutex of the watcher. What the watcher finds in
the file system is left open; locking, unlocking and `wait` are atomic. -/
namespace BackupManager.Client.PausedWatcher
open ByteStream Protocol Transition

inductive Holder where
  | watcher
  | restorer
  deriving DecidableEq, Repr

/-- Where `FileWatcher::start` stands. `scan` tells the loop over the folder in a pass from that of
`init_status`; a pass holds the mutex. -/
inductive WatcherAt where
  /-- The iterator is about to be made. -/
  | opening (scan : Bool)
  /-- In the body of the loop. -/
  | entry (scan : Bool) (path : Bytes)
  /-- The iterator is about to be advanced. -/
  | advancing (scan : Bool)
  /-- What is left in `initial_status` is to be erased. -/
  | leftover (paths : List Bytes)
  /-- At the head of the outer loop, or asleep in it. -/
  | loop
  /-- At the declaration of the `unique_lock`. -/
  | locking
  /-- In `cv.wait`, with the mutex, about to look at `pause_execution`. -/
  | checking
  /-- In `cv.wait`, without the mutex. -/
  | blocked
  /-- In the loop over `paths_`. -/
  | gone (paths : List Bytes)
  | ended
  deriving DecidableEq, Repr

/-- Where `action_restore` stands. -/
inductive RestorerAt where
  | away
  /-- In `pause`, with the mutex. -/
  | pausing
  /-- `pause` has returned. -/
  | paused
  /-- In `restart`, with the mutex. -/
  | restarting
  deriving DecidableEq, Repr

structure State where
  watcher : WatcherAt
  restorer : RestorerAt
  mutex : Option Holder
  pauseExecution : Bool
  running : Bool
  deriving DecidableEq, Repr

def start : State := ⟨.opening false, .away, none, false, true⟩

inductive Event where
  /-- The iterator delivers an entry. -/
  | next (path : Bytes)
  /-- The iterator is at the end; `left` is what `initial_status` still holds. -/
  | endOfDirectory (left : List Bytes)
  /-- The body of the loop, which may call `action`. -/
  | body (status : Option FileStatus)
  /-- The loop over `initial_status` goes on to the next path, or ends. -/
  | erase
  /-- The watcher comes to the end of its sleep, and of its loop if it has been stopped. -/
  | awake
  | lock
  /-- `pause_execution` is looked at; `known` are the keys of `paths_`. -/
  | check (known : List Bytes)
  /-- `cv.wait` comes back with the mutex. -/
  | notified
  /-- The loop over `paths_` asks whether the next path exists, or ends. -/
  | ask (found : Bool)
  /-- A call on the file system throws, and the exception leaves `start`. -/
  | throws
  /-- `stop`, called by the main thread. -/
  | stop
  | lockPause
  | pauseReturns
  | lockRestart
  | restartReturns
  deriving DecidableEq, Repr

/-- The watcher has the mutex. -/
def WatcherAt.holds : WatcherAt → Bool
  | .opening scan | .entry scan _ | .advancing scan => scan
  | .checking | .gone _ => true
  | _ => false

/-- The watcher has work to do in `init_status`. -/
def WatcherAt.initializing : WatcherAt → Bool
  | .opening scan | .entry scan _ | .advancing scan => !scan
  | .leftover paths => !paths.isEmpty
  | _ => false

def RestorerAt.holds : RestorerAt → Bool
  | .pausing | .restarting => true
  | _ => false

/-- `pause` has returned, and the matching `restart` has not. -/
def RestorerAt.silences : RestorerAt → Bool
  | .paused | .restarting => true
  | _ => false

/-- The watcher goes on without a look at the mutex. -/
def State.goesOn (s : State) (w : WatcherAt) : Option State := some { s with watcher := w }

def step (s : State) : Event → Option State
  | .next path =>
    match s.watcher with
    | .opening scan | .advancing scan => s.goesOn (.entry scan path)
    | _ => none
  | .endOfDirectory left =>
    match s.watcher with
    | .opening false | .advancing false => s.goesOn (.leftover left)
    -- the lock goes out of scope
    | .opening true | .advancing true => some { s with watcher := .loop, mutex := none }
    | _ => none
  | .body _ =>
    match s.watcher with
    | .entry scan _ => s.goesOn (.advancing scan)
    | _ => none
  | .erase =>
    match s.watcher with
    | .leftover [] => s.goesOn .loop
    | .leftover (_ :: paths) => s.goesOn (.leftover paths)
    | _ => none
  | .awake =>
    match s.watcher with
    | .loop => s.goesOn (if s.running then .locking else .ended)
    | _ => none
  | .lock =>
    match s.watcher, s.mutex with
    | .locking, none => some { s with watcher := .checking, mutex := some .watcher }
    | _, _ => none
  | .check known =>
    match s.watcher with
    | .checking =>
      if s.pauseExecution then some { s with watcher := .blocked, mutex := none }
      else s.goesOn (.gone known)
    | _ => none
  | .notified =>
    match s.watcher, s.mutex with
    | .blocked, none => some { s with watcher := .checking, mutex := some .watcher }
    | _, _ => none
  | .ask _ =>
    match s.watcher with
    | .gone [] => s.goesOn (.opening true)
    | .gone (_ :: paths) => s.goesOn (.gone paths)
    | _ => none
  | .throws =>
    match s.watcher with
    | .opening scan | .entry scan _ | .advancing scan =>
      some { s with watcher := .ended, mutex := if scan then none else s.mutex }
    | .gone _ => some { s with watcher := .ended, mutex := none }
    | _ => none
  | .stop => some { s with running := false }
  | .lockPause =>
    match s.restorer, s.mutex with
    | .away, none => some { s with restorer := .pausing, mutex := some .restorer }
    | _, _ => none
  | .pauseReturns =>
    match s.restorer with
    | .pausing => some { s with restorer := .paused, mutex := none, pauseExecution := true }
    | _ => none
  | .lockRestart =>
    match s.restorer, s.mutex with
    | .paused, none => some { s with restorer := .restarting, mutex := some .restorer }
    | _, _ => none
  | .restartReturns =>
    match s.restorer with
    | .restarting => some { s with restorer := .away, mutex := none, pauseExecution := false }
    | _ => none

/-- The watcher reads an entry of the folder, or calls `action`. -/
def Works (s : State) : Event → Prop
  | .next _ => True
  | .body status => status ≠ none
  | .erase => s.watcher ≠ .leftover []
  | .ask found => s.watcher ≠ .gone [] ∧ found = false
  | _ => False

/-- When `pause` returns, the watcher has no work left in `init_status`. -/
def Initialized (s : State) : Event → Prop
  | .pauseReturns => s.watcher.initializing = false
  | _ => True

/-- The mutex is held by whoever is where it is held, and a pass is only made while not paused. -/
structure Inv (s : State) : Prop where
  watcher : s.watcher.holds = true ↔ s.mutex = some .watcher
  restorer : s.restorer.holds = true ↔ s.mutex = some .restorer
  paused : s.pauseExecution = s.restorer.silences
  scanning : s.watcher.holds = true → s.watcher ≠ .checking → s.pauseExecution = false

theorem inv_start : Inv start := ⟨by decide, by decide, rfl, by decide⟩

section Steps

variable {s s' : State}

/-- What a step may do to the mutex and to what is left to do in `init_status`. -/
inductive Moves (s : State) : Event → State → Prop where
  /-- The watcher goes on with the mutex as it was. -/
  | goesOn {e : Event} (w : WatcherAt) (holds : w.holds = s.watcher.holds)
      (point : w.holds = true → s.watcher ≠ .checking ∨ s.pauseExecution = false)
      (initializing : w.initializing = true → s.watcher.initializing = true) :
      Moves s e { s with watcher := w }
  /-- The watcher gives the mutex back. -/
  | gives {e : Event} (w : WatcherAt) (holds : s.watcher.holds = true) (free : w.holds = false)
      (initializing : w.initializing = false) : Moves s e { s with watcher := w, mutex := none }
  /-- The watcher takes the mutex, and looks at `pause_execution` next. -/
  | takes {e : Event} (free : s.mutex = none) :
      Moves s e { s with watcher := .checking, mutex := some .watcher }
  | stop : Moves s .stop { s with running := false }
  | lockPause (point : s.restorer = .away) (free : s.mutex = none) :
      Moves s .lockPause { s with restorer := .pausing, mutex := some .restorer }
  | pauseReturns (point : s.restorer = .pausing) :
      Moves s .pauseReturns { s with restorer := .paused, mutex := none, pauseExecution := true }
  | lockRestart (point : s.restorer = .paused) (free : s.mutex = none) :
      Moves s .lockRestart { s with restorer := .restarting, mutex := some .restorer }
  | restartReturns (point : s.restorer = .restarting) :
      Moves s .restartReturns { s with restorer := .away, mutex := none, pauseExecution := false }

/-- An exception leaves the watcher without the mutex. -/
theorem Moves.ends {e : Event} (scan : Bool) (hholds : s.watcher.holds = scan) :
    Moves s e { s with watcher := .ended, mutex := if scan then none else s.mutex } := by
  cases scan with
  | true => exact .gives .ended hholds rfl rfl
  | false =>
    exact .goesOn .ended hholds.symm (fun h => absurd h Bool.false_ne_true)
      (fun h => absurd h Bool.false_ne_true)

/-- The watcher goes on from a point of the folder, of `initial_status` or of `paths_`. -/
theorem Moves.of_goesOn {e : Event} {w : WatcherAt} (hstep : s.goesOn w = some s')
    (hholds : w.holds = s.watcher.holds) (hpoint : s.watcher ≠ .checking)
    (hinit : w.initializing = true → s.watcher.initializing = true) : Moves s e s' := by
  have heq := Option.some.inj hstep
  subst heq
  exact .goesOn w hholds (fun _ => Or.inl hpoint) hinit

theorem step_cases {e : Event} (hstep : step s e = some s') : Moves s e s' := by
  cases e with
  | next path =>
    simp only [step] at hstep
    split at hstep
    next scan hw => exact .of_goesOn hstep (by rw [hw]; rfl) (by simp [hw]) (by rw [hw]; exact id)
    next scan hw => exact .of_goesOn hstep (by rw [hw]; rfl) (by simp [hw]) (by rw [hw]; exact id)
    next => cases hstep
  | endOfDirectory left =>
    simp only [step] at hstep
    split at hstep
    next hw => exact .of_goesOn hstep (by rw [hw]; rfl) (by simp [hw]) (by rw [hw]; exact fun _ => rfl)
    next hw => exact .of_goesOn hstep (by rw [hw]; rfl) (by simp [hw]) (by rw [hw]; exact fun _ => rfl)
    next hw => exact Option.some.inj hstep ▸ .gives .loop (by rw [hw]; rfl) rfl rfl
    next hw => exact Option.some.inj hstep ▸ .gives .loop (by rw [hw]; rfl) rfl rfl
    next => cases hstep
  | body status =>
    simp only [step] at hstep
    split at hstep
    next scan path hw => exact .of_goesOn hstep (by rw [hw]; rfl) (by simp [hw]) (by rw [hw]; exact id)
    next => cases hstep
  | erase =>
    simp only [step] at hstep
    split at hstep
    next hw => exact .of_goesOn hstep (by rw [hw]; rfl) (by simp [hw]) (by rw [hw]; exact id)
    next path paths hw =>
      exact .of_goesOn hstep (by rw [hw]; rfl) (by simp [hw]) (by rw [hw]; exact fun _ => rfl)
    next => cases hstep
  | awake =>
    simp only [step] at hstep
    split at hstep
    next hw =>
      refine .of_goesOn hstep ?_ (by simp [hw]) ?_ <;> rw [hw] <;> cases s.running
      exacts [rfl, rfl, id, id]
    next => cases hstep
  | lock | notified =>
    simp only [step] at hstep
    split at hstep
    next hw hfree => exact Option.some.inj hstep ▸ .takes hfree
    next => cases hstep
  | check known =>
    simp only [step] at hstep
    split at hstep
    next hw =>
      have hholds : s.watcher.holds = true := by
        rw [hw]
        rfl
      split at hstep
      next hpause => exact Option.some.inj hstep ▸ .gives .blocked hholds rfl rfl
      next hpause =>
        have hrun : s.pauseExecution = false := by simpa using hpause
        exact Option.some.inj hstep ▸ .goesOn (.gone known) hholds.symm (fun _ => Or.inr hrun)
          (fun h => absurd h Bool.false_ne_true)
    next => cases hstep
  | ask found =>
    simp only [step] at hstep
    split at hstep
    next hw => exact .of_goesOn hstep (by rw [hw]; rfl) (by simp [hw]) (by rw [hw]; exact id)
    next path paths hw => exact .of_goesOn hstep (by rw [hw]; rfl) (by simp [hw]) (by rw [hw]; exact id)
    next => cases hstep
  | throws =>
    simp only [step] at hstep
    split at hstep
    next scan hw => exact Option.some.inj hstep ▸ .ends scan (by rw [hw]; rfl)
    next scan path hw => exact Option.some.inj hstep ▸ .ends scan (by rw [hw]; rfl)
    next scan hw => exact Option.some.inj hstep ▸ .ends scan (by rw [hw]; rfl)
    next hw => exact Option.some.inj hstep ▸ .ends true (by rw [hw]; rfl)
    next => cases hstep
  | stop => exact Option.some.inj hstep ▸ .stop
  | lockPause =>
    simp only [step] at hstep
    split at hstep
    next hr hfree => exact Option.some.inj hstep ▸ .lockPause hr hfree
    next => cases hstep
  | pauseReturns =>
    simp only [step] at hstep
    split at hstep
    next hr => exact Option.some.inj hstep ▸ .pauseReturns hr
    next => cases hstep
  | lockRestart =>
    simp only [step] at hstep
    split at hstep
    next hr hfree => exact Option.some.inj hstep ▸ .lockRestart hr hfree
    next => cases hstep
  | restartReturns =>
    simp only [step] at hstep
    split at hstep
    next hr => exact Option.some.inj hstep ▸ .restartReturns hr
    next => cases hstep

/-- Nobody but the watcher has a mutex that the watcher has. -/
theorem Inv.restorer_of_watcher (hs : Inv s) (hholds : s.watcher.holds = true) :
    s.restorer.holds = false := by
  rw [← Bool.not_eq_true]
  intro h
  have hmutex := hs.watcher.mp hholds
  rw [hs.restorer.mp h] at hmutex
  cases hmutex

theorem Inv.restorer_of_free (hs : Inv s) (hfree : s.mutex = none) : s.restorer.holds = false := by
  rw [← Bool.not_eq_true]
  intro h
  rw [hs.restorer.mp h] at hfree
  cases hfree

theorem Inv.watcher_of_mutex (hs : Inv s) (hmutex : s.mutex ≠ some .watcher) :
    s.watcher.holds = false := by
  rw [← Bool.not_eq_true]
  exact fun h => hmutex (hs.watcher.mp h)

/-- `action_restore` takes the mutex, or gives it back. -/
theorem inv_restorer (s : State) (r : RestorerAt) (mutex : Option Holder) (pause : Bool)
    (hfree : s.watcher.holds = false) (hmutex : mutex ≠ some .watcher)
    (hholds : r.holds = true ↔ mutex = some .restorer) (hpause : pause = r.silences) :
    Inv { s with restorer := r, mutex := mutex, pauseExecution := pause } := by
  refine ⟨?_, hholds, hpause, fun h => ?_⟩
  · simp [hfree, hmutex]
  · exact absurd h (by simp [hfree])

theorem inv_step {e : Event} (hs : Inv s) (hstep : step s e = some s') : Inv s' := by
  cases step_cases hstep with
  | goesOn w hholds hpoint hinit =>
    refine ⟨?_, hs.restorer, hs.paused, fun hw _ => ?_⟩
    · exact hholds ▸ hs.watcher
    · rcases hpoint hw with hne | hrun
      · exact hs.scanning (hholds ▸ hw) hne
      · exact hrun
  | gives w hholds hfree hinit =>
    have hrestorer := hs.restorer_of_watcher hholds
    refine ⟨by simp [hfree], by simp [hrestorer], hs.paused, fun h => ?_⟩
    exact absurd h (by simp [hfree])
  | takes hfree =>
    have hrestorer := hs.restorer_of_free hfree
    exact ⟨by simp [WatcherAt.holds], by simp [hrestorer], hs.paused, fun _ h => absurd rfl h⟩
  | stop => exact ⟨hs.watcher, hs.restorer, hs.paused, hs.scanning⟩
  | lockPause hr hfree =>
    have hpaused := hs.paused
    rw [hr] at hpaused
    exact inv_restorer s .pausing (some .restorer) s.pauseExecution
      (hs.watcher_of_mutex (by simp [hfree])) (by simp) (by simp [RestorerAt.holds]) hpaused
  | pauseReturns hr =>
    have hmutex : s.mutex = some .restorer := hs.restorer.mp (by rw [hr]; rfl)
    exact inv_restorer s .paused none true (hs.watcher_of_mutex (by simp [hmutex])) (by simp)
      (by simp [RestorerAt.holds]) rfl
  | lockRestart hr hfree =>
    have hpaused := hs.paused
    rw [hr] at hpaused
    exact inv_restorer s .restarting (some .restorer) s.pauseExecution
      (hs.watcher_of_mutex (by simp [hfree])) (by simp) (by simp [RestorerAt.holds]) hpaused
  | restartReturns hr =>
    have hmutex : s.mutex = some .restorer := hs.restorer.mp (by rw [hr]; rfl)
    exact inv_restorer s .away none false (hs.watcher_of_mutex (by simp [hmutex])) (by simp)
      (by simp [RestorerAt.holds]) rfl

/-- In a silence the watcher has neither the mutex nor work from before it. -/
def Still (s : State) : Prop :=
  Inv s ∧ (s.restorer.silences = true → s.watcher.initializing = false)

theorem Still.not_works {e : Event} (hs : Still s) (hsilent : s.restorer.silences = true)
    (hstep : step s e = some s') : ¬Works s e := by
  have hinit := hs.2 hsilent
  have hpaused := hs.1.paused
  rw [hsilent] at hpaused
  have hscan : s.watcher.holds = true → s.watcher = .checking := by
    intro hholds
    by_contra hne
    have hrun := hs.1.scanning hholds hne
    rw [hpaused] at hrun
    cases hrun
  have hfolder : ∀ scan, s.watcher ≠ .opening scan ∧ (∀ path, s.watcher ≠ .entry scan path) ∧
      s.watcher ≠ .advancing scan := by
    intro scan
    refine ⟨fun hw => ?_, fun path hw => ?_, fun hw => ?_⟩ <;>
      cases scan <;> simp [hw, WatcherAt.initializing, WatcherAt.holds] at hinit hscan
  cases e with
  | next path =>
    simp only [step] at hstep
    split at hstep
    next scan hw => exact absurd hw (hfolder scan).1
    next scan hw => exact absurd hw (hfolder scan).2.2
    next => cases hstep
  | body status =>
    simp only [step] at hstep
    split at hstep
    next scan path hw => exact absurd hw ((hfolder scan).2.1 path)
    next => cases hstep
  | erase =>
    simp only [step] at hstep
    split at hstep
    next hw => exact fun h => h hw
    next path paths hw => simp [hw, WatcherAt.initializing] at hinit
    next => cases hstep
  | ask found =>
    simp only [step] at hstep
    split at hstep
    next hw => exact fun h => h.1 hw
    next path paths hw => simp [hw, WatcherAt.holds] at hscan
    next => cases hstep
  | _ => exact fun h => h

/-- The watcher gets no work in `init_status` that it did not have. -/
theorem initializing_step {e : Event} (hstep : step s e = some s')
    (hinit : s.watcher.initializing = false) : s'.watcher.initializing = false := by
  cases step_cases hstep with
  | goesOn w _ _ hmore =>
    rw [← Bool.not_eq_true]
    intro hw
    rw [hmore hw] at hinit
    cases hinit
  | gives w _ _ hnone => exact hnone
  | takes => rfl
  | _ => exact hinit

/-- Only the return of `pause` begins a silence. -/
theorem silences_step {e : Event} (hstep : step s e = some s') (hsilent : s'.restorer.silences = true) :
    s.restorer.silences = true ∨ e = .pauseReturns := by
  cases step_cases hstep with
  | goesOn | gives | takes | stop => exact Or.inl hsilent
  | pauseReturns => exact Or.inr rfl
  | lockRestart hr _ =>
    rw [hr]
    exact Or.inl rfl
  | lockPause | restartReturns => cases hsilent

theorem still_step {e : Event} (hs : Still s) (hgood : Initialized s e) (hstep : step s e = some s') :
    Still s' := by
  refine ⟨inv_step hs.1 hstep, fun hsilent => initializing_step hstep ?_⟩
  rcases silences_step hstep hsilent with hbefore | rfl
  · exact hs.2 hbefore
  · exact hgood

/-- The watcher goes on with what it has to do in `init_status`. -/
theorem works_of_initializing (hsilent : s.restorer.silences = true)
    (hinit : s.watcher.initializing = true) :
    ∃ more e s₁ s₂, run step s more = some s₁ ∧ s₁.restorer.silences = true ∧
      step s₁ e = some s₂ ∧ Works s₁ e := by
  cases hw : s.watcher with
  | opening scan =>
    exact ⟨[], .next [], s, { s with watcher := .entry scan [] }, rfl, hsilent,
      by simp [step, hw, State.goesOn], trivial⟩
  | advancing scan =>
    exact ⟨[], .next [], s, { s with watcher := .entry scan [] }, rfl, hsilent,
      by simp [step, hw, State.goesOn], trivial⟩
  | entry scan path =>
    have hbody : run step s [.body none] = some { s with watcher := .advancing scan } := by
      simp [run, step, hw, State.goesOn]
    exact ⟨[.body none], .next [], { s with watcher := .advancing scan },
      { s with watcher := .entry scan [] }, hbody, hsilent, by simp [step, State.goesOn], trivial⟩
  | leftover paths =>
    cases paths with
    | nil => simp [hw, WatcherAt.initializing] at hinit
    | cons path paths =>
      exact ⟨[], .erase, s, { s with watcher := .leftover paths }, rfl, hsilent,
        by simp [step, hw, State.goesOn], by simp [Works, hw]⟩
  | _ => simp [hw, WatcherAt.initializing] at hinit

end Steps

/-- If `pause` returns only when the watcher has no work left in `init_status`, a paused watcher is
silent; and whenever it returns before, the watcher may go on with it. -/
theorem paused_watcher (events : List Event) (s : State) (hrun : run step start events = some s) :
    (Meets step Initialized start events → s.restorer.silences = true →
      ∀ e s', step s e = some s' → ¬Works s e) ∧
    (¬Initialized s .pauseReturns → ∀ s', step s .pauseReturns = some s' →
      ∃ more e s₁ s₂, run step s' more = some s₁ ∧ s₁.restorer.silences = true ∧
        step s₁ e = some s₂ ∧ Works s₁ e) := by
  constructor
  · intro hmeets hsilent e s' hstep
    have hstart : Still start := ⟨inv_start, by decide⟩
    have hstill : Still s := run_invariant (fun _ _ _ => still_step) hstart hmeets hrun
    exact hstill.not_works hsilent hstep
  · intro hinit s' hstep
    have hbusy : s.watcher.initializing = true := by simpa [Initialized] using hinit
    simp only [step] at hstep
    split at hstep
    next =>
      have heq := Option.some.inj hstep
      subst heq
      exact works_of_initializing rfl hbusy
    next => cases hstep

/-- The watcher is paused while it is idle, and waits. -/
theorem paused_watcher_idle : ¬∃ e s', step ⟨.loop, .paused, none, true, true⟩ e = some s' ∧
    Works ⟨.loop, .paused, none, true, true⟩ e := by
  intro hworks
  obtain ⟨e, s', hstep, hworks⟩ := hworks
  have hmeets : Meets step Initialized start [.endOfDirectory [], .erase, .lockPause, .pauseReturns] := by
    refine Meets.cons trivial rfl (Meets.cons trivial rfl (Meets.cons trivial rfl
      (Meets.cons ?_ rfl trivial)))
    rfl
  exact (paused_watcher [.endOfDirectory [], .erase, .lockPause, .pauseReturns] _ rfl).1 hmeets rfl
    e s' hstep hworks

/-- `pause` returns while the folder is listed for the first time: the next entry is read all the same. -/
theorem pause_during_init_status : ¬∀ events s e s', run step start events = some s →
    s.restorer.silences = true → step s e = some s' → ¬Works s e := by
  intro hidle
  exact hidle [.lockPause, .pauseReturns] _ (.next [47]) _ rfl rfl rfl trivial

end BackupManager.Client.PausedWatcher
