import BackupManager.Client.BufferQueue
import BackupManager.Transition.Monitor

/-! `Buffer` and the pausing of `FileWatcher` at the steps of their threads: the mutex is taken and given
back, a thread that has to wait sleeps, and it is woken by `notify_all` only. -/
namespace BackupManager.Client
open Queue Transition

/-- A `pop` that gives nothing returns before `notify_all`. -/
def Buffer.monitor (α : Type) : Monitor (Call α) (History α (Buffer α)) where
  body call h := (methods α).step h ((), call)
  notifies call h := match call with
    | .pop => !(h.queue.isTerminated && h.queue.head == h.queue.curr)
    | _ => true

section Buffer

variable {α T : Type}

theorem Buffer.body_pop_none {h : History α (Buffer α)} :
    (monitor α).body .pop h = none ↔ h.queue.length = 0 ∧ h.queue.isTerminated = false := by
  show (h.queue.pop.map _ : Option (History α (Buffer α))) = none ↔ _
  rw [Option.map_eq_none_iff, Buffer.pop, length_eq_zero]
  split
  · next heq => cases h.queue.isTerminated <;> simp [heq]
  · next hne => simp [hne]

theorem Buffer.body_push_none {item : α} {h : History α (Buffer α)} :
    (monitor α).body (.push item) h = none ↔ h.queue.length = maxSize - 1 := by
  show (h.queue.push item).map _ = none ↔ _
  rw [Option.map_eq_none_iff, push_eq_none]

/-- A `pop` that gives nothing changes nothing; everything else notifies. -/
theorem Buffer.notifies_monitor : (monitor α).Notifies := by
  intro call h h' hbody hnotifies call' hwaits
  cases call with
  | push item => cases hnotifies
  | terminate => cases hnotifies
  | pop =>
    have hends : h.queue.isTerminated = true ∧ h.queue.head = h.queue.curr := by
      simpa [monitor] using hnotifies
    have hbody : h.queue.pop.map (fun r => (⟨r.2, h.pushed, h.popped ++ r.1.toList⟩ :
        History α (Buffer α))) = some h' := hbody
    rw [pop_of_terminated (length_eq_zero.mpr hends.2) hends.1] at hbody
    have hsame : h' = h := by
      rw [← Option.some.inj hbody]
      simp
    rwa [hsame]

/-- The threads at the buffer, after these calls have been carried out: they are a run of whole calls, so
that the buffer is the bounded queue; and only those wait who have to. -/
structure Buffer.Monitored (calls : List (T × Call α)) (s : Monitor.State T (Call α) (History α (Buffer α)))
    (default : α) : Prop where
  atomic : run (methods α).step (.begin α (empty default)) calls = some s.shared
  bounded : Bounded calls s.shared
  push : s.mutex = none → ∀ t item, s.point t = .asleep (.push item) →
    s.shared.queue.length = maxSize - 1
  pop : s.mutex = none → ∀ t, s.point t = .asleep .pop →
    s.shared.queue.length = 0 ∧ s.shared.queue.isTerminated = false
  terminate : s.mutex = none → ∀ t, s.point t ≠ .asleep .terminate

variable [DecidableEq T]

variable {events : List (Monitor.Event T (Call α))} {default : α}
  {s : Monitor.State T (Call α) (History α (Buffer α))}

theorem Buffer.monitored
    (hrun : run (monitor α).step (Monitor.start (.begin α (empty default))) events = some s) :
    Monitored (outputs (monitor α).step Monitor.performed
      (Monitor.start (.begin α (empty default))) events) s default := by
  have hatomic := Monitor.shared_run hrun
  have hasleep := fun hfree => @Monitor.body_of_asleep _ _ _ _ _ s _ notifies_monitor events hrun hfree
  refine ⟨hatomic, bounded_run hatomic, fun hfree t item ht => ?_, fun hfree t ht => ?_,
    fun hfree t ht => ?_⟩
  · exact body_push_none.mp (hasleep hfree ht)
  · exact body_pop_none.mp (hasleep hfree ht)
  · exact absurd (hasleep hfree ht) (Option.some_ne_none _)

end Buffer

/-- The threads at a buffer carry out whole calls, none of them sleeps without need, and none can go on
only if nobody is inside, all push to a full buffer, or all pop from an empty one that may still be
filled. -/
theorem buffer_monitor {α T : Type} [DecidableEq T] (default : α)
    (events : List (Monitor.Event T (Call α))) (s : Monitor.State T (Call α) (History α (Buffer α)))
    (hrun : run (Buffer.monitor α).step (Monitor.start (.begin α (.empty default))) events = some s) :
    Buffer.Monitored (outputs (Buffer.monitor α).step Monitor.performed
      (Monitor.start (.begin α (.empty default))) events) s default ∧
    ((Buffer.monitor α).Blocked s → (∀ t, s.point t = .outside) ∨
      (s.shared.queue.length = maxSize - 1 ∧
        ∀ t, s.point t = .outside ∨ ∃ item, s.point t = .asleep (.push item)) ∨
      (s.shared.queue.length = 0 ∧ s.shared.queue.isTerminated = false) ∧
        ∀ t, s.point t = .outside ∨ s.point t = .asleep .pop) := by
  have hmonitored := Buffer.monitored hrun
  refine ⟨hmonitored, fun hblocked => ?_⟩
  obtain ⟨hfree, hasleep⟩ := Monitor.asleep_of_blocked Buffer.notifies_monitor hrun hblocked
  by_cases hpop : ∃ t, s.point t = .asleep .pop
  · obtain ⟨t, ht⟩ := hpop
    have hempty := hmonitored.pop hfree t ht
    refine Or.inr (Or.inr ⟨hempty, fun u => ?_⟩)
    rcases hasleep u with hout | ⟨call, hu⟩
    · exact Or.inl hout
    · cases call with
      | push item =>
        have hfull := hmonitored.push hfree u item hu
        rw [hempty.1] at hfull
        exact absurd hfull (by decide)
      | pop => exact Or.inr hu
      | terminate => exact absurd hu (hmonitored.terminate hfree u)
  · have hpush : ∀ u, s.point u = .outside ∨ ∃ item, s.point u = .asleep (.push item) := by
      intro u
      rcases hasleep u with hout | ⟨call, hu⟩
      · exact Or.inl hout
      · cases call with
        | push item => exact Or.inr ⟨item, hu⟩
        | pop => exact absurd ⟨u, hu⟩ hpop
        | terminate => exact absurd hu (hmonitored.terminate hfree u)
    by_cases hout : ∀ t, s.point t = .outside
    · exact Or.inl hout
    · obtain ⟨t, ht⟩ := not_forall.mp hout
      obtain ⟨item, hitem⟩ := (hpush t).resolve_left ht
      exact Or.inr (Or.inl ⟨hmonitored.push hfree t item hitem, hpush⟩)

/-- A `pop` sleeps until a `push` of another thread has notified it. -/
theorem buffer_monitor_woken : ∃ s,
    run (Buffer.monitor ℕ).step (Monitor.start (.begin ℕ (.empty 0)))
      [.call false .pop, .acquire false, .test false, .call true (.push 7), .acquire true, .test true,
        .act true, .notify true, .release true, .acquire false, .test false, .act false] = some s ∧
    s.shared.popped = [7] ∧
    Buffer.Monitored (outputs (Buffer.monitor ℕ).step Monitor.performed
      (Monitor.start (.begin ℕ (.empty 0)))
      [.call false .pop, .acquire false, .test false, .call true (.push 7), .acquire true, .test true,
        .act true, .notify true, .release true, .acquire false, .test false, .act false]) s 0 :=
  ⟨_, rfl, rfl, (buffer_monitor 0 _ _ rfl).1⟩

/-- The methods of `FileWatcher` that take its mutex; a pass of the loop waits until it is not paused. -/
inductive WatcherCall where
  | scan
  | pause
  | restart
  deriving DecidableEq, Repr

/-- The shared state is `pause_execution`. Only `restart` notifies. -/
def watcherMonitor : Monitor WatcherCall Bool where
  body call pauseExecution := match call with
    | .scan => if pauseExecution then none else some pauseExecution
    | .pause => some true
    | .restart => some false
  notifies call _ := call = .restart

section Watcher

variable {T : Type} {p p' : Bool} {calls calls' : List (T × WatcherCall)}

theorem notifies_watcherMonitor : watcherMonitor.Notifies := by
  intro call p p' hbody hnotifies call' hwaits
  cases call with
  | restart => cases hnotifies
  | pause =>
    rw [← Option.some.inj hbody]
    cases call' with
    | scan => rfl
    | pause | restart => cases hwaits
  | scan =>
    cases p with
    | true => cases hbody
    | false => cases call' <;> cases hwaits

/-- Without a `restart` the watcher stays paused, and makes no pass. -/
theorem scan_of_paused (hrun : run watcherMonitor.atomic true calls = some p)
    (hrestart : ∀ t, (t, .restart) ∉ calls) : p = true ∧ ∀ t, (t, .scan) ∉ calls := by
  induction calls with
  | nil => exact ⟨(Option.some.inj hrun).symm, fun t => List.not_mem_nil⟩
  | cons call calls ih =>
    obtain ⟨p₁, hstep, hrest⟩ := run_cons_eq_some.mp hrun
    obtain ⟨t, call⟩ := call
    have hlater : ∀ t, (t, .restart) ∉ calls :=
      fun t ht => hrestart t (List.mem_cons_of_mem _ ht)
    cases call with
    | scan => cases hstep
    | restart => exact absurd List.mem_cons_self (hrestart t)
    | pause =>
      rw [← Option.some.inj hstep] at hrest
      obtain ⟨hp, hscan⟩ := ih hrest hlater
      refine ⟨hp, fun u hu => ?_⟩
      rcases List.mem_cons.mp hu with heq | hmem
      · cases heq
      · exact hscan u hmem

/-- Without a `pause` the watcher goes on. -/
theorem not_paused (hrun : run watcherMonitor.atomic false calls = some p)
    (hpause : ∀ t, (t, .pause) ∉ calls) : p = false := by
  induction calls with
  | nil => exact (Option.some.inj hrun).symm
  | cons call calls ih =>
    obtain ⟨p₁, hstep, hrest⟩ := run_cons_eq_some.mp hrun
    obtain ⟨t, call⟩ := call
    have hlater : ∀ t, (t, .pause) ∉ calls := fun t ht => hpause t (List.mem_cons_of_mem _ ht)
    cases call with
    | pause => exact absurd List.mem_cons_self (hpause t)
    | scan | restart =>
      rw [← Option.some.inj hstep] at hrest
      exact ih hrest hlater

/-- What stands after a call in a run was carried out from what that call has left. -/
theorem run_after {before after : List (T × WatcherCall)} {call : T × WatcherCall} {q : Bool}
    (hrun : run watcherMonitor.atomic p (before ++ call :: after) = some p')
    (hcall : ∀ p q', watcherMonitor.atomic p call = some q' → q' = q) :
    run watcherMonitor.atomic q after = some p' := by
  rw [run_append] at hrun
  obtain ⟨p₁, -, hrest⟩ := Option.bind_eq_some_iff.mp hrun
  obtain ⟨p₂, hstep, hafter⟩ := run_cons_eq_some.mp hrest
  rwa [← hcall p₁ p₂ hstep]

end Watcher

/-- Between a `pause` and a pass of the loop stands a `restart`; who sleeps is a pass that is paused; and
once a `restart` is carried out and no `pause` after it, no pass goes on sleeping. -/
theorem watcher_monitor {T : Type} [DecidableEq T] (events : List (Monitor.Event T WatcherCall))
    (s : Monitor.State T WatcherCall Bool)
    (hrun : run watcherMonitor.step (Monitor.start false) events = some s) :
    let calls := outputs watcherMonitor.step Monitor.performed (Monitor.start false) events
    (∀ before between after t t', calls = before ++ (t, .pause) :: (between ++ (t', .scan) :: after) →
      ∃ u, (u, .restart) ∈ between) ∧
    (s.mutex = none → ∀ t call, s.point t = .asleep call → call = .scan ∧ s.shared = true) ∧
    ∀ before after t, calls = before ++ (t, .restart) :: after → (∀ u, (u, .pause) ∉ after) →
      s.mutex = none → ∀ u call, s.point u ≠ .asleep call := by
  intro calls
  have hatomic : run watcherMonitor.atomic false calls = some s.shared := Monitor.shared_run hrun
  have hasleep : s.mutex = none → ∀ t call, s.point t = .asleep call → call = .scan ∧ s.shared = true := by
    intro hfree t call ht
    have hwaits := Monitor.body_of_asleep notifies_watcherMonitor hrun hfree ht
    cases call with
    | scan =>
      refine ⟨rfl, ?_⟩
      by_contra hpaused
      rw [Bool.not_eq_true] at hpaused
      rw [hpaused] at hwaits
      cases hwaits
    | pause | restart => cases hwaits
  refine ⟨fun before between after t t' hcalls => ?_, hasleep, fun before after t hcalls hpause hfree u call
    hu => ?_⟩
  · by_contra hnone
    rw [not_exists] at hnone
    rw [hcalls] at hatomic
    have hafter := run_after (q := true) hatomic fun _ _ h => (Option.some.inj h).symm
    rw [run_append] at hafter
    obtain ⟨p₁, hbetween, hscan⟩ := Option.bind_eq_some_iff.mp hafter
    obtain ⟨p₂, hstep, -⟩ := run_cons_eq_some.mp hscan
    rw [(scan_of_paused hbetween hnone).1] at hstep
    cases hstep
  · rw [hcalls] at hatomic
    have hafter := run_after (q := false) hatomic fun _ _ h => (Option.some.inj h).symm
    have hpaused := (hasleep hfree u call hu).2
    rw [not_paused hafter hpause] at hpaused
    cases hpaused

/-- A pass that sleeps is woken by `restart`. -/
theorem watcher_monitor_woken : ∃ s,
    run watcherMonitor.step (Monitor.start false)
      [.call true .pause, .acquire true, .test true, .act true, .release true, .call false .scan,
        .acquire false, .test false, .call true .restart, .acquire true, .test true, .act true,
        .notify true, .release true] = some s ∧
    ∀ u call, s.point u ≠ .asleep call := by
  refine ⟨_, rfl, ?_⟩
  exact (watcher_monitor [.call true .pause, .acquire true, .test true, .act true, .release true,
    .call false .scan, .acquire false, .test false, .call true .restart, .acquire true, .test true,
    .act true, .notify true, .release true] _ rfl).2.2 [(true, .pause)] [] true rfl
    (fun _ => List.not_mem_nil) rfl

end BackupManager.Client
