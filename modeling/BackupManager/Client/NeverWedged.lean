import BackupManager.Client.WedgeSteps

/-! Moves that leave no thread without what it waits for. -/
namespace BackupManager.Client.Threads
open Transition

section Steps

variable {s s' : State} {m : Move}

theorem inv_stepWatcher (hi : Inv s) (hspared : Spared s m) (h : s.stepWatcher m = some s') :
    Inv s' := by
  cases m with
  | find action =>
    have hroom : ∀ scan, s.watcher.pushes = 0 → s.hasExceptionOccurred = true →
        (WatcherAt.pushing scan action).pushes + s.input.pushes ≤ s.slots := by
      intro scan hzero hflag
      have hlt : s.pushers < s.slots := hspared hflag
      rw [State.pushers, hzero] at hlt
      rw [WatcherAt.pushes]
      omega
    simp only [State.stepWatcher] at h
    split at h
    · next hw =>
      obtain rfl := Option.some.inj h
      refine hi.moveWatcher (by rw [hw]; rfl) rfl (hroom false (by rw [hw]; rfl)) (fun _ => rfl) fun _ => rfl
    · next hw =>
      obtain rfl := Option.some.inj h
      refine hi.moveWatcher (by rw [hw]; rfl) rfl (hroom true (by rw [hw]; rfl)) (fun hpaused => ?_)
        fun _ => rfl
      have hunlocked := hi.unlocked hpaused
      rw [hw] at hunlocked
      exact absurd hunlocked (by simp [WatcherAt.locked])
    · cases h
  | watcherPush =>
    simp only [State.stepWatcher] at h
    split at h
    swap
    · cases h
    next scan action hw =>
    obtain ⟨actions, hpush, rfl⟩ := Option.map_eq_some_iff.mp h
    have hlength := Buffer.length_push hpush
    have hlt := actions.length_lt
    have hbefore : s.hasExceptionOccurred = true →
        1 + s.input.pushes ≤ maxSize - 1 - s.actions.length + s.consumer.takes := by
      intro hflag
      have hroom := hi.room hflag
      rwa [State.pushers, hw] at hroom
    have hback : (if scan then WatcherAt.scanning else .init).pushes = 0 ∧
        (if scan then WatcherAt.scanning else .init).over = false ∧
        (if scan then WatcherAt.scanning else .init).locked = s.watcher.locked ∧
        (if scan then WatcherAt.scanning else .init).waits = false := by
      rw [hw]
      cases scan <;> exact ⟨rfl, rfl, rfl, rfl⟩
    obtain ⟨hpushes, hover, hlocked, hwaits⟩ := hback
    have hmoved : Inv { s with watcher := if scan then .scanning else .init } := by
      refine hi.moveWatcher (by rw [hw]; rfl) hover (fun hflag => ?_) (fun hpaused => ?_) fun _ => hwaits
      · have hroom := hbefore hflag
        rw [hpushes, State.slots]
        omega
      · rw [hlocked]
        exact hi.unlocked hpaused
    refine hmoved.setActions (Buffer.isTerminated_push hpush) (fun hflag => ?_) fun hs =>
      absurd hs (not_starved_push hpush)
    have hroom := hbefore hflag
    rw [State.pushers, hpushes]
    dsimp only
    omega
  | pass =>
    simp only [State.stepWatcher] at h
    have hmoved : ∀ w : WatcherAt, s.watcher = w → w.over = false → w.pushes = 0 →
        Inv { s with watcher := .loop } := by
      intro w hw hover hpushes
      refine hi.moveWatcher (by rw [hw]; exact hover) rfl (fun hflag => ?_) (fun _ => rfl) fun _ => rfl
      have hroom := hi.room hflag
      rwa [State.pushers, hw, hpushes] at hroom
    split at h
    · next hw =>
      obtain rfl := Option.some.inj h
      exact hmoved _ hw rfl rfl
    · next hw =>
      obtain rfl := Option.some.inj h
      exact hmoved _ hw rfl rfl
    · cases h
  | wake =>
    simp only [State.stepWatcher] at h
    split at h
    swap
    · cases h
    next hw =>
    obtain rfl := Option.some.inj h
    by_cases hrunning : s.running = true
    · rw [if_pos hrunning]
      refine hi.moveWatcher (by rw [hw]; rfl) rfl (fun hflag => ?_) (fun _ => rfl) fun hstopped => ?_
      · have hroom := hi.room hflag
        rwa [State.pushers, hw] at hroom
      · exact absurd hrunning (by simp [hstopped])
    · rw [if_neg hrunning]
      exact hi.endWatcher (by rw [hw]; rfl) (by simpa using hrunning)
  | resume =>
    simp only [State.stepWatcher] at h
    split at h
    swap
    · cases h
    next hw =>
    split at h
    · cases h
    next hpaused =>
    obtain rfl := Option.some.inj h
    refine hi.moveWatcher (by rw [hw]; rfl) rfl (fun hflag => ?_) (fun h => absurd h hpaused) fun _ => rfl
    have hroom := hi.room hflag
    rwa [State.pushers, hw] at hroom
  | _ => cases h

theorem inv_stepConsumer (hi : Inv s) (h : s.stepConsumer m = some s') : Inv s' := by
  cases m with
  | pop =>
    simp only [State.stepConsumer] at h
    split at h
    swap
    · cases h
    next hc =>
    obtain ⟨⟨item, actions⟩, hpop, rfl⟩ := Option.map_eq_some_iff.mp h
    cases item with
    | some item =>
      obtain ⟨hlength, hterminated⟩ := Buffer.pop_some hpop
      refine hi.setConsumer hterminated (by simp) ?_ (fun hflag => ?_) fun _ hs => hs.elim
      · rintro (h | ⟨h, -⟩)
        · exact absurd h (by simp)
        · exact absurd h (by simp)
      · have hroom := hi.room hflag
        have hlt := s.actions.length_lt
        rw [State.slots, hc] at hroom
        simp only [ConsumerAt.takes] at hroom ⊢
        omega
    | none =>
      obtain ⟨rfl, hlength, hterminated⟩ := Buffer.pop_none hpop
      have hzero := pushers_of_terminated hi hterminated
      refine hi.setConsumer rfl ?_ (fun _ => hterminated) (fun _ => by omega) fun _ hs => ?_
      · dsimp only
        split <;> simp
      · dsimp only at hs
        split at hs <;> exact hs.elim
  | send =>
    simp only [State.stepConsumer] at h
    split at h
    swap
    · cases h
    next action hc =>
    obtain rfl := Option.some.inj h
    by_cases hflag : s.hasExceptionOccurred = true
    · rw [if_pos hflag]
      refine hi.setConsumer rfl (by simp) ?_ (fun _ => ?_) fun _ hs => hs.elim
      · rintro (h | ⟨-, h⟩)
        · exact absurd h (by simp)
        · exact absurd h (by simp [hflag])
      · have hroom := hi.room hflag
        rwa [State.slots, hc] at hroom
    · rw [if_neg hflag]
      refine hi.setConsumer rfl (by simp) ?_ (fun h => absurd h hflag) fun hw _ => ?_
      · rintro (h | ⟨h, -⟩)
        · exact absurd h (by simp)
        · exact absurd h (by simp)
      · exact absurd hw (hi.unfailed (by simpa using hflag)).2
  | sendQuit =>
    simp only [State.stepConsumer] at h
    split at h
    swap
    · cases h
    next hc =>
    obtain rfl := Option.some.inj h
    refine hi.setConsumer rfl (by simp) (fun _ => hi.drained (Or.inl hc)) (fun hflag => ?_)
      fun _ hs => hs.elim
    have hroom := hi.room hflag
    rwa [State.slots, hc] at hroom
  | _ => cases h

/-- The input watcher moves where it does not push. -/
theorem Inv.moveInputAside (hi : Inv s) {i i' : InputAt} (hinput : s.input = i) (hover : i.over = false)
    (hpushes : i.pushes = 0) (hover' : i'.over = false) (hpushes' : i'.pushes = 0) :
    Inv { s with input := i' } := by
  apply hi.moveInput (by rw [hinput]; exact hover) hover'
  intro hflag
  have hroom := hi.room hflag
  rw [State.pushers, hinput, hpushes] at hroom
  rw [hpushes']
  exact hroom

theorem inv_stepInput (hi : Inv s) (hspared : Spared s m) (h : s.stepInput m = some s') : Inv s' := by
  cases m with
  | poll command =>
    simp only [State.stepInput] at h
    split at h
    · next hinput =>
      obtain rfl := Option.some.inj h
      exact hi.moveInputAside hinput rfl rfl rfl rfl
    · next hinput =>
      obtain rfl := Option.some.inj h
      exact hi.moveInputAside hinput rfl rfl rfl rfl
    · next hinput =>
      obtain rfl := Option.some.inj h
      exact hi.moveInputAside hinput rfl rfl rfl rfl
    · cases h
  | answer action =>
    simp only [State.stepInput] at h
    split at h
    · next hinput =>
      obtain rfl := Option.some.inj h
      exact hi.moveInputAside hinput rfl rfl rfl rfl
    · next action hinput =>
      obtain rfl := Option.some.inj h
      apply hi.moveInput (by rw [hinput]; rfl) rfl
      intro hflag
      have hlt : s.pushers < s.slots := hspared hflag
      rw [State.pushers, hinput] at hlt
      exact hlt
    · cases h
  | confirm quit =>
    simp only [State.stepInput] at h
    split at h
    swap
    · cases h
    next hinput =>
    obtain rfl := Option.some.inj h
    cases quit with
    | true => exact hi.endInput (by rw [hinput]; rfl) hspared
    | false => exact hi.moveInputAside hinput rfl rfl rfl rfl
  | inputPush =>
    simp only [State.stepInput] at h
    split at h
    swap
    · cases h
    next action hinput =>
    obtain ⟨actions, hpush, rfl⟩ := Option.map_eq_some_iff.mp h
    have hlength := Buffer.length_push hpush
    have hlt := actions.length_lt
    have hbefore : s.hasExceptionOccurred = true →
        s.watcher.pushes + 1 ≤ maxSize - 1 - s.actions.length + s.consumer.takes := by
      intro hflag
      have hroom := hi.room hflag
      rwa [State.pushers, hinput] at hroom
    have hmoved : Inv { s with input := .check } := by
      apply hi.moveInput (by rw [hinput]; rfl) rfl
      intro hflag
      have hroom := hbefore hflag
      rw [State.slots, InputAt.pushes]
      · omega
      · simp
    refine hmoved.setActions (Buffer.isTerminated_push hpush) (fun hflag => ?_) fun hs =>
      absurd hs (not_starved_push hpush)
    have hroom := hbefore hflag
    rw [State.pushers, InputAt.pushes]
    · dsimp only
      omega
    · simp
  | inputCheck =>
    simp only [State.stepInput] at h
    split at h
    swap
    · cases h
    next hinput =>
    obtain rfl := Option.some.inj h
    by_cases hflag : s.hasExceptionOccurred = true
    · rw [if_pos hflag]
      exact hi.endInput (by rw [hinput]; rfl) hspared
    · rw [if_neg hflag]
      exact hi.moveInputAside hinput rfl rfl rfl rfl
  | _ => cases h

theorem inv_stepResponse (hi : Inv s) (hspared : Spared s m) (h : s.stepResponse m = some s') :
    Inv s' := by
  have hstay : ∀ {r : ResponseAt} {inbox : List Signal}, s.response.over = false →
      (∀ blocks, s.response ≠ .restoring blocks) → (∀ failed, s.response ≠ .restarting failed) →
      (∀ blocks, r ≠ .restoring blocks) → (∀ failed, r ≠ .restarting failed) →
      (s.hasExceptionOccurred = true → Supplied r inbox) →
      Inv { s with response := r, inbox := inbox } := by
    intro r inbox hover hrestoring hrestarting hr hr' hsupply
    have hunpaused := hi.unpaused hover hrestoring hrestarting
    have hset := hi.setResponse hover s.pauseExecution r inbox hsupply (by simp [hunpaused, hr, hr'])
      (by simp [hunpaused])
    exact hset
  cases m with
  | responseCheck =>
    simp only [State.stepResponse] at h
    split at h
    swap
    · cases h
    next finish hresponse =>
    obtain rfl := Option.some.inj h
    by_cases hend : (finish || s.hasExceptionOccurred) = true
    · rw [if_pos hend]
      exact hstay (by rw [hresponse]; rfl) (by simp [hresponse]) (by simp [hresponse]) (by simp)
        (by simp) fun _ => trivial
    · rw [if_neg hend]
      refine hstay (by rw [hresponse]; rfl) (by simp [hresponse]) (by simp [hresponse]) (by simp)
        (by simp) fun hflag => ?_
      exact absurd hend (by simp [hflag])
  | read =>
    simp only [State.stepResponse] at h
    split at h
    · next signal inbox hinbox hresponse =>
      obtain rfl := Option.some.inj h
      refine hstay (by rw [hresponse]; rfl) (by simp [hresponse]) (by simp [hresponse]) (by simp)
        (by simp) fun hflag => ?_
      have hsupply := hi.supply hflag
      rw [hinbox, hresponse] at hsupply
      cases inbox with
      | nil => exact hsupply
      | cons signal inbox => exact hsupply
    · next signal inbox hinbox hresponse =>
      obtain rfl := Option.some.inj h
      refine hstay (by rw [hresponse]; rfl) (by simp [hresponse]) (by simp [hresponse]) (by simp)
        (by simp) fun hflag => ?_
      have hsupply := hi.supply hflag
      rwa [hinbox, hresponse] at hsupply
    · next signal inbox blocks hinbox hresponse =>
      obtain rfl := Option.some.inj h
      have hpaused := hi.pausing (Or.inl ⟨_, hresponse⟩)
      have hset := hi.setResponse (by rw [hresponse]; rfl) s.pauseExecution (.restoring blocks) inbox
        (fun hflag => ?_) (by simp [hpaused]) hi.unlocked
      · exact hset
      · have hsupply := hi.supply hflag
        rw [hinbox, hresponse] at hsupply
        simp only [Supplied, List.length_cons] at hsupply ⊢
        omega
    · cases h
  | handle =>
    simp only [State.stepResponse] at h
    split at h
    · next hresponse =>
      obtain rfl := Option.some.inj h
      exact hstay (by rw [hresponse]; rfl) (by simp [hresponse]) (by simp [hresponse]) (by simp)
        (by simp) fun _ => trivial
    · next hresponse =>
      obtain rfl := Option.some.inj h
      exact hstay (by rw [hresponse]; rfl) (by simp [hresponse]) (by simp [hresponse]) (by simp)
        (by simp) fun _ => trivial
    · next blocks hresponse =>
      obtain rfl := Option.some.inj h
      refine hstay (by rw [hresponse]; rfl) (by simp [hresponse]) (by simp [hresponse]) (by simp)
        (by simp) fun hflag => ?_
      have hsupply := hi.supply hflag
      rwa [hresponse] at hsupply
    · next hresponse =>
      obtain rfl := Option.some.inj h
      have hpaused := hi.pausing (Or.inl ⟨_, hresponse⟩)
      have hset := hi.setResponse (by rw [hresponse]; rfl) s.pauseExecution (.restarting false) s.inbox
        (fun _ => trivial) (by simp [hpaused]) hi.unlocked
      exact hset
    · cases h
  | pause =>
    simp only [State.stepResponse] at h
    split at h
    swap
    · cases h
    next blocks hresponse =>
    split at h
    · cases h
    next hlocked =>
    obtain rfl := Option.some.inj h
    have hset := hi.setResponse (by rw [hresponse]; rfl) true (.restoring blocks) s.inbox
        (fun hflag => ?_) (by simp) (fun _ => by simpa using hlocked)
    · exact hset
    · have hsupply := hi.supply hflag
      rwa [hresponse] at hsupply
  | restart =>
    simp only [State.stepResponse] at h
    split at h
    · next hresponse =>
      split at h
      · cases h
      obtain rfl := Option.some.inj h
      have hset := hi.setResponse (by rw [hresponse]; rfl) false (.check false) s.inbox
        (fun _ => trivial) (by simp) (by simp)
      exact hset
    · next hresponse =>
      split at h
      · cases h
      obtain rfl := Option.some.inj h
      have hroom : s.pushers ≤ s.slots := by
        rcases hspared with h | h
        · exact absurd (hresponse.symm.trans h) (by simp)
        · exact h
      exact hi.failResponse (by rw [hresponse]; rfl) (by simp) hroom
    · cases h
  | _ => cases h

theorem inv_throws (hi : Inv s) {party : Party} (hspared : Spared s (.throws party))
    (h : s.throws party = some s') : Inv s' := by
  cases party with
  | watcher =>
    simp only [State.throws] at h
    split at h
    · next hw =>
      obtain rfl := Option.some.inj h
      exact hi.failWatcher (by rw [hw]; rfl) hspared
    · next hw =>
      obtain rfl := Option.some.inj h
      exact hi.failWatcher (by rw [hw]; rfl) hspared
    · cases h
  | consumer =>
    simp only [State.throws] at h
    split at h
    · next action hc =>
      obtain rfl := Option.some.inj h
      exact hi.failConsumer (by rw [hc]; rfl) hspared
    · next hc =>
      obtain rfl := Option.some.inj h
      exact hi.failConsumer (by rw [hc]; rfl) hspared
    · cases h
  | response =>
    have hfail : s.response.over = false → (∀ blocks, s.response ≠ .restoring blocks) →
        (∀ failed, s.response ≠ .restarting failed) →
        Inv { s with hasExceptionOccurred := true, response := .ended true } := by
      intro hover hrestoring hrestarting
      have hunpaused := hi.unpaused hover hrestoring hrestarting
      have hroom : s.pushers ≤ s.slots := by
        rcases hspared with ⟨blocks, h⟩ | h
        · exact absurd h (hrestoring blocks)
        · exact h
      have hfailed := hi.failResponse hover (p := s.pauseExecution) (by simp [hunpaused]) hroom
      exact hfailed
    simp only [State.throws] at h
    split at h
    · next hresponse =>
      obtain rfl := Option.some.inj h
      exact hfail (by rw [hresponse]; rfl) (by simp [hresponse]) (by simp [hresponse])
    · next hresponse =>
      obtain rfl := Option.some.inj h
      exact hfail (by rw [hresponse]; rfl) (by simp [hresponse]) (by simp [hresponse])
    · next signal hresponse =>
      obtain rfl := Option.some.inj h
      exact hfail (by rw [hresponse]; rfl) (by simp [hresponse]) (by simp [hresponse])
    · next blocks hresponse =>
      obtain rfl := Option.some.inj h
      have hpaused := hi.pausing (Or.inl ⟨_, hresponse⟩)
      have hset := hi.setResponse (by rw [hresponse]; rfl) s.pauseExecution (.restarting true) s.inbox
        (fun _ => trivial) (by simp [hpaused]) hi.unlocked
      exact hset
    · cases h
  | input =>
    simp only [State.throws] at h
    split at h
    · next hinput =>
      obtain rfl := Option.some.inj h
      exact hi.failInput (by rw [hinput]; rfl) hspared
    · next hinput =>
      obtain rfl := Option.some.inj h
      exact hi.failInput (by rw [hinput]; rfl) hspared
    · next hinput =>
      obtain rfl := Option.some.inj h
      exact hi.failInput (by rw [hinput]; rfl) hspared
    · cases h

theorem inv_cleanupThrows (hi : Inv s) (hspared : Spared s .cleanupThrows)
    (h : s.cleanupThrows = some s') : Inv s' := by
  unfold State.cleanupThrows at h
  split at h
  swap
  · cases h
  next hresponse =>
  obtain rfl := Option.some.inj h
  have hpaused := hi.pausing (Or.inr ⟨_, hresponse⟩)
  exact hi.failResponse (by rw [hresponse]; rfl) (fun _ => ⟨hpaused, hspared.2⟩) hspared.1

/-- The main thread goes on. -/
theorem Inv.setMain (hi : Inv s) {main : MainAt} (hphase : Phase { s with main := main }) :
    Inv { s with main := main } where
  phase := hphase
  unfailed := hi.unfailed
  drained := hi.drained
  terminated := hi.terminated
  watched := hi.watched
  stopped := hi.stopped
  room := hi.room
  supply := hi.supply
  paused := hi.paused
  pausing := hi.pausing
  unlocked := hi.unlocked
  fed := hi.fed

/-- `stop`, once the input watcher has ended. -/
theorem Inv.stop (hi : Inv s) (hinput : s.input = .ended false) :
    Inv { s with running := false, main := .joinWatcher } where
  phase := hinput
  unfailed := hi.unfailed
  drained := hi.drained
  terminated := hi.terminated
  watched := fun _ => rfl
  stopped := fun _ => hinput
  room := hi.room
  supply := hi.supply
  paused := by
    intro h
    rcases hi.paused h with h | h | ⟨hover, h⟩
    · exact Or.inl h
    · exact Or.inr (Or.inl h)
    · right; right
      refine ⟨hover, ?_⟩
      unfold State.pastWaiting at h ⊢
      dsimp only
      rcases (Bool.or_eq_true _ _).mp h with hended | hrest
      · rw [hended, Bool.true_or]
      · rw [((Bool.and_eq_true _ _).mp hrest).2]
        simp
  pausing := hi.pausing
  unlocked := hi.unlocked
  fed := hi.fed

/-- `terminate`, once both watchers have ended. -/
theorem Inv.terminate (hi : Inv s) (hinput : s.input = .ended false) (hw : s.watcher = .ended false) :
    Inv { s with actions := s.actions.terminate, main := .joinConsumer } where
  phase := rfl
  unfailed := hi.unfailed
  drained := fun _ => rfl
  terminated := fun _ => ⟨hinput, hw⟩
  watched := hi.watched
  stopped := hi.stopped
  room := hi.room
  supply := hi.supply
  paused := hi.paused
  pausing := hi.pausing
  unlocked := hi.unlocked
  fed := fun h => absurd (hw.symm.trans h) (by simp)

theorem inv_join (hi : Inv s) (h : s.join = some s') : Inv s' := by
  have hphase := hi.phase
  unfold Phase at hphase
  unfold State.join at h
  split at h
  · next hmain hinput =>
    obtain rfl := Option.some.inj h
    exact hi.stop hinput
  · next hmain hinput =>
    obtain rfl := Option.some.inj h
    rw [hmain] at hphase
    exact hi.setMain ⟨hinput, hphase⟩
  · next hmain hw =>
    obtain rfl := Option.some.inj h
    rw [hmain] at hphase
    exact hi.terminate hphase hw
  · next hmain hw =>
    obtain rfl := Option.some.inj h
    rw [hmain] at hphase
    exact hi.setMain ⟨hphase, hw⟩
  · obtain rfl := Option.some.inj h
    exact hi.setMain trivial
  · obtain rfl := Option.some.inj h
    exact hi.setMain trivial
  · obtain rfl := Option.some.inj h
    exact hi.setMain trivial
  · next watcher failed hmain hresponse =>
    obtain rfl := Option.some.inj h
    rw [hmain] at hphase
    cases watcher with
    | true => exact hi.setMain ⟨hphase.1, hphase.2, by rw [hresponse]; rfl⟩
    | false => exact hi.setMain hphase
  · obtain rfl := Option.some.inj h
    exact hi.setMain trivial
  · obtain rfl := Option.some.inj h
    exact hi.setMain trivial
  · obtain rfl := Option.some.inj h
    exact hi.setMain trivial
  · obtain rfl := Option.some.inj h
    exact hi.setMain trivial
  · cases h

/-- What a move does. -/
theorem step_cases (h : step s m = some s') :
    s.stepWatcher m = some s' ∨ s.stepConsumer m = some s' ∨ s.stepResponse m = some s' ∨
    s.stepInput m = some s' ∨ (m = .join ∧ s.join = some s') ∨
    (∃ signal, m = .serve signal ∧ s.hasExceptionOccurred = false ∧
      s' = { s with inbox := s.inbox ++ [signal] }) ∨
    (∃ party, m = .throws party ∧ s.throws party = some s') ∨
    (m = .cleanupThrows ∧ s.cleanupThrows = some s') := by
  cases m with
  | find | watcherPush | pass | wake | resume => exact Or.inl h
  | pop | send | sendQuit => exact Or.inr (Or.inl h)
  | responseCheck | read | handle | pause | restart => exact Or.inr (Or.inr (Or.inl h))
  | poll | answer | confirm | inputPush | inputCheck => exact Or.inr (Or.inr (Or.inr (Or.inl h)))
  | join => simp_all [step]
  | throws party => simp_all [step]
  | cleanupThrows => simp_all [step]
  | serve signal =>
    simp only [step] at h
    split at h
    · cases h
    next hflag => simp_all

theorem inv_step (hi : Inv s) (hspared : Spared s m) (h : step s m = some s') : Inv s' := by
  rcases step_cases h with h | h | h | h | ⟨rfl, h⟩ | ⟨signal, rfl, hflag, rfl⟩ | ⟨party, rfl, h⟩ |
    ⟨rfl, h⟩
  · exact inv_stepWatcher hi hspared h
  · exact inv_stepConsumer hi h
  · exact inv_stepResponse hi hspared h
  · exact inv_stepInput hi hspared h
  · exact inv_join hi h
  · exact {
      phase := hi.phase
      unfailed := hi.unfailed
      drained := hi.drained
      terminated := hi.terminated
      watched := hi.watched
      stopped := hi.stopped
      room := hi.room
      supply := fun h => absurd (hflag.symm.trans h) (by simp)
      paused := hi.paused
      pausing := hi.pausing
      unlocked := hi.unlocked
      fed := hi.fed }
  · exact inv_throws hi hspared h
  · exact inv_cleanupThrows hi hspared h

end Steps

/-- In a run whose moves are all spared, the main thread waits for no thread in vain. -/
theorem never_wedged (default : Action) (moves : List Move) (s : State)
    (hspared : Meets step Spared (start default) moves)
    (hrun : run step (start default) moves = some s) : ¬Wedged s :=
  not_wedged (run_invariant (fun _ _ _ hi hspared h => inv_step hi hspared h) (inv_start default)
    hspared hrun)

/-- The response consumer fails while it reads; the others end, and the futures are read. -/
def endingMoves : List Move :=
  [.responseCheck, .throws .response, .find (.ofRestore [] []), .watcherPush, .pass, .pop, .send,
    .poll .none, .inputCheck, .join, .wake, .join, .join, .join]

theorem never_wedged_ending : ∃ s, run step (start (.ofRestore [] [])) endingMoves = some s ∧
    s.hasExceptionOccurred = true ∧ s.main.awaited = none ∧ ¬Wedged s := by
  refine ⟨_, rfl, rfl, rfl, never_wedged (.ofRestore [] []) endingMoves _ ?_ rfl⟩
  refine .cons trivial rfl ?_
  refine .cons (Or.inr (by decide)) rfl ?_
  refine .cons (fun _ => by decide) rfl ?_
  refine .cons trivial rfl (.cons trivial rfl (.cons trivial rfl (.cons trivial rfl ?_)))
  refine .cons trivial rfl (.cons (fun h => nomatch h) rfl ?_)
  exact .cons trivial rfl (.cons trivial rfl (.cons trivial rfl (.cons trivial rfl
    (.cons trivial rfl trivial))))

section Silence

variable {s s' : State} {m : Move}

/-- The response consumer waits for a byte, and an exception has occurred. -/
def Silent (s : State) : Prop :=
  s.hasExceptionOccurred = true ∧ s.response = .readIndex ∧ s.inbox = []

theorem silent_stepWatcher (hs : Silent s) (h : s.stepWatcher m = some s') : Silent s' := by
  unfold State.stepWatcher at h
  -- no branch touches the flag, the response consumer or what has arrived
  repeat' split at h
  all_goals first
    | (obtain rfl := Option.some.inj h
       exact hs)
    | (obtain ⟨r, -, rfl⟩ := Option.map_eq_some_iff.mp h
       exact hs)
    | cases h

theorem silent_stepConsumer (hs : Silent s) (h : s.stepConsumer m = some s') : Silent s' := by
  unfold State.stepConsumer at h
  -- no branch touches the flag, the response consumer or what has arrived
  repeat' split at h
  all_goals first
    | (obtain rfl := Option.some.inj h
       exact hs)
    | (obtain ⟨r, -, rfl⟩ := Option.map_eq_some_iff.mp h
       exact hs)
    | cases h

theorem silent_stepInput (hs : Silent s) (h : s.stepInput m = some s') : Silent s' := by
  unfold State.stepInput at h
  -- no branch touches the flag, the response consumer or what has arrived
  repeat' split at h
  all_goals first
    | (obtain rfl := Option.some.inj h
       exact hs)
    | (obtain ⟨r, -, rfl⟩ := Option.map_eq_some_iff.mp h
       exact hs)
    | cases h

theorem silent_join (hs : Silent s) (h : s.join = some s') : Silent s' := by
  unfold State.join at h
  split at h
  all_goals first
    | (obtain rfl := Option.some.inj h
       exact hs)
    | cases h

theorem stepResponse_of_silent (hs : Silent s) (m : Move) : s.stepResponse m = none := by
  obtain ⟨-, hresponse, hinbox⟩ := hs
  unfold State.stepResponse
  rw [hresponse, hinbox]
  cases m <;> rfl

theorem silent_step (hs : Silent s) (hcalm : m.Calm) (h : step s m = some s') : Silent s' := by
  rcases step_cases h with h | h | h | h | ⟨rfl, h⟩ | ⟨signal, rfl, hflag, rfl⟩ | ⟨party, rfl, h⟩ |
    ⟨rfl, h⟩
  · exact silent_stepWatcher hs h
  · exact silent_stepConsumer hs h
  · exact absurd ((stepResponse_of_silent hs m).symm.trans h) (by simp)
  · exact silent_stepInput hs h
  · exact silent_join hs h
  · exact absurd (hflag.symm.trans hs.1) (by simp)
  · exact hcalm.elim
  · exact hcalm.elim

/-- The response consumer gets no byte any more. -/
theorem stuck_of_silent (hs : Silent s) :
    Stuck step Move.Calm (fun m => m.owner = some .response) s := by
  refine stuck_of_invariant (I := Silent) (fun s m s' => silent_step) (fun s m hs howner hcalm => ?_) hs
  cases m with
  | cleanupThrows => exact hcalm.elim
  | throws party => exact hcalm.elim
  | responseCheck => exact stepResponse_of_silent hs .responseCheck
  | read => exact stepResponse_of_silent hs .read
  | handle => exact stepResponse_of_silent hs .handle
  | pause => exact stepResponse_of_silent hs .pause
  | restart => exact stepResponse_of_silent hs .restart
  | _ => cases howner

end Silence

/-- The action consumer fails while the response consumer reads. -/
def wedgingMoves : List Move :=
  [.responseCheck, .find (.ofRestore [] []), .watcherPush, .pop, .throws .consumer, .poll .none,
    .inputCheck, .join, .pass, .wake, .join, .join]

/-- The main thread, which has thrown, waits for the response consumer for ever. -/
theorem wedged_on_idle_server : ¬∀ (default : Action) (moves : List Move) (s : State),
    run step (start default) moves = some s → ¬Wedged s := by
  intro hnever
  refine hnever (.ofRestore [] []) wedgingMoves _ rfl ⟨.response, rfl, rfl, ?_⟩
  exact stuck_of_silent ⟨rfl, rfl, rfl⟩

end BackupManager.Client.Threads
