import BackupManager.Client.Wedge

/-! What the changes of one thread keep of the invariant. -/
namespace BackupManager.Client.Threads
open Transition

theorem ne_ended_of_over {w : WatcherAt} (h : w.over = false) (failed : Bool) : w ≠ .ended failed := by
  rintro rfl
  exact absurd h (by simp [WatcherAt.over])

section Watcher

variable {s s' : State} {m : Move}

/-- The watcher moves, and has not ended. -/
theorem Inv.moveWatcher (hi : Inv s) (hw : s.watcher.over = false) {w : WatcherAt}
    (hw' : w.over = false)
    (hroom : s.hasExceptionOccurred = true → w.pushes + s.input.pushes ≤ s.slots)
    (hlocked : s.pauseExecution = true → w.locked = false)
    (hwaits : s.running = false → w.waits = false) : Inv { s with watcher := w } where
  phase := by
    have hphase := hi.phase
    have hne := ne_ended_of_over hw
    unfold Phase at hphase ⊢
    dsimp only
    split <;> simp_all
  unfailed := fun h => ⟨(hi.unfailed h).1, ne_ended_of_over hw' true⟩
  drained := hi.drained
  terminated := fun h => absurd (hi.terminated h).2 (ne_ended_of_over hw false)
  watched := fun h => absurd h (ne_ended_of_over hw' false)
  stopped := hi.stopped
  room := hroom
  supply := hi.supply
  paused := by
    intro h
    rcases hi.paused h with h | h | ⟨hover, h⟩
    · exact Or.inl h
    · exact Or.inr (Or.inl h)
    · rw [State.pastWaiting, hw] at h
      have hstopped : s.running = false := by
        by_contra hrunning
        simp [hrunning] at h
      right; right
      exact ⟨hover, by simp [State.pastWaiting, hstopped, hwaits hstopped]⟩
  pausing := hi.pausing
  unlocked := hlocked
  fed := fun h => absurd h (ne_ended_of_over hw' true)

/-- The watcher ends because it was stopped. -/
theorem Inv.endWatcher (hi : Inv s) (hw : s.watcher.over = false) (hstopped : s.running = false) :
    Inv { s with watcher := .ended false } where
  phase := by
    have hphase := hi.phase
    have hne := ne_ended_of_over hw
    unfold Phase at hphase ⊢
    dsimp only
    split <;> simp_all
  unfailed := fun h => ⟨(hi.unfailed h).1, by simp⟩
  drained := hi.drained
  terminated := fun h => ⟨(hi.terminated h).1, rfl⟩
  watched := fun _ => hstopped
  stopped := hi.stopped
  room := by
    intro h
    have hroom := hi.room h
    unfold State.pushers State.slots at hroom ⊢
    simp only [WatcherAt.pushes]
    omega
  supply := hi.supply
  paused := by
    intro h
    rcases hi.paused h with h | h | ⟨h, -⟩
    · exact Or.inl h
    · exact Or.inr (Or.inl h)
    · exact Or.inr (Or.inr ⟨h, rfl⟩)
  pausing := hi.pausing
  unlocked := fun _ => rfl
  fed := fun h => absurd h (by simp)

theorem Inv.failWatcher (hi : Inv s) (hw : s.watcher.over = false)
    (hspared : Spared s (.throws .watcher)) :
    Inv { s with hasExceptionOccurred := true, watcher := .ended true } where
  phase := by
    have hphase := hi.phase
    have hne := ne_ended_of_over hw
    unfold Phase at hphase ⊢
    dsimp only
    split <;> simp_all
  unfailed := fun h => absurd h (by simp)
  drained := by
    rintro (h | ⟨-, h⟩)
    · exact hi.drained (Or.inl h)
    · exact absurd h (by simp)
  terminated := fun h => absurd (hi.terminated h).2 (ne_ended_of_over hw false)
  watched := fun h => absurd h (by simp)
  stopped := hi.stopped
  room := by
    intro _
    have hroom := hspared.1
    unfold State.pushers State.slots at hroom ⊢
    simp only [WatcherAt.pushes]
    omega
  supply := fun _ => hspared.2.1
  paused := by
    intro h
    rcases hi.paused h with h | h | ⟨h, -⟩
    · exact Or.inl h
    · exact Or.inr (Or.inl h)
    · exact Or.inr (Or.inr ⟨h, rfl⟩)
  pausing := hi.pausing
  unlocked := fun _ => rfl
  fed := fun _ => hspared.2.2

/-- The buffer changes, and is not terminated by that. -/
theorem Inv.setActions (hi : Inv s) {actions : Buffer Action}
    (hterminated : actions.isTerminated = s.actions.isTerminated)
    (hroom : s.hasExceptionOccurred = true →
      s.pushers ≤ maxSize - 1 - actions.length + s.consumer.takes)
    (hfed : Starved s.consumer actions → Starved s.consumer s.actions) :
    Inv { s with actions := actions } where
  phase := by
    have hphase := hi.phase
    unfold Phase at hphase ⊢
    dsimp only
    rwa [hterminated]
  unfailed := hi.unfailed
  drained := by
    dsimp only
    rw [hterminated]
    exact hi.drained
  terminated := by
    dsimp only
    rw [hterminated]
    exact hi.terminated
  watched := hi.watched
  stopped := hi.stopped
  room := hroom
  supply := hi.supply
  paused := hi.paused
  pausing := hi.pausing
  unlocked := hi.unlocked
  fed := fun hw hs => hi.fed hw (hfed hs)

/-- After a push the consumer is not starved. -/
theorem not_starved_push {actions actions' : Buffer Action} {item : Action} {c : ConsumerAt}
    (h : actions.push item = some actions') : ¬Starved c actions' := by
  have hlength := Buffer.length_push h
  cases c with
  | popping =>
    unfold Starved
    omega
  | _ => exact id

end Watcher

section Input

variable {s : State}

theorem ne_ended_of_over_input {i : InputAt} (h : i.over = false) (failed : Bool) :
    i ≠ .ended failed := by
  rintro rfl
  exact absurd h (by simp [InputAt.over])

/-- The input watcher moves, and has not ended. -/
theorem Inv.moveInput (hi : Inv s) (hinput : s.input.over = false) {i : InputAt} (hover : i.over = false)
    (hroom : s.hasExceptionOccurred = true → s.watcher.pushes + i.pushes ≤ s.slots) :
    Inv { s with input := i } where
  phase := by
    have hphase := hi.phase
    have hne := ne_ended_of_over_input hinput
    unfold Phase at hphase ⊢
    dsimp only
    split <;> simp_all
  unfailed := hi.unfailed
  drained := hi.drained
  terminated := fun h => absurd (hi.terminated h).1 (ne_ended_of_over_input hinput false)
  watched := hi.watched
  stopped := fun h => absurd (hi.stopped h) (ne_ended_of_over_input hinput false)
  room := hroom
  supply := hi.supply
  paused := hi.paused
  pausing := hi.pausing
  unlocked := hi.unlocked
  fed := fun _ _ => hover

/-- The input watcher ends, and leaves no consumer starved. -/
theorem Inv.endInput (hi : Inv s) (hinput : s.input.over = false)
    (hfed : s.watcher = .ended true → ¬Starved s.consumer s.actions) :
    Inv { s with input := .ended false } where
  phase := by
    have hphase := hi.phase
    have hne := ne_ended_of_over_input hinput
    unfold Phase at hphase ⊢
    dsimp only
    split <;> simp_all
  unfailed := hi.unfailed
  drained := hi.drained
  terminated := fun h => absurd (hi.terminated h).1 (ne_ended_of_over_input hinput false)
  watched := hi.watched
  stopped := fun _ => rfl
  room := by
    intro h
    have hroom := hi.room h
    unfold State.pushers State.slots at hroom ⊢
    simp only [InputAt.pushes]
    omega
  supply := hi.supply
  paused := hi.paused
  pausing := hi.pausing
  unlocked := hi.unlocked
  fed := fun hw hs => absurd hs (hfed hw)

theorem Inv.failInput (hi : Inv s) (hinput : s.input.over = false)
    (hspared : Spared s (.throws .input)) :
    Inv { s with hasExceptionOccurred := true, input := .ended true } where
  phase := by
    have hphase := hi.phase
    have hne := ne_ended_of_over_input hinput
    unfold Phase at hphase ⊢
    dsimp only
    split <;> simp_all
  unfailed := fun h => absurd h (by simp)
  drained := by
    rintro (h | ⟨-, h⟩)
    · exact hi.drained (Or.inl h)
    · exact absurd h (by simp)
  terminated := fun h => absurd (hi.terminated h).1 (ne_ended_of_over_input hinput false)
  watched := hi.watched
  stopped := fun h => absurd (hi.stopped h) (ne_ended_of_over_input hinput false)
  room := by
    intro _
    have hroom := hspared.1
    unfold State.pushers State.slots at hroom ⊢
    simp only [InputAt.pushes]
    omega
  supply := fun _ => hspared.2.1
  paused := hi.paused
  pausing := hi.pausing
  unlocked := hi.unlocked
  fed := by
    intro hw hs
    have hover := hspared.2.2 hs
    dsimp only at hw
    rw [hw] at hover
    exact absurd hover (by simp [WatcherAt.over])

end Input

section Consumer

variable {s : State}

/-- The action consumer goes on without an exception, with what is then in the buffer. -/
theorem Inv.setConsumer (hi : Inv s) {actions : Buffer Action} {c : ConsumerAt}
    (hterminated : actions.isTerminated = s.actions.isTerminated) (hc : c ≠ .ended true)
    (hdrained : c = .quitting ∨ (c = .ended false ∧ s.hasExceptionOccurred = false) →
      s.actions.isTerminated = true)
    (hroom : s.hasExceptionOccurred = true → s.pushers ≤ maxSize - 1 - actions.length + c.takes)
    (hfed : s.watcher = .ended true → Starved c actions → s.input.over = false) :
    Inv { s with actions := actions, consumer := c } where
  phase := by
    have hphase := hi.phase
    unfold Phase at hphase ⊢
    dsimp only
    rwa [hterminated]
  unfailed := fun h => ⟨hc, (hi.unfailed h).2⟩
  drained := by
    dsimp only
    rw [hterminated]
    exact hdrained
  terminated := by
    dsimp only
    rw [hterminated]
    exact hi.terminated
  watched := hi.watched
  stopped := hi.stopped
  room := hroom
  supply := hi.supply
  paused := hi.paused
  pausing := hi.pausing
  unlocked := hi.unlocked
  fed := hfed

theorem Inv.failConsumer (hi : Inv s) (htakes : s.consumer.takes = 0)
    (hspared : Spared s (.throws .consumer)) :
    Inv { s with hasExceptionOccurred := true, consumer := .ended true } where
  phase := hi.phase
  unfailed := fun h => absurd h (by simp)
  drained := by
    rintro (h | ⟨h, -⟩)
    · exact absurd h (by simp)
    · exact absurd h (by simp)
  terminated := hi.terminated
  watched := hi.watched
  stopped := hi.stopped
  room := by
    intro _
    have hroom := hspared.1
    rw [State.slots, htakes] at hroom
    exact hroom
  supply := fun _ => hspared.2
  paused := hi.paused
  pausing := hi.pausing
  unlocked := hi.unlocked
  fed := fun _ hs => hs.elim

end Consumer

section Response

variable {s : State}

theorem Inv.unpaused (hi : Inv s) (hover : s.response.over = false)
    (hrestoring : ∀ blocks, s.response ≠ .restoring blocks)
    (hrestarting : ∀ failed, s.response ≠ .restarting failed) : s.pauseExecution = false := by
  by_contra hpaused
  rcases hi.paused (by simpa using hpaused) with ⟨blocks, h⟩ | ⟨failed, h⟩ | ⟨h, -⟩
  · exact hrestoring blocks h
  · exact hrestarting failed h
  · exact absurd h (by simp [hover])

/-- The response consumer goes on without an exception. -/
theorem Inv.setResponse (hi : Inv s) (hover : s.response.over = false) (p : Bool) (r : ResponseAt)
    (inbox : List Signal) (hsupply : s.hasExceptionOccurred = true → Supplied r inbox)
    (hpaused : p = true ↔ (∃ blocks, r = .restoring blocks) ∨ ∃ failed, r = .restarting failed)
    (hunlocked : p = true → s.watcher.locked = false) :
    Inv { s with pauseExecution := p, response := r, inbox := inbox } where
  phase := by
    have hphase := hi.phase
    unfold Phase at hphase ⊢
    dsimp only
    split <;> simp_all
  unfailed := hi.unfailed
  drained := hi.drained
  terminated := hi.terminated
  watched := hi.watched
  stopped := hi.stopped
  room := hi.room
  supply := hsupply
  paused := by
    intro h
    rcases hpaused.mp h with h | h
    · exact Or.inl h
    · exact Or.inr (Or.inl h)
  pausing := hpaused.mpr
  unlocked := hunlocked
  fed := hi.fed

/-- The response consumer ends with an exception; where it leaves the watcher paused, that has ended. -/
theorem Inv.failResponse (hi : Inv s) (hover : s.response.over = false) {p : Bool}
    (hp : p = true → s.pauseExecution = true ∧ s.pastWaiting = true) (hroom : s.pushers ≤ s.slots) :
    Inv { s with pauseExecution := p, hasExceptionOccurred := true, response := .ended true } where
  phase := by
    have hphase := hi.phase
    unfold Phase at hphase ⊢
    dsimp only
    split <;> simp_all
  unfailed := fun h => absurd h (by simp)
  drained := by
    rintro (h | ⟨-, h⟩)
    · exact hi.drained (Or.inl h)
    · exact absurd h (by simp)
  terminated := hi.terminated
  watched := hi.watched
  stopped := hi.stopped
  room := fun _ => hroom
  supply := fun _ => trivial
  paused := fun h => Or.inr (Or.inr ⟨rfl, (hp h).2⟩)
  pausing := by
    rintro (⟨blocks, h⟩ | ⟨failed, h⟩)
    · exact absurd h (by simp)
    · exact absurd h (by simp)
  unlocked := fun h => hi.unlocked (hp h).1
  fed := hi.fed

end Response

end BackupManager.Client.Threads
