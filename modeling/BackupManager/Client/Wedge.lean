import BackupManager.Client.Threads

/-! When the main thread can wait for ever. -/
namespace BackupManager.Client.Threads
open Transition

/-- No exception. -/
def Move.Calm : Move → Prop
  | .throws _ => False
  | .cleanupThrows => False
  | _ => True

def WatcherAt.over : WatcherAt → Bool
  | .ended _ => true
  | _ => false

def ConsumerAt.over : ConsumerAt → Bool
  | .ended _ => true
  | _ => false

def ResponseAt.over : ResponseAt → Bool
  | .ended _ => true
  | _ => false

def InputAt.over : InputAt → Bool
  | .ended _ => true
  | _ => false

def State.over (s : State) : Party → Bool
  | .watcher => s.watcher.over
  | .consumer => s.consumer.over
  | .response => s.response.over
  | .input => s.input.over

/-- The thread that the main thread waits for. -/
def MainAt.awaited : MainAt → Option Party
  | .joinInput => some .input
  | .joinWatcher => some .watcher
  | .joinConsumer => some .consumer
  | .joinResponse => some .response
  | .unwindResponse _ _ => some .response
  | .unwindConsumer _ => some .consumer
  | .unwindWatcher => some .watcher
  | .closed => none

/-- The main thread waits for a thread that no calm moves, of whatever thread, let go on. -/
def Wedged (s : State) : Prop :=
  ∃ party, s.main.awaited = some party ∧ s.over party = false ∧
    Stuck step Move.Calm (fun m => m.owner = some party) s

def WatcherAt.pushes : WatcherAt → ℕ
  | .pushing _ _ => 1
  | _ => 0

def InputAt.pushes : InputAt → ℕ
  | .pushing _ => 1
  | _ => 0

def ConsumerAt.takes : ConsumerAt → ℕ
  | .popping => 1
  | _ => 0

/-- The threads that are in `push`. -/
def State.pushers (s : State) : ℕ := s.watcher.pushes + s.input.pushes

/-- How many items the buffer still takes once an exception has occurred: after one more item the
consumer ends. -/
def State.slots (s : State) : ℕ := maxSize - 1 - s.actions.length + s.consumer.takes

def Signal.blocks : Signal → ℕ
  | .restore blocks => blocks
  | _ => 0

/-- What the response consumer reads before it looks at `has_exception_occurred` has arrived. -/
def Supplied : ResponseAt → List Signal → Prop
  | .readIndex, _ :: signal :: inbox => signal.blocks ≤ inbox.length
  | .readIndex, _ => False
  | .readStatus, signal :: inbox => signal.blocks ≤ inbox.length
  | .readStatus, _ => False
  | .handling signal, inbox => signal.blocks ≤ inbox.length
  | .pausing blocks, inbox => blocks ≤ inbox.length
  | .restoring blocks, inbox => blocks ≤ inbox.length
  | _, _ => True

/-- The action consumer waits for an item. -/
def Starved : ConsumerAt → Buffer Action → Prop
  | .popping, actions => actions.length = 0
  | _, _ => False

def WatcherAt.waits : WatcherAt → Bool
  | .waiting => true
  | _ => false

/-- The watcher waits for no `restart` any more. -/
def State.pastWaiting (s : State) : Bool := s.watcher.over || (!s.running && !s.watcher.waits)

/-- The condition on a move. -/
def Spared (s : State) : Move → Prop
  | .find _ => s.hasExceptionOccurred = true → s.pushers < s.slots
  | .answer (some _) => s.hasExceptionOccurred = true → s.pushers < s.slots
  | .throws .watcher => s.pushers ≤ s.slots ∧ Supplied s.response s.inbox ∧
      (Starved s.consumer s.actions → s.input.over = false)
  | .throws .consumer => s.pushers ≤ s.slots ∧ Supplied s.response s.inbox
  | .throws .input => s.pushers ≤ s.slots ∧ Supplied s.response s.inbox ∧
      (Starved s.consumer s.actions → s.watcher.over = false)
  | .throws .response => (∃ blocks, s.response = .restoring blocks) ∨ s.pushers ≤ s.slots
  | .restart => s.response = .restarting false ∨ s.pushers ≤ s.slots
  | .cleanupThrows => s.pushers ≤ s.slots ∧ s.pastWaiting = true
  | .inputCheck => s.watcher = .ended true → ¬Starved s.consumer s.actions
  | .confirm true => s.watcher = .ended true → ¬Starved s.consumer s.actions
  | _ => True

/-- Where the main thread stands. -/
def Phase (s : State) : Prop :=
  match s.main with
  | .joinInput => s.running = true
  | .joinWatcher => s.input = .ended false
  | .joinConsumer => s.actions.isTerminated = true
  | .unwindResponse true true => s.input = .ended true ∧ s.running = true
  | .unwindResponse true false => s.input = .ended false ∧ s.watcher = .ended true
  | .unwindConsumer true => s.input = .ended true ∧ s.running = true ∧ s.response.over = true
  | .unwindConsumer false => s.input = .ended false ∧ s.watcher = .ended true
  | _ => True

structure Inv (s : State) : Prop where
  phase : Phase s
  unfailed : s.hasExceptionOccurred = false → s.consumer ≠ .ended true ∧ s.watcher ≠ .ended true
  drained : s.consumer = .quitting ∨ (s.consumer = .ended false ∧ s.hasExceptionOccurred = false) →
    s.actions.isTerminated = true
  terminated : s.actions.isTerminated = true → s.input = .ended false ∧ s.watcher = .ended false
  watched : s.watcher = .ended false → s.running = false
  stopped : s.running = false → s.input = .ended false
  room : s.hasExceptionOccurred = true → s.pushers ≤ s.slots
  supply : s.hasExceptionOccurred = true → Supplied s.response s.inbox
  paused : s.pauseExecution = true → (∃ blocks, s.response = .restoring blocks) ∨
    (∃ failed, s.response = .restarting failed) ∨ (s.response.over = true ∧ s.pastWaiting = true)
  pausing : ((∃ blocks, s.response = .restoring blocks) ∨ ∃ failed, s.response = .restarting failed) →
    s.pauseExecution = true
  unlocked : s.pauseExecution = true → s.watcher.locked = false
  fed : s.watcher = .ended true → Starved s.consumer s.actions → s.input.over = false

theorem inv_start (default : Action) : Inv (start default) := by
  constructor <;> simp [start, Phase, Buffer.empty, Starved]

section Waiting

variable {s : State} {own : Move → Prop}

theorem step_pop {item : Action} {actions : Buffer Action} (hc : s.consumer = .popping)
    (h : s.actions.pop = some (some item, actions)) :
    step s .pop = some { s with actions := actions, consumer := .sending item } := by
  simp [step, Move.owner, State.stepConsumer, hc, h]

theorem step_send {action : Action} (hc : s.consumer = .sending action)
    (h : s.hasExceptionOccurred = false) : step s .send = some { s with consumer := .popping } := by
  simp [step, Move.owner, State.stepConsumer, hc, h]

theorem pushers_of_terminated (hi : Inv s) (h : s.actions.isTerminated = true) : s.pushers = 0 := by
  obtain ⟨hinput, hwatcher⟩ := hi.terminated h
  rw [State.pushers, hinput, hwatcher]
  rfl

/-- The consumer takes an item from the full buffer. -/
theorem not_stuck_of_popping (hc : s.consumer = .popping) (hfull : ¬s.actions.length < maxSize - 1)
    (h : ∀ actions consumer, actions.length < maxSize - 1 →
      ¬Stuck step Move.Calm own { s with actions := actions, consumer := consumer }) :
    ¬Stuck step Move.Calm own s := by
  have hlt := s.actions.length_lt
  have hne : s.actions.length ≠ 0 := by
    unfold maxSize at *
    omega
  obtain ⟨item, actions, hitem⟩ := Buffer.exists_pop hne
  have hlength := (Buffer.pop_some hitem).1
  exact not_stuck_of_step _ (by trivial) (step_pop hc hitem) (h actions _ (by omega))

/-- Somebody pushes: the consumer makes room. -/
theorem not_stuck_of_room (hi : Inv s) (hpush : 0 < s.pushers)
    (h : ∀ actions consumer, actions.length < maxSize - 1 →
      ¬Stuck step Move.Calm own { s with actions := actions, consumer := consumer }) :
    ¬Stuck step Move.Calm own s := by
  by_cases hfull : s.actions.length < maxSize - 1
  · exact h s.actions s.consumer hfull
  have hnone : s.consumer.takes = 0 → s.hasExceptionOccurred = false := by
    intro htakes
    by_contra hflag
    have hroom := hi.room (by simpa using hflag)
    rw [State.slots, htakes] at hroom
    omega
  have hopen : s.actions.isTerminated ≠ true := by
    intro hterminated
    have hzero := pushers_of_terminated hi hterminated
    omega
  cases hc : s.consumer with
  | popping => exact not_stuck_of_popping hc hfull h
  | sending action =>
    have hflag := hnone (by rw [hc]; rfl)
    refine not_stuck_of_step _ (by trivial) (step_send hc hflag) ?_
    exact not_stuck_of_popping rfl hfull h
  | quitting => exact absurd (hi.drained (Or.inl hc)) hopen
  | ended failed =>
    have hflag := hnone (by rw [hc]; rfl)
    cases failed with
    | true => exact absurd hc (hi.unfailed hflag).1
    | false => exact absurd (hi.drained (Or.inr ⟨hc, hflag⟩)) hopen

theorem not_stuck_input (hi : Inv s) (hover : s.input.over = false) :
    ¬Stuck step Move.Calm (fun m => m.owner = some .input) s := by
  cases hinput : s.input with
  | polling =>
    exact not_stuck_of_enabled (e := .poll .none) rfl (by trivial)
      (by simp [step, Move.owner, State.stepInput, hinput])
  | asking =>
    exact not_stuck_of_enabled (e := .answer none) rfl (by trivial)
      (by simp [step, Move.owner, State.stepInput, hinput])
  | confirming =>
    exact not_stuck_of_enabled (e := .confirm false) rfl (by trivial)
      (by simp [step, Move.owner, State.stepInput, hinput])
  | check =>
    exact not_stuck_of_enabled (e := .inputCheck) rfl (by trivial)
      (by simp [step, Move.owner, State.stepInput, hinput])
  | ended failed =>
    rw [hinput] at hover
    exact absurd hover (by simp [InputAt.over])
  | pushing action =>
    have hpush : 0 < s.pushers := by
      rw [State.pushers, hinput, InputAt.pushes]
      omega
    apply not_stuck_of_room hi hpush
    intro actions consumer hroom
    obtain ⟨actions', hpushed⟩ := Buffer.exists_push hroom action
    exact not_stuck_of_enabled (e := .inputPush) rfl (by trivial)
      (by simp [step, Move.owner, State.stepInput, hinput, hpushed])

/-- The rest of a restore lets the watcher go on. -/
theorem not_stuck_of_restarting (hwatcher : s.watcher = .waiting) {failed : Bool}
    (hresponse : s.response = .restarting failed) :
    ¬Stuck step Move.Calm (fun m => m.owner = some .watcher) s := by
  cases failed with
  | false =>
    refine not_stuck_of_step (e := .restart) _ (by trivial)
      (by simp [step, Move.owner, State.stepResponse, hresponse, hwatcher, WatcherAt.locked]; rfl) ?_
    exact not_stuck_of_enabled (e := .resume) rfl (by trivial)
      (by simp [step, Move.owner, State.stepWatcher])
  | true =>
    refine not_stuck_of_step (e := .restart) _ (by trivial)
      (by simp [step, Move.owner, State.stepResponse, hresponse, hwatcher, WatcherAt.locked]; rfl) ?_
    exact not_stuck_of_enabled (e := .resume) rfl (by trivial)
      (by simp [step, Move.owner, State.stepWatcher])

theorem not_stuck_of_restoring (hwatcher : s.watcher = .waiting) {blocks : ℕ}
    (hresponse : s.response = .restoring blocks)
    (hsupply : s.hasExceptionOccurred = true → blocks ≤ s.inbox.length) :
    ¬Stuck step Move.Calm (fun m => m.owner = some .watcher) s := by
  induction blocks generalizing s with
  | zero =>
    refine not_stuck_of_step (e := .handle) { s with response := .restarting false } (by trivial)
      (by simp [step, Move.owner, State.stepResponse, hresponse]) ?_
    exact not_stuck_of_restarting hwatcher rfl
  | succ blocks ih =>
    have hread : ∀ t : State, t.watcher = .waiting → t.response = .restoring (blocks + 1) →
        ∀ signal inbox, t.inbox = signal :: inbox →
          (t.hasExceptionOccurred = true → blocks ≤ inbox.length) →
          ¬Stuck step Move.Calm (fun m => m.owner = some .watcher) t := by
      intro t hw hr signal inbox hinbox hleft
      refine not_stuck_of_step (e := .read)
        { t with inbox := inbox, response := .restoring blocks } (by trivial)
        (by simp [step, Move.owner, State.stepResponse, hr, hinbox]) ?_
      exact ih hw rfl hleft
    cases hinbox : s.inbox with
    | cons signal inbox =>
      apply hread s hwatcher hresponse signal inbox hinbox
      intro hflag
      have hle := hsupply hflag
      rw [hinbox, List.length_cons] at hle
      omega
    | nil =>
      have hflag : s.hasExceptionOccurred = false := by
        by_contra hflag
        have hle := hsupply (by simpa using hflag)
        rw [hinbox, List.length_nil] at hle
        omega
      -- until an exception occurs, the server is not silent
      refine not_stuck_of_step (e := .serve .other)
        { s with inbox := [.other] } (by trivial) (by simp [step, hflag, hinbox]) ?_
      refine hread { s with inbox := [.other] } hwatcher hresponse .other [] rfl fun hflag' => ?_
      exact absurd (hflag.symm.trans hflag') (by simp)

theorem not_stuck_watcher (hi : Inv s) (hover : s.watcher.over = false) :
    ¬Stuck step Move.Calm (fun m => m.owner = some .watcher) s := by
  cases hwatcher : s.watcher with
  | init =>
    exact not_stuck_of_enabled (e := .pass) rfl (by trivial)
      (by simp [step, Move.owner, State.stepWatcher, hwatcher])
  | loop =>
    exact not_stuck_of_enabled (e := .wake) rfl (by trivial)
      (by simp [step, Move.owner, State.stepWatcher, hwatcher])
  | scanning =>
    exact not_stuck_of_enabled (e := .pass) rfl (by trivial)
      (by simp [step, Move.owner, State.stepWatcher, hwatcher])
  | ended failed =>
    rw [hwatcher] at hover
    exact absurd hover (by simp [WatcherAt.over])
  | pushing scan action =>
    have hpush : 0 < s.pushers := by
      rw [State.pushers, hwatcher, WatcherAt.pushes]
      omega
    apply not_stuck_of_room hi hpush
    intro actions consumer hroom
    obtain ⟨actions', hpushed⟩ := Buffer.exists_push hroom action
    exact not_stuck_of_enabled (e := .watcherPush) rfl (by trivial)
      (by simp [step, Move.owner, State.stepWatcher, hwatcher, hpushed])
  | waiting =>
    cases hpaused : s.pauseExecution with
    | false =>
      exact not_stuck_of_enabled (e := .resume) rfl (by trivial)
        (by simp [step, Move.owner, State.stepWatcher, hwatcher, hpaused])
    | true =>
      rcases hi.paused hpaused with ⟨blocks, hresponse⟩ | ⟨failed, hresponse⟩ | ⟨-, hpast⟩
      · apply not_stuck_of_restoring hwatcher hresponse
        intro hflag
        have hsupply := hi.supply hflag
        rwa [hresponse] at hsupply
      · exact not_stuck_of_restarting hwatcher hresponse
      · exact absurd hpast (by simp [State.pastWaiting, hwatcher, WatcherAt.over, WatcherAt.waits])

/-- The response consumer waits for no byte once an exception has occurred. -/
theorem not_stuck_reading (hi : Inv s) (hreading : s.response = .readIndex ∨ s.response = .readStatus ∨
      ∃ blocks, s.response = .restoring (blocks + 1)) :
    ¬Stuck step Move.Calm (fun m => m.owner = some .response) s := by
  have hread : ∀ t : State, t.response = s.response → t.inbox ≠ [] →
      ¬Stuck step Move.Calm (fun m => m.owner = some .response) t := by
    intro t hresponse hinbox
    obtain ⟨signal, inbox, hinbox⟩ := List.exists_cons_of_ne_nil hinbox
    rw [← hresponse] at hreading
    refine not_stuck_of_enabled (e := .read) rfl (by trivial) ?_
    rcases hreading with h | h | ⟨blocks, h⟩ <;>
      simp [step, Move.owner, State.stepResponse, h, hinbox]
  by_cases hinbox : s.inbox = []
  · have hflag : s.hasExceptionOccurred = false := by
      by_contra hflag
      have hsupply := hi.supply (by simpa using hflag)
      rcases hreading with h | h | ⟨blocks, h⟩ <;> rw [h, hinbox] at hsupply <;> simp [Supplied] at hsupply
    refine not_stuck_of_step (e := .serve .other)
      { s with inbox := [.other] } (by trivial) (by simp [step, hflag, hinbox]) ?_
    exact hread { s with inbox := [.other] } rfl (by simp)
  · exact hread s rfl hinbox

/-- The watcher comes to the end of its pass, and lets the response consumer pause it. -/
theorem not_stuck_pausing (hi : Inv s) {blocks : ℕ} (hresponse : s.response = .pausing blocks) :
    ¬Stuck step Move.Calm (fun m => m.owner = some .response) s := by
  have hunlocked : ∀ t : State, t.response = s.response → t.watcher.locked = false →
      ¬Stuck step Move.Calm (fun m => m.owner = some .response) t := by
    intro t ht hlocked
    rw [hresponse] at ht
    exact not_stuck_of_enabled (e := .pause) rfl (by trivial)
      (by simp [step, Move.owner, State.stepResponse, ht, hlocked])
  have hscanning : ∀ t : State, t.response = s.response → t.watcher = .scanning →
      ¬Stuck step Move.Calm (fun m => m.owner = some .response) t := by
    intro t ht hwatcher
    refine not_stuck_of_step (e := .pass) { t with watcher := .loop } (by trivial)
      (by simp [step, Move.owner, State.stepWatcher, hwatcher]) ?_
    exact hunlocked { t with watcher := .loop } ht rfl
  cases hwatcher : s.watcher with
  | scanning => exact hscanning s rfl hwatcher
  | pushing scan action =>
    cases scan with
    | false => exact hunlocked s rfl (by rw [hwatcher]; rfl)
    | true =>
      have hpush : 0 < s.pushers := by
        rw [State.pushers, hwatcher, WatcherAt.pushes]
        omega
      apply not_stuck_of_room hi hpush
      intro actions consumer hroom
      obtain ⟨actions', hpushed⟩ := Buffer.exists_push hroom action
      refine not_stuck_of_step (e := .watcherPush)
        { s with actions := actions', consumer := consumer, watcher := .scanning } (by trivial)
        (by simp [step, Move.owner, State.stepWatcher, hwatcher, hpushed]) ?_
      exact hscanning { s with actions := actions', consumer := consumer, watcher := .scanning } rfl rfl
  | init => exact hunlocked s rfl (by rw [hwatcher]; rfl)
  | loop => exact hunlocked s rfl (by rw [hwatcher]; rfl)
  | waiting => exact hunlocked s rfl (by rw [hwatcher]; rfl)
  | ended failed => exact hunlocked s rfl (by rw [hwatcher]; rfl)

theorem not_stuck_response (hi : Inv s) (hover : s.response.over = false) :
    ¬Stuck step Move.Calm (fun m => m.owner = some .response) s := by
  cases hresponse : s.response with
  | check finish =>
    exact not_stuck_of_enabled (e := .responseCheck) rfl (by trivial)
      (by simp [step, Move.owner, State.stepResponse, hresponse])
  | readIndex => exact not_stuck_reading hi (Or.inl hresponse)
  | readStatus => exact not_stuck_reading hi (Or.inr (Or.inl hresponse))
  | handling signal =>
    refine not_stuck_of_enabled (e := .handle) rfl (by trivial) ?_
    cases signal <;> simp [step, Move.owner, State.stepResponse, hresponse]
  | pausing blocks => exact not_stuck_pausing hi hresponse
  | restoring blocks =>
    cases blocks with
    | zero =>
      exact not_stuck_of_enabled (e := .handle) rfl (by trivial)
        (by simp [step, Move.owner, State.stepResponse, hresponse])
    | succ blocks => exact not_stuck_reading hi (Or.inr (Or.inr ⟨blocks, hresponse⟩))
  | restarting failed =>
    have hunlocked := hi.unlocked (hi.pausing (Or.inr ⟨failed, hresponse⟩))
    refine not_stuck_of_enabled (e := .restart) rfl (by trivial) ?_
    cases failed <;> simp [step, Move.owner, State.stepResponse, hresponse, hunlocked]
  | ended failed =>
    rw [hresponse] at hover
    exact absurd hover (by simp [ResponseAt.over])

/-- The watcher finds a difference, and the consumer gets an item. -/
theorem not_stuck_popping (hconsumer : s.consumer = .popping) (hrunning : s.running = true)
    (hwatcher : s.watcher.over = false) (hpaused : s.pauseExecution = false)
    (hempty : s.actions.length = 0) :
    ¬Stuck step Move.Calm (fun m => m.owner = some .consumer) s := by
  have hpushing : ∀ t : State, t.consumer = .popping → t.actions.length = 0 →
      ∀ scan action, t.watcher = .pushing scan action →
      ¬Stuck step Move.Calm (fun m => m.owner = some .consumer) t := by
    intro t hc ht scan action hw
    obtain ⟨actions, hpushed⟩ := Buffer.exists_push (b := t.actions) (by rw [ht]; decide) action
    have hlength := Buffer.length_push hpushed
    obtain ⟨item, actions', hitem⟩ := Buffer.exists_pop (b := actions) (by omega)
    refine not_stuck_of_step (e := .watcherPush)
      { t with actions := actions, watcher := if scan then .scanning else .init } (by trivial)
      (by simp [step, Move.owner, State.stepWatcher, hw, hpushed]) ?_
    exact not_stuck_of_enabled (e := .pop) rfl (by trivial)
      (by simp [step, Move.owner, State.stepConsumer, hc, hitem])
  have hscanning : ∀ t : State, t.consumer = .popping → t.actions.length = 0 →
      t.watcher = .scanning → ¬Stuck step Move.Calm (fun m => m.owner = some .consumer) t := by
    intro t hc ht hw
    refine not_stuck_of_step (e := .find (.ofRestore [] []))
      { t with watcher := .pushing true (.ofRestore [] []) } (by trivial)
      (by simp [step, Move.owner, State.stepWatcher, hw]) ?_
    exact hpushing { t with watcher := .pushing true (.ofRestore [] []) } hc ht _ _ rfl
  have hwaiting : ∀ t : State, t.consumer = .popping → t.actions.length = 0 →
      t.pauseExecution = false → t.watcher = .waiting →
      ¬Stuck step Move.Calm (fun m => m.owner = some .consumer) t := by
    intro t hc ht hp hw
    refine not_stuck_of_step (e := .resume) { t with watcher := .scanning } (by trivial)
      (by simp [step, Move.owner, State.stepWatcher, hw, hp]) ?_
    exact hscanning { t with watcher := .scanning } hc ht rfl
  cases hw : s.watcher with
  | init =>
    refine not_stuck_of_step (e := .find (.ofRestore [] []))
      { s with watcher := .pushing false (.ofRestore [] []) } (by trivial)
      (by simp [step, Move.owner, State.stepWatcher, hw]) ?_
    exact hpushing { s with watcher := .pushing false (.ofRestore [] []) } hconsumer hempty _ _ rfl
  | loop =>
    refine not_stuck_of_step (e := .wake) { s with watcher := .waiting } (by trivial)
      (by simp [step, Move.owner, State.stepWatcher, hw, hrunning]) ?_
    exact hwaiting { s with watcher := .waiting } hconsumer hempty hpaused rfl
  | waiting => exact hwaiting s hconsumer hempty hpaused hw
  | scanning => exact hscanning s hconsumer hempty hw
  | pushing scan action => exact hpushing s hconsumer hempty scan action hw
  | ended failed =>
    rw [hw] at hwatcher
    exact absurd hwatcher (by simp [WatcherAt.over])

theorem not_stuck_consumer (hi : Inv s) (hmain : s.main.awaited = some .consumer)
    (hover : s.consumer.over = false) :
    ¬Stuck step Move.Calm (fun m => m.owner = some .consumer) s := by
  cases hconsumer : s.consumer with
  | sending action =>
    exact not_stuck_of_enabled (e := .send) rfl (by trivial)
      (by simp [step, Move.owner, State.stepConsumer, hconsumer])
  | quitting =>
    exact not_stuck_of_enabled (e := .sendQuit) rfl (by trivial)
      (by simp [step, Move.owner, State.stepConsumer, hconsumer])
  | ended failed =>
    rw [hconsumer] at hover
    exact absurd hover (by simp [ConsumerAt.over])
  | popping =>
    by_cases hempty : s.actions.length = 0
    swap
    · obtain ⟨item, actions, hitem⟩ := Buffer.exists_pop hempty
      exact not_stuck_of_enabled (e := .pop) rfl (by trivial)
        (by simp [step, Move.owner, State.stepConsumer, hconsumer, hitem])
    have hstarved : Starved s.consumer s.actions := by
      rw [hconsumer]
      exact hempty
    have hphase := hi.phase
    unfold Phase at hphase
    cases hat : s.main with
    | joinConsumer =>
      rw [hat] at hphase
      have hnothing := Buffer.pop_of_terminated hempty hphase
      exact not_stuck_of_enabled (e := .pop) rfl (by trivial)
        (by simp [step, Move.owner, State.stepConsumer, hconsumer, hnothing])
    | unwindConsumer watcher =>
      rw [hat] at hphase
      cases watcher with
      | true =>
        obtain ⟨hinput, hrunning, hresponse⟩ := hphase
        have hwatcher : s.watcher.over = false := by
          cases hw : s.watcher with
          | ended failed =>
            cases failed with
            | true =>
              have hfed := hi.fed hw hstarved
              rw [hinput] at hfed
              exact absurd hfed (by simp [InputAt.over])
            | false => exact absurd (hi.watched hw) (by simp [hrunning])
          | _ => rfl
        have hpaused : s.pauseExecution = false := by
          by_contra hpaused
          rcases hi.paused (by simpa using hpaused) with ⟨blocks, h⟩ | ⟨failed, h⟩ | ⟨-, h⟩
          · exact absurd hresponse (by simp [h, ResponseAt.over])
          · exact absurd hresponse (by simp [h, ResponseAt.over])
          · exact absurd h (by simp [State.pastWaiting, hwatcher, hrunning])
        exact not_stuck_popping hconsumer hrunning hwatcher hpaused hempty
      | false =>
        obtain ⟨hinput, hwatcher⟩ := hphase
        have hfed := hi.fed hwatcher hstarved
        rw [hinput] at hfed
        exact absurd hfed (by simp [InputAt.over])
    | _ =>
      rw [hat] at hmain
      exact absurd hmain (by simp [MainAt.awaited])

end Waiting
theorem not_wedged {s : State} (hi : Inv s) : ¬Wedged s := by
  rintro ⟨party, hawaited, hover, hstuck⟩
  cases party with
  | watcher => exact not_stuck_watcher hi hover hstuck
  | consumer => exact not_stuck_consumer hi hawaited hover hstuck
  | response => exact not_stuck_response hi hover hstuck
  | input => exact not_stuck_input hi hover hstuck

end BackupManager.Client.Threads
