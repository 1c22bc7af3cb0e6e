import BackupManager.Client.Buffer
import BackupManager.Transition.Waiting

/-! The threads of the client: the watcher, the action consumer, the response consumer and the input
watcher, and the main thread, which joins them and destroys their futures. A move is one wait with what
follows it. Writes to the socket do not wait. -/
namespace BackupManager.Client.Threads
open Transition

inductive Party where
  | watcher
  | consumer
  | response
  | input
  deriving DecidableEq, Repr

/-- Where `FileWatcher::start` stands; the scan holds the mutex of the watcher. -/
inductive WatcherAt where
  /-- In `init_status`. -/
  | init
  /-- At the head of the loop, or asleep. -/
  | loop
  /-- In `cv.wait`, until it is not paused. -/
  | waiting
  | scanning
  /-- In the callback: `actions.push`. -/
  | pushing (scan : Bool) (action : Action)
  | ended (failed : Bool)

inductive ConsumerAt where
  | popping
  | sending (action : Action)
  /-- The quit frame is written. -/
  | quitting
  | ended (failed : Bool)

/-- What a block of bytes says where the response consumer takes it for a status; a restore has so many
blocks of its own. -/
inductive Signal where
  | other
  | finish
  | restore (blocks : ℕ)

inductive ResponseAt where
  /-- At the head of the loop; `finish` is the last status. -/
  | check (finish : Bool)
  | readIndex
  | readStatus
  | handling (signal : Signal)
  /-- In `action_restore`, before `fileWatcher.pause()`. -/
  | pausing (blocks : ℕ)
  /-- So many blocks are still to be read. -/
  | restoring (blocks : ℕ)
  /-- Before `fileWatcher.restart()`; `failed` in the `catch`. -/
  | restarting (failed : Bool)
  | ended (failed : Bool)

inductive InputAt where
  /-- In `poll`. -/
  | polling
  /-- In the questions of `command_restore`. -/
  | asking
  /-- In the questions of `command_quit`. -/
  | confirming
  | pushing (action : Action)
  /-- At the end of the loop. -/
  | check
  | ended (failed : Bool)

/-- Where the constructor stands: `join_threads`, or the destruction of the futures after an exception,
in the reverse order of their declarations; a future that was read is not waited for. -/
inductive MainAt where
  | joinInput
  | joinWatcher
  | joinConsumer
  | joinResponse
  | unwindResponse (consumer watcher : Bool)
  | unwindConsumer (watcher : Bool)
  | unwindWatcher
  /-- The socket is closed. -/
  | closed

structure State where
  hasExceptionOccurred : Bool
  actions : Buffer Action
  pauseExecution : Bool
  running : Bool
  /-- The blocks that have arrived. -/
  inbox : List Signal
  watcher : WatcherAt
  consumer : ConsumerAt
  response : ResponseAt
  input : InputAt
  main : MainAt

/-- The threads have been started; nothing has arrived. -/
def start (default : Action) : State where
  hasExceptionOccurred := false
  actions := .empty default
  pauseExecution := false
  running := true
  inbox := []
  watcher := .init
  consumer := .popping
  response := .check false
  input := .polling
  main := .joinInput

/-- The command that was read, if a key was pressed. -/
inductive Command where
  | none
  | restore
  | quit

inductive Move where
  /-- The watcher comes upon a difference. -/
  | find (action : Action)
  | watcherPush
  /-- The watcher comes to the end of its pass. -/
  | pass
  | wake
  | resume
  | pop
  | send
  | sendQuit
  | responseCheck
  | read
  | handle
  | pause
  | restart
  | poll (command : Command)
  /-- The restore that the user asks for, if any. -/
  | answer (action : Option Action)
  | confirm (quit : Bool)
  | inputPush
  | inputCheck
  | join
  /-- The server sends, unless an exception has occurred. -/
  | serve (signal : Signal)
  /-- A thread throws. -/
  | throws (party : Party)
  /-- The clean-up of a failed restore throws. -/
  | cleanupThrows

/-- The watcher holds its mutex. -/
def WatcherAt.locked : WatcherAt → Bool
  | .scanning => true
  | .pushing scan _ => scan
  | _ => false

namespace State

def stepWatcher (s : State) : Move → Option State
  | .find action => match s.watcher with
    | .init => some { s with watcher := .pushing false action }
    | .scanning => some { s with watcher := .pushing true action }
    | _ => none
  | .watcherPush => match s.watcher with
    | .pushing scan action => (s.actions.push action).map fun actions => { s with
        actions := actions
        watcher := if scan then .scanning else .init }
    | _ => none
  | .pass => match s.watcher with
    | .init => some { s with watcher := .loop }
    | .scanning => some { s with watcher := .loop }
    | _ => none
  | .wake => match s.watcher with
    | .loop => some { s with watcher := if s.running then .waiting else .ended false }
    | _ => none
  | .resume => match s.watcher with
    | .waiting => if s.pauseExecution then none else some { s with watcher := .scanning }
    | _ => none
  | _ => none

def stepConsumer (s : State) : Move → Option State
  | .pop => match s.consumer with
    | .popping => s.actions.pop.map fun r => { s with
        actions := r.2
        consumer := match r.1 with
          | some action => .sending action
          | none => if s.hasExceptionOccurred then .ended false else .quitting }
    | _ => none
  | .send => match s.consumer with
    | .sending _ => some { s with
        consumer := if s.hasExceptionOccurred then .ended false else .popping }
    | _ => none
  | .sendQuit => match s.consumer with
    | .quitting => some { s with consumer := .ended false }
    | _ => none
  | _ => none

def stepResponse (s : State) : Move → Option State
  | .responseCheck => match s.response with
    | .check finish => some { s with
        response := if finish || s.hasExceptionOccurred then .ended false else .readIndex }
    | _ => none
  | .read => match s.inbox, s.response with
    | _ :: inbox, .readIndex => some { s with inbox := inbox, response := .readStatus }
    | signal :: inbox, .readStatus => some { s with inbox := inbox, response := .handling signal }
    | _ :: inbox, .restoring (blocks + 1) => some { s with
        inbox := inbox
        response := .restoring blocks }
    | _, _ => none
  | .handle => match s.response with
    | .handling .other => some { s with response := .check false }
    | .handling .finish => some { s with response := .check true }
    | .handling (.restore blocks) => some { s with response := .pausing blocks }
    | .restoring 0 => some { s with response := .restarting false }
    | _ => none
  | .pause => match s.response with
    | .pausing blocks => if s.watcher.locked then none else some { s with
        pauseExecution := true
        response := .restoring blocks }
    | _ => none
  | .restart => match s.response with
    | .restarting false => if s.watcher.locked then none else some { s with
        pauseExecution := false
        response := .check false }
    | .restarting true => if s.watcher.locked then none else some { s with
        pauseExecution := false
        hasExceptionOccurred := true
        response := .ended true }
    | _ => none
  | _ => none

def stepInput (s : State) : Move → Option State
  | .poll command => match s.input, command with
    | .polling, .none => some { s with input := .check }
    | .polling, .restore => some { s with input := .asking }
    | .polling, .quit => some { s with input := .confirming }
    | _, _ => none
  | .answer action => match s.input, action with
    | .asking, none => some { s with input := .check }
    | .asking, some action => some { s with input := .pushing action }
    | _, _ => none
  | .confirm quit => match s.input with
    | .confirming => some { s with input := if quit then .ended false else .check }
    | _ => none
  | .inputPush => match s.input with
    | .pushing action => (s.actions.push action).map fun actions => { s with
        actions := actions
        input := .check }
    | _ => none
  | .inputCheck => match s.input with
    | .check => some { s with
        input := if s.hasExceptionOccurred then .ended false else .polling }
    | _ => none
  | _ => none

/-- `get` of the future that is waited for, and what follows it. -/
def join (s : State) : Option State :=
  match s.main, s.watcher, s.consumer, s.response, s.input with
  | .joinInput, _, _, _, .ended false => some { s with running := false, main := .joinWatcher }
  | .joinInput, _, _, _, .ended true => some { s with main := .unwindResponse true true }
  | .joinWatcher, .ended false, _, _, _ => some { s with
      actions := s.actions.terminate
      main := .joinConsumer }
  | .joinWatcher, .ended true, _, _, _ => some { s with main := .unwindResponse true false }
  | .joinConsumer, _, .ended false, _, _ => some { s with main := .joinResponse }
  | .joinConsumer, _, .ended true, _, _ => some { s with main := .unwindResponse false false }
  | .joinResponse, _, _, .ended _, _ => some { s with main := .closed }
  | .unwindResponse true watcher, _, _, .ended _, _ => some { s with main := .unwindConsumer watcher }
  | .unwindResponse false _, _, _, .ended _, _ => some { s with main := .closed }
  | .unwindConsumer true, _, .ended _, _, _ => some { s with main := .unwindWatcher }
  | .unwindConsumer false, _, .ended _, _, _ => some { s with main := .closed }
  | .unwindWatcher, .ended _, _, _, _ => some { s with main := .closed }
  | _, _, _, _, _ => none

/-- The `catch` of a thread: `has_exception_occurred` is set, and it returns -1. A restore that fails
comes to its clean-up first. -/
def throws (s : State) : Party → Option State
  | .watcher => match s.watcher with
    | .init | .scanning => some { s with hasExceptionOccurred := true, watcher := .ended true }
    | _ => none
  | .consumer => match s.consumer with
    | .sending _ | .quitting => some { s with
        hasExceptionOccurred := true
        consumer := .ended true }
    | _ => none
  | .response => match s.response with
    | .readIndex | .readStatus | .handling _ => some { s with
        hasExceptionOccurred := true
        response := .ended true }
    | .restoring _ => some { s with response := .restarting true }
    | _ => none
  | .input => match s.input with
    | .polling | .asking | .confirming => some { s with
        hasExceptionOccurred := true
        input := .ended true }
    | _ => none

def cleanupThrows (s : State) : Option State :=
  match s.response with
  | .restarting true => some { s with hasExceptionOccurred := true, response := .ended true }
  | _ => none

end State

/-- The thread whose move it is. -/
def Move.owner : Move → Option Party
  | .find _ | .watcherPush | .pass | .wake | .resume => some .watcher
  | .pop | .send | .sendQuit => some .consumer
  | .responseCheck | .read | .handle | .pause | .restart | .cleanupThrows => some .response
  | .poll _ | .answer _ | .confirm _ | .inputPush | .inputCheck => some .input
  | .throws party => some party
  | .join | .serve _ => none

def step (s : State) (m : Move) : Option State :=
  match m with
  | .join => s.join
  | .serve signal =>
    if s.hasExceptionOccurred then none else some { s with inbox := s.inbox ++ [signal] }
  | .throws party => s.throws party
  | .cleanupThrows => s.cleanupThrows
  | m => match m.owner with
    | some .watcher => s.stepWatcher m
    | some .consumer => s.stepConsumer m
    | some .response => s.stepResponse m
    | some .input => s.stepInput m
    | none => none

end BackupManager.Client.Threads
