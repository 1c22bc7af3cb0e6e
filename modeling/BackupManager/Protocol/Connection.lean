import BackupManager.ByteStream.Extension
import BackupManager.Client.ActionRestore
import BackupManager.Protocol.RequestFrame
import BackupManager.Protocol.RestoreOutcome

/-! The threads of the client and the loop of the server, over the two channels of one socket.
The action consumer and the response consumer both write to the server; every write is one append,
and any thread may take the next step. -/
namespace BackupManager.Protocol
open ByteStream Client Server

/-- What the threads are started with. -/
structure Setup (φ : Type) where
  /-- `Action()`, which `std::map` puts at a missing index. -/
  default : Action
  mainPath : Bytes
  files : FileOps φ
  /-- What the variables of `action_restore` hold before they are assigned. -/
  locals : Locals
  pathNumber : ℤ
  backend : Backend

/-- What the action consumer does after the last write of an action. -/
inductive After where
  | loop
  | throws
  | ends
  deriving DecidableEq, Repr

/-- The action consumer: at `pop`, or with writes to make. The message is what its next write is
the frame of. -/
inductive Consumer where
  | popping
  | sending (message : Option Message) (writes : List Bytes) (after : After)
  | stopped
  deriving DecidableEq, Repr

/-- The response consumer: at the start of its loop, or in `action_restore` before and after the
write of the date. -/
inductive Responder where
  | reading
  | opening (date userPath : Bytes)
  | restoring (date userPath : Bytes)
  | stopped
  deriving DecidableEq, Repr

/-- The loop of the server: before a request, or between its first response and the next. -/
inductive Serving where
  | reading
  | serving (f : Frame)
  | stopped
  deriving DecidableEq, Repr

structure Connection (φ : Type) where
  /-- The items of `Buffer`, the oldest first. -/
  actions : List Action
  isTerminated : Bool
  responses : ResponseBuffer
  hasExceptionOccurred : Bool
  consumer : Consumer
  responder : Responder
  /-- The variables of the response consumer. -/
  index : ℤ
  actionStatus : ℤ
  client : Session (Restoring φ)
  serving : Serving
  server : Session (List Effect)
  /-- Every message whose frame has been written, in order. -/
  frames : List Message
  /-- Every date block that has been written, with the index of its restore. -/
  dates : List (ℤ × Bytes)

/-- A step of one of the threads. -/
inductive Event where
  /-- The file watcher, or `command_restore`, puts an action in the buffer. -/
  | pushPath (isDirectory : Bool) (path : Bytes) (fileStatus : FileStatus)
  | pushRestore (date userPath : Bytes)
  /-- The user quits. -/
  | terminate
  /-- Another thread fails. -/
  | fail
  /-- The action consumer pops, writes, or goes on after its last write. -/
  | pop (disk : Disk)
  | write
  | loop
  /-- The response consumer reads a response, writes the date, or finishes `action_restore`. -/
  | respond (isDirectory : Bytes → Bool)
  | writeDate
  | restore
  /-- The server reads and acknowledges a frame, or executes it. -/
  | readFrame
  | serve

/-- `MAX_SIZE`; the buffer holds one item less. -/
def maxSize : ℕ := 50

variable {φ : Type}

namespace Connection

/-- `Buffer::push`, which waits while the buffer is full. -/
def push (s : Connection φ) (action : Action) : Option (Connection φ) :=
  if s.actions.length + 1 < maxSize then some { s with actions := s.actions ++ [action] } else none

def pop (u : Setup φ) (disk : Disk) (s : Connection φ) : Option (Connection φ) :=
  match s.consumer, s.actions with
  | .popping, action :: rest =>
    let sent := sendAction u.default u.mainPath s.responses disk action
    let message := describe u.mainPath disk action s.responses.currentIndex
    some { s with
      actions := rest
      responses := sent.responses
      consumer := .sending message.toOption sent.writes
        (if sent.thrown = none then .loop else .throws) }
  | .popping, [] =>
    if ¬s.isTerminated then none
    else if s.hasExceptionOccurred then some { s with consumer := .stopped }
    else some { s with consumer := .sending (some quitMessage) [quitMessage.bytes] .ends }
  | _, _ => none

/-- The next `boost::asio::write` of the action consumer. -/
def write (s : Connection φ) : Option (Connection φ) :=
  match s.consumer with
  | .sending message (bytes :: writes) after =>
    some { s with
      server := s.server.extend bytes
      frames := s.frames ++ message.toList
      consumer := .sending none writes after }
  | _ => none

/-- The end of one round of the action consumer. -/
def loop (s : Connection φ) : Option (Connection φ) :=
  match s.consumer with
  | .sending _ [] .loop =>
    some { s with consumer := if s.hasExceptionOccurred then .stopped else .popping }
  | .sending _ [] .throws => some { s with hasExceptionOccurred := true, consumer := .stopped }
  | .sending _ [] .ends => some { s with consumer := .stopped }
  | _ => none

end Connection

/-- The first lines of the loop of the response consumer. -/
def readResponse (index actionStatus : ℤ) : Restorer φ (ℤ × ℤ) := do
  let index ← Prog.recvInt intMaxNDigit index
  let actionStatus ← Prog.recvInt intMaxNDigit actionStatus
  pure (index, actionStatus)

/-- The `switch` of the response consumer. -/
def signalled (default : Action) (responses : ResponseBuffer) (index actionStatus : ℤ) :
    ResponseBuffer :=
  if actionStatus = ActionStatus.completed.code then responses.completed index
  else if actionStatus = ActionStatus.received.code then responses.receive default index
  else if actionStatus = ActionStatus.error.code then responses.signalError default index
  else responses

namespace Connection

/-- The end of one round of the response consumer. -/
def settle (u : Setup φ) (s : Connection φ) : Connection φ :=
  { s with
    responses := signalled u.default s.responses s.index s.actionStatus
    responder := if s.actionStatus = ActionStatus.finish.code ∨ s.hasExceptionOccurred then .stopped
      else .reading }

/-- The response consumer leaves its loop through the `catch` block. -/
def failResponder (s : Connection φ) (client : Session (Restoring φ)) : Connection φ :=
  { s with client := client, hasExceptionOccurred := true, responder := .stopped }

def respond (u : Setup φ) (isDirectory : Bytes → Bool) (s : Connection φ) :
    Option (Connection φ) :=
  match s.responder with
  | .reading =>
    match readResponse s.index s.actionStatus s.client with
    | (.returns r, client) =>
      let s := { s with client := client, index := r.1, actionStatus := r.2 }
      match s.responses.getAction isDirectory s.index with
      | some a =>
        if a.actionType = .restore ∧ s.actionStatus = ActionStatus.received.code then
          some { s with responder := .opening a.restoreDate a.restorePath }
        else some (s.settle u)
      | none => some (s.settle u)
    | (.throws _, client) => some (s.failResponder client)
    | (.waits, _) => none
  | _ => none

/-- The write with which `action_restore` starts. -/
def writeDate (s : Connection φ) : Option (Connection φ) :=
  match s.responder with
  | .opening date userPath =>
    some { s with
      server := s.server.extend (dateBlock date)
      dates := s.dates ++ [(s.index, date)]
      responder := .restoring date userPath }
  | _ => none

/-- The run of `action_restore`; what it writes stands on the channel since `writeDate`. -/
def restore (u : Setup φ) (s : Connection φ) : Option (Connection φ) :=
  match s.responder with
  | .restoring date userPath =>
    match Client.actionRestore u.files u.locals u.pathNumber date userPath s.client with
    | (.returns _, client) => some ({ s with client := client }.settle u)
    | (.throws _, client) => some (s.failResponder client)
    | (.waits, _) => none
  | _ => none

/-- The server after a part of its loop, whose effects are sent to the client. -/
def answer (s : Connection φ) (server : Session (List Effect)) (serving : Serving) :
    Connection φ :=
  { s with
    client := s.client.extend
      ((server.world.drop s.server.world.length).flatMap Effect.bytes)
    server := server
    serving := serving }

end Connection

/-- The part of `read_action` up to its first response. -/
def receiveFrame (b : Backend) : Handler Frame := do
  let f ← Server.readFrame b
  acknowledge f
  pure f

namespace Connection

def readFrame (u : Setup φ) (s : Connection φ) : Option (Connection φ) :=
  match s.serving with
  | .reading =>
    match receiveFrame u.backend s.server with
    | (.returns f, server) => some (s.answer server (.serving f))
    | (.throws _, server) => some (s.answer server .stopped)
    | (.waits, _) => none
  | _ => none

def serve (u : Setup φ) (s : Connection φ) : Option (Connection φ) :=
  match s.serving with
  | .serving f =>
    match dispatch u.backend f s.server with
    | (.returns more, server) => some (s.answer server (if more then .reading else .stopped))
    | (.throws _, server) => some (s.answer server .stopped)
    | (.waits, _) => none
  | _ => none

/-- What the event does, if it is enabled. The file watcher pushes paths below the main path, and
a date of `command_restore` is one word. -/
def step (u : Setup φ) (s : Connection φ) : Event → Option (Connection φ)
  | .pushPath isDirectory path fileStatus =>
    if u.mainPath.isPrefixOf path then s.push (.ofStatus isDirectory path fileStatus .created)
    else none
  | .pushRestore date userPath => if IsWord date then s.push (.ofRestore date userPath) else none
  | .terminate => some { s with isTerminated := true }
  | .fail => some { s with hasExceptionOccurred := true }
  | .pop disk => s.pop u disk
  | .write => s.write
  | .loop => s.loop
  | .respond isDirectory => s.respond u isDirectory
  | .writeDate => s.writeDate
  | .restore => s.restore u
  | .readFrame => s.readFrame u
  | .serve => s.serve u

/-- The restores whose frame has been written and whose date has not. -/
def openDialogues (s : Connection φ) : List Message :=
  (s.frames.filter fun m => m.actionType = .restore).drop s.dates.length

/-- The threads have been started; the login left blanks at most in the streams. -/
structure Starts (s : Connection φ) : Prop where
  actions : s.actions = []
  responses : s.responses = .empty
  consumer : s.consumer = .popping
  responder : s.responder = .reading
  client : s.client.wire = [] ∧ s.client.closed = false ∧
    ∃ residue, Blank residue ∧ s.client.stream = .fresh residue
  serving : s.serving = .reading
  server : s.server.wire = [] ∧ s.server.closed = false ∧ s.server.world = [] ∧
    ∃ residue, Blank residue ∧ s.server.stream = .fresh residue
  frames : s.frames = []
  dates : s.dates = []

end Connection

/-- The frames that `read_action` has parsed. -/
def parsedFrames (trace : List Effect) : List Frame :=
  trace.filterMap fun e => match e with
    | .parsed f => some f
    | _ => none

/-- The length and the date that `action_restore` of the server has read for each restore, under
the index of the last frame. -/
def parsedDates : ℤ → List Effect → List (ℤ × ℤ × Bytes)
  | _, [] => []
  | _, .parsed f :: rest => parsedDates f.index rest
  | index, .parsedDate length date :: rest => (index, length, date) :: parsedDates index rest
  | index, _ :: rest => parsedDates index rest

/-- What the server should read from a date block. -/
def dateRead (d : ℤ × Bytes) : ℤ × ℤ × Bytes := (d.1, d.2.length, d.2)

/-- The frames and the dates that the server has read are, in order, those that were written. -/
structure Connection.Integral (s : Connection φ) : Prop where
  frames : parsedFrames s.server.world <+: s.frames.map frameOf
  dates : parsedDates 0 s.server.world <+: s.dates.map dateRead

end BackupManager.Protocol
