import BackupManager.Client.FileWatcher
import BackupManager.Transition.Run

/-! The watcher and the action consumer step by step, while files are rewritten. A step is one
look at a file, one action pushed, or one action sent; no file is created or removed. -/
namespace BackupManager.Client
open ByteStream Protocol Table

/-- A regular file at one moment. -/
structure Version where
  content : Bytes
  lastWriteTime : ℤ
  deriving DecidableEq, Repr

/-- Where the watcher thread stands; `todo` is what its iterator has still to deliver. -/
inductive Stage where
  | init (todo : List Bytes)
  /-- The hash of a known file is computed. -/
  | hashed (p digest : Bytes) (todo : List Bytes)
  /-- Its time is in `paths_`; the hashes are about to be compared. -/
  | timed (p digest : Bytes) (todo : List Bytes)
  /-- The action on the file, if any, is pushed; its time is about to be read. -/
  | pushed (p : Bytes) (todo : List Bytes)
  /-- What is left in `initial_status`. -/
  | leftover (todo : List Bytes)
  | idle
  | scan (todo : List Bytes)
  /-- The time of the file is read. -/
  | sampled (p : Bytes) (time : ℤ) (todo : List Bytes)
  deriving DecidableEq, Repr

structure Backup where
  files : Bytes → Version
  /-- The times that a file has had. -/
  times : Bytes → List ℤ
  stage : Stage
  /-- The maps of the watcher, and the actions buffer. -/
  watching : Watching
  /-- What is on its way to the server: new contents and deletions. -/
  sent : List (Bytes × Option Bytes)
  server : Bytes → Option Bytes
  /-- No file was rewritten since the last pass began. -/
  quiet : Bool
  /-- A whole pass was made since a file was rewritten. -/
  scanned : Bool

inductive Event where
  /-- The environment rewrites a file. -/
  | rewrite (p content : Bytes) (time : ℤ)
  /-- The next step of the watcher thread, where it has no choice. -/
  | watch
  /-- `init_status` turns to the paths that only the server knows. -/
  | leftover (order : List Bytes)
  /-- A pass begins; every path of `paths_` exists, so its first loop does nothing. -/
  | beginScan (order : List Bytes)
  /-- The action consumer pops an action and sends what the file holds. -/
  | send
  /-- The server stores what arrived first. -/
  | store
  deriving DecidableEq, Repr

namespace Backup

def lastWriteTime (s : Backup) (p : Bytes) : ℤ := (s.files p).lastWriteTime

/-- The comparison and the push of `init_status` for a known file. -/
def compare (w : Watching) (p digest : Bytes) : Watching :=
  let w := if w.initialStatus p ≠ some digest then w.push false p .modified else w
  { w with initialStatus := Function.update w.initialStatus p none }

def watch (hash : Bytes → Bytes) (s : Backup) : Option Backup :=
  match s.stage with
  | .init [] => none
  | .init (p :: todo) =>
    match s.watching.initialStatus p with
    | some _ => some { s with stage := .hashed p (hash (s.files p).content) todo }
    | none => some { s with
        watching := s.watching.push false p .created
        stage := .pushed p todo }
  | .hashed p digest todo => some { s with
      watching := s.watching.setPath p (s.lastWriteTime p)
      stage := .timed p digest todo }
  | .timed p digest todo => some { s with
      watching := compare s.watching p digest
      stage := .pushed p todo }
  | .pushed p todo => some { s with
      watching := s.watching.setPath p (s.lastWriteTime p)
      stage := .init todo }
  | .leftover [] => some { s with stage := .idle }
  | .leftover (p :: todo) => some { s with
      watching := s.watching.push false p .erased
      stage := .leftover todo }
  | .idle => none
  | .scan [] => some { s with
      stage := .idle
      scanned := s.scanned || s.quiet }
  | .scan (p :: todo) => some { s with stage := .sampled p (s.lastWriteTime p) todo }
  | .sampled p time todo => some { s with
      watching := s.watching.scanFile (p, ⟨time, some (s.files p).content⟩)
      stage := .scan todo }

/-- What `send_action` puts on the channel for an action. -/
def message (s : Backup) (action : Action) : List (Bytes × Option Bytes) :=
  match action.actionType with
  | .readFile => [(action.path, some (s.files action.path).content)]
  | .deletePath => [(action.path, none)]
  | _ => []

def step (hash : Bytes → Bytes) (names : List Bytes) (s : Backup) : Event → Option Backup
  | .rewrite p content time =>
    if time ∈ s.times p then none
    else some { s with
      files := Function.update s.files p ⟨content, time⟩
      times := Function.update s.times p (time :: s.times p)
      quiet := false
      scanned := false }
  | .watch => s.watch hash
  | .leftover order =>
    if s.stage = .init [] ∧ ∀ p ∈ order, (s.watching.initialStatus p).isSome = true then
      some { s with stage := .leftover order }
    else none
  | .beginScan order =>
    if s.stage = .idle ∧ order.Perm names then
      some { s with
        stage := .scan order
        quiet := true }
    else none
  | .send =>
    match s.watching.pushed with
    | [] => none
    | action :: rest => some { s with
        watching := { s.watching with pushed := rest }
        sent := s.sent ++ s.message action }
  | .store =>
    match s.sent with
    | [] => none
    | (p, content) :: rest => some { s with
        sent := rest
        server := Function.update s.server p content }

/-- What the server holds of a file once everything on its way is stored. -/
def final (s : Backup) (p : Bytes) : Option Bytes :=
  s.sent.foldl (fun server m => Function.update server m.1 m.2) s.server p

/-- `init_status` is about to run on what the server holds. -/
structure Starts (hash : Bytes → Bytes) (names : List Bytes) (s : Backup) : Prop where
  nodup : names.Nodup
  stage : ∃ order, order.Perm names ∧ s.stage = .init order
  paths : ∀ p, s.watching.paths p = none
  pushed : s.watching.pushed = []
  sent : s.sent = []
  known : ∀ p, s.watching.initialStatus p = (s.server p).map hash
  times : ∀ p, s.lastWriteTime p ∈ s.times p
  quiet : s.quiet = false
  scanned : s.scanned = false

/-- Nothing is lost: after a whole pass, when everything is sent and stored, the server holds what
the files hold. -/
def Kept (names : List Bytes) (s : Backup) : Prop :=
  s.scanned = true → s.watching.pushed = [] → s.sent = [] →
    ∀ p ∈ names, s.server p = some (s.files p).content

end Backup
end BackupManager.Client
