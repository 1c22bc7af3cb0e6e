import BackupManager.Client.FileWatcher
import BackupManager.Client.HostFiles
import BackupManager.FileTree.Links
import BackupManager.Transition.Run

/-! `init_status` and the loop of `start` over a folder that others change: each call on the file system
is a step of its own, and the changes come between the calls. Pauses are left out. -/
namespace BackupManager.Client.ChangingFolder
open ByteStream Protocol FileTree Transition

structure RegularFile where
  lastWriteTime : ℤ
  content : Bytes
  /-- Whether the client may open it. -/
  readable : Bool
  deriving DecidableEq, Repr

structure Directory where
  lastWriteTime : ℤ
  /-- Whether the client may list it. -/
  readable : Bool
  /-- Whether a path of the client may lead through it. -/
  searchable : Bool
  deriving DecidableEq, Repr

/-- Regular files, directories and symbolic links. -/
abbrev Files : Type := LinkTree Bytes RegularFile Directory

abbrev Status : Type := StatResult RegularFile Directory

structure Machine where
  /-- `path_to_watch`. -/
  watch : Location
  /-- How many links a path may lead through. -/
  maxLinks : ℕ
  hash : Bytes → Bytes

/-- The type that the directory gives for an entry; the iterator keeps it. -/
inductive Kind where
  | file
  | directory
  | link
  deriving DecidableEq, Repr

/-- Where `start` stands: before one call on the file system. -/
inductive WatcherAt where
  /-- `recursive_directory_iterator`; `scan` tells the loop of a pass from that of `init_status`. -/
  | opening (scan : Bool)
  /-- `is_directory`, or `action` for a path that `initial_status` does not know. -/
  | body (x : Location) (kind : Kind)
  | hashing (x : Location) (kind : Kind)
  /-- `last_write_time` of a path that `initial_status` knows. -/
  | knownTime (x : Location) (kind : Kind) (hashStr : Bytes)
  | knownModified (x : Location) (kind : Kind)
  /-- `last_write_time` at the end of the body. -/
  | lastTime (x : Location) (kind : Kind)
  /-- `last_write_time` in a pass. -/
  | scanTime (x : Location) (kind : Kind)
  | scanAction (x : Location) (kind : Kind) (status : FileStatus)
  /-- The iterator is about to be advanced from an entry. -/
  | advancing (scan : Bool) (x : Location) (kind : Kind)
  /-- `action` for what is left in `initial_status`. -/
  | leftover (paths : List Location)
  | loop
  /-- `exists` for the paths in `paths_`. -/
  | gone (paths : List Location)
  | goneErased (x : Location) (paths : List Location)
  | ended
  /-- An exception has left `start`. -/
  | threw
  deriving DecidableEq, Repr

/-- A directory that the iterator has open. -/
structure OpenDirectory where
  /-- Its path, as the iterator goes on to write it. -/
  path : Location
  /-- Where the directory stands now, unless it has been removed. -/
  place : Option Location
  deriving DecidableEq, Repr

structure State where
  tree : Files
  watcher : WatcherAt
  /-- The directories that the iterator has open, the innermost first. -/
  stack : List OpenDirectory
  paths : Location → Option ℤ
  initialStatus : Location → Option Bytes
  pushed : List Action
  running : Bool

inductive Event where
  /-- The next call, where that is not one of the iterator. -/
  | call
  /-- The system refuses the next call: no descriptor is left, the path is too long, the device
  fails. -/
  | refused
  /-- The iterator leaves `popped` directories and delivers a name; what it has read of the directory
  may be out of date. -/
  | deliver (popped : ℕ) (name : Bytes) (kind : Kind)
  /-- The iterator is at its end; `order` is that of the keys of `initial_status`. -/
  | endOfDirectory (order : List Location)
  /-- The watcher wakes up; `order` is that of the keys of `paths_`. -/
  | awake (order : List Location)
  | stop
  /-- The changes from outside. -/
  | create (x : Location) (node : FileTree.Node (Linked Bytes RegularFile) Directory)
  | delete (x : Location)
  | rename (source target : Location)
  | write (x : Location) (data : RegularFile)
  | touch (x : Location) (data : Directory)

/-- A location as a path. -/
def pathOf (x : Location) : Bytes := x.flatMap fun name => slash :: name

/-- `std::filesystem::is_directory`; only a path that leads nowhere is no error. -/
def isDirectory? : Status → Option Bool
  | .error => none
  | .directory _ => some true
  | _ => some false

/-- `std::filesystem::exists`. -/
def exists? : Status → Option Bool
  | .error => none
  | .missing => some false
  | _ => some true

def lastWriteTime? : Status → Option ℤ
  | .file data => some data.lastWriteTime
  | .directory data => some data.lastWriteTime
  | _ => none

/-- The constructor of `Hash`: a directory can be opened, but not read. -/
def content? : Status → Option Bytes
  | .file data => if data.readable then some data.content else none
  | _ => none

/-- `directory_entry::is_directory`: the type of the entry, unless that is a link. -/
def entryIsDirectory? : Kind → Status → Option Bool
  | .link, status => isDirectory? status
  | kind, _ => some (decide (kind = .directory))

/-- `opendir`. -/
def isOpenable : Status → Bool
  | .directory data => data.readable
  | _ => false

/-- The entry of an open directory can be opened as a directory; a link is not followed. -/
def Enterable (t : Files) (place : Location) : Prop :=
  Searches Directory.searchable t place.dropLast ∧ Searches Directory.readable t place

instance (t : Files) (x : Location) (may : Directory → Bool) : Decidable (Searches may t x) :=
  match h : t x with
  | some (.directory data) => decidable_of_iff (may data = true)
      ⟨fun hmay => ⟨data, h, hmay⟩, fun ⟨data', hdata', hmay⟩ => by
        rw [h, Option.some.injEq, FileTree.Node.directory.injEq] at hdata'
        rwa [hdata']⟩
  | some (.file _) => .isFalse fun ⟨_, hdata, _⟩ => by simp [h] at hdata
  | none => .isFalse fun ⟨_, hdata, _⟩ => by simp [h] at hdata

instance (t : Files) : DecidablePred (Enterable t) := fun _ => inferInstanceAs (Decidable (_ ∧ _))

/-- What is removed is not there any more for those who have it open. -/
def OpenDirectory.removed (root : Location) (d : OpenDirectory) : OpenDirectory :=
  { d with place := d.place.filter fun x => ¬root <+: x }

/-- A directory that is renamed stays open. -/
def OpenDirectory.moved (source target : Location) (d : OpenDirectory) : OpenDirectory :=
  { d with place := d.place.bind fun x =>
      if source <+: x then some (target ++ x.drop source.length)
      else if target <+: x then none else some x }

namespace State

variable (m : Machine) (s : State)

/-- What a path leads to now. -/
def status (x : Location) : Status := FileTree.stat Directory.searchable s.tree m.maxLinks x

def goesOn (w : WatcherAt) : State := { s with watcher := w }

/-- `action`: the constructor of `Action` asks whether the path is a directory. -/
def action (x : Location) (fileStatus : FileStatus) (w : WatcherAt) : Option State :=
  (isDirectory? (s.status m x)).map fun isDirectory => { s with
    watcher := w
    pushed := s.pushed ++ [.ofStatus isDirectory (pathOf x) fileStatus .created] }

/-- `paths_[path] = last_write_time(file)`. -/
def setTime (x : Location) (w : WatcherAt) : Option State :=
  (lastWriteTime? (s.status m x)).map fun time => { s with
    watcher := w
    paths := Function.update s.paths x (some time) }

/-- The call before which the watcher stands, and the code up to the next; `none` is an exception. -/
def called : Option State :=
  match s.watcher with
  | .body x kind =>
    match s.initialStatus x with
    | none => s.action m x .created (.lastTime x kind)
    | some _ => (entryIsDirectory? kind (s.status m x)).map fun isDirectory =>
        s.goesOn (if isDirectory then .knownTime x kind Server.dirHash else .hashing x kind)
  | .hashing x kind =>
    (content? (s.status m x)).map fun content => s.goesOn (.knownTime x kind (m.hash content))
  | .knownTime x kind hashStr =>
    if s.initialStatus x = some hashStr then
      (s.setTime m x (.lastTime x kind)).map fun s' =>
        { s' with initialStatus := Function.update s.initialStatus x none }
    else s.setTime m x (.knownModified x kind)
  | .knownModified x kind =>
    (s.action m x .modified (.lastTime x kind)).map fun s' =>
      { s' with initialStatus := Function.update s.initialStatus x none }
  | .lastTime x kind => s.setTime m x (.advancing false x kind)
  | .scanTime x kind =>
    match s.paths x with
    | none => s.setTime m x (.scanAction x kind .created)
    | some time =>
      if lastWriteTime? (s.status m x) = some time then some (s.goesOn (.advancing true x kind))
      else s.setTime m x (.scanAction x kind .modified)
  | .scanAction x kind fileStatus => s.action m x fileStatus (.advancing true x kind)
  | .leftover [] => some (s.goesOn .loop)
  | .leftover (x :: paths) => s.action m x .erased (.leftover paths)
  | .gone [] => some (s.goesOn (.opening true))
  | .gone (x :: paths) => (exists? (s.status m x)).map fun found =>
      s.goesOn (if found then .gone paths else .goneErased x paths)
  | .goneErased x paths => (s.action m x .erased (.gone paths)).map fun s' =>
      { s' with paths := Function.update s.paths x none }
  | _ => some s

/-- Where the entry stands at which the iterator is, by the directory in which it was listed. -/
def placeOf (x : Location) : Option Location :=
  s.stack.head?.bind fun d => d.place.map fun y => y ++ [x.getLastD []]

/-- The directories that the iterator has open once it has opened the folder or the entry that it
stands at; `none` is an exception. -/
def opened : Option (List OpenDirectory) :=
  match s.watcher with
  | .opening _ => if isOpenable (s.status m m.watch) then some [⟨m.watch, some m.watch⟩] else none
  | .advancing _ x .directory => (s.placeOf x).bind fun place =>
      if Enterable s.tree place then some (⟨x, some place⟩ :: s.stack) else none
  | _ => some s.stack

/-- The next step of the watcher is a call on the file system. -/
def asks : Bool :=
  match s.watcher with
  | .body x kind => kind = .link || (s.initialStatus x).isNone
  | .leftover [] | .gone [] | .loop | .ended | .threw => false
  | _ => true

end State

/-- The watcher stands before a call that is not one of the iterator, or at the end of a loop. -/
def WatcherAt.calls : WatcherAt → Bool
  | .opening _ | .advancing _ _ _ | .loop | .ended | .threw => false
  | _ => true

/-- The loop in which the iterator is advanced. -/
def WatcherAt.iterates : WatcherAt → Option Bool
  | .opening scan | .advancing scan _ _ => some scan
  | _ => none

def WatcherAt.entry (scan : Bool) (x : Location) (kind : Kind) : WatcherAt :=
  if scan then .scanTime x kind else .body x kind

/-- `path_to_watch` may be read, and what is above it may be searched. -/
def Machine.Admits (m : Machine) (x : Location) (data : Directory) : Prop :=
  if x = m.watch then data.readable = true else x <+: m.watch → data.searchable = true

instance (m : Machine) (x : Location) (data : Directory) : Decidable (m.Admits x data) :=
  inferInstanceAs (Decidable (ite _ _ _))

/-- One step of the watcher, or of those outside. `path_to_watch` stays where it is, and readable. -/
def step (m : Machine) (s : State) : Event → Option State
  | .call => if s.watcher.calls then some ((s.called m).getD (s.goesOn .threw)) else none
  | .refused => if s.asks then some (s.goesOn .threw) else none
  | .deliver popped name kind =>
    match s.watcher.iterates, s.opened m with
    | none, _ => none
    | some _, none => some (s.goesOn .threw)
    | some scan, some stack =>
      match stack.drop popped with
      | [] => none
      | d :: stack => some { s with
          stack := d :: stack
          watcher := .entry scan (d.path ++ [name]) kind }
  | .endOfDirectory order =>
    match s.watcher.iterates, s.opened m with
    | none, _ => none
    | some _, none => some (s.goesOn .threw)
    | some true, some _ => some { s with stack := [], watcher := .loop }
    | some false, some _ => some { s with
        stack := []
        watcher := .leftover (order.filter fun x => (s.initialStatus x).isSome) }
  | .awake order =>
    if s.watcher = .loop then
      some (s.goesOn
        (if s.running then .gone (order.filter fun x => (s.paths x).isSome) else .ended))
    else none
  | .stop => some { s with running := false }
  | .create x node =>
    if s.tree x = none ∧ x ≠ [] ∧ IsDirectory s.tree x.dropLast then
      some { s with tree := Function.update s.tree x (some node) }
    else none
  | .delete x =>
    if s.tree x ≠ none ∧ ¬x <+: m.watch then
      some { s with tree := prune s.tree x, stack := s.stack.map (.removed x) }
    else none
  | .rename source target =>
    if s.tree source ≠ none ∧ IsDirectory s.tree target.dropLast ∧ ¬source <+: target ∧
        ¬target <+: source ∧ ¬source <+: m.watch ∧ ¬target <+: m.watch then
      some { s with
        tree := move s.tree source target
        stack := s.stack.map (.moved source target) }
    else none
  | .write x data =>
    match s.tree x with
    | some (.file (.data _)) =>
      some { s with tree := Function.update s.tree x (some (.file (.data data))) }
    | _ => none
  | .touch x data =>
    match s.tree x with
    | some (.directory _) =>
      if m.Admits x data then
        some { s with tree := Function.update s.tree x (some (.directory data)) }
      else none
    | _ => none

/-- The entry that the iterator is going to enter is a directory that it may open. -/
def Enters (s : State) : Prop :=
  match s.watcher with
  | .advancing _ x .directory => ∃ place, s.placeOf x = some place ∧ Enterable s.tree place
  | _ => True

/-- The call finds what it needs: an entry whose time is asked for stands, a file that is hashed may be
read, a folder that is entered may be listed, no path that is asked for ends in an error, and the system
does not refuse the call. -/
def Finds (m : Machine) (s : State) : Event → Prop
  | .call =>
    match s.watcher with
    | .body x kind => kind = .link ∨ s.initialStatus x = none → s.status m x ≠ .error
    | .hashing x _ => ∃ data, s.status m x = .file data ∧ data.readable = true
    | .knownTime x _ _ | .lastTime x _ | .scanTime x _ =>
      s.status m x ≠ .missing ∧ s.status m x ≠ .error
    | .knownModified x _ | .scanAction x _ _ | .leftover (x :: _) | .gone (x :: _)
    | .goneErased x _ => s.status m x ≠ .error
    | _ => True
  | .refused => False
  | .deliver _ _ _ | .endOfDirectory _ => Enters s
  | _ => True

/-- `path_to_watch` is a directory, and so is everything above it. -/
def InPlace (m : Machine) (s : State) : Prop :=
  ∀ y, y <+: m.watch → ∃ data, s.tree y = some (.directory data) ∧ m.Admits y data

/-- `start` is about to be called on some folder, with some initial status. -/
structure Starts (m : Machine) (s : State) : Prop where
  inPlace : InPlace m s
  watcher : s.watcher = .opening false

section Steps

variable {m : Machine} {s s' : State}

/-- The folder can always be opened. -/
theorem isOpenable_watch (h : InPlace m s) : isOpenable (s.status m m.watch) = true := by
  obtain ⟨data, hdata, hadmits⟩ := h m.watch (List.prefix_refl _)
  have hreach : Reachable Directory.searchable s.tree m.watch := by
    intro y hy hne
    obtain ⟨above, habove, hsearch⟩ := h y hy
    rw [Machine.Admits, if_neg hne] at hsearch
    exact ⟨above, habove, hsearch hy⟩
  rw [Machine.Admits, if_pos rfl] at hadmits
  unfold State.status
  rw [stat_reachable m.maxLinks hreach (by simp [hdata]) (by simp [hdata]), hdata]
  exact hadmits

theorem isDirectory_eq_none (status : Status) : isDirectory? status = none ↔ status = .error := by
  cases status <;> simp [isDirectory?]

theorem exists_eq_none (status : Status) : exists? status = none ↔ status = .error := by
  cases status <;> simp [exists?]

theorem lastWriteTime_eq_none (status : Status) :
    lastWriteTime? status = none ↔ ¬(status ≠ .missing ∧ status ≠ .error) := by
  cases status <;> simp [lastWriteTime?]

theorem content_eq_none (status : Status) :
    content? status = none ↔ ¬∃ data, status = .file data ∧ data.readable = true := by
  cases status <;> simp [content?]

/-- A call throws exactly where it does not find what it needs. -/
theorem called_eq_none (hcalls : s.watcher.calls = true) :
    s.called m = none ↔ ¬Finds m s .call := by
  have haction : ∀ x status w, s.action m x status w = none ↔ ¬s.status m x ≠ .error := by
    intro x status w
    rw [State.action, Option.map_eq_none_iff, isDirectory_eq_none, not_not]
  have htime : ∀ x w, s.setTime m x w = none ↔
      ¬(s.status m x ≠ .missing ∧ s.status m x ≠ .error) := by
    intro x w
    rw [State.setTime, Option.map_eq_none_iff, lastWriteTime_eq_none]
  unfold State.called Finds
  dsimp only
  cases hw : s.watcher with
  | body x kind =>
    dsimp only
    cases hknown : s.initialStatus x with
    | none => simp [haction]
    | some known =>
      rw [Option.map_eq_none_iff]
      cases kind with
      | file => simp [entryIsDirectory?]
      | directory => simp [entryIsDirectory?]
      | link => simp [entryIsDirectory?, isDirectory_eq_none]
  | hashing x kind =>
    dsimp only
    rw [Option.map_eq_none_iff, content_eq_none]
  | knownTime x kind hashStr =>
    dsimp only
    split
    · rw [Option.map_eq_none_iff, htime]
    · rw [htime]
  | knownModified x kind =>
    dsimp only
    rw [Option.map_eq_none_iff, haction]
  | lastTime x kind => exact htime _ _
  | scanTime x kind =>
    dsimp only
    split
    · exact htime _ _
    · split
      · next time htimes =>
        have hsome : lastWriteTime? (s.status m x) ≠ none := by simp [htimes]
        rw [ne_eq, lastWriteTime_eq_none] at hsome
        simp [hsome]
      · exact htime _ _
  | scanAction x kind status => exact haction _ _ _
  | leftover paths =>
    cases paths with
    | nil => simp
    | cons x paths => exact haction _ _ _
  | gone paths =>
    cases paths with
    | nil => simp
    | cons x paths =>
      dsimp only
      rw [Option.map_eq_none_iff, exists_eq_none, not_not]
  | goneErased x paths =>
    dsimp only
    rw [Option.map_eq_none_iff, haction]
  | opening scan => simp [hw, WatcherAt.calls] at hcalls
  | advancing scan x kind => simp [hw, WatcherAt.calls] at hcalls
  | loop => simp [hw, WatcherAt.calls] at hcalls
  | ended => simp [hw, WatcherAt.calls] at hcalls
  | threw => simp [hw, WatcherAt.calls] at hcalls

theorem action_result {x : Location} {fileStatus : FileStatus} {w : WatcherAt}
    (haction : s.action m x fileStatus w = some s') : s'.tree = s.tree ∧ s'.watcher = w := by
  obtain ⟨isDirectory, -, rfl⟩ := Option.map_eq_some_iff.mp haction
  exact ⟨rfl, rfl⟩

theorem setTime_result {x : Location} {w : WatcherAt} (hset : s.setTime m x w = some s') :
    s'.tree = s.tree ∧ s'.watcher = w := by
  obtain ⟨time, -, rfl⟩ := Option.map_eq_some_iff.mp hset
  exact ⟨rfl, rfl⟩

/-- A call that does not throw leaves the folder, and the watcher in `start`. -/
theorem called_result (hcalls : s.watcher.calls = true) (hcalled : s.called m = some s') :
    s'.tree = s.tree ∧ s'.watcher ≠ .threw := by
  have hthen : ∀ {w : WatcherAt}, w ≠ .threw → s'.tree = s.tree ∧ s'.watcher = w →
      s'.tree = s.tree ∧ s'.watcher ≠ .threw := by
    intro w hw h
    exact ⟨h.1, by rw [h.2]; exact hw⟩
  unfold State.called at hcalled
  cases hw : s.watcher with
  | body x kind =>
    rw [hw] at hcalled
    dsimp only at hcalled
    split at hcalled
    · exact hthen (by simp) (action_result hcalled)
    · obtain ⟨isDirectory, -, rfl⟩ := Option.map_eq_some_iff.mp hcalled
      cases isDirectory <;> exact ⟨rfl, by simp [State.goesOn]⟩
  | hashing x kind =>
    rw [hw] at hcalled
    obtain ⟨content, -, rfl⟩ := Option.map_eq_some_iff.mp hcalled
    exact ⟨rfl, by simp [State.goesOn]⟩
  | knownTime x kind hashStr =>
    rw [hw] at hcalled
    dsimp only at hcalled
    split at hcalled
    · obtain ⟨s₁, hset, rfl⟩ := Option.map_eq_some_iff.mp hcalled
      obtain ⟨htree, hwatcher⟩ := setTime_result hset
      exact ⟨htree, by simp [hwatcher]⟩
    · exact hthen (by simp) (setTime_result hcalled)
  | knownModified x kind =>
    rw [hw] at hcalled
    obtain ⟨s₁, haction, rfl⟩ := Option.map_eq_some_iff.mp hcalled
    obtain ⟨htree, hwatcher⟩ := action_result haction
    exact ⟨htree, by simp [hwatcher]⟩
  | lastTime x kind =>
    rw [hw] at hcalled
    exact hthen (by simp) (setTime_result hcalled)
  | scanTime x kind =>
    rw [hw] at hcalled
    dsimp only at hcalled
    split at hcalled
    · exact hthen (by simp) (setTime_result hcalled)
    · split at hcalled
      · rw [← Option.some.inj hcalled]
        exact ⟨rfl, by simp [State.goesOn]⟩
      · exact hthen (by simp) (setTime_result hcalled)
  | scanAction x kind fileStatus =>
    rw [hw] at hcalled
    exact hthen (by simp) (action_result hcalled)
  | leftover paths =>
    rw [hw] at hcalled
    cases paths with
    | nil =>
      rw [← Option.some.inj hcalled]
      exact ⟨rfl, by simp [State.goesOn]⟩
    | cons x paths => exact hthen (by simp) (action_result hcalled)
  | gone paths =>
    rw [hw] at hcalled
    cases paths with
    | nil =>
      rw [← Option.some.inj hcalled]
      exact ⟨rfl, by simp [State.goesOn]⟩
    | cons x paths =>
      obtain ⟨found, -, rfl⟩ := Option.map_eq_some_iff.mp hcalled
      cases found <;> exact ⟨rfl, by simp [State.goesOn]⟩
  | goneErased x paths =>
    rw [hw] at hcalled
    obtain ⟨s₁, haction, rfl⟩ := Option.map_eq_some_iff.mp hcalled
    obtain ⟨htree, hwatcher⟩ := action_result haction
    exact ⟨htree, by simp [hwatcher]⟩
  | opening scan => simp [hw, WatcherAt.calls] at hcalls
  | advancing scan x kind => simp [hw, WatcherAt.calls] at hcalls
  | loop => simp [hw, WatcherAt.calls] at hcalls
  | ended => simp [hw, WatcherAt.calls] at hcalls
  | threw => simp [hw, WatcherAt.calls] at hcalls

/-- The iterator throws exactly where it cannot open the entry that it enters. -/
theorem opened_eq_none (h : InPlace m s) : s.opened m = none ↔ ¬Enters s := by
  unfold State.opened Enters
  cases hw : s.watcher with
  | opening scan =>
    dsimp only
    rw [if_pos (isOpenable_watch h)]
    simp
  | advancing scan x kind =>
    cases kind with
    | directory =>
      dsimp only
      cases hplace : s.placeOf x with
      | none => simp
      | some place => simp
    | file => simp
    | link => simp
  | _ => simp

end Steps
end BackupManager.Client.ChangingFolder
