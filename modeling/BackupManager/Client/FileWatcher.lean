import BackupManager.Client.SendAction
import BackupManager.Server.Database
import BackupManager.Table.KeyedFold

/-! The file watcher: `init_status` and one pass of the loop of `start`, over a folder that does
not change meanwhile. Both push at most one action on each path. -/
namespace BackupManager.Client
open ByteStream Protocol Table

/-- A regular file with its content, or a folder. -/
structure Node where
  lastWriteTime : ℤ
  content : Option Bytes
  deriving DecidableEq, Repr

def Node.isDirectory (n : Node) : Bool := n.content.isNone

/-- `file.is_directory() ? "dir" : Hash(file.path()).getHash()`. -/
def Node.hashStr (hash : Bytes → Bytes) (n : Node) : Bytes :=
  match n.content with
  | none => Server.dirHash
  | some content => hash content

/-- What `recursive_directory_iterator` delivers, in some order: paths below the main path. A path
holds no NUL. -/
structure Listing (mainPath : Bytes) where
  entries : List (Bytes × Node)
  nodup : (entries.map Prod.fst).Nodup
  below : ∀ e ∈ entries, mainPath <+: e.1
  plain : ∀ e ∈ entries, 0 ∉ e.1

/-- A listing in which no file is above the size limit. -/
structure Tree (mainPath : Bytes) extends Listing mainPath where
  small : ∀ e ∈ entries, ∀ content ∈ e.2.content, content.length ≤ maxFileSize

namespace Listing

variable {mainPath : Bytes} (tree : Listing mainPath)

def find (p : Bytes) : Option Node := (tree.entries.find? fun e => e.1 = p).map Prod.snd

def isDirectory (p : Bytes) : Bool := ((tree.find p).map Node.isDirectory).getD false

theorem find_eq_some_iff {p : Bytes} {n : Node} : tree.find p = some n ↔ (p, n) ∈ tree.entries := by
  unfold find
  rw [Option.map_eq_some_iff]
  constructor
  · intro h
    obtain ⟨e, he, rfl⟩ := h
    have hp : e.1 = p := by simpa using List.find?_some he
    rw [← hp]
    exact List.mem_of_find?_eq_some he
  · intro h
    have hsome : (tree.entries.find? fun e => e.1 = p).isSome = true := by
      rw [List.find?_isSome]
      exact ⟨(p, n), h, by simp⟩
    obtain ⟨e, he⟩ := Option.isSome_iff_exists.mp hsome
    have hp : e.1 = p := by simpa using List.find?_some he
    have heq : e = (p, n) :=
      List.inj_on_of_nodup_map tree.nodup (List.mem_of_find?_eq_some he) h hp
    exact ⟨e, he, by rw [heq]⟩

theorem find_eq_none_iff {p : Bytes} : tree.find p = none ↔ p ∉ tree.entries.map Prod.fst := by
  rw [← not_iff_not, not_not, ← ne_eq, Option.ne_none_iff_exists', List.mem_map]
  constructor
  · intro h
    obtain ⟨n, hn⟩ := h
    exact ⟨(p, n), tree.find_eq_some_iff.mp hn, rfl⟩
  · intro h
    obtain ⟨e, he, rfl⟩ := h
    exact ⟨e.2, tree.find_eq_some_iff.mpr he⟩

theorem isDirectory_of_find {p : Bytes} {n : Node} (h : tree.find p = some n) :
    tree.isDirectory p = n.isDirectory := by
  rw [isDirectory, h]
  rfl

end Listing

/-- What `get_init_file_from_server` returns for a view: its hashes under the full paths. -/
def initialStatus (mainPath : Bytes) (m : Server.HashMap) (p : Bytes) : Option Bytes :=
  (m.entries.find? fun e => mainPath ++ e.1 = p).map Prod.snd

theorem initialStatus_eq_some_iff {mainPath : Bytes} {m : Server.HashMap} {p h : Bytes} :
    initialStatus mainPath m p = some h ↔ ∃ k, p = mainPath ++ k ∧ (k, h) ∈ m.entries := by
  unfold initialStatus
  rw [Option.map_eq_some_iff]
  constructor
  · intro hfind
    obtain ⟨e, he, rfl⟩ := hfind
    have hp : mainPath ++ e.1 = p := by simpa using List.find?_some he
    exact ⟨e.1, hp.symm, List.mem_of_find?_eq_some he⟩
  · intro hmem
    obtain ⟨k, rfl, hk⟩ := hmem
    have hsome : (m.entries.find? fun e => mainPath ++ e.1 = mainPath ++ k).isSome = true := by
      rw [List.find?_isSome]
      exact ⟨(k, h), hk, by simp⟩
    obtain ⟨e, he⟩ := Option.isSome_iff_exists.mp hsome
    have hp : mainPath ++ e.1 = mainPath ++ k := by simpa using List.find?_some he
    have heq : e = (k, h) := List.inj_on_of_nodup_map m.nodup_keys
      (List.mem_of_find?_eq_some he) hk (List.append_cancel_left hp)
    exact ⟨e, he, by rw [heq]⟩

/-- The maps of the watcher, and the actions it has pushed. -/
structure Watching where
  paths : Bytes → Option ℤ
  initialStatus : Bytes → Option Bytes
  pushed : List Action

namespace Watching

/-- `action(path, fileStatus)`. -/
def push (w : Watching) (isDirectory : Bool) (path : Bytes) (fileStatus : FileStatus) : Watching :=
  { w with pushed := w.pushed ++ [.ofStatus isDirectory path fileStatus .created] }

/-- `paths_[path] = time`. -/
def setPath (w : Watching) (path : Bytes) (time : ℤ) : Watching :=
  { w with paths := Function.update w.paths path (some time) }

/-- The body of the loop of `init_status`. -/
def initFile (hash : Bytes → Bytes) (w : Watching) (e : Bytes × Node) : Watching :=
  let w :=
    match w.initialStatus e.1 with
    | some known =>
      let hashStr := e.2.hashStr hash
      let w := w.setPath e.1 e.2.lastWriteTime
      let w := if known ≠ hashStr then w.push e.2.isDirectory e.1 .modified else w
      { w with initialStatus := Function.update w.initialStatus e.1 none }
    | none => w.push e.2.isDirectory e.1 .created
  w.setPath e.1 e.2.lastWriteTime

/-- `init_status`; `order` lists the keys of `initial_status` in the order of its iterator. -/
def initStatus {mainPath : Bytes} (hash : Bytes → Bytes) (tree : Listing mainPath)
    (order : List Bytes) (initialStatus : Bytes → Option Bytes) : Watching :=
  let w := tree.entries.foldl (initFile hash) ⟨fun _ => none, initialStatus, []⟩
  (order.filter fun p => (w.initialStatus p).isSome).foldl
    (fun w p => w.push (tree.isDirectory p) p .erased) w

/-- The body of the loop over `paths_`. -/
def scanPath {mainPath : Bytes} (tree : Listing mainPath) (w : Watching) (p : Bytes) : Watching :=
  if tree.find p = none then
    let w := w.push (tree.isDirectory p) p .erased
    { w with paths := Function.update w.paths p none }
  else w

/-- The body of the loop over the files. -/
def scanFile (w : Watching) (e : Bytes × Node) : Watching :=
  match w.paths e.1 with
  | none => (w.setPath e.1 e.2.lastWriteTime).push e.2.isDirectory e.1 .created
  | some time =>
    if time ≠ e.2.lastWriteTime then
      (w.setPath e.1 e.2.lastWriteTime).push e.2.isDirectory e.1 .modified
    else w

/-- One pass of `start`; `order` lists the keys of `paths_` in the order of its iterator. -/
def scan {mainPath : Bytes} (tree : Listing mainPath) (order : List Bytes) (w : Watching) : Watching :=
  tree.entries.foldl scanFile
    ((order.filter fun p => (w.paths p).isSome).foldl (scanPath tree) w)

/-- What `init_status` finds about a path. -/
def initEvent (hash : Bytes → Bytes) : Option Bytes → Option Node → Option FileStatus
  | some known, some n => if known ≠ n.hashStr hash then some .modified else none
  | none, some _ => some .created
  | some _, none => some .erased
  | none, none => none

/-- What a pass finds about a path. -/
def scanEvent : Option ℤ → Option Node → Option FileStatus
  | some time, some n => if time ≠ n.lastWriteTime then some .modified else none
  | none, some _ => some .created
  | some _, none => some .erased
  | none, none => none

/-- What belongs to one path: its time, its status, and the actions on it. -/
abbrev Part : Type := Option ℤ × Option Bytes × List Action

def part (p : Bytes) (w : Watching) : Part :=
  (w.paths p, w.initialStatus p, w.pushed.filter fun a => a.path = p)

/-- The actions of an event. -/
def actionsOf (isDirectory : Bool) (p : Bytes) (event : Option FileStatus) : List Action :=
  (event.map fun st => Action.ofStatus isDirectory p st .created).toList

/-- What an event does to the part of its path, besides the time and the status it leaves. -/
def Part.after (x : Part) (time : Option ℤ) (status : Option Bytes) (isDirectory : Bool) (p : Bytes)
    (event : Option FileStatus) : Part :=
  (time, status, x.2.2 ++ actionsOf isDirectory p event)

section Parts

variable {mainPath : Bytes} {hash : Bytes → Bytes} {tree : Listing mainPath} {p : Bytes}

theorem part_push_of_ne {w : Watching} {isDirectory : Bool} {path : Bytes} {st : FileStatus}
    (h : path ≠ p) : part p (w.push isDirectory path st) = part p w := by
  simp [part, push, Action.ofStatus, h]

theorem part_push_self {w : Watching} {isDirectory : Bool} {st : FileStatus} :
    part p (w.push isDirectory p st) =
      (part p w).after (part p w).1 (part p w).2.1 isDirectory p (some st) := by
  simp [part, push, Action.ofStatus, Part.after, actionsOf]

theorem part_initFile_of_ne (w : Watching) (e : Bytes × Node) (h : e.1 ≠ p) :
    part p (initFile hash w e) = part p w := by
  have hp : p ≠ e.1 := Ne.symm h
  unfold initFile
  cases w.initialStatus e.1 with
  | none => simp [part, push, setPath, Action.ofStatus, h, hp]
  | some known =>
    by_cases hk : known = e.2.hashStr hash
    · simp [part, setPath, hk, hp]
    · simp [part, push, setPath, Action.ofStatus, hk, h, hp]

theorem part_initFile_self (w : Watching) (e : Bytes × Node) (h : e.1 = p) :
    part p (initFile hash w e) = (part p w).after (some e.2.lastWriteTime) none e.2.isDirectory p
      (initEvent hash (part p w).2.1 (some e.2)) := by
  obtain ⟨path, n⟩ := e
  have hpath : path = p := h
  subst hpath
  unfold initFile
  cases hs : w.initialStatus path with
  | none => simp [part, push, setPath, Action.ofStatus, Part.after, actionsOf, initEvent, hs]
  | some known =>
    by_cases hk : known = n.hashStr hash
    · simp [part, setPath, Part.after, actionsOf, initEvent, hs, hk]
    · simp [part, push, setPath, Action.ofStatus, Part.after, actionsOf, initEvent, hs, hk]

theorem part_scanPath_of_ne (w : Watching) (path : Bytes) (h : path ≠ p) :
    part p (scanPath tree w path) = part p w := by
  unfold scanPath
  split
  · simp [part, push, Action.ofStatus, h, Ne.symm h]
  · rfl

theorem part_scanPath_self (w : Watching) (path : Bytes) (h : path = p) :
    part p (scanPath tree w path) =
      if tree.find p = none then
        (part p w).after none (part p w).2.1 (tree.isDirectory p) p (some .erased)
      else part p w := by
  subst h
  unfold scanPath
  split
  · simp [part, push, Action.ofStatus, Part.after, actionsOf]
  · rfl

theorem part_scanFile_of_ne (w : Watching) (e : Bytes × Node) (h : e.1 ≠ p) :
    part p (scanFile w e) = part p w := by
  unfold scanFile
  cases w.paths e.1 with
  | none => simp [part, push, setPath, Action.ofStatus, h, Ne.symm h]
  | some time =>
    by_cases ht : time = e.2.lastWriteTime
    · simp [ht]
    · simp [part, push, setPath, Action.ofStatus, ht, h, Ne.symm h]

theorem part_scanFile_self (w : Watching) (e : Bytes × Node) (h : e.1 = p) :
    part p (scanFile w e) = (part p w).after (some e.2.lastWriteTime) (part p w).2.1 e.2.isDirectory
      p (scanEvent (part p w).1 (some e.2)) := by
  obtain ⟨path, n⟩ := e
  have hpath : path = p := h
  subst hpath
  unfold scanFile
  cases ht : w.paths path with
  | none => simp [part, push, setPath, Action.ofStatus, Part.after, actionsOf, scanEvent, ht]
  | some time =>
    by_cases heq : time = n.lastWriteTime
    · simp [part, Part.after, actionsOf, scanEvent, ht, heq]
    · simp [part, push, setPath, Action.ofStatus, Part.after, actionsOf, scanEvent, ht, heq]

variable {order : List Bytes} (hnodup : order.Nodup)

include hnodup

/-- `init_status` records the time of every path that exists, and pushes the one action that its
event asks for. -/
theorem initStatus_apply {status : Bytes → Option Bytes}
    (horder : ∀ p, (status p).isSome = true → p ∈ order) :
    (initStatus hash tree order status).paths p = (tree.find p).map Node.lastWriteTime ∧
      ((initStatus hash tree order status).pushed.filter fun a => a.path = p) =
        actionsOf (tree.isDirectory p) p (initEvent hash (status p) (tree.find p)) := by
  have hpush : ∀ (w : Watching) (path : Bytes), path ≠ p →
      part p (w.push (tree.isDirectory path) path .erased) = part p w :=
    fun w path h => part_push_of_ne h
  suffices hpart : ∃ status', part p (initStatus hash tree order status) =
      ((tree.find p).map Node.lastWriteTime, status',
        actionsOf (tree.isDirectory p) p (initEvent hash (status p) (tree.find p))) by
    obtain ⟨status', hpart⟩ := hpart
    exact ⟨(Prod.mk.inj hpart).1, (Prod.mk.inj (Prod.mk.inj hpart).2).2⟩
  unfold initStatus
  dsimp only
  generalize hw : tree.entries.foldl (initFile hash) ⟨fun _ => none, status, []⟩ = w
  cases hfind : tree.find p with
  | some n =>
    have hmem := tree.find_eq_some_iff.mp hfind
    have hw₁ : part p w = (some n.lastWriteTime, none,
        actionsOf n.isDirectory p (initEvent hash (status p) (some n))) := by
      rw [← hw, foldl_part_of_mem (fun e x => x.after (some e.2.lastWriteTime) none e.2.isDirectory p
        (initEvent hash x.2.1 (some e.2))) part_initFile_of_ne part_initFile_self tree.nodup hmem rfl]
      rfl
    have hstatus : w.initialStatus p = none := congrArg (fun x => x.2.1) hw₁
    have hnot : p ∉ (order.filter fun q => (w.initialStatus q).isSome).map id := by
      simp [hstatus]
    refine ⟨none, ?_⟩
    rw [foldl_part_of_not_mem hpush hnot, hw₁, tree.isDirectory_of_find hfind]
    rfl
  | none =>
    have hw₁ : part p w = (none, status p, []) := by
      rw [← hw, foldl_part_of_not_mem part_initFile_of_ne (tree.find_eq_none_iff.mp hfind)]
      rfl
    have hstatus : w.initialStatus p = status p := congrArg (fun x => x.2.1) hw₁
    refine ⟨status p, ?_⟩
    cases hs : status p with
    | none =>
      have hnot : p ∉ (order.filter fun q => (w.initialStatus q).isSome).map id := by
        simp [hstatus, hs]
      rw [foldl_part_of_not_mem hpush hnot, hw₁, hs]
      rfl
    | some known =>
      have hmem : p ∈ order.filter fun q => (w.initialStatus q).isSome := by
        rw [List.mem_filter, hstatus, hs]
        exact ⟨horder p (by rw [hs]; rfl), rfl⟩
      have hfilter : ((order.filter fun q => (w.initialStatus q).isSome).map id).Nodup := by
        rw [List.map_id]
        exact hnodup.filter _
      have hself : ∀ (w : Watching) (path : Bytes), path = p →
          part p (w.push (tree.isDirectory path) path .erased) =
            (part p w).after (part p w).1 (part p w).2.1 (tree.isDirectory p) p (some .erased) := by
        intro w path h
        rw [h]
        exact part_push_self
      rw [foldl_part_of_mem (fun _ x => x.after x.1 x.2.1 (tree.isDirectory p) p (some .erased)) hpush
        hself hfilter hmem rfl, hw₁, hs]
      rfl

/-- A pass updates the time of every path, and pushes the one action that its event asks for. -/
theorem scan_apply {w : Watching} (hempty : w.pushed = [])
    (horder : ∀ p, (w.paths p).isSome = true → p ∈ order) :
    (scan tree order w).paths p = (tree.find p).map Node.lastWriteTime ∧
      ((scan tree order w).pushed.filter fun a => a.path = p) =
        actionsOf (tree.isDirectory p) p (scanEvent (w.paths p) (tree.find p)) := by
  suffices hpart : ∃ status', part p (scan tree order w) =
      ((tree.find p).map Node.lastWriteTime, status',
        actionsOf (tree.isDirectory p) p (scanEvent (w.paths p) (tree.find p))) by
    obtain ⟨status', hpart⟩ := hpart
    exact ⟨(Prod.mk.inj hpart).1, (Prod.mk.inj (Prod.mk.inj hpart).2).2⟩
  refine ⟨w.initialStatus p, ?_⟩
  have hstart : part p w = (w.paths p, w.initialStatus p, []) := by
    rw [part, hempty]
    rfl
  unfold scan
  generalize hw₁ : (order.filter fun q => (w.paths q).isSome).foldl (scanPath tree) w = w₁
  cases hfind : tree.find p with
  | some n =>
    have hmem := tree.find_eq_some_iff.mp hfind
    have hkept : part p w₁ = part p w := by
      have hself : ∀ (w : Watching) (path : Bytes), path = p →
          part p (scanPath tree w path) = part p w := by
        intro w path h
        rw [part_scanPath_self w path h, if_neg (by rw [hfind]; simp)]
      rw [← hw₁, foldl_part_filter (fun x _ => x) part_scanPath_of_ne hself, List.foldl_fixed]
    rw [foldl_part_of_mem (fun e x => x.after (some e.2.lastWriteTime) x.2.1 e.2.isDirectory p
      (scanEvent x.1 (some e.2))) part_scanFile_of_ne part_scanFile_self tree.nodup hmem rfl, hkept, hstart,
      tree.isDirectory_of_find hfind]
    rfl
  | none =>
    rw [foldl_part_of_not_mem part_scanFile_of_ne (tree.find_eq_none_iff.mp hfind), ← hw₁]
    cases htime : w.paths p with
    | none =>
      have hnot : p ∉ (order.filter fun q => (w.paths q).isSome).map id := by
        simp [htime]
      rw [foldl_part_of_not_mem part_scanPath_of_ne hnot, hstart, htime]
      rfl
    | some time =>
      have hmem : p ∈ order.filter fun q => (w.paths q).isSome := by
        rw [List.mem_filter, htime]
        exact ⟨horder p (by rw [htime]; rfl), rfl⟩
      have hfilter : ((order.filter fun q => (w.paths q).isSome).map id).Nodup := by
        rw [List.map_id]
        exact hnodup.filter _
      have hself : ∀ (w : Watching) (path : Bytes), path = p → part p (scanPath tree w path) =
          (part p w).after none (part p w).2.1 (tree.isDirectory p) p (some .erased) := by
        intro w path h
        rw [part_scanPath_self w path h, if_pos hfind]
      rw [foldl_part_of_mem (fun _ x => x.after none x.2.1 (tree.isDirectory p) p (some .erased))
        part_scanPath_of_ne hself hfilter hmem rfl, hstart]
      rfl

end Parts
end Watching
end BackupManager.Client
