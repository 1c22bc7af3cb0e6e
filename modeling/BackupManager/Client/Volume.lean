import BackupManager.Client.ExactDifference
import BackupManager.Client.Replay
import BackupManager.Client.StagedEntries

/-! A file system with permissions and times, on which the entries of a restore are replayed. An entry is
created in a directory that exists and whose permissions admit it, and changes the time of that
directory. -/
namespace BackupManager.Client
open ByteStream Protocol

/-- What stands at a path; a directory has no content. -/
structure Inode where
  content : Option Bytes
  lastWriteTime : ℤ
  permissions : BitVec 12
  deriving DecidableEq, Repr

/-- The file system, by the paths as they are written. -/
abbrev Inodes : Type := Bytes → Option Inode

structure Volume where
  /-- Whether a directory with these permissions lets its owner create an entry. -/
  admits : BitVec 12 → Bool
  /-- When a path is created or written. -/
  clock : Bytes → ℤ
  /-- The permissions of what is created. -/
  mode : BitVec 12

/-- The part of a path before its last separator. -/
def folderOf (path : Bytes) : Bytes := (path.reverse.dropWhile (· ≠ slash)).tail.reverse

/-- `boost::filesystem::permissions`: 0x1000 adds to the permissions there are and 0x2000 takes away
from them; with both nothing is done. -/
def boostPermissions (mode : ℤ) (old : BitVec 12) : BitVec 12 :=
  let bits := BitVec.ofInt 32 mode
  match bits.getLsbD 12, bits.getLsbD 13 with
  | false, false => bits.truncate 12
  | true, false => old ||| bits.truncate 12
  | false, true => old &&& ~~~bits.truncate 12
  | true, true => old

namespace Volume

variable (vol : Volume)

/-- A new entry in the directory of its path. -/
def create (content : Option Bytes) (path : Bytes) (t : Inodes) : Option Inodes :=
  match t (folderOf path) with
  | some ⟨none, _, permissions⟩ =>
    if vol.admits permissions then
      some (Function.update
        (Function.update t (folderOf path) (some ⟨none, vol.clock path, permissions⟩))
        path (some ⟨content, vol.clock path, vol.mode⟩))
    else none
  | _ => none

/-- An operation that does nothing where it fails. -/
def answer (t : Inodes) : Option Inodes → Bool × Inodes
  | some t' => (true, t')
  | none => (false, t)

/-- `create_directory`: a directory that exists is left as it is. -/
def createDirectory (path : Bytes) (t : Inodes) : Option Inodes :=
  match t path with
  | none => vol.create none path t
  | some ⟨none, _, _⟩ => some t
  | some ⟨some _, _, _⟩ => none

/-- The constructor of `ofstream`: the file is created, or emptied. -/
def openFile (path : Bytes) (t : Inodes) : Option Inodes :=
  match t path with
  | none => vol.create (some []) path t
  | some ⟨some _, _, permissions⟩ =>
    some (Function.update t path (some ⟨some [], vol.clock path, permissions⟩))
  | some ⟨none, _, _⟩ => none

def write (path bytes : Bytes) (t : Inodes) : Option Inodes :=
  match t path with
  | some ⟨some content, _, permissions⟩ =>
    some (Function.update t path (some ⟨some (content ++ bytes), vol.clock path, permissions⟩))
  | _ => none

/-- A change of what stands at a path. -/
def change (f : Inode → Inode) (path : Bytes) (t : Inodes) : Option Inodes :=
  (t path).map fun node => Function.update t path (some (f node))

def lastWriteTime (time : ℤ) : Bytes → Inodes → Option Inodes :=
  change fun node => { node with lastWriteTime := time }

def permissions (mode : ℤ) : Bytes → Inodes → Option Inodes :=
  change fun node => { node with permissions := boostPermissions mode node.permissions }

def removeAll (path : Bytes) (t : Inodes) : Inodes := fun p =>
  if p = path ∨ path ++ [slash] <+: p then none else t p

/-- A `rename` takes what is below the path with it. -/
def rename (source target : Bytes) (t : Inodes) : Inodes := fun p =>
  if p = target ∨ target ++ [slash] <+: p then t (source ++ p.drop target.length)
  else removeAll source t p

def ops : FileOps Inodes where
  createDirectory path t := answer t (vol.createDirectory path t)
  openFile path t := answer t (vol.openFile path t)
  write path bytes t := answer t (vol.write path bytes t)
  closeFile _ t := t
  lastWriteTime path time t := answer t (lastWriteTime time path t)
  permissions path mode t := answer t (permissions mode path t)
  removeAll path t := (true, removeAll path t)
  rename source target t := (true, rename source target t)

/-- The staging directory, when it has just been created. -/
def emptyStaging : Inodes :=
  Function.update (fun _ => none) tmpDir (some ⟨none, vol.clock tmpDir, vol.mode⟩)

end Volume

/-- The names of a path are ones that an entry of a directory can have. A path with other names leads
somewhere else than it is written, and the volume does not follow it. -/
def PlainPath (path : Bytes) : Prop :=
  0 ∉ path ∧ ∀ name ∈ (path.splitOn slash).tail, name ≠ [] ∧ name ≠ [46] ∧ name ≠ [46, 46]

instance : DecidablePred PlainPath := fun _ => inferInstanceAs (Decidable (_ ∧ _))

/-- The entries of a restore as the server sends them: in the order of their names, each below a
directory that is sent as well. -/
structure ServerOrder (es : List Entry) : Prop where
  sorted : (es.map Entry.path).Pairwise (· < ·)
  absolute : ∀ e ∈ es, e.path.head? = some slash
  plain : ∀ e ∈ es, PlainPath e.path
  parents : ∀ e ∈ es, ∀ q ∈ parentPath e.path, ∃ d ∈ es, d.path = q ∧ d.isDirectory = 1

section Paths

theorem splitOn_of_absolute {path : Bytes} (habsolute : path.head? = some slash) :
    path.splitOn slash = [] :: (path.splitOn slash).tail := by
  cases path with
  | nil => exact absurd habsolute (by simp)
  | cons b rest =>
    rw [Option.some.inj habsolute, List.splitOn_cons_eq_if_modifyHead, if_pos (by simp)]
    rfl

/-- A plain path is resolved as it is written. -/
theorem components_of_plain {path : Bytes} (habsolute : path.head? = some slash)
    (hplain : PlainPath path) : components path = (path.splitOn slash).tail.map .name := by
  have hnames := hplain.2
  unfold components
  rw [splitOn_of_absolute habsolute, List.tail_cons, List.filter_cons_of_neg (by simp),
    List.filter_eq_self.mpr fun name hname => decide_eq_true (hnames name hname).1]
  apply List.map_congr_left
  intro name hname
  rw [if_neg (hnames name hname).2.1, if_neg (hnames name hname).2.2]

theorem location_of_plain {e : Entry} (habsolute : e.path.head? = some slash)
    (hplain : PlainPath e.path) : e.location = (e.path.splitOn slash).tail := by
  unfold Entry.location
  rw [components_of_plain habsolute hplain, List.filterMap_map]
  exact List.filterMap_some

/-- Plain entries that are staged at one place have one path. -/
theorem plain_location_inj {e e' : Entry} (habsolute : e.path.head? = some slash)
    (habsolute' : e'.path.head? = some slash) (hplain : PlainPath e.path)
    (hplain' : PlainPath e'.path) (hlocation : e.location = e'.location) : e.path = e'.path := by
  rw [location_of_plain habsolute hplain, location_of_plain habsolute' hplain'] at hlocation
  have hsplit : e.path.splitOn slash = e'.path.splitOn slash := by
    rw [splitOn_of_absolute habsolute, splitOn_of_absolute habsolute', hlocation]
  have hjoined : [slash].intercalate (e.path.splitOn slash) = e.path := List.intercalate_splitOn slash
  rw [← hjoined, hsplit, List.intercalate_splitOn]

theorem folderOf_append {k : Bytes} (hk : slash ∈ k) (base : Bytes) :
    folderOf (base ++ k) = base ++ folderOf k := by
  obtain ⟨b, a, hsplit, hb⟩ := List.eq_append_cons_of_mem (List.mem_reverse.mpr hk)
  have hskip : ∀ x ∈ b, decide (x ≠ slash) = true := fun x hx =>
    decide_eq_true fun h => hb (h ▸ hx)
  unfold folderOf
  rw [List.reverse_append, hsplit, List.append_assoc, List.dropWhile_append_of_pos hskip,
    List.dropWhile_append_of_pos hskip]
  simp

theorem parentPath_eq_folderOf (k : Bytes) :
    parentPath k = if folderOf k = [] then none else some (folderOf k) := rfl

theorem folderOf_prefix {k : Bytes} (hk : slash ∈ k) : ∃ name, k = folderOf k ++ slash :: name := by
  obtain ⟨b, a, hsplit, hb⟩ := List.eq_append_cons_of_mem (List.mem_reverse.mpr hk)
  have hskip : ∀ x ∈ b, decide (x ≠ slash) = true := fun x hx =>
    decide_eq_true fun h => hb (h ▸ hx)
  refine ⟨b.reverse, ?_⟩
  unfold folderOf
  rw [hsplit, List.dropWhile_append_of_pos hskip, ← List.reverse_reverse k, hsplit]
  simp

/-- A path below a folder comes after it in the order of bytes. -/
theorem lt_below (k rest : Bytes) : k < k ++ slash :: rest := by
  have happend : k ++ [] < k ++ slash :: rest := List.append_left_lt (List.nil_lt_cons _ _)
  rwa [List.append_nil] at happend

theorem parentPath_lt {k q : Bytes} (hk : slash ∈ k) (hq : parentPath k = some q) : q < k := by
  obtain ⟨name, hname⟩ := folderOf_prefix hk
  rw [parentPath_eq_folderOf] at hq
  split at hq
  · exact absurd hq (by simp)
  · rw [Option.some.injEq] at hq
    rw [hq] at hname
    have hlt := lt_below q name
    rwa [← hname] at hlt

end Paths

namespace Volume

section Replay

variable (vol : Volume) {t : Inodes} {path : Bytes}

theorem attempt_answer (f : Inodes → Option Inodes) (t : Inodes) :
    attempt (fun t => answer t (f t)) t = f t := by
  have hanswer : ∀ r : Option Inodes,
      (if (answer t r).1 = true then some (answer t r).2 else none) = r := by
    intro r
    cases r <;> rfl
  exact hanswer (f t)

theorem change_apply {f : Inode → Inode} {node : Inode} (hnode : t path = some node) :
    change f path t = some (Function.update t path (some (f node))) := by
  rw [change, hnode, Option.map_some]

/-- The pieces of a content are put together. -/
theorem writeAll_apply {permissions : BitVec 12} (content : Bytes)
    (hnode : t path = some ⟨some [], vol.clock path, permissions⟩) :
    writeAll vol.ops path content t =
      some (Function.update t path (some ⟨some content, vol.clock path, permissions⟩)) := by
  suffices hall : ∀ (l : List Bytes) (old : Bytes) (t : Inodes),
      t path = some ⟨some old, vol.clock path, permissions⟩ →
      l.foldlM (fun w piece => attempt (vol.ops.write path piece) w) t =
        some (Function.update t path (some ⟨some (old ++ l.flatten), vol.clock path, permissions⟩)) by
    have hpieces := hall (pieces maxMsgSize content) [] t hnode
    rw [flatten_pieces maxMsgSize_pos, List.nil_append] at hpieces
    exact hpieces
  intro l
  induction l with
  | nil =>
    intro old t hold
    rw [List.flatten_nil, List.append_nil, ← hold, Function.update_eq_self]
    rfl
  | cons piece l ih =>
    intro old t hold
    have hwrite : attempt (vol.ops.write path piece) t =
        some (Function.update t path (some ⟨some (old ++ piece), vol.clock path, permissions⟩)) := by
      rw [show vol.ops.write path piece = fun t => answer t (vol.write path piece t) from rfl,
        attempt_answer, write, hold]
    rw [List.foldlM_cons, hwrite, List.flatten_cons, ← List.append_assoc]
    show List.foldlM _ _ l = _
    rw [ih (old ++ piece) _ (Function.update_self _ _ _), Function.update_idem]

/-- What becomes of the parent and of the path of a new entry. -/
def placed (content : Option Bytes) (time : ℤ) (mode own : BitVec 12) (path : Bytes) (t : Inodes) :
    Inodes :=
  Function.update
    (Function.update t (folderOf path) (some ⟨none, vol.clock path, own⟩))
    path (some ⟨content, time, mode⟩)

theorem placed_self (content : Option Bytes) (time : ℤ) (mode own : BitVec 12) :
    vol.placed content time mode own path t path = some ⟨content, time, mode⟩ :=
  Function.update_self _ _ _

theorem update_placed (content content' : Option Bytes) (time time' : ℤ) (mode mode' own : BitVec 12) :
    Function.update (vol.placed content time mode own path t) path
      (some ⟨content', time', mode'⟩) = vol.placed content' time' mode' own path t :=
  Function.update_idem _ _ _

theorem create_apply {time : ℤ} {own : BitVec 12}
    (hfolder : t (folderOf path) = some ⟨none, time, own⟩) (content : Option Bytes) :
    vol.create content path t = if vol.admits own then
      some (vol.placed content (vol.clock path) vol.mode own path t) else none := by
  rw [create, hfolder]
  rfl

/-- The replay of an entry whose path is free. -/
theorem replayEntry_free {e : Entry} {time : ℤ} {own : BitVec 12}
    (hfree : t (tmpDir ++ e.path) = none)
    (hfolder : t (folderOf (tmpDir ++ e.path)) = some ⟨none, time, own⟩) :
    replayEntry vol.ops t e = if vol.admits own then
      some (vol.placed e.shown e.lastWriteTime (boostPermissions e.permissions vol.mode) own
        (tmpDir ++ e.path) t) else none := by
  have hstored : storePath vol.ops (tmpDir ++ e.path) e.isDirectory e.content t =
      if vol.admits own then
        some (vol.placed e.shown (vol.clock (tmpDir ++ e.path)) vol.mode own (tmpDir ++ e.path) t)
      else if e.isDirectory = 1 then none else some t := by
    unfold storePath Entry.shown
    by_cases hdir : e.isDirectory = 1
    · rw [if_pos hdir, if_pos hdir, if_pos hdir, show vol.ops.createDirectory (tmpDir ++ e.path) =
        fun t => answer t (vol.createDirectory (tmpDir ++ e.path) t) from rfl, attempt_answer,
        createDirectory, hfree]
      exact vol.create_apply hfolder none
    · rw [if_neg hdir, if_neg hdir, if_neg hdir]
      have hopen : vol.ops.openFile (tmpDir ++ e.path) t =
          answer t (vol.create (some []) (tmpDir ++ e.path) t) := by
        show answer t (vol.openFile (tmpDir ++ e.path) t) = _
        rw [openFile, hfree]
      unfold storeFile
      rw [hopen, vol.create_apply hfolder]
      by_cases hadmits : vol.admits own = true
      · rw [if_pos hadmits, if_pos hadmits, answer]
        dsimp only
        rw [if_pos rfl, vol.writeAll_apply e.content (vol.placed_self _ _ _ _), update_placed]
        rfl
      · rw [if_neg hadmits, if_neg hadmits, answer]
        exact if_neg (by simp)
  unfold replayEntry
  rw [hstored]
  by_cases hadmits : vol.admits own = true
  · rw [if_pos hadmits, if_pos hadmits]
    show (attempt (fun t => answer t (lastWriteTime e.lastWriteTime (tmpDir ++ e.path) t)) _).bind
      (attempt fun t => answer t (permissions e.permissions (tmpDir ++ e.path) t)) = _
    rw [attempt_answer, lastWriteTime, change_apply (vol.placed_self _ _ _ _), update_placed,
      Option.bind_some, attempt_answer, permissions, change_apply (vol.placed_self _ _ _ _),
      update_placed]
  · rw [if_neg hadmits, if_neg hadmits]
    by_cases hdir : e.isDirectory = 1
    · rw [if_pos hdir]
      rfl
    · rw [if_neg hdir]
      show (attempt (fun t => answer t (lastWriteTime e.lastWriteTime (tmpDir ++ e.path) t)) t).bind
        (attempt fun t => answer t (permissions e.permissions (tmpDir ++ e.path) t)) = _
      rw [attempt_answer, lastWriteTime, change, hfree]
      rfl

end Replay

section Staged

variable (vol : Volume)

/-- The entries that lie directly in a directory; in the staging directory for `none`. -/
def childrenOf (es : List Entry) (q : Option Bytes) : List Entry :=
  es.filter fun e => parentPath e.path = q

/-- The time of a directory: when its last entry was created, or `time` if it has none. -/
def changed (es : List Entry) (q : Option Bytes) (time : ℤ) : ℤ :=
  ((childrenOf es q).getLast?.map fun c => vol.clock (tmpDir ++ c.path)).getD time

/-- What a restored entry comes to. -/
def inodeOf (es : List Entry) (e : Entry) : Inode :=
  ⟨e.shown, vol.changed es (some e.path) e.lastWriteTime,
    boostPermissions e.permissions vol.mode⟩

/-- The staging directory with the entries in it. -/
def staged (es : List Entry) : Inodes := fun p =>
  if p = tmpDir then some ⟨none, vol.changed es none (vol.clock tmpDir), vol.mode⟩
  else (es.find? fun e => tmpDir ++ e.path = p).map (vol.inodeOf es)

/-- The directories admit what is created in them. -/
structure Admits (es : List Entry) : Prop where
  staging : es ≠ [] → vol.admits vol.mode = true
  entries : ∀ d ∈ es, (∃ e ∈ es, parentPath e.path = some d.path) →
    vol.admits (boostPermissions d.permissions vol.mode) = true

end Staged
end Volume

section Order

variable {es : List Entry} {e : Entry}

theorem ServerOrder.slash_mem (h : ServerOrder es) (he : e ∈ es) : slash ∈ e.path :=
  List.mem_of_mem_head? (h.absolute e he)

theorem ServerOrder.ne_tmpDir (h : ServerOrder es) (he : e ∈ es) : tmpDir ++ e.path ≠ tmpDir := by
  intro heq
  have hempty : e.path = [] := List.append_right_eq_self.mp heq
  have hslash := h.slash_mem he
  rw [hempty] at hslash
  exact absurd hslash List.not_mem_nil

theorem ServerOrder.last_lt (h : ServerOrder (es ++ [e])) {x : Entry} (hx : x ∈ es) :
    x.path < e.path := by
  have hsorted := h.sorted
  rw [List.map_append, List.pairwise_append] at hsorted
  exact hsorted.2.2 _ (List.mem_map_of_mem hx) _ (by simp)

/-- The entry that is sent last has nothing below it. -/
theorem ServerOrder.no_child (h : ServerOrder (es ++ [e])) {x : Entry} (hx : x ∈ es ++ [e]) :
    parentPath x.path ≠ some e.path := by
  intro hparent
  have hlt := parentPath_lt (h.slash_mem hx) hparent
  rcases List.mem_append.mp hx with hbefore | hlast
  · exact lt_asymm hlt (h.last_lt hbefore)
  · rw [List.mem_singleton.mp hlast] at hlt
    exact lt_irrefl _ hlt

theorem ServerOrder.init (h : ServerOrder (es ++ [e])) : ServerOrder es := by
  constructor
  · have hsorted := h.sorted
    rw [List.map_append, List.pairwise_append] at hsorted
    exact hsorted.1
  · exact fun x hx => h.absolute x (List.mem_append_left _ hx)
  · exact fun x hx => h.plain x (List.mem_append_left _ hx)
  · intro x hx q hq
    obtain ⟨d, hd, hpath, hdir⟩ := h.parents x (List.mem_append_left _ hx) q hq
    rcases List.mem_append.mp hd with hbefore | hlast
    · exact ⟨d, hbefore, hpath, hdir⟩
    · exfalso
      rw [List.mem_singleton.mp hlast] at hpath
      rw [← hpath] at hq
      exact h.no_child (List.mem_append_left _ hx) hq

/-- The paths of the entries are followed as they are written, to places that are all different. -/
theorem ServerOrder.places (h : ServerOrder es) :
    (∀ e ∈ es, e.Named) ∧ (es.map Entry.location).Nodup := by
  constructor
  · intro e he
    have hlocation := location_of_plain (h.absolute e he) (h.plain e he)
    refine ⟨h.absolute e he, ?_, ?_⟩
    · rw [hlocation]
      exact components_of_plain (h.absolute e he) (h.plain e he)
    · rw [hlocation]
      intro hempty
      have hpath : [slash].intercalate (e.path.splitOn slash) = e.path :=
        List.intercalate_splitOn slash
      rw [splitOn_of_absolute (h.absolute e he), hempty] at hpath
      have hslash := h.absolute e he
      rw [← hpath] at hslash
      exact absurd hslash (by simp)
  · have hpaths : (es.map Entry.path).Nodup := h.sorted.imp fun hlt => ne_of_lt hlt
    refine (List.nodup_map_iff_inj_on hpaths.of_map).mpr fun e he e' he' hlocation => ?_
    have hpath := plain_location_inj (h.absolute e he) (h.absolute e' he') (h.plain e he)
      (h.plain e' he') hlocation
    exact List.inj_on_of_nodup_map hpaths he he' hpath

theorem ServerOrder.path_inj (h : ServerOrder es) {d : Entry} (he : e ∈ es) (hd : d ∈ es)
    (hpath : e.path = d.path) : e = d :=
  List.inj_on_of_nodup_map (h.sorted.imp ne_of_lt) he hd hpath

end Order

namespace Volume

section Staged

variable (vol : Volume) {es : List Entry} {e : Entry} {p : Bytes}

theorem staged_tmpDir :
    vol.staged es tmpDir = some ⟨none, vol.changed es none (vol.clock tmpDir), vol.mode⟩ :=
  if_pos rfl

theorem staged_entry (h : ServerOrder es) (he : e ∈ es) :
    vol.staged es (tmpDir ++ e.path) = some (vol.inodeOf es e) := by
  have hfind : (es.find? fun x => tmpDir ++ x.path = tmpDir ++ e.path) = some e := by
    have hsome : (es.find? fun x => tmpDir ++ x.path = tmpDir ++ e.path).isSome = true := by
      rw [List.find?_isSome]
      exact ⟨e, he, by simp⟩
    obtain ⟨x, hx⟩ := Option.isSome_iff_exists.mp hsome
    have hpath : tmpDir ++ x.path = tmpDir ++ e.path := by simpa using List.find?_some hx
    rw [hx, h.path_inj (List.mem_of_find?_eq_some hx) he (List.append_cancel_left hpath)]
  rw [staged, if_neg (h.ne_tmpDir he), hfind, Option.map_some]

theorem staged_free (hp : p ≠ tmpDir) (hes : ∀ e ∈ es, tmpDir ++ e.path ≠ p) :
    vol.staged es p = none := by
  have hnone : (es.find? fun x => tmpDir ++ x.path = p) = none := by
    rw [List.find?_eq_none]
    intro x hx
    rw [decide_eq_true_eq]
    exact hes x hx
  rw [staged, if_neg hp, hnone, Option.map_none]

theorem changed_append_self (q : Option Bytes) (hq : parentPath e.path = q) (time : ℤ) :
    vol.changed (es ++ [e]) q time = vol.clock (tmpDir ++ e.path) := by
  have hchildren : childrenOf (es ++ [e]) q = childrenOf es q ++ [e] := by
    simp [childrenOf, hq]
  rw [changed, hchildren, List.getLast?_append_of_ne_nil _ (by simp)]
  rfl

theorem changed_append_of_ne (q : Option Bytes) (hq : parentPath e.path ≠ q) (time : ℤ) :
    vol.changed (es ++ [e]) q time = vol.changed es q time := by
  have hchildren : childrenOf (es ++ [e]) q = childrenOf es q := by
    simp [childrenOf, hq]
  rw [changed, hchildren, changed]

theorem changed_of_leaf (q : Option Bytes) (hq : ∀ x ∈ es, parentPath x.path ≠ q) (time : ℤ) :
    vol.changed es q time = time := by
  have hchildren : childrenOf es q = [] := by
    rw [childrenOf, List.filter_eq_nil_iff]
    intro x hx
    rw [decide_eq_true_eq]
    exact hq x hx
  rw [changed, hchildren]
  rfl

/-- Where the parent of the last entry stands: it is the staging directory, or one of the entries
before. -/
inductive Parent (es : List Entry) (e : Entry) : Bytes → BitVec 12 → Prop where
  | staging (hparent : parentPath e.path = none) : Parent es e tmpDir vol.mode
  | entry (d : Entry) (hd : d ∈ es) (hdir : d.isDirectory = 1)
      (hparent : parentPath e.path = some d.path) :
      Parent es e (tmpDir ++ d.path) (boostPermissions d.permissions vol.mode)

theorem parent_last (h : ServerOrder (es ++ [e])) :
    ∃ own, vol.Parent es e (folderOf (tmpDir ++ e.path)) own := by
  have he : e ∈ es ++ [e] := by simp
  rw [folderOf_append (h.slash_mem he)]
  by_cases hroot : folderOf e.path = []
  · rw [hroot, List.append_nil]
    refine ⟨_, .staging ?_⟩
    rw [parentPath_eq_folderOf, if_pos hroot]
  · have hparent : parentPath e.path = some (folderOf e.path) := by
      rw [parentPath_eq_folderOf, if_neg hroot]
    obtain ⟨d, hd, hpath, hdir⟩ := h.parents e he _ hparent
    have hbefore : d ∈ es := by
      refine (List.mem_append.mp hd).resolve_right fun hlast => ?_
      rw [List.mem_singleton.mp hlast] at hpath
      rw [← hpath] at hparent
      exact h.no_child he hparent
    rw [← hpath] at hparent ⊢
    exact ⟨_, .entry d hbefore hdir hparent⟩

variable {folder : Bytes} {own : BitVec 12}

theorem Parent.staged (hparent : vol.Parent es e folder own) (h : ServerOrder es) :
    ∃ time, vol.staged es folder = some ⟨none, time, own⟩ := by
  cases hparent with
  | staging => exact ⟨_, vol.staged_tmpDir⟩
  | entry d hd hdir =>
    refine ⟨vol.changed es (some d.path) d.lastWriteTime, ?_⟩
    rw [vol.staged_entry h hd, inodeOf, Entry.shown, if_pos hdir]

theorem Parent.folder_eq (hparent : vol.Parent es e folder own) :
    folder = tmpDir ++ (parentPath e.path).getD [] := by
  cases hparent with
  | staging hnone => rw [hnone, Option.getD_none, List.append_nil]
  | entry d hd hdir hsome => rw [hsome, Option.getD_some]

/-- The staging directory takes one more entry. -/
theorem staged_append (h : ServerOrder (es ++ [e]))
    (hparent : vol.Parent es e (folderOf (tmpDir ++ e.path)) own) :
    vol.staged (es ++ [e]) = vol.placed e.shown e.lastWriteTime
      (boostPermissions e.permissions vol.mode) own (tmpDir ++ e.path) (vol.staged es) := by
  have he : e ∈ es ++ [e] := by simp
  have hinode : ∀ x ∈ es, parentPath e.path ≠ some x.path →
      vol.staged (es ++ [e]) (tmpDir ++ x.path) = vol.staged es (tmpDir ++ x.path) := by
    intro x hx hother
    rw [vol.staged_entry h (List.mem_append_left _ hx), vol.staged_entry h.init hx, inodeOf, inodeOf,
      vol.changed_append_of_ne _ hother]
  funext p
  unfold placed
  by_cases hpath : p = tmpDir ++ e.path
  · rw [hpath, Function.update_self, vol.staged_entry h he, inodeOf,
      vol.changed_of_leaf _ fun x hx => h.no_child hx]
  · rw [Function.update_of_ne hpath]
    by_cases hfolder : p = folderOf (tmpDir ++ e.path)
    · rw [hfolder, Function.update_self]
      generalize folderOf (tmpDir ++ e.path) = folder at hparent
      cases hparent with
      | staging hnone => rw [vol.staged_tmpDir, vol.changed_append_self _ hnone]
      | entry d hd hdir hsome =>
        rw [vol.staged_entry h (List.mem_append_left _ hd), inodeOf,
          vol.changed_append_self _ hsome, Entry.shown, if_pos hdir]
    · rw [Function.update_of_ne hfolder]
      by_cases htmp : p = tmpDir
      · rw [htmp, vol.staged_tmpDir, vol.staged_tmpDir, vol.changed_append_of_ne]
        intro hnone
        rw [hparent.folder_eq, hnone, Option.getD_none, List.append_nil] at hfolder
        exact hfolder htmp
      · by_cases hold : ∃ x ∈ es, tmpDir ++ x.path = p
        · obtain ⟨x, hx, rfl⟩ := hold
          apply hinode x hx
          intro hsome
          rw [hparent.folder_eq, hsome, Option.getD_some] at hfolder
          exact hfolder rfl
        · have hfree : ∀ x ∈ es, tmpDir ++ x.path ≠ p := fun x hx heq => hold ⟨x, hx, heq⟩
          rw [vol.staged_free htmp hfree, vol.staged_free htmp]
          intro x hx
          rcases List.mem_append.mp hx with hbefore | hlast
          · exact hfree x hbefore
          · rw [List.mem_singleton.mp hlast]
            exact Ne.symm hpath

theorem staged_nil : vol.staged [] = vol.emptyStaging := by
  funext p
  unfold emptyStaging
  by_cases hp : p = tmpDir
  · rw [hp, Function.update_self, vol.staged_tmpDir]
    rfl
  · rw [Function.update_of_ne hp, vol.staged_free hp (by simp)]

theorem admits_append (h : ServerOrder (es ++ [e])) (hparent : vol.Parent es e folder own) :
    vol.Admits (es ++ [e]) ↔ vol.Admits es ∧ vol.admits own = true := by
  constructor
  · intro hadmits
    have hmode := hadmits.staging (by simp)
    refine ⟨⟨fun _ => hmode, fun d hd hchild => ?_⟩, ?_⟩
    · obtain ⟨x, hx, hsome⟩ := hchild
      exact hadmits.entries d (List.mem_append_left _ hd) ⟨x, List.mem_append_left _ hx, hsome⟩
    · cases hparent with
      | staging => exact hmode
      | entry d hd hdir hsome =>
        exact hadmits.entries d (List.mem_append_left _ hd) ⟨e, by simp, hsome⟩
  · intro hboth
    obtain ⟨hadmits, hown⟩ := hboth
    constructor
    · intro _
      cases hparent with
      | staging => exact hown
      | entry d hd => exact hadmits.staging (List.ne_nil_of_mem hd)
    · intro d hd hchild
      obtain ⟨x, hx, hsome⟩ := hchild
      have hbefore : d ∈ es := by
        refine (List.mem_append.mp hd).resolve_right fun hlast => ?_
        rw [List.mem_singleton.mp hlast] at hsome
        exact h.no_child hx hsome
      rcases List.mem_append.mp hx with hx | hlast
      · exact hadmits.entries d hbefore ⟨x, hx, hsome⟩
      · rw [List.mem_singleton.mp hlast] at hsome
        cases hparent with
        | staging hnone =>
          rw [hsome] at hnone
          exact absurd hnone (by simp)
        | entry d' hd' hdir' hsome' =>
          rw [hsome, Option.some.injEq] at hsome'
          rwa [h.init.path_inj hbefore hd' hsome']

/-- The replay of a whole restore: it comes to its end exactly where every directory admits what is
created in it. -/
theorem replay_staged (h : ServerOrder es) :
    (vol.Admits es → replay vol.ops es vol.emptyStaging = some (vol.staged es)) ∧
      (¬vol.Admits es → replay vol.ops es vol.emptyStaging = none) := by
  induction es using List.reverseRecOn with
  | nil =>
    have hadmits : vol.Admits [] := ⟨fun hne => absurd rfl hne, fun d hd => absurd hd (by simp)⟩
    refine ⟨fun _ => ?_, fun hno => absurd hadmits hno⟩
    rw [staged_nil]
    rfl
  | append_singleton es e ih =>
    obtain ⟨own, hparent⟩ := vol.parent_last h
    obtain ⟨time, hfolder⟩ := hparent.staged vol h.init
    have hfree : vol.staged es (tmpDir ++ e.path) = none := by
      refine vol.staged_free (h.ne_tmpDir (by simp)) fun x hx heq => ?_
      exact (h.last_lt hx).ne (List.append_cancel_left heq)
    have hentry := vol.replayEntry_free hfree hfolder
    rw [replay_append, vol.admits_append h hparent]
    obtain ⟨hyes, hno⟩ := ih h.init
    constructor
    · rintro ⟨hadmits, hown⟩
      rw [hyes hadmits, Option.bind_some, replay_cons, hentry, if_pos hown, Option.bind_some,
        replay_nil, vol.staged_append h hparent]
    · intro hstops
      by_cases hadmits : vol.Admits es
      · rw [hyes hadmits, Option.bind_some, replay_cons, hentry,
          if_neg fun hown => hstops ⟨hadmits, hown⟩]
        rfl
      · rw [hno hadmits]
        rfl

/-- What stands in the staging directory: it and the entries, with their contents. -/
theorem staged_content (h : ServerOrder es) (p : Bytes) (x : Option Bytes) :
    (vol.staged es p).map Inode.content = some x ↔
      p = tmpDir ∧ x = none ∨ ∃ e ∈ es, p = tmpDir ++ e.path ∧ x = e.shown := by
  by_cases htmp : p = tmpDir
  · rw [htmp, vol.staged_tmpDir]
    constructor
    · intro hx
      exact Or.inl ⟨rfl, (Option.some.inj hx).symm⟩
    · intro hor
      rcases hor with ⟨-, hx⟩ | ⟨e, he, hpath, -⟩
      · rw [hx]
        rfl
      · exact absurd hpath.symm (h.ne_tmpDir he)
  · constructor
    · intro hx
      by_cases hentry : ∃ e ∈ es, tmpDir ++ e.path = p
      · obtain ⟨e, he, rfl⟩ := hentry
        rw [vol.staged_entry h he] at hx
        exact Or.inr ⟨e, he, rfl, (Option.some.inj hx).symm⟩
      · rw [vol.staged_free htmp fun e he heq => hentry ⟨e, he, heq⟩] at hx
        exact absurd hx (by simp)
    · intro hor
      rcases hor with ⟨hp, -⟩ | ⟨e, he, hpath, hx⟩
      · exact absurd hp htmp
      · rw [hpath, hx, vol.staged_entry h he]
        rfl

end Staged
end Volume
end BackupManager.Client
