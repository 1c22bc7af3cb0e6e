import BackupManager.Client.ActionRestore
import BackupManager.FileTree.Tree
import Mathlib.Logic.Function.Basic

/-! The file operations of `action_restore` on a tree of directories and regular files. Any of them
may fail; a `remove_all` that fails has removed a part of the tree. -/
namespace BackupManager.Client
open ByteStream FileTree

/-- What a file has besides its name. The own time of a directory changes with its entries and is
left out. -/
structure FileData where
  content : Bytes
  lastWriteTime : ℤ
  permissions : ℤ
  deriving DecidableEq, Repr

/-- A directory has its permissions. -/
abbrev HostNode : Type := Node FileData ℤ

abbrev Location : Type := List Bytes

abbrev HostTree : Type := Tree Bytes FileData ℤ

/-- The system calls on a staged entry. -/
inductive Operation where
  | createDirectory
  | openFile
  | write
  | close
  | lastWriteTime
  | permissions
  deriving DecidableEq, Repr

/-- The machine of the client, and what is going to fail there. -/
structure Host where
  cwd : Location
  /-- The device that a directory belongs to. -/
  device : Location → ℕ
  now : ℤ
  filePermissions : ℤ
  directoryPermissions : ℤ
  /-- Whether a stream keeps a chunk in its buffer, by what waits there and by the size of the
  chunk. -/
  keeps : ℕ → ℕ → Bool
  /-- Whether a call on a staged entry fails, by the number of its kind before; `close` is the
  write of what waits in the buffer. -/
  fails : Operation → ℕ → Bool
  /-- How many bytes of a write that fails have reached the file. -/
  reaches : Operation → ℕ → ℕ
  /-- For a `remove_all` that fails, what it leaves. -/
  removal : Bytes → Option (Location → Bool)
  renameFails : Bool

structure FileSystem where
  tree : HostTree
  /-- How often each call on staged entries has been made so far. -/
  calls : Operation → ℕ
  /-- What waits in the buffer of the stream that is open. -/
  pending : Bytes

/-- One more call. -/
def FileSystem.count (fs : FileSystem) (op : Operation) : FileSystem :=
  { fs with calls := Function.update fs.calls op (fs.calls op + 1) }

def slash : UInt8 := 47

/-- The steps of a path; empty ones are dropped. -/
def components (path : Bytes) : List (Component Bytes) :=
  ((path.splitOn slash).filter (· ≠ [])).map fun c =>
    if c = [46] then .stay else if c = [46, 46] then .up else .name c

namespace Host

variable (h : Host)

/-- The location of a path, from the root or from the working directory; the empty path has
none. -/
def locate (fs : FileSystem) (path : Bytes) : Option Location :=
  if path = [] then none
  else resolve fs.tree h.cwd (if path.head? = some slash then [] else h.cwd) (components path)

/-- Where a path leads by its names. -/
def target (path : Bytes) : Location :=
  (components path).foldl Component.target (if path.head? = some slash then [] else h.cwd)

/-- `change` says what becomes of what stands at the path, if that is possible. -/
def alter (change : Option HostNode → Option HostNode) (path : Bytes) (fs : FileSystem) :
    Option FileSystem := do
  let l ← h.locate fs path
  let node ← change (fs.tree l)
  some { fs with tree := Function.update fs.tree l (some node) }

/-- A call on one staged entry. -/
def edit (op : Operation) (change : Option HostNode → Option HostNode) (path : Bytes)
    (fs : FileSystem) : Bool × FileSystem :=
  if h.fails op (fs.calls op) then (false, fs.count op)
  else
    match h.alter change path (fs.count op) with
    | none => (false, fs.count op)
    | some fs' => (true, fs')

/-- `create_directory`: a directory that exists is left as it is. -/
def createDirectory : Option HostNode → Option HostNode
  | none => some (.directory h.directoryPermissions)
  | some (.directory permissions) => some (.directory permissions)
  | some (.file _) => none

/-- The constructor of `ofstream`: the file is created, or emptied. -/
def openFile : Option HostNode → Option HostNode
  | none => some (.file ⟨[], h.now, h.filePermissions⟩)
  | some (.file data) => some (.file { data with content := [], lastWriteTime := h.now })
  | some (.directory _) => none

def extend (bytes : Bytes) : Option HostNode → Option HostNode
  | some (.file data) =>
    some (.file { data with content := data.content ++ bytes, lastWriteTime := h.now })
  | _ => none

/-- The bytes that reach a file, of those that a call is to write. -/
def reached (op : Operation) (n : ℕ) (bytes : Bytes) : Bytes :=
  if h.fails op n then bytes.take (h.reaches op n) else bytes

/-- A call that writes to the file of a stream; one that fails has written a part. -/
def append (op : Operation) (bytes path : Bytes) (fs : FileSystem) : Bool × FileSystem :=
  match h.alter (h.extend (h.reached op (fs.calls op) bytes)) path (fs.count op) with
  | none => (false, fs.count op)
  | some fs' => (!h.fails op (fs.calls op), fs')

/-- `write` of a stream: the chunk stays in the buffer, or goes to the file behind what waits
there. -/
def write (path chunk : Bytes) (fs : FileSystem) : Bool × FileSystem :=
  if h.keeps fs.pending.length chunk.length then (true, { fs with pending := fs.pending ++ chunk })
  else
    let r := h.append .write (fs.pending ++ chunk) path fs
    (r.1, if r.1 then { r.2 with pending := [] } else r.2)

/-- The destructor of a stream writes what waits in the buffer, if it can. -/
def closeFile (path : Bytes) (fs : FileSystem) : FileSystem :=
  if fs.pending = [] then fs
  else { (h.append .close fs.pending path fs).2 with pending := [] }

def lastWriteTime (time : ℤ) : Option HostNode → Option HostNode
  | some (.file data) => some (.file { data with lastWriteTime := time })
  | some (.directory permissions) => some (.directory permissions)
  | none => none

def permissions (mode : ℤ) : Option HostNode → Option HostNode
  | some (.file data) => some (.file { data with permissions := mode })
  | some (.directory _) => some (.directory mode)
  | none => none

/-- Whether `remove_all` gets to its end: a path that ends in `.` or `..`, the root and the root of
a device cannot be removed themselves. -/
def Removes (path : Bytes) (l : Location) : Prop :=
  h.removal path = none ∧ (∃ n, (components path).getLast? = some (.name n)) ∧
    h.device l = h.device l.dropLast

/-- What a `remove_all` that fails leaves below its root. -/
def left (path : Bytes) : Location → Bool := (h.removal path).getD fun _ => false

end Host

/-- Whether the path ends in a name. -/
instance (path : Bytes) : Decidable (∃ n, (components path).getLast? = some (.name n)) :=
  match hlast : (components path).getLast? with
  | some (.name n) => .isTrue ⟨n, rfl⟩
  | some .up => .isFalse fun ⟨_, h⟩ => by simp at h
  | some .stay => .isFalse fun ⟨_, h⟩ => by simp at h
  | none => .isFalse fun ⟨_, h⟩ => by simp at h

instance (h : Host) (path : Bytes) (l : Location) : Decidable (h.Removes path l) :=
  decidable_of_iff ((h.removal path).isNone ∧
      (∃ n, (components path).getLast? = some (.name n)) ∧ h.device l = h.device l.dropLast)
    (and_congr_left fun _ => Option.isNone_iff_eq_none)

namespace Host

variable (h : Host)

/-- `remove_all`; where nothing stands there is nothing to fail. -/
def removeAll (path : Bytes) (fs : FileSystem) : Bool × FileSystem :=
  match h.locate fs path with
  | none => (true, fs)
  | some l =>
    if (fs.tree l).isNone ∨ h.Removes path l then (true, { fs with tree := prune fs.tree l })
    else (false, { fs with tree := prunePart fs.tree l (h.left path) })

/-- `rename` of a directory to a path that is free, on the same device and not below it. -/
def rename (source target : Bytes) (fs : FileSystem) : Bool × FileSystem :=
  match h.locate fs source, h.locate fs target with
  | some a, some b =>
    if h.renameFails = false ∧ IsDirectory fs.tree a ∧ (fs.tree b).isNone ∧ ¬a <+: b ∧
        h.device a = h.device b.dropLast then
      (true, { fs with tree := move fs.tree a b })
    else (false, fs)
  | _, _ => (false, fs)

def ops : FileOps FileSystem where
  createDirectory := h.edit .createDirectory h.createDirectory
  openFile path fs := h.edit .openFile h.openFile path { fs with pending := [] }
  write := h.write
  closeFile := h.closeFile
  lastWriteTime path time := h.edit .lastWriteTime (lastWriteTime time) path
  permissions path mode := h.edit .permissions (permissions mode) path
  removeAll := h.removeAll
  rename := h.rename

/-- Where `../tmp_restore_dir` is. -/
def staging : Location := h.cwd.dropLast ++ [tmpDir.drop 3]

section Locations

variable {h} {fs fs' : FileSystem} {path : Bytes} {l x : Location}

theorem locate_tmpDir : h.locate fs tmpDir =
    if IsDirectory fs.tree h.cwd.dropLast then some h.staging else none := by
  have hcomponents : components tmpDir = [.up, .name (tmpDir.drop 3)] := by decide
  have hhead : ¬tmpDir.head? = some slash := by decide
  have hempty : ¬tmpDir = [] := by decide
  have hup : enter fs.tree h.cwd h.cwd .up = some h.cwd.dropLast :=
    if_pos (Or.inr ⟨rfl, rfl⟩)
  have hname : enter fs.tree h.cwd h.cwd.dropLast (.name (tmpDir.drop 3)) =
      if IsDirectory fs.tree h.cwd.dropLast then some h.staging else none := by
    by_cases hdir : IsDirectory fs.tree h.cwd.dropLast
    · rw [if_pos hdir]
      exact if_pos (Or.inl hdir)
    · rw [if_neg hdir]
      exact if_neg fun hleaves => hleaves.elim hdir fun hup => by simp at hup
  unfold locate
  rw [if_neg hempty, hcomponents, if_neg hhead, resolve, hup, Option.bind_some, resolve, hname]
  split <;> rfl

theorem eq_staging (hl : h.locate fs tmpDir = some l) : l = h.staging := by
  rw [locate_tmpDir] at hl
  split at hl
  · exact (Option.some.inj hl).symm
  · exact absurd hl (by simp)

theorem locate_eq_some : h.locate fs path = some l ↔ path ≠ [] ∧
    resolve fs.tree h.cwd (if path.head? = some slash then [] else h.cwd) (components path) =
      some l := by
  unfold locate
  split
  · next hempty => simp [hempty]
  · next hempty => simp [hempty]

theorem locate_mono (hmono : ∀ x, IsDirectory fs.tree x → IsDirectory fs'.tree x)
    (hl : h.locate fs path = some l) : h.locate fs' path = some l := by
  rw [locate_eq_some] at hl ⊢
  exact ⟨hl.1, resolve_mono hmono hl.2⟩

theorem not_prefix_parent : ¬h.staging <+: h.cwd.dropLast := by
  intro hp
  have hlength := hp.length_le
  rw [staging, List.length_append, List.length_singleton] at hlength
  omega

/-- A removal leaves what is not below its path. -/
theorem removeAll_of_not_prefix (hx : ∀ l, h.locate fs path = some l → ¬l <+: x) :
    (h.removeAll path fs).2.tree x = fs.tree x := by
  unfold removeAll
  cases hl : h.locate fs path with
  | none => rfl
  | some l =>
    dsimp only
    split
    · exact prune_outside (hx l hl)
    · exact if_neg fun hp => hx l hl hp.1

/-- A removal puts nothing anywhere. -/
theorem removeAll_of_none (hx : fs.tree x = none) : (h.removeAll path fs).2.tree x = none := by
  unfold removeAll
  cases hl : h.locate fs path with
  | none => exact hx
  | some l =>
    dsimp only
    split
    · show prune fs.tree l x = none
      unfold prune
      split
      · rfl
      · exact hx
    · show prunePart fs.tree l _ x = none
      unfold prunePart
      split
      · rfl
      · exact hx

theorem removeAll_of_removes (hl : h.locate fs path = some l) (hremoves : h.Removes path l) :
    h.removeAll path fs = (true, { fs with tree := prune fs.tree l }) := by
  unfold removeAll
  rw [hl]
  exact if_pos (Or.inr hremoves)

theorem removeAll_of_not_removes (hl : h.locate fs path = some l) (hsome : fs.tree l ≠ none)
    (hremoves : ¬h.Removes path l) : h.removeAll path fs =
      (false, { fs with tree := prunePart fs.tree l (h.left path) }) := by
  unfold removeAll
  rw [hl]
  refine if_neg fun hor => hor.elim (fun hnone => hsome ?_) hremoves
  exact Option.isNone_iff_eq_none.mp hnone

/-- A path that resolves stands where its names lead. -/
theorem locate_target (hl : h.locate fs path = some l) : l = h.target path :=
  (resolve_eq_some.mp (locate_eq_some.mp hl).2).2.symm

theorem locate_eq_target : h.locate fs path = some (h.target path) ↔ path ≠ [] ∧
    Walks (IsDirectory fs.tree) h.cwd (if path.head? = some slash then [] else h.cwd)
      (components path) := by
  rw [locate_eq_some, resolve_eq_some]
  exact and_congr_right fun _ => and_iff_left rfl

end Locations

section Edits

variable {h : Host} {fs fs' : FileSystem} {path : Bytes} {op : Operation}
  {change : Option HostNode → Option HostNode}

theorem alter_eq_some : h.alter change path fs = some fs' ↔
    h.locate fs path = some (h.target path) ∧ ∃ node, change (fs.tree (h.target path)) = some node ∧
      fs' = { fs with tree := Function.update fs.tree (h.target path) (some node) } := by
  unfold alter
  constructor
  · intro halter
    obtain ⟨l, hl, halter⟩ := Option.bind_eq_some_iff.mp halter
    obtain ⟨node, hnode, halter⟩ := Option.bind_eq_some_iff.mp halter
    have htarget := locate_target hl
    subst htarget
    exact ⟨hl, node, hnode, (Option.some.inj halter).symm⟩
  · intro halter
    obtain ⟨hl, node, hnode, rfl⟩ := halter
    rw [hl, Option.bind_eq_bind, Option.bind_some, hnode]
    rfl

/-- The calls on entries at certain locations: directories stay directories, and what stands
elsewhere stays as it is. -/
structure Edited (s : Location → Prop) (fs fs' : FileSystem) : Prop where
  directories : ∀ x, IsDirectory fs.tree x → IsDirectory fs'.tree x
  elsewhere : ∀ x, ¬s x → fs'.tree x = fs.tree x

variable {s : Location → Prop}

theorem Edited.of_tree_eq (htree : fs'.tree = fs.tree) : Edited s fs fs' :=
  ⟨fun x hx => by rwa [htree], fun x _ => by rw [htree]⟩

theorem Edited.refl (fs : FileSystem) : Edited s fs fs := .of_tree_eq rfl

theorem Edited.trans {fs'' : FileSystem} (h₁ : Edited s fs fs') (h₂ : Edited s fs' fs'') :
    Edited s fs fs'' :=
  ⟨fun x hx => h₂.directories x (h₁.directories x hx),
    fun x hx => (h₂.elsewhere x hx).trans (h₁.elsewhere x hx)⟩

theorem edited_alter (hs : s (h.target path))
    (hchange : ∀ n, n.IsDirectory → ∀ n' ∈ change (some n), n'.IsDirectory)
    (halter : h.alter change path fs = some fs') : Edited s fs fs' := by
  obtain ⟨-, node, hnode, rfl⟩ := alter_eq_some.mp halter
  constructor
  · intro x hx
    obtain ⟨n, hn, hdir⟩ := hx
    by_cases hxl : x = h.target path
    · subst hxl
      rw [Option.mem_def.mp hn] at hnode
      exact ⟨node, Function.update_self _ _ _, hchange n hdir node hnode⟩
    · exact ⟨n, (Function.update_of_ne hxl _ _).trans hn, hdir⟩
  · intro x hx
    apply Function.update_of_ne
    rintro rfl
    exact hx hs

theorem edited_edit (hs : s (h.target path))
    (hchange : ∀ n, n.IsDirectory → ∀ n' ∈ change (some n), n'.IsDirectory) :
    Edited s fs (h.edit op change path fs).2 := by
  have hcount : Edited s fs (fs.count op) := .of_tree_eq rfl
  unfold edit
  split
  · exact hcount
  · split
    · exact hcount
    · next fs' halter => exact hcount.trans (edited_alter hs hchange halter)

theorem edited_append (hs : s (h.target path)) (bytes : Bytes) :
    Edited s fs (h.append op bytes path fs).2 := by
  have hcount : Edited s fs (fs.count op) := .of_tree_eq rfl
  unfold append
  split
  · exact hcount
  · next fs' halter =>
    refine hcount.trans (edited_alter hs (fun n hn n' hn' => ?_) halter)
    cases n with
    | file data => exact hn.elim
    | directory permissions => exact absurd hn' (by simp [extend])

theorem createDirectory_isDirectory {n : Option HostNode} :
    ∀ n' ∈ h.createDirectory n, n'.IsDirectory := by
  intro n' hn'
  cases n with
  | none =>
    rw [← Option.mem_some_iff.mp hn']
    trivial
  | some n =>
    cases n with
    | file data => exact absurd hn' (by simp [createDirectory])
    | directory permissions =>
      rw [← Option.mem_some_iff.mp hn']
      trivial

/-- When a call works, and what it does then. -/
theorem edit_eq_true : h.edit op change path fs = (true, fs') ↔
    h.fails op (fs.calls op) = false ∧ h.locate fs path = some (h.target path) ∧
      ∃ node, change (fs.tree (h.target path)) = some node ∧
        fs' = { fs.count op with tree := Function.update fs.tree (h.target path) (some node) } := by
  have halter : h.alter change path (fs.count op) = some fs' ↔ _ := alter_eq_some
  unfold edit
  split
  · next hfails => simp [hfails]
  · next hfails =>
    rw [Bool.not_eq_true] at hfails
    rw [and_iff_right hfails]
    refine Iff.trans ?_ halter
    split
    · next hnone => simp [hnone]
    · next fs₁ hsome => simp [hsome]

theorem edit_eq_false (hok : h.edit op change path fs = (false, fs')) : fs' = fs.count op := by
  unfold edit at hok
  split at hok
  · exact (Prod.mk.inj hok).2.symm
  · split at hok
    · exact (Prod.mk.inj hok).2.symm
    · exact absurd (congrArg Prod.fst hok) (by simp)

end Edits
end Host
end BackupManager.Client
