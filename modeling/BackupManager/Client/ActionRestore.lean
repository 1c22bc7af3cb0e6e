import BackupManager.ByteStream.Ends
import BackupManager.Protocol.Codes

/-! `action_restore` of the client, over the operations of a file system. What it has read is
recorded as it is understood. -/
namespace BackupManager.Client
open ByteStream Protocol

/-- The operations of the file system. `false` is an exception; for `openFile` it is a stream
that was not opened, which throws nothing and drops what is written to it. What `closeFile` cannot
write is lost without an exception. -/
structure FileOps (φ : Type) where
  createDirectory : Bytes → φ → Bool × φ
  openFile : Bytes → φ → Bool × φ
  write : Bytes → Bytes → φ → Bool × φ
  closeFile : Bytes → φ → φ
  lastWriteTime : Bytes → ℤ → φ → Bool × φ
  permissions : Bytes → ℤ → φ → Bool × φ
  removeAll : Bytes → φ → Bool × φ
  rename : Bytes → Bytes → φ → Bool × φ

/-- One entry, as the client understands it. -/
structure Entry where
  path : Bytes
  lastWriteTime : ℤ
  permissions : ℤ
  isDirectory : ℤ
  content : Bytes
  deriving DecidableEq, Repr

inductive Received where
  | count (n : ℤ)
  | entry (e : Entry)
  deriving DecidableEq, Repr

structure Restoring (φ : Type) where
  sent : List Bytes
  files : φ
  received : List Received

abbrev Restorer (φ α : Type) : Type := Prog (Restoring φ) α

/-- The variables of the loop, which keep their values from one entry to the next. -/
structure Locals where
  size : ℤ
  isDirectory : ℤ
  pathLength : ℤ
  path : Bytes
  lastWriteTime : ℤ
  permissions : ℤ
  deriving DecidableEq, Repr

/-- `../tmp_restore_dir`. -/
def tmpDir : Bytes :=
  [46, 46, 47, 116, 109, 112, 95, 114, 101, 115, 116, 111, 114, 101, 95, 100, 105, 114]

open Prog

section Operations

variable {φ : Type}

/-- The result of a file operation. -/
def ask (f : φ → Bool × φ) : Restorer φ Bool := fun s =>
  (.returns (f s.world.files).1, { s with world := { s.world with files := (f s.world.files).2 } })

/-- A file operation whose failure is an exception. -/
def require (what : String) (f : φ → Bool × φ) : Restorer φ Unit := do
  let ok ← ask f
  if ok then pure () else throw what

def note (r : Received) : Restorer φ Unit :=
  modifyWorld fun w => { w with received := w.received ++ [r] }

/-- `boost::asio::write`. -/
def write (bytes : Bytes) : Restorer φ Unit :=
  modifyWorld fun w => { w with sent := w.sent ++ [bytes] }

theorem note_apply (r : Received) (s : Session (Restoring φ)) :
    note r s = (.returns (),
      { s with world := { s.world with received := s.world.received ++ [r] } }) := rfl

theorem write_apply (bytes : Bytes) (s : Session (Restoring φ)) :
    write bytes s = (.returns (),
      { s with world := { s.world with sent := s.world.sent ++ [bytes] } }) := rfl

/-- `of.write` for what arrives; a stream that was not opened drops it. -/
def writeChunk (ops : FileOps φ) (filePath : Bytes) (isOpen : Bool) (chunk : Bytes) :
    Restorer φ Unit :=
  if isOpen then require "basic_ios::clear" (ops.write filePath chunk) else pure ()

/-- The destructor of `of`. -/
def closeStream (ops : FileOps φ) (filePath : Bytes) (isOpen : Bool) (w : Restoring φ) :
    Restoring φ :=
  if isOpen then { w with files := ops.closeFile filePath w.files } else w

@[simp] theorem received_closeStream (ops : FileOps φ) (filePath : Bytes) (isOpen : Bool)
    (w : Restoring φ) : (closeStream ops filePath isOpen w).received = w.received := by
  unfold closeStream
  split
  · rfl
  · rfl

/-- The content of a file: the variable `size` afterwards, and the bytes. -/
def receiveFile (ops : FileOps φ) (filePath : Bytes) (old : ℤ) : Restorer φ (ℤ × Bytes) := do
  let size ← recvInt intMaxNDigit old
  ignore
  let isOpen ← ask (ops.openFile filePath)
  let content ← withDestructor
    (recvChunks maxMsgSize (writeChunk ops filePath isOpen) size.toNat)
    (closeStream ops filePath isOpen)
  pure (min size 0, content)

/-- The folder or the file of an entry. -/
def receivePath (ops : FileOps φ) (filePath : Bytes) (isDirectory old : ℤ) :
    Restorer φ (ℤ × Bytes) :=
  if isDirectory = 1 then do
    require "create_directory" (ops.createDirectory filePath)
    pure (old, [])
  else receiveFile ops filePath old

/-- The second half of a round: the path is created and gets its time and its permissions. -/
def storeEntry (ops : FileOps φ) (v : Locals) (pathLength : ℤ) (path : Bytes)
    (lastWriteTime permissions : ℤ) : Restorer φ Locals := do
  let isDirectory ← recvInt intMaxNDigit v.isDirectory
  let file ← receivePath ops (tmpDir ++ path) isDirectory v.size
  note (.entry ⟨path, lastWriteTime, permissions, isDirectory, file.2⟩)
  require "Error while reading permissions" (ops.lastWriteTime (tmpDir ++ path) lastWriteTime)
  require "Error while writing permissions" (ops.permissions (tmpDir ++ path) permissions)
  pure ⟨file.1, isDirectory, pathLength, path, lastWriteTime, permissions⟩

/-- One round of the loop of `action_restore`. -/
def receiveEntry (ops : FileOps φ) (v : Locals) : Restorer φ Locals := do
  let pathLength ← recvInt intMaxNDigit v.pathLength
  let path ← recvLine (sizeOfInt (intSucc pathLength)) v.path
  let lastWriteTime ← recvInt intMaxNDigit v.lastWriteTime
  let permissions ← recvInt intMaxNDigit v.permissions
  storeEntry ops v pathLength path lastWriteTime permissions

def receiveEntries (ops : FileOps φ) : ℕ → Locals → Restorer φ Unit
  | 0, _ => pure ()
  | n + 1, v => do
    let v ← receiveEntry ops v
    receiveEntries ops n v

/-- What `action_restore` writes before it reads anything. -/
def dateBlock (date : Bytes) : Bytes := field intMaxNDigit date.length ++ date ++ [newline]

/-- The protected part of `action_restore`; `v` and `pathNumber` are what its variables hold
before they are assigned. -/
def restoreInto (ops : FileOps φ) (v : Locals) (pathNumber : ℤ) (date userPath : Bytes) :
    Restorer φ Unit := do
  write (dateBlock date)
  let pathNumber ← recvInt intMaxNDigit pathNumber
  note (.count pathNumber)
  require "create_directory" (ops.createDirectory tmpDir)
  receiveEntries ops pathNumber.toNat v
  require "remove_all" (ops.removeAll userPath)
  require "rename" (ops.rename tmpDir userPath)

/-- The `catch` block of `action_restore`. -/
def cleanUp (ops : FileOps φ) : Restorer φ Unit := do
  require "remove_all" (ops.removeAll tmpDir)
  throw "Restore error"

def actionRestore (ops : FileOps φ) (v : Locals) (pathNumber : ℤ) (date userPath : Bytes) :
    Restorer φ Unit :=
  tryCatch (restoreInto ops v pathNumber date userPath) fun _ => cleanUp ops

/-- No operation throws. -/
structure FileOps.Succeeds (ops : FileOps φ) : Prop where
  createDirectory : ∀ path w, (ops.createDirectory path w).1 = true
  write : ∀ path bytes w, (ops.write path bytes w).1 = true
  lastWriteTime : ∀ path time w, (ops.lastWriteTime path time w).1 = true
  permissions : ∀ path mode w, (ops.permissions path mode w).1 = true
  removeAll : ∀ path w, (ops.removeAll path w).1 = true
  rename : ∀ source target w, (ops.rename source target w).1 = true

/-- A file operation changes the files only. -/
theorem ends_require {what : String} {f : φ → Bool × φ} {s : Session (Restoring φ)}
    {Q : Unit → Session (Restoring φ) → Prop} {E : Session (Restoring φ) → Prop}
    (hQ : ∀ files, Q () { s with world := { s.world with files := files } })
    (hE : (∃ w, (f w).1 ≠ true) → ∀ files, E { s with world := { s.world with files := files } }) :
    Ends (require what f) s Q E := by
  have hask : ask f s = (.returns (f s.world.files).1,
      { s with world := { s.world with files := (f s.world.files).2 } }) := rfl
  refine .bind_of_returns hask ?_
  by_cases h : (f s.world.files).1 = true
  · rw [if_pos h]
    exact .pure (hQ _)
  · rw [if_neg h]
    exact .throw (hE ⟨_, h⟩ _)

theorem require_returns {what : String} {f : φ → Bool × φ} {s s' : Session (Restoring φ)}
    (h : require what f s = (.returns (), s')) :
    ∃ files, s' = { s with world := { s.world with files := files } } := by
  have hends : Ends (require what f) s
      (fun _ s' => ∃ files, s' = { s with world := { s.world with files := files } })
      (fun _ => True) := ends_require (fun files => ⟨files, rfl⟩) fun _ _ => trivial
  exact hends.returns h

/-- The clean-up throws, whether or not it succeeds. -/
theorem ends_cleanUp {ops : FileOps φ} {s : Session (Restoring φ)}
    {Q : Unit → Session (Restoring φ) → Prop} {E : Session (Restoring φ) → Prop}
    (hE : ∀ files, E { s with world := { s.world with files := files } }) :
    Ends (cleanUp ops) s Q E :=
  .bind (ends_require (fun files => .throw (hE files)) fun _ files => hE files)

theorem keeps_require (what : String) (f : φ → Bool × φ) : Keeps Broken (require what f) := by
  refine .bind (fun _ h => h) fun ok => ?_
  split
  · exact .pure _
  · exact .throw _

theorem keeps_receiveFile (ops : FileOps φ) (filePath : Bytes) (old : ℤ) :
    Keeps Broken (receiveFile ops filePath old) := by
  refine .bind (.recvInt _ _) fun _ => .bind .ignore fun _ => .bind (fun _ h => h) fun isOpen =>
    .bind (.withDestructor (.recvChunks (fun chunk => ?_) _) _) fun _ => .pure _
  unfold writeChunk
  split
  · exact keeps_require _ _
  · exact .pure _

theorem keeps_receivePath (ops : FileOps φ) (filePath : Bytes) (isDirectory old : ℤ) :
    Keeps Broken (receivePath ops filePath isDirectory old) := by
  unfold receivePath
  split
  · exact .bind (keeps_require _ _) fun _ => .pure _
  · exact keeps_receiveFile _ _ _

theorem keeps_storeEntry (ops : FileOps φ) (v : Locals) (pathLength : ℤ) (path : Bytes)
    (lastWriteTime permissions : ℤ) :
    Keeps Broken (storeEntry ops v pathLength path lastWriteTime permissions) :=
  .bind (.recvInt _ _) fun _ => .bind (keeps_receivePath _ _ _ _) fun _ =>
    .bind (.modifyWorld _) fun _ => .bind (keeps_require _ _) fun _ =>
    .bind (keeps_require _ _) fun _ => .pure _

theorem keeps_receiveEntry (ops : FileOps φ) (v : Locals) : Keeps Broken (receiveEntry ops v) :=
  .bind (.recvInt _ _) fun _ => .bind (.recvLine _ _) fun _ => .bind (.recvInt _ _) fun _ =>
    .bind (.recvInt _ _) fun _ => keeps_storeEntry _ _ _ _ _ _

theorem keeps_receiveEntries (ops : FileOps φ) (n : ℕ) (v : Locals) :
    Keeps Broken (receiveEntries ops n v) := by
  induction n generalizing v with
  | zero => exact .pure _
  | succ n ih => exact .bind (keeps_receiveEntry ops v) fun v => ih v

/-- A restore returns only through its protected part. -/
theorem actionRestore_returns {ops : FileOps φ} {v : Locals} {pathNumber : ℤ}
    {date userPath : Bytes} {s s' : Session (Restoring φ)}
    (h : actionRestore ops v pathNumber date userPath s = (.returns (), s')) :
    restoreInto ops v pathNumber date userPath s = (.returns (), s') := by
  unfold actionRestore Prog.tryCatch at h
  cases hrun : restoreInto ops v pathNumber date userPath s with
  | mk o s₁ =>
    rw [hrun] at h
    cases o with
    | returns a => exact h
    | throws what =>
      have hfalse : Ends (cleanUp ops) s₁ (fun _ _ => False) (fun _ => True) :=
        ends_cleanUp fun _ => trivial
      exact (hfalse.returns h).elim
    | waits => exact h

/-- A restore that returns has gone through all its phases: the number, the folder for what arrives, the
entries, and the exchange of the folders. -/
theorem actionRestore_phases {ops : FileOps φ} {v : Locals} {pathNumber : ℤ}
    {date userPath : Bytes} {s s' : Session (Restoring φ)}
    (h : actionRestore ops v pathNumber date userPath s = (.returns (), s')) :
    ∃ n s₁ s₃ files files',
      recvInt intMaxNDigit pathNumber { s with world :=
        { s.world with sent := s.world.sent ++ [dateBlock date] } } = (.returns n, s₁) ∧
      receiveEntries ops n.toNat v { s₁ with world :=
        { s₁.world with received := s₁.world.received ++ [.count n], files := files } } =
          (.returns (), s₃) ∧
      s' = { s₃ with world := { s₃.world with files := files' } } := by
  have hrun := actionRestore_returns h
  rw [restoreInto, bind_of_returns (write_apply _ _)] at hrun
  obtain ⟨n, s₁, hcount, hrun⟩ := bind_returns hrun
  rw [bind_of_returns (note_apply _ _)] at hrun
  obtain ⟨_, s₂, hcreate, hrun⟩ := bind_returns hrun
  obtain ⟨_, s₃, hentries, hrun⟩ := bind_returns hrun
  obtain ⟨_, s₄, hremove, hrename⟩ := bind_returns hrun
  obtain ⟨files, rfl⟩ := require_returns hcreate
  obtain ⟨_, rfl⟩ := require_returns hremove
  obtain ⟨files', rfl⟩ := require_returns hrename
  exact ⟨n, s₁, s₃, files, files', hcount, hentries, rfl⟩

section Steps

/-- A relation that does not look at the files. -/
class IgnoresFiles (R : Restoring φ → Restoring φ → Prop) : Prop extends Std.Refl R,
    IsTrans (Restoring φ) R where
  files : ∀ w files, R w { w with files := files }

/-- Nothing more has been understood. -/
def SameReceived (w w' : Restoring φ) : Prop := w.received = w'.received

/-- What has been understood stays. -/
def MoreReceived (w w' : Restoring φ) : Prop := w.received <+: w'.received

instance : IgnoresFiles (SameReceived (φ := φ)) where
  refl _ := rfl
  trans _ _ _ := Eq.trans
  files _ _ := rfl

instance : IgnoresFiles (MoreReceived (φ := φ)) where
  refl _ := List.prefix_refl _
  trans _ _ _ := List.IsPrefix.trans
  files _ _ := List.prefix_refl _

variable {R : Restoring φ → Restoring φ → Prop} [IgnoresFiles R]

theorem steps_ask (f : φ → Bool × φ) : Steps R (ask f) := fun _ => IgnoresFiles.files _ _

theorem steps_require (what : String) (f : φ → Bool × φ) : Steps R (require what f) := by
  refine .bind (steps_ask f) fun ok => ?_
  split
  · exact .pure _
  · exact .throw _

theorem steps_receivePath (ops : FileOps φ) (filePath : Bytes) (isDirectory old : ℤ) :
    Steps R (receivePath ops filePath isDirectory old) := by
  unfold receivePath
  split
  · exact .bind (steps_require _ _) fun _ => .pure _
  · have hwrite : ∀ isOpen chunk, Steps R (writeChunk ops filePath isOpen chunk) := by
      intro isOpen chunk
      unfold writeChunk
      split
      · exact steps_require _ _
      · exact .pure _
    have hclose : ∀ isOpen w, R w (closeStream ops filePath isOpen w) := by
      intro isOpen w
      unfold closeStream
      split
      · exact IgnoresFiles.files _ _
      · exact Std.Refl.refl w
    exact .bind (.recvInt _ _) fun _ => .bind (.extract _) fun _ => .bind (steps_ask _) fun isOpen =>
      .bind (.withDestructor (.recvChunks (hwrite isOpen) _) (hclose isOpen)) fun _ => .pure _

theorem steps_note (r : Received) : Steps (MoreReceived (φ := φ)) (note r) :=
  .modifyWorld fun w => List.prefix_append w.received [r]

theorem steps_receiveEntries (ops : FileOps φ) (n : ℕ) (v : Locals) :
    Steps MoreReceived (receiveEntries ops n v) := by
  induction n generalizing v with
  | zero => exact .pure _
  | succ n ih =>
    refine .bind (.bind (.recvInt _ _) fun _ => .bind (.recvLine _ _) fun _ =>
      .bind (.recvInt _ _) fun _ => .bind (.recvInt _ _) fun _ => ?_) fun v => ih v
    exact .bind (.recvInt _ _) fun _ => .bind (steps_receivePath _ _ _ _) fun _ =>
      .bind (steps_note _) fun _ => .bind (steps_require _ _) fun _ =>
      .bind (steps_require _ _) fun _ => .pure _

/-- Once the count is read it stays in what has been understood. -/
theorem count_of_actionRestore (ops : FileOps φ) (v : Locals) (pathNumber : ℤ)
    (date userPath : Bytes) {s : Session (Restoring φ)} (h : intMaxNDigit + 1 ≤ s.wire.length) :
    ∃ n, s.world.received ++ [.count n] <+:
      (actionRestore ops v pathNumber date userPath s).2.world.received := by
  obtain ⟨n, s₁, hcount⟩ := recvInt_of_le (s := { s with world :=
    { s.world with sent := s.world.sent ++ [dateBlock date] } }) h pathNumber
  have hsame := (Steps.recvInt (R := SameReceived) intMaxNDigit pathNumber).returns hcount
  have hrest : Steps MoreReceived (do
      require "create_directory" (ops.createDirectory tmpDir)
      receiveEntries ops n.toNat v
      require "remove_all" (ops.removeAll userPath)
      require "rename" (ops.rename tmpDir userPath)) :=
    .bind (steps_require _ _) fun _ => .bind (steps_receiveEntries _ _ _) fun _ =>
      .bind (steps_require _ _) fun _ => steps_require _ _
  have hclean : Steps MoreReceived (cleanUp ops) :=
    .bind (steps_require _ _) fun _ => .throw _
  have hrun : restoreInto ops v pathNumber date userPath s = (do
      require "create_directory" (ops.createDirectory tmpDir)
      receiveEntries ops n.toNat v
      require "remove_all" (ops.removeAll userPath)
      require "rename" (ops.rename tmpDir userPath))
        { s₁ with world := { s₁.world with
            received := s₁.world.received ++ [Received.count n] } } := by
    refine (bind_of_returns (write_apply _ _) _).trans ?_
    exact (bind_of_returns hcount _).trans (bind_of_returns (note_apply _ _) _)
  refine ⟨n, ?_⟩
  have hend := Steps.tryCatch hrest (fun _ => hclean)
    { s₁ with world := { s₁.world with received := s₁.world.received ++ [Received.count n] } }
  have hcounted : s.world.received ++ [Received.count n] = s₁.world.received ++ [.count n] :=
    congrArg (· ++ [Received.count n]) hsame
  unfold actionRestore
  rw [tryCatch_congr hrun, hcounted]
  exact hend

/-- An entry that is stored is the one whose fields were read. -/
theorem storeEntry_received {ops : FileOps φ} {v v' : Locals} {pathLength : ℤ} {path : Bytes}
    {lastWriteTime permissions : ℤ} {s s' : Session (Restoring φ)}
    (h : storeEntry ops v pathLength path lastWriteTime permissions s = (.returns v', s')) :
    ∃ e, s'.world.received = s.world.received ++ [.entry e] ∧ e.path = path ∧
      e.lastWriteTime = lastWriteTime ∧ e.permissions = permissions := by
  obtain ⟨isDirectory, s₁, h₁, h⟩ := bind_returns h
  obtain ⟨file, s₂, h₂, h⟩ := bind_returns h
  obtain ⟨_, s₃, h₃, h⟩ := bind_returns h
  obtain ⟨_, s₄, h₄, h⟩ := bind_returns h
  obtain ⟨_, s₅, h₅, h⟩ := bind_returns h
  have hbefore : SameReceived s.world s₂.world :=
    Trans.trans ((Steps.recvInt (R := SameReceived) _ _).returns h₁)
      ((steps_receivePath (R := SameReceived) _ _ _ _).returns h₂)
  have hafter : SameReceived s₃.world s₅.world :=
    Trans.trans ((steps_require (R := SameReceived) _ _).returns h₄)
      ((steps_require (R := SameReceived) _ _).returns h₅)
  rw [note_apply, Prod.mk.injEq] at h₃
  rw [pure_apply, Prod.mk.injEq] at h
  refine ⟨⟨path, lastWriteTime, permissions, isDirectory, file.2⟩, ?_, rfl, rfl, rfl⟩
  rw [← h.2, ← hafter, ← h₃.2, hbefore]

end Steps
end Operations
end BackupManager.Client
