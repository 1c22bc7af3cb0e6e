import BackupManager.Server.Database

/-! The request loop of the server. What a handler does besides reading is recorded as a trace
of effects; the database, the clock and the digest are the backend. -/
namespace BackupManager.Server
open ByteStream Protocol

/-- The fields of a request, in the variables of `read_action`. -/
structure Frame where
  actionType : ℕ
  index : ℤ
  path : Bytes
  lastWriteTime : Bytes
  permissions : Bytes
  deriving DecidableEq, Repr

inductive Effect where
  /-- The text fields of a request have been read. -/
  | parsed (f : Frame)
  | response (index : ℤ) (status : ActionStatus)
  | addAction (c : AddAction)
  /-- The date block of a restore has been read. -/
  | parsedDate (length : ℤ) (date : Bytes)
  | getRestoreEntries (date : Bytes)
  /-- The count and the entries of a restore have been written. -/
  | entries (m : RestoreMap)
  deriving DecidableEq

/-- What `action_restore` writes for one file. -/
def entryBytes (f : File) : Bytes :=
  field intMaxNDigit f.filename.length ++ f.filename ++ [newline] ++
    field intMaxNDigit f.lastWriteTime ++ field intMaxNDigit f.permissions ++
    field intMaxNDigit f.isDirectory ++
    if f.isDirectory = 0 then field intMaxNDigit f.size ++ f.fileContent else []

/-- What `action_restore` writes for the whole map. -/
def restoreBytes (m : RestoreMap) : Bytes :=
  field intMaxNDigit m.entries.length ++ m.entries.flatMap fun e => entryBytes e.2

def responseBytes (index : ℤ) (status : ActionStatus) : Bytes :=
  field intMaxNDigit index ++ field intMaxNDigit status.code

/-- The bytes that an effect puts on the channel. -/
def Effect.bytes : Effect → Bytes
  | .response index status => responseBytes index status
  | .entries m => restoreBytes m
  | _ => []

/-- What a handler calls: each answer may depend on everything done before. `false` and `none`
are exceptions. -/
structure Backend where
  addAction : List Effect → AddAction → Bool
  getRestoreEntries : List Effect → Bytes → Option RestoreMap
  localDay : List Effect → Bytes
  hash : Bytes → Bytes
  /-- What an `int` that was never assigned holds. -/
  uninit : ℤ
  /-- What stands in memory where a blob of a negative size is looked for. -/
  stray : Bytes
  /-- Whether what stands behind the end of `actionTypeStrings` passes for a string at this index.
  Where it does not, the lookup throws, or the process dies of it. -/
  pastEnd : ℕ → Bool

abbrev Handler (α : Type) : Type := Prog (List Effect) α

open Prog

def emit (e : Effect) : Handler Unit := modifyWorld (· ++ [e])

@[simp] theorem emit_apply (e : Effect) (s : Session (List Effect)) :
    emit e s = (.returns (), { s with world := s.world ++ [e] }) := rfl

def sendResponseToClient (index : ℤ) (status : ActionStatus) : Handler Unit :=
  emit (.response index status)

@[simp] theorem sendResponseToClient_apply (index : ℤ) (status : ActionStatus)
    (s : Session (List Effect)) :
    sendResponseToClient index status s =
      (.returns (), { s with world := s.world ++ [.response index status] }) := rfl

/-- `transfer_exactly(size + 1)` for a `size_t`. -/
def lineCount (size : ℕ) : ℕ := (size + 1) % 2 ^ 64

/-- A size and the line it announces; the size and the text start as `0` and empty. -/
def readSizedLine : Handler Bytes := do
  let size ← recvSize intMaxNDigit 0
  recvLine (lineCount size) []

/-- The reads at the start of `read_action`. -/
def readFrame (b : Backend) : Handler Frame := do
  let actionType ← recvSize intMaxNDigit 0
  let index ← recvInt intMaxNDigit b.uninit
  let path ← readSizedLine
  let lastWriteTime ← readSizedLine
  let permissions ← readSizedLine
  pure ⟨actionType, index, path, lastWriteTime, permissions⟩

/-- The first response to a request. -/
def acknowledge (f : Frame) : Handler Unit := do
  emit (.parsed f)
  if f.actionType = ActionType.quit.code then sendResponseToClient 0 .finish
  else sendResponseToClient f.index .received

/-- The trace once the request is acknowledged. -/
def acknowledged (trace : List Effect) (f : Frame) : List Effect :=
  trace ++ [.parsed f, if f.actionType = ActionType.quit.code then .response 0 .finish
    else .response f.index .received]

theorem acknowledge_apply (f : Frame) (s : Session (List Effect)) :
    acknowledge f s = (.returns (), { s with world := acknowledged s.world f }) := by
  unfold acknowledged
  unfold acknowledge
  rw [bind_of_returns (emit_apply _ _)]
  split
  · rw [sendResponseToClient_apply, List.append_assoc]
    rfl
  · rw [sendResponseToClient_apply, List.append_assoc]
    rfl

def callAddAction (b : Backend) (c : AddAction) : Handler Unit := do
  let trace ← getWorld
  emit (.addAction c)
  if b.addAction trace c then pure () else throw "SQLITE error"

theorem callAddAction_apply (b : Backend) (c : AddAction) (s : Session (List Effect)) :
    callAddAction b c s =
      (if b.addAction s.world c then .returns () else .throws "SQLITE error",
        { s with world := s.world ++ [.addAction c] }) := by
  cases h : b.addAction s.world c <;> simp [callAddAction, bind_apply, h, Prog.throw]

/-- The call of `addAction` in `action_read_file`. -/
def readFileCall (hash : Bytes → Bytes) (path time lastWriteTime permissions file : Bytes)
    (fileSize : ℤ) : AddAction :=
  ⟨path, time, file, fileSize, .readFile, hash file, lastWriteTime, permissions, []⟩

/-- The call of `addAction` in `action_create_folder`. -/
def createFolderCall (path time lastWriteTime permissions : Bytes) : AddAction :=
  ⟨path, time, [], 0, .createFolder, dirHash, lastWriteTime, permissions, []⟩

/-- The call of `addAction` in `action_delete_path`. -/
def deletePathCall (path time lastWriteTime permissions : Bytes) : AddAction :=
  ⟨path, time, [], 0, .deletePath, [], lastWriteTime, permissions, []⟩

/-- The call with what is bound for its file where its size does not say it. -/
def bindFile (b : Backend) (c : AddAction) : AddAction :=
  if c.Sized then c else { c with stray := b.stray }

theorem bindFile_readFileCall (b : Backend) (path time lastWriteTime permissions file : Bytes) :
    bindFile b (readFileCall b.hash path time lastWriteTime permissions file file.length) =
      readFileCall b.hash path time lastWriteTime permissions file file.length :=
  if_pos ⟨Int.natCast_nonneg _, le_refl _⟩

@[simp] theorem timestamp_bindFile (b : Backend) (c : AddAction) :
    (bindFile b c).timestamp = c.timestamp := by
  unfold bindFile
  split
  · rfl
  · rfl

def actionReadFile (b : Backend) (path : Bytes) (index : ℤ) (time lastWriteTime permissions : Bytes) :
    Handler Unit := do
  let fileSize ← recvInt intMaxNDigit 0
  ignore
  -- `reserve(file_size + 1)` throws for a count that is negative as an `int`
  if fileSize < -1 ∨ fileSize = Istream.intMax then throw "vector::reserve"
  let file ← recvChunks maxMsgSize (fun _ => pure ()) fileSize.toNat
  callAddAction b
    (bindFile b (readFileCall b.hash path time lastWriteTime permissions file fileSize))
  sendResponseToClient index .completed

def actionCreateFolder (b : Backend) (path : Bytes) (index : ℤ)
    (time lastWriteTime permissions : Bytes) : Handler Unit := do
  callAddAction b (createFolderCall path time lastWriteTime permissions)
  sendResponseToClient index .completed

def actionDeletePath (b : Backend) (path : Bytes) (index : ℤ)
    (time lastWriteTime permissions : Bytes) : Handler Unit := do
  callAddAction b (deletePathCall path time lastWriteTime permissions)
  sendResponseToClient index .completed

def actionRestore (b : Backend) (index : ℤ) : Handler Unit := do
  let dateLength ← recvInt intMaxNDigit b.uninit
  read (sizeOfInt (intSucc dateLength))
  let dateString ← getWord []
  emit (.parsedDate dateLength dateString)
  let trace ← getWorld
  emit (.getRestoreEntries dateString)
  match b.getRestoreEntries trace dateString with
  | none => throw "SQLITE error"
  | some restoreMap =>
    emit (.entries restoreMap)
    sendResponseToClient index .completed

/-- The `switch` of `read_action`. -/
def perform (b : Backend) (f : Frame) (currentDate : Bytes) : Handler Bool := do
  if f.actionType = ActionType.readFile.code then
    actionReadFile b f.path f.index currentDate f.lastWriteTime f.permissions
    pure true
  else if f.actionType = ActionType.createFolder.code then
    actionCreateFolder b f.path f.index currentDate f.lastWriteTime f.permissions
    pure true
  else if f.actionType = ActionType.deletePath.code then
    actionDeletePath b f.path f.index currentDate f.lastWriteTime f.permissions
    pure true
  else if f.actionType = ActionType.quit.code then pure false
  else if f.actionType = ActionType.restore.code then
    actionRestore b f.index
    pure true
  else throw "Action not recognized"

def actionTypeStrings : List String :=
  ["read_file", "create_folder", "delete_path", "restore", "quit", "ignore"]

/-- Whether `actionTypeStrings[actionType]` comes to a string. -/
def HasName (pastEnd : ℕ → Bool) (actionType : ℕ) : Prop :=
  actionType < actionTypeStrings.length ∨ pastEnd actionType = true

instance (pastEnd : ℕ → Bool) : DecidablePred (HasName pastEnd) :=
  fun _ => inferInstanceAs (Decidable (_ ∨ _))

/-- The lookup of the name in the `catch` block, where the type may be any number. A process that dies
of it is a session that ends here. -/
def typeName (b : Backend) (actionType : ℕ) : Handler Unit :=
  if HasName b.pastEnd actionType then pure () else throw "std::bad_alloc"

/-- What `read_action` does once the first response is sent. -/
def dispatch (b : Backend) (f : Frame) : Handler Bool := do
  let trace ← getWorld
  tryCatch (perform b f (b.localDay trace)) fun _ => do
    typeName b f.actionType
    sendResponseToClient f.index .error
    pure true

/-- The types that the `switch` knows have names, and so has `ignore`. -/
theorem hasName_of_eq (pastEnd : ℕ → Bool) {actionType : ℕ} {t : ActionType}
    (h : actionType = t.code) : HasName pastEnd actionType := by
  left
  rw [h]
  cases t <;> decide

theorem typeName_apply {b : Backend} {actionType : ℕ} (h : HasName b.pastEnd actionType)
    (s : Session (List Effect)) : typeName b actionType s = (.returns (), s) := by
  unfold typeName
  rw [if_pos h]
  rfl

def readAction (b : Backend) : Handler Bool := do
  let f ← readFrame b
  acknowledge f
  dispatch b f

/-- At most `n` rounds of `while (read_action()) {}`, with the values it returned. -/
def readActions (b : Backend) : ℕ → Handler (List Bool)
  | 0 => pure []
  | n + 1 => do
    let more ← readAction b
    if more then
      let rest ← readActions b n
      pure (true :: rest)
    else pure [false]

/-! Whatever happens, the trace is only added to. -/

section Trace

variable (b : Backend)

local instance : Std.Refl (List.IsPrefix : List Effect → List Effect → Prop) :=
  ⟨List.prefix_refl⟩

local instance : IsTrans (List Effect) List.IsPrefix := ⟨fun _ _ _ => List.IsPrefix.trans⟩

theorem steps_emit (e : Effect) : Steps List.IsPrefix (emit e) :=
  .modifyWorld fun w => List.prefix_append w [e]

theorem steps_readFrame {R : List Effect → List Effect → Prop} [Std.Refl R]
    [IsTrans (List Effect) R] : Steps R (readFrame b) := by
  have hline : Steps R readSizedLine :=
    .bind (.recvSize _ _) fun _ => .recvLine _ _
  exact .bind (.recvSize _ _) fun _ => .bind (.recvInt _ _) fun _ => .bind hline fun _ =>
    .bind hline fun _ => .bind hline fun _ => .pure _

theorem steps_acknowledge (f : Frame) : Steps List.IsPrefix (acknowledge f) := by
  refine .bind (steps_emit _) fun _ => ?_
  split
  · exact steps_emit _
  · exact steps_emit _

theorem steps_store (c : AddAction) (index : ℤ) :
    Steps List.IsPrefix (do callAddAction b c; sendResponseToClient index .completed) := by
  refine .bind (.bind .getWorld fun _ => .bind (steps_emit _) fun _ => ?_) fun _ => steps_emit _
  split
  · exact .pure _
  · exact .throw _

theorem steps_actionReadFile (path : Bytes) (index : ℤ) (time lastWriteTime permissions : Bytes) :
    Steps List.IsPrefix (actionReadFile b path index time lastWriteTime permissions) := by
  unfold actionReadFile
  refine .bind (.recvInt _ _) fun size => .bind (.extract _) fun _ => ?_
  have hrest : Steps List.IsPrefix (do
      let file ← recvChunks maxMsgSize (fun _ => pure ()) size.toNat
      callAddAction b
        (bindFile b (readFileCall b.hash path time lastWriteTime permissions file size))
      sendResponseToClient index .completed) :=
    .bind (.recvChunks (fun _ => .pure _) _) fun _ => steps_store b _ _
  split
  · exact .bind (.throw _) fun _ => hrest
  · exact hrest

theorem steps_actionRestore (index : ℤ) : Steps List.IsPrefix (actionRestore b index) := by
  unfold actionRestore
  refine .bind (.recvInt _ _) fun _ => .bind (.read _) fun _ => .bind (.extract _) fun _ =>
    .bind (steps_emit _) fun _ => .bind .getWorld fun _ => .bind (steps_emit _) fun _ => ?_
  split
  · exact .throw _
  · exact .bind (steps_emit _) fun _ => steps_emit _

theorem steps_perform (f : Frame) (currentDate : Bytes) :
    Steps List.IsPrefix (perform b f currentDate) := by
  unfold perform
  split
  · exact .bind (steps_actionReadFile b _ _ _ _ _) fun _ => .pure _
  · split
    · exact .bind (steps_store b _ _) fun _ => .pure _
    · split
      · exact .bind (steps_store b _ _) fun _ => .pure _
      · split
        · exact .pure _
        · split
          · exact .bind (steps_actionRestore b _) fun _ => .pure _
          · exact .throw _

theorem steps_typeName {R : List Effect → List Effect → Prop} [Std.Refl R] (t : ℕ) :
    Steps R (typeName b t) := by
  unfold typeName
  split
  · exact .pure _
  · exact .throw _

theorem steps_dispatch (f : Frame) : Steps List.IsPrefix (dispatch b f) :=
  .bind .getWorld fun _ => .tryCatch (steps_perform b f _) fun _ =>
    .bind (steps_typeName b _) fun _ => .bind (steps_emit _) fun _ => .pure _

theorem steps_readActions (n : ℕ) : Steps List.IsPrefix (readActions b n) := by
  induction n with
  | zero => exact .pure _
  | succ n ih =>
    refine .bind (.bind (steps_readFrame b) fun f => .bind (steps_acknowledge f) fun _ =>
      steps_dispatch b f) fun more => ?_
    split
    · exact .bind ih fun _ => .pure _
    · exact .pure _

/-- What the first request parsed as stands in the trace from then on. -/
theorem prefix_of_readActions {n : ℕ} {v : List Bool} {s s' : Session (List Effect)}
    (h : readActions b (n + 1) s = (.returns v, s')) :
    ∃ f s₁, readFrame b s = (.returns f, s₁) ∧ acknowledged s.world f <+: s'.world := by
  obtain ⟨more, s₃, hread, hrest⟩ := bind_returns h
  obtain ⟨f, s₁, hframe, hread⟩ := bind_returns hread
  rw [bind_of_returns (acknowledge_apply f s₁)] at hread
  have hworld : s.world = s₁.world := by
    have hsteps := steps_readFrame (R := Eq) b s
    rwa [hframe] at hsteps
  have hdispatch := steps_dispatch b f { s₁ with world := acknowledged s₁.world f }
  rw [hread, ← hworld] at hdispatch
  refine ⟨f, s₁, hframe, hdispatch.trans ?_⟩
  have hsteps : Steps List.IsPrefix (do
      if more then
        let rest ← readActions b n
        pure (true :: rest)
      else pure [false] : Handler (List Bool)) := by
    split
    · exact .bind (steps_readActions b n) fun _ => .pure _
    · exact .pure _
  have hlast := hsteps s₃
  rwa [hrest] at hlast

end Trace
end BackupManager.Server
