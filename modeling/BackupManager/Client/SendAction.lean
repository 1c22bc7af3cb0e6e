import BackupManager.Client.Action

/-! `send_action` and `send_file`: the writes they make, in order. Each write is one append to
the channel. -/
namespace BackupManager.Client
open ByteStream Protocol

/-- What the file system answers while one action is sent. -/
structure Disk where
  lastWriteTime : Bytes → Option ℤ
  permissions : Bytes → Option ℕ
  fileSize : Bytes → Option ℕ
  /-- The bytes of a file that can be opened. -/
  content : Bytes → Option Bytes
  /-- A `time_t` has 64 bits. -/
  time : ∀ path, ∀ t ∈ lastWriteTime path, t.natAbs ≤ 2 ^ 63
  mode : ∀ path, ∀ p ∈ permissions path, p ≤ 0xFFFF
  sized : ∀ path, ∀ bytes ∈ content path, fileSize path = some bytes.length

/-- `MAX_FILE_SIZE`. -/
def maxFileSize : ℕ := 512 * 1024 * 1024 + 1

/-- `std::string::find`: the first position of a part. -/
def findPart (part : Bytes) : Bytes → Option ℕ
  | [] => if part = [] then some 0 else none
  | b :: rest =>
    if part.isPrefixOf (b :: rest) then some 0 else (findPart part rest).map (· + 1)

/-- `s.erase(s.find(part), part.length())`; `none` when the part is missing. -/
def erasePart (part s : Bytes) : Option Bytes :=
  (findPart part s).map fun pos => s.take pos ++ s.drop (pos + part.length)

theorem erasePart_append (part rest : Bytes) : erasePart part (part ++ rest) = some rest := by
  have hfind : findPart part (part ++ rest) = some 0 := by
    cases h : part ++ rest with
    | nil =>
      have hnil : part = [] := (List.append_eq_nil_iff.mp h).1
      rw [findPart, if_pos hnil]
    | cons c t =>
      have hprefix : part.isPrefixOf (c :: t) = true := by
        rw [List.isPrefixOf_iff_prefix, ← h]
        exact List.prefix_append part rest
      rw [findPart, if_pos hprefix]
  rw [erasePart, hfind]
  simp

/-- The fields that `send_action` streams. -/
structure Message where
  actionType : ActionType
  index : ℤ
  cleanedPath : Bytes
  lastWriteTime : Bytes
  filePermissions : Bytes
  deriving DecidableEq, Repr

def lineField (line : Bytes) : Bytes := field intMaxNDigit line.length ++ line ++ [newline]

def Message.bytes (m : Message) : Bytes :=
  field intMaxNDigit m.actionType.code ++ field intMaxNDigit m.index ++ lineField m.cleanedPath ++
    lineField m.lastWriteTime ++ lineField m.filePermissions

def blank : Bytes := [32]

/-- The `switch` of `send_action`. -/
def describe (mainPath : Bytes) (disk : Disk) (action : Action) (index : ℤ) :
    Except String Message :=
  if action.actionType = .restore then pure ⟨.restore, index, blank, blank, blank⟩
  else
    match erasePart mainPath action.path with
    | none => throw "basic_string::erase"
    | some cleanedPath =>
      if action.actionType = .createFolder ∨ action.actionType = .readFile then
        match disk.lastWriteTime mainPath, disk.permissions mainPath with
        | some lastWriteTime, some permissions =>
          pure ⟨action.actionType, index, cleanedPath, showInt lastWriteTime, decimal permissions⟩
        | _, _ => throw "Filesystem exception"
      else pure ⟨action.actionType, index, cleanedPath, blank, blank⟩

/-- The pieces that the loop of `send_file` writes. -/
def pieces (max : ℕ) (content : Bytes) : List Bytes :=
  if _h : content ≠ [] ∧ 0 < max then content.take max :: pieces max (content.drop max) else []
termination_by content.length
decreasing_by
  rw [List.length_drop]
  have := List.length_pos_of_ne_nil _h.1
  omega

theorem flatten_pieces {max : ℕ} (hmax : 0 < max) (content : Bytes) :
    (pieces max content).flatten = content := by
  fun_induction pieces max content with
  | case1 content h ih => rw [List.flatten_cons, ih, List.take_append_drop]
  | case2 content h =>
    have hnil : content = [] := by
      by_contra hne
      exact h ⟨hne, hmax⟩
    rw [hnil]
    rfl

def sendFile (content : Bytes) : List Bytes :=
  field intMaxNDigit content.length :: pieces maxMsgSize content

/-- What one call of `send_action` does. -/
structure Sent where
  writes : List Bytes
  responses : ResponseBuffer
  thrown : Option String

def sendAction (default : Action) (mainPath : Bytes) (responses : ResponseBuffer) (disk : Disk)
    (action : Action) : Sent :=
  let added := responses.add action
  let index := added.1
  let responses := added.2
  if action.actionType = .ignore then ⟨[], responses.completed index, none⟩
  else
    match describe mainPath disk action index with
    | .error what => ⟨[], responses, some what⟩
    | .ok message =>
      if action.actionType = .readFile then
        match disk.fileSize action.path with
        | none => ⟨[], responses, some "cannot get file size"⟩
        | some fileSize =>
          if maxFileSize < fileSize then ⟨[], responses.signalError default index, none⟩
          else
            match disk.content action.path with
            | none => ⟨[message.bytes], responses, some "connection_aborted"⟩
            | some content => ⟨message.bytes :: sendFile content, responses, none⟩
      else ⟨[message.bytes], responses, none⟩

/-- Neither ignored nor above the size limit. -/
def IsWritten (disk : Disk) (action : Action) : Prop :=
  action.actionType ≠ .ignore ∧
    (action.actionType = .readFile → ∀ n ∈ disk.fileSize action.path, n ≤ maxFileSize)

instance (disk : Disk) (action : Action) : Decidable (IsWritten disk action) :=
  inferInstanceAs (Decidable (_ ∧ (_ → ∀ n ∈ disk.fileSize action.path, n ≤ maxFileSize)))

/-- A call that returns has written a frame exactly for an action that is written. -/
theorem sendAction_writes {default : Action} {mainPath : Bytes} {responses : ResponseBuffer}
    {disk : Disk} {action : Action}
    (h : (sendAction default mainPath responses disk action).thrown = none) :
    (sendAction default mainPath responses disk action).writes ≠ [] ↔ IsWritten disk action := by
  unfold sendAction at h ⊢
  unfold IsWritten
  dsimp only at h ⊢
  split at h
  · next hignore => simp [hignore]
  · next hkind =>
    rw [if_neg hkind]
    split at h
    · exact absurd h (by simp)
    · split at h
      · next hread =>
        split at h
        · exact absurd h (by simp)
        · next fileSize hsize =>
          rw [if_pos hread, hsize]
          split at h
          · next hlarge => simp [hread, hlarge]
          · next hsmall =>
            split at h
            · exact absurd h (by simp)
            · simp [hread, hsmall, Nat.not_lt.mp hsmall]
      · next hother =>
        rw [if_neg hother]
        simp [hkind, hother]

/-- The padding of the quit frame. -/
def padding : Bytes := [48, 48, 48, 48]

/-- The frame that the action consumer writes last. -/
def quitMessage : Message := ⟨.quit, 0, padding, padding, padding⟩

/-- The action consumer up to the first exception, with the actions it pops. -/
def sendActions (default : Action) (mainPath : Bytes) :
    ResponseBuffer → List (Disk × Action) → Sent
  | responses, [] => ⟨[quitMessage.bytes], responses, none⟩
  | responses, (disk, action) :: rest =>
    let sent := sendAction default mainPath responses disk action
    match sent.thrown with
    | some what => ⟨sent.writes, sent.responses, some what⟩
    | none =>
      let later := sendActions default mainPath sent.responses rest
      ⟨sent.writes ++ later.writes, later.responses, later.thrown⟩

end BackupManager.Client
