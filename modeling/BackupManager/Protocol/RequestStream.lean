import BackupManager.Digest.Streaming
import BackupManager.Protocol.RequestFrame

/-! The request stream: what `send_action` writes, decoded by `read_action`. -/
namespace BackupManager.Protocol
open ByteStream Client Server

/-- A message, and the bytes that follow it when it is a file. -/
structure Upload where
  message : Message
  content : Bytes
  deriving DecidableEq, Repr

def Upload.bytes (u : Upload) : Bytes :=
  u.message.bytes ++
    if u.message.actionType = .readFile then field intMaxNDigit u.content.length ++ u.content
    else []

/-- The call of `addAction` that the upload asks for, at a date. -/
def Upload.call (hash : Bytes → Bytes) (u : Upload) (time : Bytes) : AddAction :=
  let m := u.message
  match m.actionType with
  | .readFile => readFileCall hash m.cleanedPath time m.lastWriteTime m.filePermissions u.content
      u.content.length
  | .createFolder => createFolderCall m.cleanedPath time m.lastWriteTime m.filePermissions
  | _ => deletePathCall m.cleanedPath time m.lastWriteTime m.filePermissions

/-- What the handler has decoded from the stream; the date of a call is its own. -/
inductive Decoded where
  | frame (f : Frame)
  | store (c : AddAction)
  deriving DecidableEq

def decoded : Effect → Option Decoded
  | .parsed f => some (.frame f)
  | .addAction c => some (.store { c with timestamp := [] })
  | _ => none

def Upload.decoded (hash : Bytes → Bytes) (u : Upload) : List Decoded :=
  [.frame (frameOf u.message), .store (u.call hash [])]

/-- What holds of every upload of a path. -/
structure IsUpload (u : Upload) : Prop where
  message : WellFormed u.message
  stores : u.message.actionType = .readFile ∨ u.message.actionType = .createFolder ∨
    u.message.actionType = .deletePath
  size : u.content.length ≤ maxFileSize

/-- The upload is stored by one call of the database; its size is an `int`, and not the largest
one, to which nothing can be added. -/
structure Storable (u : Upload) : Prop where
  stores : u.message.actionType = .readFile ∨ u.message.actionType = .createFolder ∨
    u.message.actionType = .deletePath
  size : u.content.length < 2147483647

theorem IsUpload.storable {u : Upload} (hu : IsUpload u) : Storable u :=
  ⟨hu.stores, lt_of_le_of_lt hu.size (by decide)⟩

section Server

variable {b : Backend} {u : Upload} {residue wire : Bytes} {closed : Bool} {trace : List Effect}

/-- Every way in which storing can end is answered, and the loop goes on. -/
theorem store_apply {actionType : ℕ} (hname : HasName b.pastEnd actionType) (c : AddAction)
    (index : ℤ) (s : Session (List Effect)) :
    Prog.tryCatch (do
        callAddAction b c
        sendResponseToClient index .completed
        pure true) (fun _ => do
        typeName b actionType
        sendResponseToClient index .error
        pure true) s =
      (.returns true, { s with world := s.world ++
        [.addAction c, .response index (if b.addAction s.world c then .completed else .error)] }) := by
  have hcall := callAddAction_apply b c s
  unfold Prog.tryCatch
  by_cases h : b.addAction s.world c = true
  · rw [if_pos h] at hcall
    rw [Prog.bind_of_returns hcall, Prog.bind_of_returns (sendResponseToClient_apply _ _ _), Prog.pure_apply,
      if_pos h, List.append_assoc]
    rfl
  · rw [if_neg h] at hcall
    rw [Prog.bind_of_throws hcall, if_neg h]
    refine (Prog.bind_of_returns (typeName_apply hname _) _).trans ?_
    refine (Prog.bind_of_returns (sendResponseToClient_apply _ _ _) _).trans ?_
    rw [Prog.pure_apply, List.append_assoc]
    rfl

theorem recvChunks_pure (content wire : Bytes) (closed : Bool) (trace : List Effect) :
    Prog.recvChunks maxMsgSize (fun _ => pure ()) content.length
        ⟨content ++ wire, closed, .fresh [], trace⟩ =
      (.returns content, ⟨wire, closed, .fresh [], trace⟩) := by
  have heach : ∀ (chunk : Bytes) (s : Session (List Effect)), trace = s.world →
      Prog.Ends (pure () : Handler Unit) s
        (fun _ s' => s' = { s with world := s'.world } ∧ trace = s'.world) (fun _ => False) :=
    fun _ _ h => .pure ⟨rfl, h⟩
  obtain ⟨v, s', hrun, rfl, hs', hworld⟩ :=
    (Prog.Ends.recvChunks maxMsgSize_pos heach content wire closed trace rfl).exists_returns
  rw [hrun, hs', ← hworld]

/-- After the message of a file the handler takes the file, and nothing after it. -/
theorem actionReadFile_apply (path : Bytes) (index : ℤ)
    (time lastWriteTime permissions content : Bytes) (hsize : content.length < 2147483647) :
    actionReadFile b path index time lastWriteTime permissions
        ⟨field intMaxNDigit content.length ++ content ++ wire, closed, .fresh [], trace⟩ =
      (do callAddAction b (readFileCall b.hash path time lastWriteTime permissions content
            content.length)
          sendResponseToClient index .completed) ⟨wire, closed, .fresh [], trace⟩ := by
  have hfit : Fits intMaxNDigit (content.length : ℤ) :=
    (fits_natCast (by decide)).mpr (hsize.trans (by decide))
  have hint : InInt (content.length : ℤ) := by
    unfold InInt Istream.intMin Istream.intMax
    omega
  have hsmall : ¬((content.length : ℤ) < -1 ∨ (content.length : ℤ) = Istream.intMax) := by
    unfold Istream.intMax
    omega
  rw [List.append_assoc, actionReadFile,
    Prog.bind_of_returns (Prog.recvInt_field hfit hint Blank.nil 0),
    Prog.bind_of_returns (Prog.ignore_apply _), if_neg hsmall, Int.toNat_natCast]
  simp only [Istream.ignore_fresh_cons]
  refine (Prog.bind_of_returns (recvChunks_pure content wire closed trace) _).trans ?_
  rw [bindFile_readFileCall]

/-- However storing it ends, the file has been taken and nothing after it. -/
theorem actionReadFile_stores (path : Bytes) (index : ℤ)
    (time lastWriteTime permissions content : Bytes) (hsize : content.length < 2147483647) :
    ∃ outcome later, actionReadFile b path index time lastWriteTime permissions
        ⟨field intMaxNDigit content.length ++ content ++ wire, closed, .fresh [], trace⟩ =
          (outcome, ⟨wire, closed, .fresh [], trace ++ .addAction
            (readFileCall b.hash path time lastWriteTime permissions content content.length) ::
              later⟩) := by
  have hcall := callAddAction_apply b (readFileCall b.hash path time lastWriteTime permissions content
    content.length) ⟨wire, closed, .fresh [], trace⟩
  rw [actionReadFile_apply path index time lastWriteTime permissions content hsize]
  split at hcall
  · refine ⟨.returns (), [.response index .completed], (Prog.bind_of_returns hcall _).trans ?_⟩
    rw [sendResponseToClient_apply, List.append_assoc, List.singleton_append]
  · exact ⟨_, [], Prog.bind_of_throws hcall _⟩

/-- The bytes of an upload after its message. -/
def Upload.tail (u : Upload) : Bytes :=
  if u.message.actionType = .readFile then field intMaxNDigit u.content.length ++ u.content else []

theorem perform_upload (hu : Storable u) (time : Bytes) :
    perform b (frameOf u.message) time ⟨u.tail ++ wire, closed, .fresh [], trace⟩ =
      (do callAddAction b (u.call b.hash time)
          sendResponseToClient u.message.index .completed
          pure true) ⟨wire, closed, .fresh [], trace⟩ := by
  have hstores := hu.stores
  have hsize := hu.size
  obtain ⟨⟨actionType, index, cleanedPath, lastWriteTime, filePermissions⟩, content⟩ := u
  rcases hstores with ht | ht | ht
  · subst ht
    refine (Prog.bind_congr_apply ?_ _).trans (congrFun (Prog.bind_bind _ _ _) _)
    exact actionReadFile_apply cleanedPath index time lastWriteTime filePermissions content hsize
  · subst ht
    exact congrFun (Prog.bind_bind _ _ _) _
  · subst ht
    exact congrFun (Prog.bind_bind _ _ _) _

theorem call_timestamp (hash : Bytes → Bytes) (u : Upload) (time : Bytes) :
    { u.call hash time with timestamp := [] } = u.call hash [] := by
  obtain ⟨⟨actionType, index, cleanedPath, lastWriteTime, filePermissions⟩, content⟩ := u
  cases actionType <;> rfl

variable (b wire closed trace)

/-- One upload is stored once, and every answer of the database has its response. -/
theorem dispatch_storable (hu : Storable u) :
    dispatch b (frameOf u.message) ⟨u.tail ++ wire, closed, .fresh [], trace⟩ =
      (.returns true, ⟨wire, closed, .fresh [], trace ++
        [.addAction (u.call b.hash (b.localDay trace)), .response u.message.index
          (if b.addAction trace (u.call b.hash (b.localDay trace)) then .completed else .error)]⟩) :=
  (Prog.tryCatch_congr (perform_upload hu (b.localDay trace)) _).trans
    (store_apply (hasName_of_eq b.pastEnd rfl) _ _ _)

/-- One upload is stored once, whatever the database answers. -/
theorem dispatch_upload (hu : IsUpload u) :
    ∃ trace', dispatch b (frameOf u.message) ⟨u.tail ++ wire, closed, .fresh [], trace⟩ =
        (.returns true, ⟨wire, closed, .fresh [], trace'⟩) ∧
      trace'.filterMap decoded = trace.filterMap decoded ++ [.store (u.call b.hash [])] := by
  refine ⟨_, dispatch_storable b wire closed trace hu.storable, ?_⟩
  rw [List.filterMap_append, ← call_timestamp _ _ (b.localDay trace)]
  rfl

theorem filterMap_acknowledged (f : Frame) :
    (acknowledged trace f).filterMap decoded = trace.filterMap decoded ++ [.frame f] := by
  unfold acknowledged
  rw [List.filterMap_append]
  split <;> rfl

/-- One round of the loop decodes one upload. -/
theorem readAction_upload (hu : IsUpload u) (ht : Transmissible u.message) (hr : Blank residue) :
    ∃ trace', readAction b ⟨u.bytes ++ wire, closed, .fresh residue, trace⟩ =
        (.returns true, ⟨wire, closed, .fresh [], trace'⟩) ∧
      trace'.filterMap decoded = trace.filterMap decoded ++ u.decoded b.hash := by
  obtain ⟨trace', hdispatch, hdecoded⟩ :=
    dispatch_upload b wire closed (acknowledged trace (frameOf u.message)) hu
  refine ⟨trace', ?_, ?_⟩
  · have hbytes : u.bytes = u.message.bytes ++ u.tail := rfl
    rw [hbytes, List.append_assoc, readAction,
      Prog.bind_of_returns (readFrame_bytes (hu.message.readable ht) hr),
      Prog.bind_of_returns (acknowledge_apply _ _)]
    exact hdispatch
  · rw [hdecoded, filterMap_acknowledged, List.append_assoc]
    rfl

theorem wellFormed_quitMessage : WellFormed quitMessage := by
  constructor <;> decide

theorem transmissible_quitMessage : Transmissible quitMessage := by
  constructor <;> decide

/-- The quit frame ends the loop. -/
theorem readAction_quit (hr : Blank residue) :
    readAction b ⟨quitMessage.bytes ++ wire, closed, .fresh residue, trace⟩ =
      (.returns false, ⟨wire, closed, .fresh [], acknowledged trace (frameOf quitMessage)⟩) := by
  have hquit := wellFormed_quitMessage.readable transmissible_quitMessage
  rw [readAction, Prog.bind_of_returns (readFrame_bytes hquit hr),
    Prog.bind_of_returns (acknowledge_apply _ _)]
  rfl

/-- The bytes of a whole session. -/
def sessionBytes (uploads : List Upload) : Bytes :=
  uploads.flatMap Upload.bytes ++ quitMessage.bytes

theorem sessionBytes_cons (u : Upload) (uploads : List Upload) :
    sessionBytes (u :: uploads) = u.bytes ++ sessionBytes uploads := by
  rw [sessionBytes, List.flatMap_cons, List.append_assoc]
  rfl

def sessionDecoded (hash : Bytes → Bytes) (uploads : List Upload) : List Decoded :=
  uploads.flatMap (Upload.decoded hash) ++ [.frame (frameOf quitMessage)]

theorem readActions_session {uploads : List Upload} (hu : ∀ u ∈ uploads, IsUpload u)
    (ht : ∀ u ∈ uploads, Transmissible u.message) (hr : Blank residue) :
    ∃ trace', readActions b (uploads.length + 1)
          ⟨sessionBytes uploads ++ wire, closed, .fresh residue, trace⟩ =
        (.returns (List.replicate uploads.length true ++ [false]),
          ⟨wire, closed, .fresh [], trace'⟩) ∧
      trace'.filterMap decoded = trace.filterMap decoded ++ sessionDecoded b.hash uploads := by
  induction uploads generalizing residue trace with
  | nil =>
    refine ⟨_, ?_, filterMap_acknowledged trace (frameOf quitMessage)⟩
    rw [List.length_nil, readActions, sessionBytes, List.flatMap_nil, List.nil_append,
      Prog.bind_of_returns (readAction_quit b wire closed trace hr)]
    rfl
  | cons u uploads ih =>
    obtain ⟨trace₁, hhead, hdecoded₁⟩ := readAction_upload b (sessionBytes uploads ++ wire) closed
      trace (hu u List.mem_cons_self) (ht u List.mem_cons_self) hr
    obtain ⟨trace₂, hrest, hdecoded₂⟩ := ih trace₁
      (fun x hx => hu x (List.mem_cons_of_mem u hx)) (fun x hx => ht x (List.mem_cons_of_mem u hx))
      Blank.nil
    refine ⟨trace₂, ?_, ?_⟩
    · rw [sessionBytes_cons, List.append_assoc, List.length_cons, readActions,
        Prog.bind_of_returns hhead]
      exact Prog.bind_of_returns hrest _
    · rw [hdecoded₂, hdecoded₁, sessionDecoded, sessionDecoded, List.flatMap_cons]
      simp only [List.append_assoc]

/-- The converse: a session that is decoded as it was written has transmissible messages only. -/
theorem transmissible_of_readActions {uploads : List Upload} (hu : ∀ u ∈ uploads, IsUpload u)
    (hr : Blank residue) {v : List Bool} {s' : Session (List Effect)}
    (h : readActions b (uploads.length + 1)
      ⟨sessionBytes uploads ++ wire, closed, .fresh residue, trace⟩ = (.returns v, s'))
    (hdecoded : s'.world.filterMap decoded =
      trace.filterMap decoded ++ sessionDecoded b.hash uploads) :
    ∀ u ∈ uploads, Transmissible u.message := by
  induction uploads generalizing residue trace v with
  | nil => simp
  | cons u uploads ih =>
    rw [sessionBytes_cons, List.append_assoc, List.length_cons] at h
    have hsplit : sessionDecoded b.hash (u :: uploads) =
        u.decoded b.hash ++ sessionDecoded b.hash uploads := by
      rw [sessionDecoded, List.flatMap_cons, List.append_assoc]
      rfl
    rw [hsplit] at hdecoded
    have ht : Transmissible u.message := by
      obtain ⟨f, s₁, hframe, hprefix⟩ := prefix_of_readActions b h
      have hfirst := hprefix.filterMap decoded
      rw [filterMap_acknowledged, hdecoded, List.prefix_append_right_inj] at hfirst
      have hf : f = frameOf u.message := by
        obtain ⟨later, hlater⟩ := hfirst
        exact Decoded.frame.inj (List.cons.inj hlater).1
      have hbytes : u.bytes = u.message.bytes ++ u.tail := rfl
      rw [hf, hbytes, List.append_assoc] at hframe
      exact transmissible_of_readFrame (hu u List.mem_cons_self).message hr hframe
    obtain ⟨trace₁, hhead, hdecoded₁⟩ := readAction_upload b (sessionBytes uploads ++ wire) closed
      trace (hu u List.mem_cons_self) ht hr
    rw [readActions, Prog.bind_of_returns hhead] at h
    obtain ⟨rest, s₂, hrest, h⟩ := Prog.bind_returns h
    rw [Prog.pure_apply, Prod.mk.injEq] at h
    rw [h.2] at hrest
    rw [← List.append_assoc, ← hdecoded₁] at hdecoded
    have hlater := ih trace₁ (fun x hx => hu x (List.mem_cons_of_mem u hx)) Blank.nil hrest hdecoded
    intro x hx
    rcases List.mem_cons.mp hx with rfl | hx
    · exact ht
    · exact hlater x hx

end Server

section Client

/-- The upload that an action on a path below the main path asks for. -/
def uploadOf (mainPath : Bytes) (disk : Disk) (action : Action) (index : ℤ) : Upload where
  message :=
    { actionType := action.actionType
      index := index
      cleanedPath := action.path.drop mainPath.length
      lastWriteTime :=
        if action.actionType = .deletePath then blank
        else showInt ((disk.lastWriteTime mainPath).getD 0)
      filePermissions :=
        if action.actionType = .deletePath then blank
        else decimal ((disk.permissions mainPath).getD 0) }
  content := if action.actionType = .readFile then (disk.content action.path).getD [] else []

/-- The uploads of a sequence of actions; every action takes an index. -/
def uploadsOf (mainPath : Bytes) : ℤ → List (Disk × Action) → List Upload
  | _, [] => []
  | index, (disk, action) :: rest =>
    if IsWritten disk action then
      uploadOf mainPath disk action index :: uploadsOf mainPath (Prog.intSucc index) rest
    else uploadsOf mainPath (Prog.intSucc index) rest

/-- An action on a path that lies below the main path, as the file watcher pushes it. -/
def OnPath (mainPath : Bytes) (action : Action) : Prop :=
  mainPath <+: action.path ∧ action.actionType ≠ .restore ∧ action.actionType ≠ .quit

theorem onPath_ofStatus {mainPath path : Bytes} {isDirectory : Bool} {fileStatus : FileStatus}
    {st : ActionStatus} (h : mainPath <+: path) :
    OnPath mainPath (.ofStatus isDirectory path fileStatus st) := by
  refine ⟨h, actionTypeOf_ne_restore _ _, ?_⟩
  show actionTypeOf isDirectory fileStatus ≠ .quit
  cases fileStatus <;> cases isDirectory <;> decide

theorem isLine_showInt {z : ℤ} (h : z.natAbs ≤ 2 ^ 63) : IsLine (showInt z) := by
  have hdigits : (decimal z.natAbs).length ≤ 20 :=
    (length_decimal_le_iff (by decide)).mpr (lt_of_le_of_lt h (by decide))
  constructor
  · intro hmem
    unfold showInt at hmem
    split at hmem
    · rcases List.mem_cons.mp hmem with hminus | hdigit
      · exact absurd hminus (by decide)
      · exact absurd (isDigit_of_mem_decimal _ _ hdigit) (by decide)
    · exact absurd (isDigit_of_mem_decimal _ _ hmem) (by decide)
  · have hlen : (showInt z).length ≤ 21 := by
      unfold showInt
      split
      · rw [List.length_cons]
        omega
      · omega
    exact lt_of_le_of_lt hlen (by decide)

theorem isLine_decimal {n : ℕ} (h : n ≤ 0xFFFF) : IsLine (decimal n) := by
  rw [← showInt_natCast]
  refine isLine_showInt ?_
  rw [Int.natAbs_natCast]
  exact h.trans (by decide)

theorem isLine_blank : IsLine blank := by decide

theorem showInt_ne_nil (z : ℤ) : showInt z ≠ [] := by
  unfold showInt
  split
  · exact List.cons_ne_nil _ _
  · exact decimal_ne_nil _

section Actions

variable {default : Action} {mainPath : Bytes} {disk : Disk} {action : Action} {index : ℤ}
variable {responses : ResponseBuffer}

theorem isUpload_uploadOf (hpath : OnPath mainPath action) (hw : IsWritten disk action)
    (hindex : InInt index) : IsUpload (uploadOf mainPath disk action index) := by
  have htime : IsLine (showInt ((disk.lastWriteTime mainPath).getD 0)) := by
    cases ht : disk.lastWriteTime mainPath with
    | none => exact isLine_showInt (by simp)
    | some t => exact isLine_showInt (disk.time mainPath t ht)
  have hmode : IsLine (decimal ((disk.permissions mainPath).getD 0)) := by
    cases hp : disk.permissions mainPath with
    | none => exact isLine_decimal (by simp)
    | some p => exact isLine_decimal (disk.mode mainPath p hp)
  refine ⟨⟨hindex, ?_, ?_, ?_⟩, ?_, ?_⟩
  · unfold uploadOf
    dsimp only
    split
    · exact isLine_blank
    · exact htime
  · unfold uploadOf
    dsimp only
    split
    · decide
    · exact showInt_ne_nil _
  · unfold uploadOf
    dsimp only
    split
    · exact isLine_blank
    · exact hmode
  · show action.actionType = _ ∨ action.actionType = _ ∨ action.actionType = _
    cases ht : action.actionType with
    | readFile => exact Or.inl rfl
    | createFolder => exact Or.inr (Or.inl rfl)
    | deletePath => exact Or.inr (Or.inr rfl)
    | restore => exact absurd ht hpath.2.1
    | quit => exact absurd ht hpath.2.2
    | ignore => exact absurd ht hw.1
  · unfold uploadOf
    dsimp only
    split
    · next ht =>
      cases hc : disk.content action.path with
      | none => exact Nat.zero_le _
      | some bytes => exact hw.2 ht _ (disk.sized action.path bytes hc)
    · exact Nat.zero_le _

theorem describe_onPath {message : Message} (hpath : OnPath mainPath action)
    (h : describe mainPath disk action index = .ok message)
    (hkind : action.actionType ≠ .ignore) :
    message = (uploadOf mainPath disk action index).message := by
  obtain ⟨⟨below, hbelow⟩, hrestore, hquit⟩ := hpath
  have herase : erasePart mainPath action.path = some (action.path.drop mainPath.length) := by
    rw [← hbelow, erasePart_append, List.drop_left]
  unfold describe at h
  rw [if_neg hrestore, herase] at h
  dsimp only at h
  split at h
  · next hstat =>
    have hne : action.actionType ≠ .deletePath := by
      rcases hstat with ht | ht <;> simp [ht]
    split at h
    · next t p ht hp =>
      rw [← Except.ok.inj h, uploadOf, ht, hp, if_neg hne, if_neg hne]
      rfl
    · exact absurd h (by simp [throw, throwThe, MonadExceptOf.throw])
  · next hstat =>
    have hdelete : action.actionType = .deletePath := by
      cases ht : action.actionType with
      | readFile => exact absurd (Or.inr ht) hstat
      | createFolder => exact absurd (Or.inl ht) hstat
      | deletePath => rfl
      | restore => exact absurd ht hrestore
      | quit => exact absurd ht hquit
      | ignore => exact absurd ht hkind
    rw [← Except.ok.inj h, uploadOf, if_pos hdelete, if_pos hdelete]

/-- All that one call can do: it writes nothing, or the frame of the action, followed by the file
when there is one that can be opened. -/
theorem sendAction_cases (default : Action) (mainPath : Bytes) (responses : ResponseBuffer)
    (disk : Disk) (action : Action) :
    let sent := sendAction default mainPath responses disk action
    let added := (responses.add action).2
    (sent.writes = [] ∧ (sent.thrown = none → ¬IsWritten disk action) ∧
      (sent.responses = added ∨ sent.responses = added.completed responses.currentIndex ∨
        sent.responses = added.signalError default responses.currentIndex)) ∨
    IsWritten disk action ∧ sent.responses = added ∧
      ∃ message, describe mainPath disk action responses.currentIndex = .ok message ∧
        (action.actionType ≠ .readFile ∧ sent.writes = [message.bytes] ∧ sent.thrown = none ∨
        action.actionType = .readFile ∧ (∃ content, disk.content action.path = some content ∧
          sent.writes = message.bytes :: sendFile content ∧ sent.thrown = none) ∨
        action.actionType = .readFile ∧ sent.writes = [message.bytes] ∧ sent.thrown ≠ none) := by
  dsimp only
  have hindex : (responses.add action).1 = responses.currentIndex := rfl
  by_cases hignore : action.actionType = .ignore
  · left
    rw [sendAction, if_pos hignore]
    exact ⟨rfl, fun _ h => h.1 hignore, Or.inr (Or.inl rfl)⟩
  · rw [sendAction, if_neg hignore, hindex]
    cases hmessage : describe mainPath disk action responses.currentIndex with
    | error what => exact Or.inl ⟨rfl, fun h => absurd h (by simp), Or.inl rfl⟩
    | ok message =>
      dsimp only
      by_cases hread : action.actionType = .readFile
      · rw [if_pos hread]
        cases hsize : disk.fileSize action.path with
        | none => exact Or.inl ⟨rfl, fun h => absurd h (by simp), Or.inl rfl⟩
        | some fileSize =>
          dsimp only
          by_cases hbig : maxFileSize < fileSize
          · rw [if_pos hbig]
            refine Or.inl ⟨rfl, fun _ h => ?_, Or.inr (Or.inr rfl)⟩
            exact absurd (h.2 hread fileSize hsize) (not_le.mpr hbig)
          · have hwritten : IsWritten disk action := by
              refine ⟨hignore, fun _ n hn => ?_⟩
              rw [hsize, Option.mem_some_iff] at hn
              omega
            rw [if_neg hbig]
            right
            cases hcontent : disk.content action.path with
            | none => exact ⟨hwritten, rfl, message, rfl, Or.inr (Or.inr ⟨hread, rfl, by simp⟩)⟩
            | some content =>
              exact ⟨hwritten, rfl, message, rfl, Or.inr (Or.inl ⟨hread, content, rfl, rfl, rfl⟩)⟩
      · rw [if_neg hread]
        exact Or.inr ⟨⟨hignore, fun h => absurd h hread⟩, rfl, message, rfl,
          Or.inl ⟨hread, rfl, rfl⟩⟩

/-- What one call writes, when it does not throw. -/
theorem sendAction_writes (hpath : OnPath mainPath action)
    (hsent : (sendAction default mainPath responses disk action).thrown = none) :
    (sendAction default mainPath responses disk action).responses.currentIndex =
        Prog.intSucc responses.currentIndex ∧
      (sendAction default mainPath responses disk action).writes.flatten =
        if IsWritten disk action then
          (uploadOf mainPath disk action responses.currentIndex).bytes
        else [] := by
  rcases sendAction_cases default mainPath responses disk action with h | h
  · obtain ⟨hwrites, hwritten, hresponses⟩ := h
    rw [hwrites, if_neg (hwritten hsent)]
    refine ⟨?_, rfl⟩
    rcases hresponses with h | h | h <;> rw [h] <;> rfl
  · obtain ⟨hwritten, hresponses, message, hmessage, hwrites⟩ := h
    have hm := describe_onPath hpath hmessage hwritten.1
    have hkind : message.actionType = action.actionType := by
      rw [hm]
      rfl
    rw [hresponses, if_pos hwritten]
    refine ⟨rfl, ?_⟩
    rcases hwrites with h | h | h
    · obtain ⟨hread, hwrites, -⟩ := h
      rw [hwrites, Upload.bytes, ← hm, hkind, if_neg hread, List.append_nil, List.flatten_cons,
        List.flatten_nil, List.append_nil]
    · obtain ⟨hread, content, hcontent, hwrites, -⟩ := h
      have hdata : (uploadOf mainPath disk action responses.currentIndex).content = content := by
        rw [uploadOf, if_pos hread, hcontent]
        rfl
      rw [hwrites, Upload.bytes, ← hm, hkind, if_pos hread, hdata, sendFile, List.flatten_cons,
        List.flatten_cons, flatten_pieces maxMsgSize_pos]
    · exact absurd hsent h.2.2

end Actions

theorem isUpload_uploadsOf {mainPath : Bytes} {actions : List (Disk × Action)} {index : ℤ}
    (hpath : ∀ x ∈ actions, OnPath mainPath x.2) (hindex : InInt index) :
    ∀ u ∈ uploadsOf mainPath index actions, IsUpload u := by
  induction actions generalizing index with
  | nil => simp [uploadsOf]
  | cons x actions ih =>
    obtain ⟨disk, action⟩ := x
    have hrest := ih (fun y hy => hpath y (List.mem_cons_of_mem _ hy)) (intSucc_inInt hindex)
    unfold uploadsOf
    split
    · next hw =>
      intro u hu
      rcases List.mem_cons.mp hu with rfl | hu
      · exact isUpload_uploadOf (hpath (disk, action) List.mem_cons_self) hw hindex
      · exact hrest u hu
    · exact hrest

/-- What the action consumer writes until it ends. -/
theorem sendActions_writes {default : Action} {mainPath : Bytes} {responses : ResponseBuffer}
    {actions : List (Disk × Action)} (hpath : ∀ x ∈ actions, OnPath mainPath x.2)
    (hsent : (sendActions default mainPath responses actions).thrown = none) :
    (sendActions default mainPath responses actions).writes.flatten =
      sessionBytes (uploadsOf mainPath responses.currentIndex actions) := by
  induction actions generalizing responses with
  | nil => exact List.append_nil _
  | cons x actions ih =>
    obtain ⟨disk, action⟩ := x
    unfold sendActions at hsent ⊢
    dsimp only at hsent ⊢
    split at hsent
    · exact absurd hsent (by simp)
    · next hnone =>
      obtain ⟨hindex, hwrites⟩ := sendAction_writes (hpath (disk, action) List.mem_cons_self) hnone
      have hrest := ih (fun y hy => hpath y (List.mem_cons_of_mem _ hy)) hsent
      have hlater := hrest.trans (congrArg (fun i => sessionBytes (uploadsOf mainPath i actions)) hindex)
      rw [List.flatten_append, hwrites, hlater, uploadsOf]
      split
      · rw [sessionBytes_cons]
      · rfl

end Client

/-- The server decodes the actions as they were sent, consumes every byte, and stops at the quit
frame. -/
def RoundTrips (b : Backend) (uploads : List Upload) (wire residue : Bytes) (closed : Bool)
    (trace : List Effect) : Prop :=
  ∃ s', readActions b (uploads.length + 1) ⟨wire, closed, .fresh residue, trace⟩ =
      (.returns (List.replicate uploads.length true ++ [false]), s') ∧
    s'.wire = [] ∧ s'.stream.buf = [] ∧
    s'.world.filterMap decoded = trace.filterMap decoded ++ sessionDecoded b.hash uploads

section Session

variable (b : Backend) (default : Action) (mainPath : Bytes) (responses : ResponseBuffer)
variable (actions : List (Disk × Action)) (hpath : ∀ x ∈ actions, OnPath mainPath x.2)
variable (hsent : (sendActions default mainPath responses actions).thrown = none)
variable (residue : Bytes) (hr : Blank residue) (closed : Bool) (trace : List Effect)

include hpath hsent hr

theorem transmissible_of_roundTrips
    (h : RoundTrips b (uploadsOf mainPath responses.currentIndex actions)
      (sendActions default mainPath responses actions).writes.flatten residue closed trace) :
    ∀ u ∈ uploadsOf mainPath responses.currentIndex actions, Transmissible u.message := by
  rw [sendActions_writes hpath hsent] at h
  obtain ⟨s', hrun, -, -, hdecoded⟩ := h
  rw [← List.append_nil (sessionBytes _)] at hrun
  exact transmissible_of_readActions b [] closed trace (isUpload_uploadsOf hpath responses.inInt) hr
    hrun hdecoded

/-- The request stream round trip holds exactly when no path holds a line break, and no path and
no index outgrows its field. -/
theorem request_stream :
    RoundTrips b (uploadsOf mainPath responses.currentIndex actions)
        (sendActions default mainPath responses actions).writes.flatten residue closed trace ↔
      ∀ u ∈ uploadsOf mainPath responses.currentIndex actions, newline ∉ u.message.cleanedPath ∧
        u.message.cleanedPath.length < 10 ^ intMaxNDigit ∧ Fits intMaxNDigit u.message.index := by
  constructor
  · intro h u hu
    obtain ⟨hfits, hline⟩ := transmissible_of_roundTrips b default mainPath responses actions hpath
      hsent residue hr closed trace h u hu
    exact ⟨hline.1, hline.2, hfits⟩
  · intro h
    obtain ⟨trace', hrun, hdecoded⟩ := readActions_session b [] closed trace
      (isUpload_uploadsOf hpath responses.inInt)
      (fun u hu => ⟨(h u hu).2.2, (h u hu).1, (h u hu).2.1⟩) hr
    rw [List.append_nil] at hrun
    rw [sendActions_writes hpath hsent]
    exact ⟨_, hrun, rfl, rfl, hdecoded⟩

end Session

/-- A database that never fails. -/
def sampleBackend : Backend where
  addAction _ _ := true
  getRestoreEntries _ _ := none
  localDay _ := []
  hash := Digest.shortDigest
  uninit := 0
  stray := []
  pastEnd _ := false

/-- A disk on which every file holds two bytes. -/
def sampleDisk : Disk where
  lastWriteTime _ := some 1714521600
  permissions _ := some 420
  fileSize _ := some 2
  content _ := some [104, 105]
  time := by simp
  mode := by simp
  sized := by simp

/-- The monitored folder `/d`. -/
def samplePath : Bytes := [47, 100]

/-- The creation of a file below it. -/
def sampleAction (name : Bytes) : Action := .ofStatus false (samplePath ++ name) .created .created

theorem onPath_sampleAction (name : Bytes) :
    ∀ x ∈ [(sampleDisk, sampleAction name)], OnPath samplePath x.2 := by
  intro x hx
  rw [List.mem_singleton.mp hx]
  exact onPath_ofStatus (List.prefix_append _ _)

/-- The folder `/d/b` and the file `/d/b/a` are created. -/
def storedActions : List (Disk × Action) :=
  [(sampleDisk, .ofStatus true (samplePath ++ [47, 98]) .created .created),
    (sampleDisk, sampleAction [47, 98, 47, 97])]

/-- Then the folder, whose time changes, is ignored, and `/d/c` is deleted. -/
def sampleActions : List (Disk × Action) := storedActions ++
  [(sampleDisk, .ofStatus true (samplePath ++ [47, 98]) .modified .created),
    (sampleDisk, .ofStatus false (samplePath ++ [47, 99]) .erased .created)]

theorem onPath_sampleActions : ∀ x ∈ sampleActions, OnPath samplePath x.2 := by
  unfold OnPath
  decide

theorem request_stream_sample :
    RoundTrips sampleBackend (uploadsOf samplePath 0 sampleActions)
      (sendActions (sampleAction []) samplePath .empty sampleActions).writes.flatten [newline] false
      [] := by
  refine (request_stream sampleBackend (sampleAction []) samplePath .empty sampleActions
    onPath_sampleActions rfl [newline] Blank.newline false []).mpr ?_
  decide

/-- The name `/a` and a line break arrives as `/a`. -/
theorem request_stream_newline :
    ¬RoundTrips sampleBackend
      (uploadsOf samplePath 0 [(sampleDisk, sampleAction [47, 97, newline])])
      (sendActions (sampleAction []) samplePath .empty
        [(sampleDisk, sampleAction [47, 97, newline])]).writes.flatten [newline] false [] := by
  intro h
  have htransmissible := transmissible_of_roundTrips sampleBackend (sampleAction []) samplePath
    .empty [(sampleDisk, sampleAction [47, 97, newline])] (onPath_sampleAction _) rfl [newline]
    Blank.newline false [] h
  have hmem : uploadOf samplePath sampleDisk (sampleAction [47, 97, newline]) 0 ∈
      uploadsOf samplePath 0 [(sampleDisk, sampleAction [47, 97, newline])] := List.mem_singleton_self _
  exact absurd (htransmissible _ hmem).cleanedPath.1 (by decide)

end BackupManager.Protocol
