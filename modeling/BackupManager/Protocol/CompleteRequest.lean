import BackupManager.ByteStream.Number
import BackupManager.Protocol.Dispatch
import BackupManager.Protocol.RestoreOutcome

/-! Requests as they may stand in any stream of bytes: each number is a decimal number in its field, each
text is as long as announced and ends with its line break. The loop takes such a request for what it
is. -/
namespace BackupManager.Protocol
open ByteStream Client Server

/-- A field for a `size_t`; a negative number wraps around. -/
structure SizeField where
  number : Number
  width : number.text.length = intMaxNDigit

/-- A field for an `int`. -/
structure IntField where
  number : Number
  width : number.text.length = intMaxNDigit
  inInt : InInt number.value

def SizeField.bytes (x : SizeField) : Bytes := x.number.bytes
def SizeField.value (x : SizeField) : ℕ :=
  (Istream.toSizeT x.number.negative (evalDigits x.number.digits)).1
def IntField.bytes (x : IntField) : Bytes := x.number.bytes
def IntField.value (x : IntField) : ℤ := x.number.value

/-- A size, and the line that it announces. -/
structure SizedLine where
  size : SizeField
  nonneg : 0 ≤ size.number.value
  line : Bytes
  announced : size.value = line.length
  plain : newline ∉ line

def SizedLine.bytes (x : SizedLine) : Bytes := x.size.bytes ++ (x.line ++ [newline])

/-- The fields at the start of a request. -/
structure Header where
  actionType : SizeField
  index : IntField
  path : SizedLine
  lastWriteTime : SizedLine
  permissions : SizedLine

namespace Header

def bytes (h : Header) : Bytes :=
  h.actionType.bytes ++ (h.index.bytes ++ (h.path.bytes ++ (h.lastWriteTime.bytes ++
    h.permissions.bytes)))

def frame (h : Header) : Frame :=
  ⟨h.actionType.value, h.index.value, h.path.line, h.lastWriteTime.line, h.permissions.line⟩

/-- The header of an action of this type. -/
def Is (h : Header) (t : ActionType) : Prop := h.frame.actionType = t.code

end Header

/-- A request; the loop goes on after it. -/
inductive CompleteRequest (pastEnd : ℕ → Bool) where
  | folder (h : Header) (is : h.Is .createFolder)
  | deletion (h : Header) (is : h.Is .deletePath)
  | file (h : Header) (is : h.Is .readFile) (size : IntField) (content : Bytes)
      (announced : size.value = content.length) (small : size.value < Istream.intMax)
  /-- A size for which no room can be reserved. -/
  | refused (h : Header) (is : h.Is .readFile) (size : IntField) (negative : size.value < -1)
  | restore (h : Header) (is : h.Is .restore) (length : IntField) (date : Bytes)
      (announced : length.value = date.length) (isDate : IsDate date)
  /-- A type that the server does not know. -/
  | unrecognized (h : Header) (is : ActionType.ignore.code ≤ h.frame.actionType)
      (named : HasName pastEnd h.frame.actionType)

namespace CompleteRequest

variable {pastEnd : ℕ → Bool}

def header : CompleteRequest pastEnd → Header
  | folder h _ => h
  | deletion h _ => h
  | file h _ _ _ _ _ => h
  | refused h _ _ _ => h
  | restore h _ _ _ _ _ => h
  | unrecognized h _ _ => h

/-- What follows the header. -/
def body : CompleteRequest pastEnd → Bytes
  | file _ _ size content _ _ => size.bytes ++ content
  | refused _ _ size _ => size.bytes
  | restore _ _ length date _ _ => length.bytes ++ (date ++ [newline])
  | _ => []

def bytes (x : CompleteRequest pastEnd) : Bytes := x.header.bytes ++ x.body

/-- The line break of a date is left for the next request. -/
def residue : CompleteRequest pastEnd → Bytes
  | restore _ _ _ _ _ _ => [newline]
  | _ => []

/-- The call that the request asks for; the date of a call is the handler's own. -/
def call (hash : Bytes → Bytes) (x : CompleteRequest pastEnd) : Option AddAction :=
  let f := x.header.frame
  match x with
  | folder _ _ => some (createFolderCall f.path [] f.lastWriteTime f.permissions)
  | deletion _ _ => some (deletePathCall f.path [] f.lastWriteTime f.permissions)
  | file _ _ _ content _ _ =>
    some (readFileCall hash f.path [] f.lastWriteTime f.permissions content content.length)
  | _ => none

theorem blank_residue (x : CompleteRequest pastEnd) : Blank x.residue := by
  cases x with
  | restore h is length date announced isDate => exact Blank.newline
  | _ => exact Blank.nil

end CompleteRequest

section Reading

variable {residue wire : Bytes} {closed : Bool} {trace : List Effect}

theorem recvSize_field (x : SizeField) (hr : Blank residue) :
    Prog.recvSize intMaxNDigit 0 ⟨x.bytes ++ wire, closed, .fresh residue, trace⟩ =
      (.returns x.value, ⟨wire, closed, .fresh [newline], trace⟩) :=
  Prog.recvSize_number x.width (by decide) hr 0

theorem recvInt_field (x : IntField) (hr : Blank residue) (old : ℤ) :
    Prog.recvInt intMaxNDigit old ⟨x.bytes ++ wire, closed, .fresh residue, trace⟩ =
      (.returns x.value, ⟨wire, closed, .fresh [newline], trace⟩) :=
  Prog.recvInt_number x.width x.inInt hr old

theorem SizedLine.length_lt (x : SizedLine) : x.line.length < 10 ^ intMaxNDigit := by
  have hlt := x.size.number.value_lt
  have hbound : ((10 ^ intMaxNDigit : ℕ) : ℤ) < 2 ^ 64 := by decide
  rw [x.size.width] at hlt
  have hvalue := x.announced
  unfold SizeField.value at hvalue
  rw [Number.toSizeT_value x.nonneg (by omega)] at hvalue
  have hnonneg := x.nonneg
  dsimp only at hvalue
  omega

theorem readSizedLine_bytes (x : SizedLine) (hr : Blank residue) :
    readSizedLine ⟨x.bytes ++ wire, closed, .fresh residue, trace⟩ =
      (.returns x.line, ⟨wire, closed, .fresh [], trace⟩) := by
  rw [readSizedLine, SizedLine.bytes, List.append_assoc, List.append_assoc,
    Prog.bind_of_returns (recvSize_field x.size hr), x.announced, List.singleton_append]
  exact Prog.recvLine_field (lineCount_of_lt x.length_lt) x.plain []

theorem readFrame_header (b : Backend) (h : Header) (hr : Blank residue) :
    readFrame b ⟨h.bytes ++ wire, closed, .fresh residue, trace⟩ =
      (.returns h.frame, ⟨wire, closed, .fresh [], trace⟩) := by
  simp only [Header.bytes, List.append_assoc]
  rw [readFrame, Prog.bind_of_returns (recvSize_field h.actionType hr),
    Prog.bind_of_returns (recvInt_field h.index Blank.newline b.uninit),
    Prog.bind_of_returns (readSizedLine_bytes h.path Blank.newline),
    Prog.bind_of_returns (readSizedLine_bytes h.lastWriteTime Blank.nil),
    Prog.bind_of_returns (readSizedLine_bytes h.permissions Blank.nil)]
  rfl

theorem readAction_header (b : Backend) (h : Header) (hr : Blank residue) :
    readAction b ⟨h.bytes ++ wire, closed, .fresh residue, trace⟩ =
      dispatch b h.frame ⟨wire, closed, .fresh [], acknowledged trace h.frame⟩ := by
  rw [readAction, Prog.bind_of_returns (readFrame_header b h hr),
    Prog.bind_of_returns (acknowledge_apply _ _)]

end Reading

section Bodies

variable (wire : Bytes) (closed : Bool) (trace : List Effect)

theorem numberAndBreak_field (size : IntField) :
    Prog.recvBlock numberWidth Istream.numberAndBreak ⟨size.bytes ++ wire, closed, .fresh [], trace⟩ =
      (.returns size.value, ⟨wire, closed, .fresh [], trace⟩) := by
  have hwidth : size.bytes.length = numberWidth := by
    rw [IntField.bytes, Number.length_bytes, size.width]
    rfl
  have hnumber := size.number.getNumber_bytes Istream.toInt 0 Blank.nil
  rw [List.nil_append, toInt_of_inInt _ _ size.inInt] at hnumber
  rw [Prog.recvBlock_append hwidth, List.nil_append, Istream.numberAndBreak]
  unfold IntField.bytes
  rw [hnumber]
  rfl

theorem fileBody_content (b : Backend) {content : Bytes} (hsmall : (content.length : ℤ) < Istream.intMax)
    (path : Bytes) (index : ℤ) (day lastWriteTime permissions : Bytes) :
    fileBody b path index day lastWriteTime permissions content.length
        ⟨content ++ wire, closed, .fresh [], trace⟩ =
      (do callAddAction b (readFileCall b.hash path day lastWriteTime permissions content
            content.length)
          sendResponseToClient index .completed) ⟨wire, closed, .fresh [], trace⟩ := by
  have hroom : ¬((content.length : ℤ) < -1 ∨ (content.length : ℤ) = Istream.intMax) := by omega
  rw [fileBody, if_neg hroom, Int.toNat_natCast]
  refine (Prog.bind_of_returns (recvChunks_pure content wire closed trace) _).trans ?_
  rw [bindFile_readFileCall]

theorem getWord_date {date : Bytes} (hdate : IsDate date) :
    Prog.recvBlock (Prog.sizeOfInt (Prog.intSucc date.length)) (Istream.getWord [])
        ⟨date ++ [newline] ++ wire, closed, .fresh [newline], trace⟩ =
      (.returns date, ⟨wire, closed, .fresh [newline], trace⟩) := by
  have hwidth : (date ++ [newline]).length = Prog.sizeOfInt (Prog.intSucc date.length) := by
    rw [Prog.sizeOfInt_intSucc hdate.2.2]
    exact List.length_append
  have hword := @Istream.getWord_fresh date [] hdate.1 hdate.2.1 [newline] Blank.newline []
  rw [Prog.recvBlock_append hwidth, ← List.append_assoc, hword]

end Bodies

/-- What the request asks for is done, with its own bytes. -/
theorem dispatch_complete (b : Backend) (x : CompleteRequest b.pastEnd) (wire : Bytes) (closed : Bool)
    (trace : List Effect) :
    ∃ effects, dispatch b x.header.frame ⟨x.body ++ wire, closed, .fresh [], trace⟩ =
        (.returns true, ⟨wire, closed, .fresh x.residue, trace ++ effects⟩) ∧
      calls effects = (x.call b.hash).toList := by
  cases x with
  | folder h is => exact dispatch_createFolder b ⟨wire, closed, .fresh [], trace⟩ is
  | deletion h is => exact dispatch_deletePath b ⟨wire, closed, .fresh [], trace⟩ is
  | file h is size content announced small =>
    rw [announced] at small
    have hsize := numberAndBreak_field (content ++ wire) closed trace size
    rw [announced, ← List.append_assoc] at hsize
    have hbody := fileBody_content wire closed trace b small
      h.frame.path h.frame.index (b.localDay trace) h.frame.lastWriteTime h.frame.permissions
    exact dispatch_stores b (hasName_of_eq b.pastEnd is)
      ⟨size.bytes ++ content ++ wire, closed, .fresh [], trace⟩ ((perform_file is hsize _).trans
        ((Prog.bind_congr_apply hbody _).trans (congrFun (Prog.bind_bind _ _ _) _)))
  | refused h is size negative =>
    exact ⟨_, dispatch_file_refused is (numberAndBreak_field wire closed trace size) (Or.inl negative), rfl⟩
  | restore h is length date announced isDate =>
    have hlength : Prog.recvInt intMaxNDigit b.uninit
        ⟨length.bytes ++ (date ++ [newline]) ++ wire, closed, .fresh [], trace⟩ =
          (.returns date.length, ⟨date ++ [newline] ++ wire, closed, .fresh [newline], trace⟩) := by
      rw [List.append_assoc, recvInt_field length Blank.nil b.uninit, announced]
    obtain ⟨effects, hcalls, hrun⟩ := dispatch_date is hlength (getWord_date wire closed trace isDate)
    exact ⟨effects, hrun, hcalls⟩
  | unrecognized h is named =>
    exact ⟨_, dispatch_unrecognized b ⟨wire, closed, .fresh [], trace⟩ is named, rfl⟩

/-- One round of the loop. -/
theorem readAction_complete (b : Backend) (x : CompleteRequest b.pastEnd) {residue : Bytes}
    (hr : Blank residue) (wire : Bytes) (closed : Bool) (trace : List Effect) :
    ∃ trace', readAction b ⟨x.bytes ++ wire, closed, .fresh residue, trace⟩ =
        (.returns true, ⟨wire, closed, .fresh x.residue, trace'⟩) ∧
      calls trace' = calls trace ++ (x.call b.hash).toList := by
  obtain ⟨effects, hrun, hcalls⟩ := dispatch_complete b x wire closed
    (acknowledged trace x.header.frame)
  refine ⟨acknowledged trace x.header.frame ++ effects, ?_, ?_⟩
  · rw [CompleteRequest.bytes, List.append_assoc, readAction_header b x.header hr, hrun]
  · rw [calls_append, calls_acknowledged, hcalls]

end BackupManager.Protocol
