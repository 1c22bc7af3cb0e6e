import BackupManager.Protocol.Connection
import BackupManager.Protocol.RequestStream

/-! The transactions of a connection: a frame with what belongs to it, and the replies to it. Each
end takes a transaction of the other exactly as it was written. -/
namespace BackupManager.Protocol
open ByteStream Client Server

/-- A frame with what should follow it on the channel. -/
inductive Transaction where
  | upload (u : Upload)
  | restore (index : ℤ) (date : Bytes)
  | quit
  deriving DecidableEq, Repr

namespace Transaction

def message : Transaction → Message
  | .upload u => u.message
  | .restore index _ => ⟨.restore, index, blank, blank, blank⟩
  | .quit => quitMessage

/-- What the action consumer writes after the frame. -/
def own : Transaction → Bytes
  | .upload u => u.tail
  | _ => []

/-- What follows the frame on the channel, whoever writes it. -/
def tail : Transaction → Bytes
  | .upload u => u.tail
  | .restore _ date => dateBlock date
  | .quit => []

def bytes (x : Transaction) : Bytes := x.message.bytes ++ x.tail

/-- The date block that the response consumer has to write. -/
def date? : Transaction → Option (ℤ × Bytes)
  | .restore index date => some (index, date)
  | _ => none

/-- The index that the transaction has in the response buffer. -/
def number : Transaction → Option ℤ
  | .upload u => some u.message.index
  | .restore index _ => some index
  | .quit => none

/-- The transaction passes through the channel unchanged. -/
def Valid : Transaction → Prop
  | .upload u => IsUpload u ∧ Transmissible u.message
  | .restore index date => InInt index ∧ Fits intMaxNDigit index ∧ IsWord date
  | .quit => True

variable {x : Transaction}

theorem Valid.wellFormed (h : x.Valid) : WellFormed x.message := by
  cases x with
  | upload u => exact h.1.message
  | restore index date => exact ⟨h.1, isLine_blank, List.cons_ne_nil _ _, isLine_blank⟩
  | quit => exact wellFormed_quitMessage

theorem Valid.transmissible (h : x.Valid) : Transmissible x.message := by
  cases x with
  | upload u => exact h.2
  | restore index date => exact ⟨h.2.1, isLine_blank⟩
  | quit => exact transmissible_quitMessage

/-- Only the quit frame has the type of one. -/
theorem Valid.quit_iff (h : x.Valid) :
    (frameOf x.message).actionType = ActionType.quit.code ↔ x = .quit := by
  cases x with
  | upload u =>
    have hne : u.message.actionType ≠ .quit := by
      rcases h.1.stores with ht | ht | ht <;> simp [ht]
    constructor
    · intro hcode
      exact absurd (ActionType.code_injective hcode) hne
    · intro heq
      exact absurd heq (by simp)
  | restore index date => simp [message, frameOf, ActionType.code]
  | quit => simp [message, frameOf, quitMessage]

end Transaction

/-- A response, or the responses to a frame. -/
inductive Reply where
  | ack (x : Transaction)
  | final (index : ℤ) (status : ActionStatus)
  deriving DecidableEq, Repr

namespace Reply

def index : Reply → ℤ
  | .ack x => x.message.index
  | .final index _ => index

def status : Reply → ActionStatus
  | .ack .quit => .finish
  | .ack _ => .received
  | .final _ status => status

def bytes (r : Reply) : Bytes := responseBytes r.index r.status

end Reply

section Extends

variable (b : Backend)

theorem extends_readSizedLine : Prog.Extends readSizedLine :=
  .bind (.recvSize _ _) fun _ => .recvLine _ _

theorem extends_emit (e : Effect) : Prog.Extends (emit e) := .modifyWorld _

theorem extends_receiveFrame : Prog.Extends (receiveFrame b) := by
  have hframe : Prog.Extends (Server.readFrame b) :=
    .bind (.recvSize _ _) fun _ => .bind (.recvInt _ _) fun _ => .bind extends_readSizedLine fun _ =>
      .bind extends_readSizedLine fun _ => .bind extends_readSizedLine fun _ => .pure _
  refine .bind hframe fun f => .bind (.bind (extends_emit _) fun _ => ?_) fun _ => .pure _
  split
  · exact extends_emit _
  · exact extends_emit _

theorem extends_store (c : AddAction) (index : ℤ) :
    Prog.Extends (do callAddAction b c; sendResponseToClient index .completed) := by
  refine .bind (.bind .getWorld fun _ => .bind (extends_emit _) fun _ => ?_) fun _ => extends_emit _
  split
  · exact .pure _
  · exact .throw _

theorem extends_actionReadFile (path : Bytes) (index : ℤ)
    (time lastWriteTime permissions : Bytes) :
    Prog.Extends (actionReadFile b path index time lastWriteTime permissions) := by
  unfold actionReadFile
  refine .bind (.recvInt _ _) fun size => .bind (.extract _) fun _ => ?_
  have hrest : Prog.Extends (do
      let file ← Prog.recvChunks maxMsgSize (fun _ => pure ()) size.toNat
      callAddAction b
        (bindFile b (readFileCall b.hash path time lastWriteTime permissions file size))
      sendResponseToClient index .completed) :=
    .bind (.recvChunks (fun _ => .pure _) _) fun _ => extends_store b _ _
  split
  · exact .bind (.throw _) fun _ => hrest
  · exact hrest

theorem extends_actionRestore (index : ℤ) : Prog.Extends (Server.actionRestore b index) := by
  unfold Server.actionRestore
  refine .bind (.recvInt _ _) fun _ => .bind (.read _) fun _ => .bind (.extract _) fun _ =>
    .bind (extends_emit _) fun _ => .bind .getWorld fun _ => .bind (extends_emit _) fun _ => ?_
  split
  · exact .throw _
  · exact .bind (extends_emit _) fun _ => extends_emit _

theorem extends_dispatch (f : Frame) : Prog.Extends (dispatch b f) := by
  have hname : Prog.Extends (typeName b f.actionType) := by
    unfold typeName
    split
    · exact .pure _
    · exact .throw _
  refine .bind .getWorld fun trace => .tryCatch ?_ fun _ => .bind hname fun _ =>
    .bind (extends_emit _) fun _ => .pure _
  unfold perform
  split
  · exact .bind (extends_actionReadFile b _ _ _ _ _) fun _ => .pure _
  · split
    · exact .bind (extends_store b _ _) fun _ => .pure _
    · split
      · exact .bind (extends_store b _ _) fun _ => .pure _
      · split
        · exact .pure _
        · split
          · exact .bind (extends_actionRestore b _) fun _ => .pure _
          · exact .throw _

end Extends

section Server

variable (b : Backend) {x : Transaction} {residue wire : Bytes} {trace : List Effect}
variable {s : Session (List Effect)} {closed : Bool}

theorem receiveFrame_bytes (hx : x.Valid) (hr : Blank residue) :
    receiveFrame b ⟨x.message.bytes ++ wire, closed, .fresh residue, trace⟩ =
      (.returns (frameOf x.message),
        ⟨wire, closed, .fresh [], acknowledged trace (frameOf x.message)⟩) := by
  rw [receiveFrame, Prog.bind_of_returns (readFrame_bytes (hx.wellFormed.readable hx.transmissible) hr),
    Prog.bind_of_returns (acknowledge_apply _ _)]
  rfl

theorem receiveFrame_waits (hwire : s.wire = []) (hs : s.closed = false) :
    receiveFrame b s = (.waits, s) := by
  have hshort : s.wire.length < intMaxNDigit + 1 := by
    rw [hwire]
    decide
  exact Prog.bind_of_waits (Prog.bind_of_waits (Prog.recvSize_waits hshort hs 0) _) _

/-- The effects of executing a transaction. -/
def served (trace : List Effect) : Transaction → List Effect
  | .upload u =>
    let c := u.call b.hash (b.localDay trace)
    [.addAction c, .response u.message.index (if b.addAction trace c then .completed else .error)]
  | .restore index date => restoreEffects
      (b.getRestoreEntries (trace ++ [.parsedDate date.length date]) date) index date
  | .quit => []

/-- A transaction is executed with its own bytes, and the loop goes on except after the quit. -/
theorem dispatch_transaction (hx : x.Valid) :
    ∃ residue, Blank residue ∧
      dispatch b (frameOf x.message) ⟨x.tail ++ wire, closed, .fresh [], trace⟩ =
        (.returns (x ≠ .quit), ⟨wire, closed, .fresh residue, trace ++ served b trace x⟩) := by
  cases x with
  | upload u =>
    refine ⟨[], Blank.nil, ?_⟩
    exact dispatch_storable b wire closed trace hx.1.storable
  | restore index date => exact ⟨[newline], Blank.newline, dispatch_restore b rfl hx.2.2.isDate Blank.nil⟩
  | quit =>
    refine ⟨[], Blank.nil, ?_⟩
    rw [served, List.append_nil]
    rfl

/-- A restore waits while its date block has not arrived. -/
theorem dispatch_restore_waits {index : ℤ} {date : Bytes} (hwire : s.wire = [])
    (hs : s.closed = false) :
    dispatch b (frameOf (Transaction.restore index date).message) s = (.waits, s) := by
  have hshort : s.wire.length < intMaxNDigit + 1 := by
    rw [hwire]
    decide
  have hperform : perform b (frameOf (Transaction.restore index date).message)
      (b.localDay s.world) s = (.waits, s) :=
    Prog.bind_of_waits (Prog.bind_of_waits (Prog.recvInt_waits hshort hs b.uninit) _) _
  rw [dispatch, Prog.bind_of_returns (Prog.getWorld_apply _)]
  unfold Prog.tryCatch
  rw [hperform]

end Server

section Client

variable {φ : Type} {residue wire : Bytes} {closed : Bool} {world : Restoring φ}

/-- A response arrives as it was sent. -/
theorem readResponse_bytes {i : ℤ} (hi : InInt i) (hf : Fits intMaxNDigit i) (st : ActionStatus)
    (hr : Blank residue) (index actionStatus : ℤ) :
    readResponse index actionStatus
        ⟨responseBytes i st ++ wire, closed, .fresh residue, world⟩ =
      (.returns (i, (st.code : ℤ)), ⟨wire, closed, .fresh [newline], world⟩) := by
  have hcode : st.code ≤ 5 := by
    cases st <;> decide
  have hint : InInt (st.code : ℤ) := inInt_natCast (by omega)
  have hstatus : Fits intMaxNDigit (st.code : ℤ) := fits_of_nonneg hint (by omega)
  rw [responseBytes, List.append_assoc, readResponse,
    Prog.bind_of_returns (Prog.recvInt_field hf hi hr index),
    Prog.bind_of_returns (Prog.recvInt_field hstatus hint Blank.newline actionStatus)]
  rfl

theorem readResponse_waits {s : Session (Restoring φ)} (hwire : s.wire = [])
    (hs : s.closed = false) (index actionStatus : ℤ) :
    readResponse index actionStatus s = (.waits, s) := by
  have hshort : s.wire.length < intMaxNDigit + 1 := by
    rw [hwire]
    decide
  exact Prog.bind_of_waits (Prog.recvInt_waits hshort hs index) _

/-- `action_restore` of the client waits for the number of entries. -/
theorem actionRestore_waits {s : Session (Restoring φ)} (hwire : s.wire = [])
    (hs : s.closed = false) (ops : FileOps φ) (v : Locals) (pathNumber : ℤ)
    (date userPath : Bytes) :
    (Client.actionRestore ops v pathNumber date userPath s).1 = .waits := by
  have hshort : s.wire.length < intMaxNDigit + 1 := by
    rw [hwire]
    decide
  have hwaits : restoreInto ops v pathNumber date userPath s = (.waits, { s with world :=
      { s.world with sent := s.world.sent ++ [dateBlock date] } }) := by
    refine (Prog.bind_of_returns (write_apply _ _) _).trans ?_
    exact Prog.bind_of_waits (Prog.recvInt_waits (s := { s with world :=
      { s.world with sent := s.world.sent ++ [dateBlock date] } }) hshort hs pathNumber) _
  unfold Client.actionRestore Prog.tryCatch
  rw [hwaits]

end Client
end BackupManager.Protocol
