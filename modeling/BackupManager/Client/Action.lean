import BackupManager.ByteStream.Field
import BackupManager.Table.SortedMap
import BackupManager.Protocol.Codes

/-! The actions of the client and the buffer that numbers them and keeps them until they are
completed. -/
namespace BackupManager.Client
open ByteStream Protocol Table

inductive FileStatus where
  | created
  | modified
  | erased
  deriving DecidableEq, Repr

/-- An action on a path, or a restore; the fields of the other kind are never read. -/
structure Action where
  actionType : ActionType
  path : Bytes
  fileStatus : FileStatus
  st : ActionStatus
  restoreDate : Bytes
  restorePath : Bytes
  deriving DecidableEq, Repr

/-- The `switch` of the constructor of `Action`. -/
def actionTypeOf (isDirectory : Bool) : FileStatus → ActionType
  | .created => if isDirectory then .createFolder else .readFile
  | .modified => if isDirectory then .ignore else .readFile
  | .erased => .deletePath

theorem actionTypeOf_ne_restore (isDirectory : Bool) (fileStatus : FileStatus) :
    actionTypeOf isDirectory fileStatus ≠ .restore := by
  cases fileStatus <;> cases isDirectory <;> decide

def Action.ofStatus (isDirectory : Bool) (path : Bytes) (fileStatus : FileStatus)
    (st : ActionStatus) : Action :=
  ⟨actionTypeOf isDirectory fileStatus, path, fileStatus, st, [], []⟩

def Action.ofRestore (restoreDate restorePath : Bytes) : Action :=
  ⟨.restore, [], .created, .created, restoreDate, restorePath⟩

theorem intSucc_inInt {z : ℤ} (h : InInt z) : InInt (Prog.intSucc z) := by
  unfold InInt at h ⊢
  unfold Prog.intSucc
  split
  · exact ⟨le_refl _, by decide⟩
  · next hne => exact ⟨by omega, by omega⟩

/-- The `int` that comes after `k` increments of 0. -/
def wrapInt (k : ℕ) : ℤ := (k + 2147483648) % 4294967296 - 2147483648

theorem wrapInt_zero : wrapInt 0 = 0 := by decide

theorem wrapInt_succ (k : ℕ) : wrapInt (k + 1) = Prog.intSucc (wrapInt k) := by
  unfold Prog.intSucc wrapInt Istream.intMax Istream.intMin
  split <;> omega

/-- The values come back after `2 ^ 32` increments, not before. -/
theorem wrapInt_injective {k l : ℕ} (hk : k < 2 ^ 32) (hl : l < 2 ^ 32)
    (h : wrapInt k = wrapInt l) : k = l := by
  unfold wrapInt at h
  omega

structure ResponseBuffer where
  responseMap : SortedMap ℤ Action
  currentIndex : ℤ
  inInt : InInt currentIndex

namespace ResponseBuffer

def empty : ResponseBuffer := ⟨.empty, 0, by decide⟩

/-- The index given to the action, and the buffer that holds it. -/
def add (b : ResponseBuffer) (item : Action) : ℤ × ResponseBuffer :=
  (b.currentIndex, ⟨b.responseMap.assign b.currentIndex { item with st := .sent },
    Prog.intSucc b.currentIndex, intSucc_inInt b.inInt⟩)

/-- `responseMap[index].st = st`; an index that is missing is added with a default action. -/
def setStatus (default : Action) (b : ResponseBuffer) (index : ℤ) (st : ActionStatus) :
    ResponseBuffer :=
  { b with
    responseMap := b.responseMap.assign index
      { (b.responseMap.find? index).getD default with st := st } }

def receive (default : Action) (b : ResponseBuffer) (index : ℤ) : ResponseBuffer :=
  b.setStatus default index .received

def signalError (default : Action) (b : ResponseBuffer) (index : ℤ) : ResponseBuffer :=
  b.setStatus default index .error

def completed (b : ResponseBuffer) (index : ℤ) : ResponseBuffer :=
  { b with responseMap := b.responseMap.erase index }

/-- The action is rebuilt by its constructor, which looks at the file system once more. -/
def getAction (isDirectory : Bytes → Bool) (b : ResponseBuffer) (index : ℤ) : Option Action :=
  (b.responseMap.find? index).map fun m =>
    if m.actionType = .restore then .ofRestore m.restoreDate m.restorePath
    else .ofStatus (isDirectory m.path) m.path m.fileStatus m.st

/-- The items in the order of their indices. -/
def getAll (b : ResponseBuffer) : List Action := b.responseMap.entries.map Prod.snd

end ResponseBuffer
end BackupManager.Client
