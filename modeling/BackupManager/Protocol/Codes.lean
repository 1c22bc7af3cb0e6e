import Mathlib.Data.List.Basic

/-! The constants and enumerations that the client and the server both declare. -/
namespace BackupManager.Protocol

/-- `ActionType`; only the client's enumeration has `ignore`. -/
inductive ActionType where
  | readFile
  | createFolder
  | deletePath
  | restore
  | quit
  | ignore
  deriving DecidableEq, Repr

def ActionType.code : ActionType → ℕ
  | .readFile => 0
  | .createFolder => 1
  | .deletePath => 2
  | .restore => 3
  | .quit => 4
  | .ignore => 5

inductive ActionStatus where
  | created
  | sent
  | received
  | completed
  | error
  | finish
  deriving DecidableEq, Repr

def ActionStatus.code : ActionStatus → ℕ
  | .created => 0
  | .sent => 1
  | .received => 2
  | .completed => 3
  | .error => 4
  | .finish => 5

/-- The digits of `2 ^ (8 * sizeof(int))`. -/
def intMaxNDigit : ℕ := 10

def maxMsgSize : ℕ := 1024

theorem maxMsgSize_pos : 0 < maxMsgSize := by decide

theorem ActionType.code_injective : Function.Injective ActionType.code := by
  intro a b h
  cases a <;> cases b <;> first | rfl | cases h

theorem ActionType.code_lt (a : ActionType) : a.code < 10 := by
  cases a <;> decide

end BackupManager.Protocol
