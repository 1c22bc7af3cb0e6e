import BackupManager.ByteStream.Field
import BackupManager.Table.History
import BackupManager.Table.SortedMap
import BackupManager.Protocol.Codes

/-! The per-user table and the queries of the server. SQLite is modelled by the documented
meaning of the statements that are used: text compares in BINARY order, the primary key is
`(filename, timestamp)`, and a statement delivers its rows by repeated steps. -/
namespace BackupManager.Server
open ByteStream Protocol Table

/-- A row of a user's table. -/
structure Row where
  filename : Bytes
  timestamp : Bytes
  file : Bytes
  size : ℤ
  action : ActionType
  hash : Bytes
  lastWriteTime : Bytes
  permissions : Bytes
  deriving DecidableEq, Repr

/-- A user's table; the primary key is enforced by SQLite. -/
structure UserTable where
  rows : List Row
  keyed : Keyed Row.filename Row.timestamp rows

/-- `CREATE TABLE`. -/
def UserTable.empty : UserTable := ⟨[], by simp [Keyed]⟩

/-- The arguments of `addAction`; the user's table is given separately. -/
structure AddAction where
  filename : Bytes
  timestamp : Bytes
  file : Bytes
  size : ℤ
  action : ActionType
  hash : Bytes
  lastWriteTime : Bytes
  permissions : Bytes
  /-- What `sqlite3_bind_blob` takes for the file where `size` is none of its lengths; that is not
  defined. -/
  stray : Bytes
  deriving DecidableEq, Repr

/-- So many bytes can be taken of the file. -/
def AddAction.Sized (c : AddAction) : Prop := 0 ≤ c.size ∧ c.size ≤ c.file.length

instance : DecidablePred AddAction.Sized := fun _ => inferInstanceAs (Decidable (_ ∧ _))

/-- The values bound to the statement. `sqlite3_bind_blob` takes `size` bytes of the file. -/
def AddAction.row (c : AddAction) : Row where
  filename := c.filename
  timestamp := c.timestamp
  file := if c.Sized then c.file.take c.size.toNat else c.stray
  size := c.size
  action := c.action
  hash := c.hash
  lastWriteTime := c.lastWriteTime
  permissions := c.permissions

def checkKeyExist (table : UserTable) (filename timestamp : Bytes) : Bool :=
  table.rows.any (fun x => x.filename = filename ∧ x.timestamp = timestamp)

theorem checkKeyExist_iff {table : UserTable} {filename timestamp : Bytes} :
    checkKeyExist table filename timestamp = true ↔
      ∃ x ∈ table.rows, x.filename = filename ∧ x.timestamp = timestamp := by
  simp [checkKeyExist]

/-- `update ... set file=?, size=?, action=?, hash=?, last_write_time=?, permissions=?
where filename=? and timestamp=?`. -/
def updateRows (table : UserTable) (r : Row) : UserTable where
  rows := table.rows.map fun x =>
    if x.filename = r.filename ∧ x.timestamp = r.timestamp then
      { x with
        file := r.file
        size := r.size
        action := r.action
        hash := r.hash
        lastWriteTime := r.lastWriteTime
        permissions := r.permissions }
    else x
  keyed := table.keyed.map fun x _ => by split <;> exact ⟨rfl, rfl⟩

/-- `insert into ... values(...)`; it fails when the key is taken. -/
def insertRow (table : UserTable) (r : Row) : Option UserTable :=
  if h : checkKeyExist table r.filename r.timestamp = true then none
  else some ⟨table.rows ++ [r], table.keyed.append_singleton fun x hx hk =>
    h (checkKeyExist_iff.mpr ⟨x, hx, hk⟩)⟩

/-- `addAction`: an update when the key exists, an insert otherwise. `none` is an exception. -/
def addAction (table : UserTable) (c : AddAction) : Option UserTable :=
  if checkKeyExist table c.filename c.timestamp then
    some (updateRows table c.row)
  else insertRow table c.row

/-- `ORDER BY filename`. -/
def orderByFilename (rows : List Row) : List Row :=
  rows.insertionSort (fun r r' => r.filename ≤ r'.filename)

/-- The rows that the statement of `getRestoreEntries` selects. -/
def selectRestore (table : UserTable) (deleteCode : ActionType) (date : Bytes) : List Row :=
  orderByFilename (current Row.filename Row.timestamp table.rows
    (fun t => decide (t ≤ date)) (fun r => decide (r.action ≠ deleteCode)))

/-- The rows that the statement of `getInitailizationEntries` selects. -/
def selectInitialization (table : UserTable) (deleteCode : ActionType) : List Row :=
  orderByFilename (current Row.filename Row.timestamp table.rows
    (fun _ => true) (fun r => decide (r.action ≠ deleteCode)))

/-- What one call of `sqlite3_step` returns. -/
inductive Step (ρ : Type) where
  | row (r : ρ)
  | done
  | error (code : ℕ)
  deriving DecidableEq, Repr

/-- The return codes a statement with these rows can give: its rows in order and `SQLITE_DONE`,
or some of them and an error. -/
inductive Answers {ρ : Type} (rows : List ρ) : List (Step ρ) → Prop where
  | done : Answers rows (rows.map .row ++ [.done])
  | error (k code : ℕ) : Answers rows ((rows.take k).map .row ++ [.error code])

/-- `while (sqlite3_step(stmt) == SQLITE_ROW) { ... }`. -/
def stepLoop {ρ M : Type} (body : M → ρ → Except String M) :
    M → List (Step ρ) → Except String M
  | m, .row r :: rest => do
    let m ← body m r
    stepLoop body m rest
  | m, _ => .ok m

/-- A C string ends at the first NUL. -/
def cString (text : Bytes) : Bytes := text.takeWhile (· ≠ 0)

/-- `length(X)` of a TEXT: the characters before the first NUL, a character being a lead byte
and the continuation bytes after it. -/
def sqliteLength : Bytes → ℕ
  | [] => 0
  | b :: rest => if b = 0 then 0 else 1 + skip (decide (192 ≤ b)) rest
where
  /-- Count the characters after a character; `multi` while its continuation bytes may follow. -/
  skip (multi : Bool) : Bytes → ℕ
    | [] => 0
    | b :: rest =>
      if multi && (128 ≤ b && b < 192) then skip true rest
      else if b = 0 then 0 else 1 + skip (decide (192 ≤ b)) rest

/-- `std::stoi`: `none` when it throws. -/
def stoi (text : Bytes) : Option ℤ :=
  let n := Istream.scanNumber ((cString text).dropWhile isSpace)
  let v := Istream.toInt n.negative (evalDigits n.digits)
  if n.digits ≠ [] ∧ v.2 = true then some v.1 else none

/-- Struct that contains the fields that describe a file entry in the database. -/
structure File where
  size : ℤ
  isDirectory : ℤ
  filename : Bytes
  fileContent : Bytes
  lastWriteTime : ℤ
  permissions : ℤ
  deriving DecidableEq, Repr

/-- The hash of a folder, the text `dir`. -/
def dirHash : Bytes := [100, 105, 114]

/-- The body of the loop of `getRestoreEntries`, up to the insertion. -/
def restoreFile (r : Row) : Except String File := do
  let filename := r.filename.take (sqliteLength r.filename)
  let some lastWriteTime := stoi r.lastWriteTime | throw "stoi"
  let some permissions := stoi r.permissions | throw "stoi"
  if cString r.hash ≠ dirHash then
    if r.size < 0 then throw "basic_string::_M_create"
    pure ⟨r.size, 0, filename, r.file.take r.size.toNat, lastWriteTime, permissions⟩
  else pure ⟨r.size, 1, filename, [], lastWriteTime, permissions⟩

abbrev RestoreMap := SortedMap Bytes File

def getRestoreEntries (steps : List (Step Row)) : Except String RestoreMap :=
  stepLoop (fun m r => do
    let f ← restoreFile r
    pure (m.insert f.filename f)) .empty steps

abbrev HashMap := SortedMap Bytes Bytes

def getInitailizationEntries (steps : List (Step Row)) : Except String HashMap :=
  stepLoop (fun m r => pure (m.insert (cString r.filename) (cString r.hash))) .empty steps

/-- `select password from users where username=?`; a user is a name and a password. -/
def selectPassword (users : List (Bytes × Bytes)) (username : Bytes) : List Bytes :=
  (users.filter fun u => u.1 = username).map Prod.snd

/-- The statement is stepped once. -/
def passwordFromUsername : List (Step Bytes) → Except String (Option Bytes)
  | .row password :: _ => .ok (some (cString password))
  | _ => .ok none

end BackupManager.Server
