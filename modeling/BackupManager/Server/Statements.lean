import BackupManager.Server.Isolation
import BackupManager.Table.Statement

/-! `Database.cpp` call by call: which statements are prepared, when they are finalized, and what the
results of the calls make of the tables. Over it stand the tables and the queries of the modules
before. -/
namespace BackupManager.Server
open ByteStream Protocol Table Script

/-- The table of the user exists. -/
def Db.hasTable (username : Bytes) (db : Db) : Bool := (db.tables (tableKey username)).isSome

/-- The statement that `addAction` executes. -/
def Db.upsert (username : Bytes) (doesKeyExist : Bool) (c : AddAction) (db : Db) : Option Db :=
  (db.tables (tableKey username)).bind fun table =>
    (if doesKeyExist then some (updateRows table c.row) else insertRow table c.row).map fun table' =>
      { db with tables := Function.update db.tables (tableKey username) (some table') }

/-- What `std::runtime_error` says; `sqlite3_errmsg` follows. -/
def sqliteError : String := "SQLITE error"

namespace Calls

section Functions

variable (results : ℕ → Code)

/-- The password of the first row, when the step has given one. -/
def readPassword (stmt : Option ℕ) (ok : Bool) (rows : List Bytes) : Script Db (Option Bytes) :=
  match ok, rows with
  | true, password :: _ => do
    use stmt
    pure (some (cString password))
  | _, _ => pure none

def passwordFromUsername (username : Bytes) : Script Db (Option Bytes) := do
  let stmt ← prepareOrThrow results sqliteError fun _ => true
  callOrThrow results sqliteError Connection.call stmt
  let db ← current
  let ok ← stepRead results stmt
  let result ← readPassword stmt ok (selectPassword db.users username)
  finalize stmt
  pure result

/-- The `try` block of `createNewUser` after the `BEGIN`: the variable `stmt` as it is left, and whether
the end of the block was reached. -/
def createNewUserBlock (username password : Bytes) : Script Db (Option ℕ × Bool) := do
  let stmt ← prepare results fun _ => true
  if stmt.isNone then pure (stmt, false) else do
  let ok ← bindValue results stmt
  if !ok then pure (stmt, false) else do
  let ok ← bindValue results stmt
  if !ok then pure (stmt, false) else do
  let ok ← stepWrite results (fun db => some (db.addUser username password)) stmt
  if !ok then pure (stmt, false) else do
  finalize stmt
  let stmt ← prepare results fun db => !db.hasTable username
  if stmt.isNone then pure (stmt, false) else do
  let ok ← stepWrite results (fun db => some (db.addTable username)) stmt
  pure (stmt, ok)

/-- `throw e` throws a `std::exception`, whatever was caught. The `ROLLBACK` ends what transaction there
is; nothing looks at its result. -/
def createNewUser (username password : Bytes) : Script Db Unit := do
  let _ ← call results Connection.begin
  let (stmt, ok) ← createNewUserBlock results username password
  if ok then
    let _ ← call results Connection.commit
    finalize stmt
  else
    let _ ← call results fun _ c => (true, c.rollback)
    finalize stmt
    throw "std::exception"

/-- `sqlite3_column_type` of a row; the column is never NULL. -/
def readColumnType (stmt : Option ℕ) (row : Bool) : Script Db Unit := if row then use stmt else pure ()

def checkKeyExist (username filename timestamp : Bytes) : Script Db Bool := do
  let stmt ← prepareOrThrow results sqliteError (Db.hasTable username)
  callOrThrow results sqliteError Connection.call stmt
  callOrThrow results sqliteError Connection.call stmt
  let db ← current
  callOrThrow results sqliteError Connection.call stmt
  let result := (db.tables (tableKey username)).any fun table =>
    Server.checkKeyExist table filename timestamp
  readColumnType stmt result
  finalize stmt
  pure result

/-- The `n` values that are bound to a statement. -/
def bindValues (stmt : Option ℕ) : ℕ → Script Db Unit
  | 0 => pure ()
  | n + 1 => do
    callOrThrow results sqliteError Connection.call stmt
    bindValues stmt n

def addAction (username : Bytes) (c : AddAction) : Script Db Unit := do
  let doesKeyExist ← checkKeyExist results username c.filename c.timestamp
  let stmt ← prepareOrThrow results sqliteError (Db.hasTable username)
  bindValues results stmt 8
  callOrThrow results sqliteError (Connection.execute (Db.upsert username doesKeyExist c)) stmt
  finalize stmt

/-- The rows that a statement selects from the table of the user. -/
def selectFrom (username : Bytes) (select : UserTable → List Row) (db : Db) : List Row :=
  ((db.tables (tableKey username)).map select).getD []

def getInitailizationEntries (username : Bytes) : Script Db HashMap := do
  let stmt ← prepareOrThrow results sqliteError (Db.hasTable username)
  let db ← current
  let resultMap ← forRows results stmt
    (fun (m : HashMap) (r : Row) => .ok (m.insert (cString r.filename) (cString r.hash)))
    (selectFrom username (selectInitialization · .deletePath) db) .empty
  finalize stmt
  pure resultMap

def getRestoreEntries (username date : Bytes) : Script Db RestoreMap := do
  let stmt ← prepareOrThrow results sqliteError (Db.hasTable username)
  callOrThrow results sqliteError Connection.call stmt
  let db ← current
  let resultMap ← forRows results stmt
    (fun (m : RestoreMap) (r : Row) => do
      let f ← restoreFile r
      pure (m.insert f.filename f))
    (selectFrom username (selectRestore · .deletePath date) db) .empty
  finalize stmt
  pure resultMap

end Functions

/-- A call of a public function of `Database`. -/
inductive DbCall where
  | passwordFromUsername (username : Bytes)
  | createNewUser (username password : Bytes)
  | addAction (username : Bytes) (c : AddAction)
  | getInitailizationEntries (username : Bytes)
  | getRestoreEntries (username date : Bytes)

inductive DbResult where
  | password (password : Option Bytes)
  | done
  | hashes (m : HashMap)
  | entries (m : RestoreMap)

def perform (results : ℕ → Code) : DbCall → Script Db DbResult
  | .passwordFromUsername username => do
    let password ← passwordFromUsername results username
    pure (.password password)
  | .createNewUser username password => do
    createNewUser results username password
    pure .done
  | .addAction username c => do
    addAction results username c
    pure .done
  | .getInitailizationEntries username => do
    let m ← getInitailizationEntries results username
    pure (.hashes m)
  | .getRestoreEntries username date => do
    let m ← getRestoreEntries results username date
    pure (.entries m)

/-- The calls that a handler makes, one after another, with how they ended. -/
def runCalls (results : ℕ → Code) : List DbCall → Driver Db →
    List (Except String DbResult) × Driver Db
  | [], s => ([], s)
  | call :: rest, s =>
    let r := perform results call s
    let later := runCalls results rest r.2
    (r.1 :: later.1, later.2)

/-- A connection that has been opened. -/
def opened (db : Db) : Driver Db := ⟨⟨db, none⟩, 0, [], false, 0⟩

/-- `sqlite3_close` closes a connection that has no statement left. -/
def closes (s : Driver Db) : Bool := s.live.isEmpty

/-- What the conversions of the columns throw. -/
def conversionError (what : String) : Bool := what = "stoi" || what = "basic_string::_M_create"

/-- How many statements a function leaves open. -/
def leaks {α : Type} : Except String α → ℕ
  | .ok _ => 0
  | .error what => if conversionError what then 1 else 0

/-- A statement is left open where a conversion has thrown, and nowhere else. -/
def Leaves {α : Type} (o : Except String α) (left : List ℕ) : Prop := left.length = leaks o

section Statements

variable {results : ℕ → Code} {h : ℕ} {α : Type}

theorem owns_prepare {f : Option ℕ → Script Db α} {valid : Db → Bool}
    (hf : ∀ h, Owns [h] (f (some h)) Leaves) :
    Owns [] (prepareOrThrow results sqliteError valid >>= f) Leaves := by
  refine .bind (.prepareOrThrow sqliteError valid) (fun stmt left hmid => ?_) fun what left hmid => ?_
  · rcases hmid with ⟨h, hok, rfl⟩ | ⟨herror, -⟩
    · cases hok
      exact hf h
    · cases herror
  · rcases hmid with ⟨h, hok, -⟩ | ⟨herror, rfl⟩
    · cases hok
    · cases herror
      rfl

theorem owns_checked {p : Script Db Unit} {f : Unit → Script Db α}
    (hp : Owns [h] p (Checked sqliteError [h])) (hf : Owns [h] (f ()) Leaves) :
    Owns [h] (p >>= f) Leaves := by
  refine .bind hp (fun _ left hmid => ?_) fun what left hmid => ?_
  · rw [show left = [h] from hmid]
    exact hf
  · obtain ⟨rfl, rfl⟩ := hmid
    rfl

theorem owns_call {g : Code → Call Db} {f : Unit → Script Db α} (hf : Owns [h] (f ()) Leaves) :
    Owns [h] (callOrThrow results sqliteError g (some h) >>= f) Leaves :=
  owns_checked (.callOrThrow sqliteError g) hf

theorem owns_readPassword (ok : Bool) (rows : List Bytes) :
    Owns [h] (readPassword (some h) ok rows) (Unchanged [h]) := by
  unfold readPassword
  split
  · exact .andThen .use fun _ => .pure ⟨rfl, _, rfl⟩
  · exact .pure ⟨rfl, _, rfl⟩

theorem owns_passwordFromUsername (username : Bytes) :
    Owns [] (passwordFromUsername results username) Leaves :=
  owns_prepare fun h => owns_call (.andThen .current fun _ =>
    .andThen (.useCall Connection.call) fun ok => .andThen (owns_readPassword ok _) fun _ =>
      .andThen (.finalize (some h)) fun _ => .pure rfl)

theorem owns_readColumnType (row : Bool) :
    Owns [h] (readColumnType (some h) row) (Unchanged [h]) := by
  unfold readColumnType
  split
  · exact .use
  · exact .pure ⟨rfl, _, rfl⟩

theorem owns_checkKeyExist (username filename timestamp : Bytes) :
    Owns [] (checkKeyExist results username filename timestamp) Leaves :=
  owns_prepare fun h => owns_call (owns_call (.andThen .current fun _ => owns_call
    (.andThen (owns_readColumnType _) fun _ => .andThen (.finalize (some h)) fun _ => .pure rfl)))

theorem owns_bindValues (n : ℕ) :
    Owns [h] (bindValues results (some h) n) (Checked sqliteError [h]) := by
  induction n with
  | zero => exact .pure rfl
  | succ n ih =>
    refine .bind (.callOrThrow sqliteError Connection.call) (fun _ left hmid => ?_)
      fun _ _ hmid => hmid
    rw [show left = [h] from hmid]
    exact ih

theorem owns_then {β : Type} {p : Script Db β} {f : β → Script Db α} (hp : Owns [] p Leaves)
    (hf : ∀ b, Owns [] (f b) Leaves) : Owns [] (p >>= f) Leaves := by
  refine .bind hp (fun b left hmid => ?_) fun _ _ hmid => hmid
  rw [List.length_eq_zero_iff.mp hmid]
  exact hf b

theorem owns_addAction (username : Bytes) (c : AddAction) :
    Owns [] (addAction results username c) Leaves := by
  refine owns_then (owns_checkKeyExist username c.filename c.timestamp) fun doesKeyExist =>
    owns_prepare fun h => owns_checked (owns_bindValues 8) (owns_call ?_)
  refine (Owns.finalize (some h)).mono fun o left hmid => ?_
  obtain ⟨rfl, u, rfl⟩ := hmid
  rfl

theorem owns_getInitailizationEntries (username : Bytes) :
    Owns [] (getInitailizationEntries results username) Leaves := by
  refine owns_prepare fun h => .andThen .current fun db =>
    .bind (.forRows _ _ _) (fun m left hmid => ?_) fun what left hmid => ?_
  · rw [hmid.1]
    exact .andThen (.finalize (some h)) fun _ => .pure rfl
  · obtain ⟨m, r, hbody⟩ := hmid.2 what rfl
    cases hbody

/-- The only exceptions in a row are those of the conversions. -/
theorem conversionError_of_restoreFile {r : Row} {what : String}
    (herror : restoreFile r = .error what) : conversionError what = true := by
  unfold restoreFile at herror
  cases htime : stoi r.lastWriteTime with
  | none =>
    rw [htime] at herror
    cases herror
    rfl
  | some time =>
    cases hpermissions : stoi r.permissions with
    | none =>
      rw [htime, hpermissions] at herror
      cases herror
      rfl
    | some permissions =>
      rw [htime, hpermissions] at herror
      dsimp only at herror
      by_cases hdir : cString r.hash ≠ dirHash
      · by_cases hsize : r.size < 0
        · rw [if_pos hdir, if_pos hsize] at herror
          cases herror
          rfl
        · rw [if_pos hdir, if_neg hsize] at herror
          cases herror
      · rw [if_neg hdir] at herror
        cases herror

theorem owns_getRestoreEntries (username date : Bytes) :
    Owns [] (getRestoreEntries results username date) Leaves := by
  refine owns_prepare fun h => owns_call (.andThen .current fun db =>
    .bind (.forRows _ _ _) (fun m left hmid => ?_) fun what left hmid => ?_)
  · rw [hmid.1]
    exact .andThen (.finalize (some h)) fun _ => .pure rfl
  · obtain ⟨m, r, hbody⟩ := hmid.2 what rfl
    have hfile : restoreFile r = .error what := by
      cases hrow : restoreFile r with
      | ok f =>
        rw [hrow] at hbody
        cases hbody
      | error what' =>
        rw [hrow] at hbody
        cases hbody
        rfl
    show left.length = if conversionError what then 1 else 0
    rw [hmid.1, conversionError_of_restoreFile hfile]
    rfl

/-- The block hands the statement in its variable over. -/
def HandsOver (o : Except String (Option ℕ × Bool)) (left : List ℕ) : Prop :=
  ∃ stmt ok, o = .ok (stmt, ok) ∧ left = stmt.toList

/-- A call in the block, whose failure leaves the block. -/
theorem owns_leaving {opened : List ℕ} (stmt : Option ℕ) (hopened : opened = stmt.toList)
    {p : Script Db Bool} {f : Script Db (Option ℕ × Bool)} (hp : Owns opened p (Unchanged opened))
    (hf : Owns opened f HandsOver) :
    Owns opened (p >>= fun ok => if !ok then pure (stmt, false) else f) HandsOver := by
  refine .andThen hp fun ok => ?_
  cases ok with
  | true => exact hf
  | false => exact .pure ⟨stmt, false, rfl, hopened⟩

theorem owns_createNewUserBlock (username password : Bytes) :
    Owns [] (createNewUserBlock results username password) HandsOver := by
  refine .prepareThen fun stmt => ?_
  cases stmt with
  | none => exact .pure ⟨none, false, rfl, rfl⟩
  | some h =>
    refine owns_leaving (some h) rfl (.useCall _) (owns_leaving (some h) rfl
      (.useCall _) (owns_leaving (some h) rfl (.useCall _) ?_))
    -- the second statement takes the place of the first one in the variable
    refine .andThen (.finalize (some h)) fun _ => .prepareThen fun stmt => ?_
    cases stmt with
    | none => exact .pure ⟨none, false, rfl, rfl⟩
    | some h' =>
      exact .andThen (.useCall _) fun ok => .pure ⟨some h', ok, rfl, rfl⟩

theorem owns_createNewUser (username password : Bytes) :
    Owns [] (createNewUser results username password) Leaves := by
  refine .andThen (.call _) fun _ => .bind (owns_createNewUserBlock username password)
    (fun r left hmid => ?_) fun _ _ ⟨_, _, hok, _⟩ => by cases hok
  obtain ⟨stmt, ok, hr, hleft⟩ := hmid
  cases hr
  rw [hleft]
  cases ok with
  | true =>
    refine .andThen (.call _) fun _ => (Owns.finalize stmt).mono fun o left hmid => ?_
    obtain ⟨rfl, u, rfl⟩ := hmid
    rfl
  | false =>
    exact .andThen (.call _) fun _ => .andThen (.finalize stmt) fun _ => .throw rfl

theorem owns_perform (call : DbCall) : Owns [] (perform results call) Leaves := by
  cases call with
  | passwordFromUsername username =>
    exact owns_then (owns_passwordFromUsername username) fun _ => .pure rfl
  | createNewUser username password =>
    exact owns_then (owns_createNewUser username password) fun _ => .pure rfl
  | addAction username c => exact owns_then (owns_addAction username c) fun _ => .pure rfl
  | getInitailizationEntries username =>
    exact owns_then (owns_getInitailizationEntries username) fun _ => .pure rfl
  | getRestoreEntries username date =>
    exact owns_then (owns_getRestoreEntries username date) fun _ => .pure rfl

theorem runCalls_statements (calls : List DbCall) : ∀ s : Driver Db,
    (runCalls results calls s).2.misused = s.misused ∧ (runCalls results calls s).2.live.length =
      ((runCalls results calls s).1.map leaks).sum + s.live.length := by
  induction calls with
  | nil => exact fun s => ⟨rfl, (Nat.zero_add _).symm⟩
  | cons call rest ih =>
    intro s
    obtain ⟨hmisused, left, hleaves, hlive⟩ := @owns_perform results call s s.live rfl
    obtain ⟨hmisused', hlive'⟩ := ih (perform results call s).2
    refine ⟨hmisused'.trans hmisused, ?_⟩
    show (runCalls results rest (perform results call s).2).2.live.length =
      (leaks (perform results call s).1 ::
        (runCalls results rest (perform results call s).2).1.map leaks).sum + s.live.length
    rw [hlive', hlive, List.length_append, show left.length = leaks (perform results call s).1
      from hleaves, List.sum_cons]
    omega

end Statements

/-- Whatever is called and whatever SQLite returns: no statement is used before it is prepared or after
it is finalized, and none is finalized twice; one is left open by each conversion that throws, so
that the destructor closes the connection if and only if there was none. -/
theorem statements_finalized (results : ℕ → Code) (calls : List DbCall) (db : Db) :
    let r := runCalls results calls (opened db)
    r.2.misused = false ∧ r.2.live.length = (r.1.map leaks).sum ∧
      (closes r.2 = true ↔ ∀ o ∈ r.1, leaks o = 0) := by
  intro r
  obtain ⟨hmisused, hlive⟩ := @runCalls_statements results calls (opened db)
  have hcount : r.2.live.length = (r.1.map leaks).sum := hlive
  refine ⟨hmisused, hcount, ?_⟩
  rw [closes, List.isEmpty_iff, ← List.length_eq_zero_iff, hcount, List.sum_eq_zero_iff]
  exact List.forall_mem_map

end Calls
end BackupManager.Server
