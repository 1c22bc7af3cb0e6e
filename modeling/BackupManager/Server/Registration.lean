import BackupManager.Server.Database
import BackupManager.Table.Connection

/-! `createNewUser`: the row of a new user and the user's table, in one transaction. Every call of
SQLite may fail; the code looks at some of the results. -/
namespace BackupManager.Server
open ByteStream Protocol Table Connection

/-- The database file. A table is found by its name without regard to case. -/
structure Db where
  users : List (Bytes × Bytes)
  tables : Bytes → Option UserTable

/-- `isalnum` in the C locale. -/
def isAlnum (b : Byte) : Bool :=
  48 ≤ b && b ≤ 57 || 65 ≤ b && b ≤ 90 || 97 ≤ b && b ≤ 122

/-- The name without what is not alphanumeric, behind a `_`. -/
def tablenameFromUsername (s : Bytes) : Bytes := 95 :: s.filter isAlnum

/-- Names of tables that SQLite takes for the same. -/
def foldCase (name : Bytes) : Bytes := name.map fun b => if 65 ≤ b && b ≤ 90 then b + 32 else b

/-- Where the table of a user is found. -/
def tableKey (username : Bytes) : Bytes := foldCase (tablenameFromUsername username)

/-- `insert into users(username, password) values(?, ?)`; nothing in the table is unique. -/
def Db.addUser (username password : Bytes) (db : Db) : Db :=
  { db with users := db.users ++ [(username, password)] }

/-- `CREATE TABLE`. -/
def Db.addTable (username : Bytes) (db : Db) : Db :=
  { db with tables := Function.update db.tables (tableKey username) (some .empty) }

/-- What the calls of `createNewUser` return. -/
structure SignUpCodes where
  begin : Code
  prepareInsert : Code
  bindUsername : Code
  bindPassword : Code
  stepInsert : Code
  prepareCreate : Code
  stepCreate : Code
  commit : Code
  deriving DecidableEq, Repr

/-- The first statement of `createNewUser`. -/
def insertUser (codes : SignUpCodes) (username password : Bytes) : Call Db :=
  andThen (call codes.prepareInsert) (andThen (call codes.bindUsername)
    (andThen (call codes.bindPassword)
      (execute (fun db => some (db.addUser username password)) codes.stepInsert)))

/-- A `CREATE TABLE` of a name that is taken is refused when it is prepared. -/
def Db.whereFree (username : Bytes) (db : Db) : Option Db :=
  if (db.tables (tableKey username)).isSome then none else some db

/-- The second statement of `createNewUser`. -/
def createTable (codes : SignUpCodes) (username : Bytes) : Call Db :=
  andThen (execute (Db.whereFree username) codes.prepareCreate)
    (execute (fun db => some (db.addTable username)) codes.stepCreate)

/-- `false` is an exception. The results of `BEGIN` and `COMMIT` are not looked at. -/
def createNewUser (codes : SignUpCodes) (username password : Bytes) : Call Db := fun c =>
  let r := andThen (insertUser codes username password) (createTable codes username)
    (begin codes.begin c).2
  if r.1 then (true, (commit codes.commit r.2).2) else (false, r.2.rollback)

/-- The row of the user can be inserted. -/
structure SignUpCodes.Inserts (codes : SignUpCodes) : Prop where
  prepare : codes.prepareInsert = .ok
  bindUsername : codes.bindUsername = .ok
  bindPassword : codes.bindPassword = .ok
  step : codes.stepInsert = .ok

/-- The user's table can be created. -/
structure SignUpCodes.Creates (codes : SignUpCodes) (username : Bytes) (db : Db) : Prop where
  prepare : codes.prepareCreate = .ok
  step : codes.stepCreate = .ok
  free : db.tables (tableKey username) = none

section Statements

variable {codes : SignUpCodes} {username password : Bytes} {c : Connection Db}

theorem insertUser_ok (h : codes.Inserts) : insertUser codes username password c =
    (true, c.put (c.current.addUser username password)) := by
  unfold insertUser
  rw [h.prepare, h.bindUsername, h.bindPassword, h.step, andThen_of_true (call_ok c),
    andThen_of_true (call_ok c), andThen_of_true (call_ok c)]
  exact execute_ok rfl

theorem insertUser_refused (username password : Bytes) (h : ¬codes.Inserts) :
    ∃ c', insertUser codes username password c = (false, c') ∧ Unwritten c c' := by
  unfold insertUser
  by_cases h₁ : codes.prepareInsert = .ok
  · rw [h₁, andThen_of_true (call_ok c)]
    by_cases h₂ : codes.bindUsername = .ok
    · rw [h₂, andThen_of_true (call_ok c)]
      by_cases h₃ : codes.bindPassword = .ok
      · rw [h₃, andThen_of_true (call_ok c)]
        exact execute_refused _ _ (Or.inl fun h₄ => h ⟨h₁, h₂, h₃, h₄⟩)
      · obtain ⟨c', hrun, hc'⟩ := call_refused (c := c) h₃
        exact ⟨c', andThen_of_false hrun, hc'⟩
    · obtain ⟨c', hrun, hc'⟩ := call_refused (c := c) h₂
      exact ⟨c', andThen_of_false hrun, hc'⟩
  · obtain ⟨c', hrun, hc'⟩ := call_refused (c := c) h₁
    exact ⟨c', andThen_of_false hrun, hc'⟩

theorem createTable_ok (h : codes.Creates username c.current) :
    createTable codes username c = (true, c.put (c.current.addTable username)) := by
  have hfree : c.current.whereFree username = some c.current := by
    unfold Db.whereFree
    rw [h.free]
    rfl
  unfold createTable
  rw [h.prepare, h.step, andThen_of_true (execute_ok hfree), put_current]
  exact execute_ok rfl

theorem createTable_refused (h : ¬codes.Creates username c.current) :
    ∃ c', createTable codes username c = (false, c') ∧ Unwritten c c' := by
  unfold createTable
  by_cases hfree : c.current.tables (tableKey username) = none
  · have hwhere : c.current.whereFree username = some c.current := by
      unfold Db.whereFree
      rw [hfree]
      rfl
    by_cases hprepare : codes.prepareCreate = .ok
    · rw [hprepare, andThen_of_true (execute_ok hwhere), put_current]
      exact execute_refused _ _ (Or.inl fun hstep => h ⟨hprepare, hstep, hfree⟩)
    · obtain ⟨c', hrun, hc'⟩ := execute_refused (c := c) (Db.whereFree username)
        codes.prepareCreate (Or.inl hprepare)
      exact ⟨c', andThen_of_false hrun, hc'⟩
  · have hwhere : c.current.whereFree username = none := by
      unfold Db.whereFree
      rw [Option.isSome_iff_ne_none.mpr hfree]
      rfl
    obtain ⟨c', hrun, hc'⟩ := execute_refused _ codes.prepareCreate (Or.inr hwhere)
    exact ⟨c', andThen_of_false hrun, hc'⟩

end Statements

/-- The database with the user and the user's table. -/
def Db.register (username password : Bytes) (db : Db) : Db :=
  (db.addUser username password).addTable username

/-- A sign-up that returns has committed both, one that throws nothing; no transaction is left open,
and what the session writes afterwards survives the closing of the connection. -/
def SignsUp (codes : SignUpCodes) (username password : Bytes) (c : Connection Db) : Prop :=
  let r := createNewUser codes username password c
  r.2.committed = (if r.1 then c.committed.register username password else c.committed) ∧
    r.2.pending = none ∧
    ∀ change db, change r.2.current = some db →
      (execute change .ok r.2).2.rollback.committed = db

section SignUp

variable {codes : SignUpCodes} {username password : Bytes} {c : Connection Db}

theorem signsUp_iff : SignsUp codes username password c ↔
    (createNewUser codes username password c).2.committed =
        (if (createNewUser codes username password c).1 then c.committed.register username password
          else c.committed) ∧
      (createNewUser codes username password c).2.pending = none := by
  constructor
  · exact fun h => ⟨h.1, h.2.1⟩
  · exact fun h => ⟨h.1, h.2, fun change db hdb => durable h.2 hdb⟩

/-- What the two statements do, from a connection inside or outside a transaction. -/
theorem statements_ok (hinsert : codes.Inserts)
    (hcreate : codes.Creates username (c.current.addUser username password)) :
    andThen (insertUser codes username password) (createTable codes username) c =
      (true, c.put (c.current.register username password)) := by
  have hcreate' : codes.Creates username
      (c.put (c.current.addUser username password)).current := by rwa [current_put]
  rw [andThen_of_true (insertUser_ok hinsert), createTable_ok hcreate', put_put, current_put]
  rfl

theorem statements_refused (username password : Bytes) (h : codes.Inserts →
    ¬codes.Creates username (c.current.addUser username password)) :
    ∃ c', andThen (insertUser codes username password) (createTable codes username) c = (false, c') ∧
      (¬codes.Inserts → Unwritten c c') ∧
      (codes.Inserts → Unwritten (c.put (c.current.addUser username password)) c') := by
  by_cases hinsert : codes.Inserts
  · have hcreate : ¬codes.Creates username
        (c.put (c.current.addUser username password)).current := by
      rw [current_put]
      exact h hinsert
    obtain ⟨c', hrun, hc'⟩ := createTable_refused hcreate
    refine ⟨c', ?_, fun hno => absurd hinsert hno, fun _ => hc'⟩
    rw [andThen_of_true (insertUser_ok hinsert), hrun]
  · obtain ⟨c', hrun, hc'⟩ := insertUser_refused (c := c) username password hinsert
    exact ⟨c', andThen_of_false hrun, fun _ => hc', fun hyes => absurd hyes hinsert⟩

theorem addUser_ne (username password : Bytes) (db : Db) : db.addUser username password ≠ db := by
  intro heq
  have hlength := congrArg (fun d => d.users.length) heq
  simp [Db.addUser] at hlength

theorem register_ne (username password : Bytes) (db : Db) : db.register username password ≠ db := by
  intro heq
  have hlength := congrArg (fun d => d.users.length) heq
  simp [Db.register, Db.addTable, Db.addUser] at hlength

variable (codes username password)

/-- A sign-up that starts in a transaction of its own. -/
theorem createNewUser_begun (hbegin : codes.begin = .ok) (db : Db) :
    (codes.Inserts ∧ codes.Creates username (db.addUser username password) →
      createNewUser codes username password ⟨db, none⟩ =
        (true, (commit codes.commit ⟨db, some (db.register username password)⟩).2)) ∧
    (¬(codes.Inserts ∧ codes.Creates username (db.addUser username password)) →
      createNewUser codes username password ⟨db, none⟩ = (false, ⟨db, none⟩)) := by
  have hstart : (begin codes.begin (⟨db, none⟩ : Connection Db)).2 = ⟨db, some db⟩ := by rw [hbegin]; rfl
  unfold createNewUser
  rw [hstart]
  constructor
  · rintro ⟨hinsert, hcreate⟩
    rw [statements_ok hinsert hcreate]
    rfl
  · intro hfails
    obtain ⟨c', hrun, hunwritten, hwritten⟩ := statements_refused username password
      (c := ⟨db, some db⟩) fun hinsert hcreate => hfails ⟨hinsert, hcreate⟩
    rw [hrun]
    by_cases hinsert : codes.Inserts
    · exact Prod.ext rfl (hwritten hinsert).rollback
    · exact Prod.ext rfl (hunwritten hinsert).rollback

/-- A sign-up whose `BEGIN` has failed commits each statement by itself. -/
theorem createNewUser_autocommit (hbegin : codes.begin ≠ .ok) (db : Db) :
    (codes.Inserts → codes.Creates username (db.addUser username password) →
      createNewUser codes username password ⟨db, none⟩ =
        (true, ⟨db.register username password, none⟩)) ∧
    (codes.Inserts → ¬codes.Creates username (db.addUser username password) →
      createNewUser codes username password ⟨db, none⟩ =
        (false, ⟨db.addUser username password, none⟩)) ∧
    (¬codes.Inserts → createNewUser codes username password ⟨db, none⟩ = (false, ⟨db, none⟩)) := by
  have hstart : (begin codes.begin (⟨db, none⟩ : Connection Db)).2 = ⟨db, none⟩ := by
    cases hcode : codes.begin with
    | ok => exact absurd hcode hbegin
    | error aborts => cases aborts <;> rfl
  unfold createNewUser
  rw [hstart]
  refine ⟨fun hinsert hcreate => ?_, fun hinsert hcreate => ?_, fun hinsert => ?_⟩
  · rw [statements_ok hinsert hcreate]
    cases codes.commit <;> rfl
  · obtain ⟨c', hrun, -, hwritten⟩ := statements_refused username password
      (c := ⟨db, none⟩) fun _ => hcreate
    rw [hrun]
    exact Prod.ext rfl (hwritten hinsert).rollback
  · obtain ⟨c', hrun, hunwritten, -⟩ := statements_refused username password
      (c := ⟨db, none⟩) fun hyes => absurd hyes hinsert
    rw [hrun]
    exact Prod.ext rfl (hunwritten hinsert).rollback

end SignUp

/-- A sign-up is atomic and truthful unless a `COMMIT` fails after everything else worked, or a
`BEGIN` fails before an insertion that no table follows. -/
theorem sign_up (codes : SignUpCodes) (username password : Bytes) (c : Connection Db)
    (hpending : c.pending = none) :
    SignsUp codes username password c ↔
      (codes.begin = .ok → codes.Inserts →
        codes.Creates username (c.committed.addUser username password) → codes.commit = .ok) ∧
      (codes.begin ≠ .ok → codes.Inserts →
        codes.Creates username (c.committed.addUser username password)) := by
  obtain ⟨db, pending⟩ := c
  subst hpending
  rw [signsUp_iff]
  by_cases hbegin : codes.begin = .ok
  · obtain ⟨hsucceeds, hfails⟩ := createNewUser_begun codes username password hbegin db
    by_cases hboth : codes.Inserts ∧ codes.Creates username (db.addUser username password)
    · rw [hsucceeds hboth]
      cases hcommit : codes.commit with
      | ok => simp [commit, hbegin]
      | error aborts =>
        have hno : ¬(codes.begin = .ok → codes.Inserts →
            codes.Creates username (db.addUser username password) →
            Code.error aborts = Code.ok) :=
          fun h => absurd (h hbegin hboth.1 hboth.2) (by simp)
        refine iff_of_false (fun h => ?_) fun h => hno h.1
        cases aborts with
        | false => exact absurd h.2 (by simp [commit, failed])
        | true => exact register_ne username password db h.1.symm
    · rw [hfails hboth]
      refine iff_of_true ⟨rfl, rfl⟩ ⟨fun _ hinsert hcreate => ?_, fun hno => absurd hbegin hno⟩
      exact absurd ⟨hinsert, hcreate⟩ hboth
  · obtain ⟨hsucceeds, hkeeps, hfails⟩ :=
      createNewUser_autocommit codes username password hbegin db
    by_cases hinsert : codes.Inserts
    · by_cases hcreate : codes.Creates username (db.addUser username password)
      · rw [hsucceeds hinsert hcreate]
        exact iff_of_true ⟨rfl, rfl⟩ ⟨fun h => absurd h hbegin, fun _ _ => hcreate⟩
      · rw [hkeeps hinsert hcreate]
        refine iff_of_false (fun h => ?_) fun h => hcreate (h.2 hbegin hinsert)
        exact addUser_ne username password db h.1
    · rw [hfails hinsert]
      exact iff_of_true ⟨rfl, rfl⟩ ⟨fun h => absurd h hbegin, fun _ h => absurd h hinsert⟩

section Samples

/-- Everything succeeds but, perhaps, the `COMMIT`. -/
def commitCodes (commit : Code) : SignUpCodes := ⟨.ok, .ok, .ok, .ok, .ok, .ok, .ok, commit⟩

/-- A database without users. -/
def emptyDb : Db := ⟨[], fun _ => none⟩

theorem sign_up_committed : SignsUp (commitCodes .ok) [97] [120] ⟨emptyDb, none⟩ :=
  (sign_up (commitCodes .ok) [97] [120] ⟨emptyDb, none⟩ rfl).mpr
    ⟨fun _ _ _ => rfl, fun h => absurd rfl h⟩

/-- `SQLITE_BUSY`: the transaction stays open, and its rows are gone when the connection closes. -/
theorem sign_up_busy : ¬SignsUp (commitCodes (.error false)) [97] [120] ⟨emptyDb, none⟩ := by
  intro h
  have hopen : (createNewUser (commitCodes (.error false)) [97] [120]
      ⟨emptyDb, none⟩).2.pending ≠ none := Option.some_ne_none _
  exact hopen h.2.1

end Samples
end BackupManager.Server
