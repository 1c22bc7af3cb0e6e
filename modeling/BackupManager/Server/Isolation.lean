import BackupManager.Server.Registration
import BackupManager.Server.RowDecoding
import BackupManager.Transition.Run

/-! Sessions of several users on one database. The names of the tables are not injective in the
names of the users; what keeps the users apart is that a table is created only once. -/
namespace BackupManager.Server
open ByteStream Protocol Table Connection Transition

/-- What happens to the query of `passwordFromUsername`; an error of its only step is not told
from the end of the rows. -/
inductive Lookup where
  | throws
  | interrupted (code : ℕ)
  | completes
  deriving DecidableEq, Repr

def Lookup.password (users : List (Bytes × Bytes)) (username : Bytes) :
    Lookup → Except String (Option Bytes)
  | .throws => .error "SQLITE error"
  | .interrupted code => passwordFromUsername [.error code]
  | .completes => passwordFromUsername (complete (selectPassword users username))

/-- The database after a login, and whether the session is open; `attempts` are the passwords that
the client sends until one is accepted. -/
def login (lookup : Lookup) (codes : SignUpCodes) (username password : Bytes)
    (attempts : List Bytes) (db : Db) : Db × Bool :=
  match lookup.password db.users username with
  | .error _ => (db, false)
  | .ok (some actualPassword) => (db, attempts.contains actualPassword)
  | .ok none =>
    let r := createNewUser codes username password ⟨db, none⟩
    (r.2.committed, r.1 && attempts.contains password)

/-- The server: its database, and the users whose sessions are open. -/
structure Sessions where
  db : Db
  sessions : List Bytes

inductive SessionEvent where
  | login (lookup : Lookup) (codes : SignUpCodes) (username password : Bytes)
      (attempts : List Bytes)
  | store (username : Bytes) (c : AddAction)
  | close (username : Bytes)

/-- `addAction` in a session of the user. -/
def Db.addAction (username : Bytes) (c : AddAction) (db : Db) : Option Db :=
  (db.tables (tableKey username)).bind fun table => (Server.addAction table c).map fun table' =>
    { db with tables := Function.update db.tables (tableKey username) (some table') }

/-- A login whose `BEGIN` and `COMMIT` succeed, a call of `addAction` in an open session, or the end
of a session. -/
def Sessions.step (s : Sessions) : SessionEvent → Option Sessions
  | .login lookup codes username password attempts =>
    if codes.begin = .ok ∧ codes.commit = .ok then
      let r := login lookup codes username password attempts s.db
      some ⟨r.1, if r.2 then username :: s.sessions else s.sessions⟩
    else none
  | .store username c =>
    if s.sessions.contains username then
      (s.db.addAction username c).map fun db => { s with db := db }
    else none
  | .close username =>
    if s.sessions.contains username then some { s with sessions := s.sessions.erase username } else none

/-- The usernames in `users`, a name as often as it has rows. -/
def Db.usernames (db : Db) : List Bytes := db.users.map Prod.fst

/-- The result of a query on the table of the user; without a table it cannot be prepared. -/
def Db.query {M : Type} (db : Db) (username : Bytes)
    (result : UserTable → Except String M) : Except String M :=
  match db.tables (tableKey username) with
  | none => .error "SQLITE error"
  | some table => result table

/-- `getInitailizationEntries`, where `answer` gives the return codes for the selected rows. -/
def Db.getInitailizationEntries (answer : List Row → List (Step Row)) (db : Db)
    (username : Bytes) : Except String HashMap :=
  db.query username fun table =>
    Server.getInitailizationEntries (answer (selectInitialization table .deletePath))

/-- `getRestoreEntries`. -/
def Db.getRestoreEntries (answer : List Row → List (Step Row)) (db : Db) (username date : Bytes) :
    Except String RestoreMap :=
  db.query username fun table =>
    Server.getRestoreEntries (answer (selectRestore table .deletePath date))

/-- Registered users have one row each, and a table each that is nobody else's. -/
structure Sessions.Isolated (s : Sessions) : Prop where
  nodup : s.db.usernames.Nodup
  created : ∀ u ∈ s.db.usernames, s.db.tables (tableKey u) ≠ none
  apart : ∀ u ∈ s.db.usernames, ∀ u' ∈ s.db.usernames, tableKey u = tableKey u' → u = u'
  registered : ∀ u ∈ s.sessions, u ∈ s.db.usernames

/-- Both queries on the table of the user give the same for both databases. -/
def SameResults (db db' : Db) (username : Bytes) : Prop :=
  ∀ answer, db'.getInitailizationEntries answer username =
      db.getInitailizationEntries answer username ∧
    ∀ date, db'.getRestoreEntries answer username date = db.getRestoreEntries answer username date

section Users

variable {s s' : Sessions} {db db' : Db} {lookup : Lookup} {codes : SignUpCodes}
  {username password u : Bytes} {attempts : List Bytes} {c : AddAction}

theorem usernames_register : (db.register username password).usernames =
    db.usernames ++ [username] := List.map_append

theorem tables_register : (db.register username password).tables =
    Function.update db.tables (tableKey username) (some .empty) := rfl

/-- Two users with one table have the same results; only the table of the user is read. -/
theorem sameResults_of_tables (h : db'.tables (tableKey u) = db.tables (tableKey u)) :
    SameResults db db' u := by
  intro answer
  unfold Db.getInitailizationEntries Db.getRestoreEntries Db.query
  rw [h]
  exact ⟨rfl, fun _ => rfl⟩

/-- A password that is found is that of a row. -/
theorem exists_row_of_lookup {lookup : Lookup} {users : List (Bytes × Bytes)}
    {username actualPassword : Bytes}
    (h : lookup.password users username = .ok (some actualPassword)) :
    ∃ password, (username, password) ∈ users ∧ actualPassword = cString password := by
  cases lookup with
  | throws => cases h
  | interrupted code => cases h
  | completes =>
    cases hrows : selectPassword users username with
    | nil =>
      rw [Lookup.password, hrows] at h
      cases h
    | cons password rest =>
      rw [Lookup.password, hrows] at h
      have hmem : password ∈ selectPassword users username := hrows ▸ List.mem_cons_self
      obtain ⟨⟨name, word⟩, hrow, rfl⟩ := List.mem_map.mp hmem
      obtain ⟨hrow, hname⟩ := List.mem_filter.mp hrow
      refine ⟨word, ?_, ?_⟩
      · rwa [← of_decide_eq_true hname]
      · cases h
        rfl

/-- A login registers its user, whose table did not exist, or changes nothing. -/
theorem login_cases (hbegin : codes.begin = .ok) (hcommit : codes.commit = .ok)
    (lookup : Lookup) (username password : Bytes) (attempts : List Bytes) (db : Db) :
    ((login lookup codes username password attempts db).1 = db.register username password ∧
        db.tables (tableKey username) = none) ∨
      (login lookup codes username password attempts db).1 = db ∧
        ((login lookup codes username password attempts db).2 = true →
          username ∈ db.usernames) := by
  unfold login
  cases hlookup : lookup.password db.users username with
  | error e =>
    right
    exact ⟨rfl, fun h => absurd h (by simp)⟩
  | ok found =>
    cases found with
    | some actualPassword =>
      right
      refine ⟨rfl, fun _ => ?_⟩
      cases lookup with
      | throws => exact absurd hlookup (by simp [Lookup.password])
      | interrupted code => exact absurd hlookup (by simp [Lookup.password, passwordFromUsername])
      | completes =>
        have hrow : (selectPassword db.users username) ≠ [] := by
          intro hnil
          rw [Lookup.password, hnil] at hlookup
          exact absurd hlookup (by simp [complete, passwordFromUsername])
        obtain ⟨row, hrow⟩ := List.exists_mem_of_ne_nil _ hrow
        obtain ⟨user, huser, -⟩ := List.mem_map.mp hrow
        have hname : user.1 = username := by simpa using (List.mem_filter.mp huser).2
        exact List.mem_map.mpr ⟨user, (List.mem_filter.mp huser).1, hname⟩
    | none =>
      obtain ⟨hsucceeds, hfails⟩ := createNewUser_begun codes username password hbegin db
      by_cases hboth : codes.Inserts ∧ codes.Creates username (db.addUser username password)
      · left
        dsimp only
        rw [hsucceeds hboth, hcommit]
        exact ⟨rfl, hboth.2.free⟩
      · right
        dsimp only
        rw [hfails hboth]
        exact ⟨rfl, fun h => absurd h (by simp)⟩

/-- A sign-up keeps the users apart. -/
theorem Sessions.Isolated.register (h : s.Isolated) (hfree : s.db.tables (tableKey username) = none)
    {sessions : List Bytes} (hsessions : ∀ u ∈ sessions, u = username ∨ u ∈ s.sessions) :
    Isolated ⟨s.db.register username password, sessions⟩ := by
  have hne : ∀ u ∈ s.db.usernames, tableKey u ≠ tableKey username := by
    intro u hu hkey
    apply h.created u hu
    rw [hkey, hfree]
  have hnew : username ∉ s.db.usernames := fun hmem => hne username hmem rfl
  have hmem (u : Bytes) : u ∈ (s.db.register username password).usernames ↔
      u ∈ s.db.usernames ∨ u = username := by
    rw [usernames_register, List.mem_append, List.mem_singleton]
  constructor
  case nodup =>
    rw [usernames_register, List.nodup_append]
    refine ⟨h.nodup, List.nodup_singleton username, fun u hu u' hu' heq => ?_⟩
    rw [List.mem_singleton.mp hu'] at heq
    exact hnew (heq ▸ hu)
  case created =>
    intro u hu
    rw [tables_register]
    rcases (hmem u).mp hu with hold | rfl
    · rw [Function.update_of_ne (hne u hold)]
      exact h.created u hold
    · rw [Function.update_self]
      exact Option.some_ne_none _
  case apart =>
    intro u hu u' hu' hkey
    rcases (hmem u).mp hu with hold | rfl
    · rcases (hmem u').mp hu' with hold' | rfl
      · exact h.apart u hold u' hold' hkey
      · exact absurd hkey (hne u hold)
    · rcases (hmem u').mp hu' with hold' | rfl
      · exact absurd hkey.symm (hne u' hold')
      · rfl
  case registered =>
    intro u hu
    rw [hmem]
    rcases hsessions u hu with rfl | hu
    · exact Or.inr rfl
    · exact Or.inl (h.registered u hu)

/-- What `addAction` changes. -/
theorem addAction_cases (hadd : db.addAction username c = some db') :
    ∃ table, db' = { db with tables := Function.update db.tables (tableKey username) (some table) } := by
  obtain ⟨table, -, hmap⟩ := Option.bind_eq_some_iff.mp hadd
  obtain ⟨table', -, rfl⟩ := Option.map_eq_some_iff.mp hmap
  exact ⟨table', rfl⟩

theorem isolated_step {e : SessionEvent} (h : s.Isolated) (hstep : s.step e = some s') :
    s'.Isolated := by
  cases e with
  | login lookup codes username password attempts =>
    rw [Sessions.step, Option.ite_none_right_eq_some] at hstep
    obtain ⟨⟨hbegin, hcommit⟩, hsome⟩ := hstep
    rw [Option.some.injEq] at hsome
    subst hsome
    rcases login_cases hbegin hcommit lookup username password attempts s.db with
      ⟨hdb, hfree⟩ | ⟨hdb, hknown⟩
    · rw [hdb]
      apply h.register hfree
      intro u hu
      split at hu
      · exact List.mem_cons.mp hu
      · exact Or.inr hu
    · rw [hdb]
      refine ⟨h.nodup, h.created, h.apart, fun u hu => ?_⟩
      split at hu
      case isTrue hopen =>
        rcases List.mem_cons.mp hu with rfl | hu
        · exact hknown hopen
        · exact h.registered u hu
      case isFalse => exact h.registered u hu
  | store username c =>
    rw [Sessions.step, Option.ite_none_right_eq_some] at hstep
    obtain ⟨db, hadd, rfl⟩ := Option.map_eq_some_iff.mp hstep.2
    obtain ⟨table, rfl⟩ := addAction_cases hadd
    refine ⟨h.nodup, fun u hu => ?_, h.apart, h.registered⟩
    dsimp only
    by_cases hkey : tableKey u = tableKey username
    · rw [hkey, Function.update_self]
      exact Option.some_ne_none _
    · rw [Function.update_of_ne hkey]
      exact h.created u hu
  | close username =>
    rw [Sessions.step, Option.ite_none_right_eq_some, Option.some.injEq] at hstep
    obtain ⟨-, rfl⟩ := hstep
    exact ⟨h.nodup, h.created, h.apart, fun u hu => h.registered u (List.mem_of_mem_erase hu)⟩

end Users

/-- A server on which nobody has signed up. -/
def Sessions.start : Sessions := ⟨⟨[], fun _ => none⟩, []⟩

theorem isolated_start : Sessions.start.Isolated := by
  constructor
  case nodup => exact List.nodup_nil
  all_goals exact fun u hu => absurd hu List.not_mem_nil

/-- In every reachable state the registered users have one row each and different tables, and what
one of them stores does not change what the others read. -/
theorem users_isolated (events : List SessionEvent) (s : Sessions)
    (hrun : run Sessions.step .start events = some s) :
    s.db.usernames.Nodup ∧
      (∀ u ∈ s.db.usernames, ∀ u' ∈ s.db.usernames, u ≠ u' → tableKey u ≠ tableKey u') ∧
      ∀ u c s', s.step (.store u c) = some s' →
        ∀ u' ∈ s.db.usernames, u' ≠ u → SameResults s.db s'.db u' := by
  have hisolated : s.Isolated :=
    run_keeps (fun s e s' h hstep => isolated_step h hstep) isolated_start hrun
  refine ⟨hisolated.nodup, fun u hu u' hu' hne hkey => hne (hisolated.apart u hu u' hu' hkey), ?_⟩
  intro u c s' hstep u' hu' hne
  rw [Sessions.step, Option.ite_none_right_eq_some] at hstep
  obtain ⟨db, hadd, rfl⟩ := Option.map_eq_some_iff.mp hstep.2
  obtain ⟨table, rfl⟩ := addAction_cases hadd
  apply sameResults_of_tables
  have hkey : tableKey u' ≠ tableKey u :=
    fun hkey => hne (hisolated.apart u' hu' u (hisolated.registered u (List.contains_iff_mem.mp hstep.1)) hkey)
  exact Function.update_of_ne hkey _ _

section Samples

/-- The sign-up of a user whose name is one letter. -/
def signUp (letter : Byte) : SessionEvent :=
  .login .completes (commitCodes .ok) [letter] [120] [[121], [120]]

/-- `a` and `b` sign up; `A`, whose table would be that of `a`, cannot. -/
def signUps : List SessionEvent := [signUp 97, signUp 65, signUp 98]

def twoUsers : Sessions :=
  ⟨(emptyDb.register [97] [120]).register [98] [120], [[98], [97]]⟩

/-- A folder `/` of the day `2`. -/
def rootCall : AddAction where
  filename := [47]
  timestamp := [50]
  action := .createFolder
  size := 0
  lastWriteTime := showInt 5
  permissions := showInt 493
  file := []
  hash := dirHash
  stray := []

theorem run_signUps : run Sessions.step .start signUps = some twoUsers := rfl

/-- What `a` stores is nothing to `b`. -/
theorem users_isolated_signUps : ∃ db', twoUsers.db.addAction [97] (rootCall) = some db' ∧
    SameResults twoUsers.db db' [98] := by
  refine ⟨_, rfl, ?_⟩
  exact (users_isolated signUps twoUsers run_signUps).2.2 [97] (rootCall) _ rfl [98]
    (by decide) (by decide)

end Samples
end BackupManager.Server
