import BackupManager.Protocol.HandlerSession

/-! What a password protects. Sessions on two databases that differ in a table only are the same
session, unless its peer has given the password of the user whose table it is. -/
namespace BackupManager.Server
open ByteStream Protocol Table Connection

/-- Databases with the same users and, but for one, the same tables. A relation that is kept when a
user is added, or one of the other tables is set. -/
structure Steady (k : Bytes) (R : Db → Db → Prop) : Prop where
  users : ∀ {d d'}, R d d' → d.users = d'.users
  tables : ∀ {d d' key}, R d d' → key ≠ k → d.tables key = d'.tables key
  taken : ∀ {d d'}, R d d' → (d.tables k).isSome = true ∧ (d'.tables k).isSome = true
  addUser : ∀ {d d'} (username password : Bytes), R d d' →
    R (d.addUser username password) (d'.addUser username password)
  setTable : ∀ {d d' key} (table : UserTable), R d d' → key ≠ k →
    R { d with tables := Function.update d.tables key (some table) }
      { d' with tables := Function.update d'.tables key (some table) }

namespace Steady

variable {k : Bytes} {R : Db → Db → Prop} {d d' : Db} {username : Bytes}

theorem isSome_tables (h : Steady k R) (hR : R d d') (key : Bytes) :
    (d.tables key).isSome = (d'.tables key).isSome := by
  by_cases hkey : key = k
  · rw [hkey, (h.taken hR).1, (h.taken hR).2]
  · rw [h.tables hR hkey]

theorem conforms_insertUser (h : Steady k R) (codes : SignUpCodes) (username password : Bytes) :
    Conforms R (insertUser codes username password) :=
  .andThen (.call _) fun _ => .andThen (.call _) fun _ => .andThen (.call _) fun _ =>
    .execute (fun _ _ hR => .some (h.addUser username password hR)) _

/-- The one table exists: a user whose table it would be is refused. -/
theorem conforms_createTable (h : Steady k R) (codes : SignUpCodes) (username : Bytes) :
    Conforms R (createTable codes username) := by
  refine .andThen (.execute (fun d d' hR => ?_) _) fun ⟨c, c', hc, hfree⟩ =>
    .execute (fun d d' hR => .some (h.setTable .empty hR ?_)) _
  · unfold Db.whereFree
    rw [← h.isSome_tables hR]
    split
    · exact .none
    · exact .some hR
  · rintro hkey
    have htaken : (c.current.tables (tableKey username)).isSome = true := by
      rw [hkey]
      exact (h.taken hc.current).1
    cases hprepare : codes.prepareCreate with
    | error aborts => simp [execute, hprepare] at hfree
    | ok => simp [execute, hprepare, Db.whereFree, htaken] at hfree

theorem conforms_createNewUser (h : Steady k R) (codes : SignUpCodes) (username password : Bytes) :
    Conforms R (createNewUser codes username password) := by
  intro c c' hc
  obtain ⟨-, hbegun⟩ := Conforms.begin codes.begin c c' hc
  obtain ⟨hok, hrel⟩ := Conforms.andThen (h.conforms_insertUser codes username password)
    (fun _ => h.conforms_createTable codes username) _ _ hbegun
  unfold createNewUser
  dsimp only
  rw [← hok]
  split
  · exact ⟨rfl, (Conforms.commit codes.commit _ _ hrel).2⟩
  · exact ⟨rfl, hrel.rollback⟩

/-- A call of `addAction` for a user with another table. -/
theorem applyEffect (h : Steady k R) (hkey : tableKey username ≠ k) (hR : R d d')
    (accepts : List Effect → AddAction → Bool) (trace : List Effect) (e : Effect) :
    R (Service.applyEffect accepts username trace d e)
      (Service.applyEffect accepts username trace d' e) := by
  cases e with
  | addAction c =>
    unfold Service.applyEffect Db.addAction
    dsimp only
    split
    · rw [h.tables hR hkey]
      cases d'.tables (tableKey username) with
      | none => exact hR
      | some table =>
        dsimp only [Option.bind_some]
        cases Server.addAction table c with
        | none => exact hR
        | some table' => exact h.setTable table' hR hkey
    · exact hR
  | _ => exact hR

theorem applyTrace (h : Steady k R) (hkey : tableKey username ≠ k)
    (accepts : List Effect → AddAction → Bool) (effects : List Effect) :
    ∀ {d d' : Db} (trace : List Effect), R d d' →
      R (Service.applyTrace accepts username trace d effects)
        (Service.applyTrace accepts username trace d' effects) := by
  induction effects with
  | nil => exact fun _ hR => hR
  | cons e rest ih => exact fun trace hR => ih _ (h.applyEffect hkey hR accepts trace e)

/-- The thread of the session calls the same functions. -/
theorem backend (h : Steady k R) (env : ServiceEnv) (hkey : tableKey username ≠ k) (hR : R d d') :
    Service.backend env username d = Service.backend env username d' := by
  have hstored : ∀ trace, R (Service.stored env username d trace)
      (Service.stored env username d' trace) :=
    fun trace => h.applyTrace hkey env.accepts trace [] hR
  have hadd : ∀ trace c, ((Service.stored env username d trace).addAction username c).isSome =
      ((Service.stored env username d' trace).addAction username c).isSome := by
    intro trace c
    unfold Db.addAction
    rw [h.tables (hstored trace) hkey]
    cases (Service.stored env username d' trace).tables (tableKey username) with
    | none => rfl
    | some table => simp
  have hentries : ∀ trace date, (Service.stored env username d trace).getRestoreEntries
      (env.restore trace) username date = (Service.stored env username d' trace).getRestoreEntries
        (env.restore trace) username date := by
    intro trace date
    unfold Db.getRestoreEntries Db.query
    rw [h.tables (hstored trace) hkey]
  unfold Service.backend
  simp only [hadd, hentries]

end Steady
end BackupManager.Server

namespace BackupManager.Protocol.Service
open ByteStream Server Table Connection Prog

/-- Handlers that have done the same, with related databases. -/
structure Alike (R : Db → Db → Prop) (w w' : Service) : Prop where
  connection : Paired R w.connection w'.connection
  written : w.written = w'.written
  trace : w.trace = w'.trace
  isOpen : w.isOpen = w'.isOpen

section Runs

variable {k : Bytes} {R : Db → Db → Prop} (h : Steady k R) (env : ServiceEnv)

include h

theorem coincide_server (point : Login.ServerAt) :
    Coincide (Paired R) (Login.server env.login point) (Login.server env.login point) := by
  have htext : ∀ length old, Coincide (Paired R) (Login.recvText length old)
      (Login.recvText length old) :=
    fun _ _ => .bind (.recvInt _ _) fun _ => .bind (.recvLine _ _) fun _ => .pure _
  cases point with
  | connected =>
    have hname : Coincide (Paired R) (Login.recvUsername env.login.uninit)
        (Login.recvUsername env.login.uninit) :=
      .bind (.recvInt _ _) fun _ => .bind (.read _) fun _ => .bind (.extract _) fun _ => .pure _
    refine .bind hname fun r => .getWorld fun c c' hc => ?_
    rw [h.users hc.current]
    exact lookup_rule (P := fun p => Coincide (Paired R) p p) .throw .pure r.2 r.1 c'
  | signingUp username length =>
    exact .bind (htext _ _) fun r => .bind
      (.act _ fun c c' hc => h.conforms_createNewUser env.login.codes username r.2 c c' hc) fun _ =>
        .pure _
  | checking username actualPassword length password =>
    exact .bind (htext _ _) fun r =>
      verdict_rule (P := fun p => Coincide (Paired R) p p) .pure username actualPassword r.2 r.1
  | entered username => exact .waits
  | failed => exact .waits

theorem coincide_login : Coincide (Alike R) (login env) (login env) := by
  refine .loop (fun point => ?_) _
  rw [loginRound_eq]
  refine .bind (.zoom (coincide_server h env point) (fun _ _ hw => hw.connection)
    fun _ _ _ _ hw hc => ⟨hc, hw.written, hw.trace, hw.isOpen⟩) fun r => .bind (.modifyWorld ?_)
      fun _ => .pure _
  exact fun w w' hw => ⟨hw.connection, congrArg (· ++ r.2) hw.written, hw.trace, hw.isOpen⟩

omit h in
theorem coincide_closeSocket : Coincide (Alike R) (closeSocket env) (closeSocket env) :=
  .tryCatch (.act _ fun _ _ hw => ⟨rfl, hw.connection, hw.written, hw.trace,
    congrArg (· && !env.shutdown) hw.isOpen⟩) fun _ => .pure _

variable {username : Bytes} (hkey : tableKey username ≠ k)

include hkey

theorem coincide_sendFileHash : Coincide (Alike R) (sendFileHash env username)
    (sendFileHash env username) := by
  refine .getWorld fun v w hw => ?_
  have hresult : v.connection.current.getInitailizationEntries env.initialization username =
      w.connection.current.getInitailizationEntries env.initialization username := by
    unfold Db.getInitailizationEntries Db.query
    rw [h.tables hw.connection.current hkey]
  rw [hresult]
  split
  · exact .throw _
  · exact .modifyWorld fun _ _ hw => ⟨hw.connection, congrArg (· ++ _) hw.written, hw.trace, hw.isOpen⟩

theorem coincide_actions : Coincide (Alike R) (actions env username) (actions env username) := by
  refine .getWorld fun v w hw => ?_
  rw [h.backend env hkey hw.connection.current]
  refine .zoom (.refl _) (fun _ _ hw => hw.trace) fun w w' trace trace' hw htrace => ?_
  subst htrace
  exact ⟨hw.connection.put (h.applyTrace hkey env.accepts trace [] hw.connection.current),
    hw.written, rfl, hw.isOpen⟩

theorem coincide_actionHandler :
    Coincide (Alike R) (actionHandler env username) (actionHandler env username) :=
  .bind (.tryCatch (coincide_actions h env hkey) fun _ => .pure _) fun _ => coincide_closeSocket env

omit hkey in
/-- Unless a user of the one table passes the login, the sessions are the same. -/
theorem coincide_start {s : Session Service}
    (hgate : ∀ username s', login env s = (.returns username, s') → tableKey username ≠ k) :
    CoincideFrom (Alike R) (start env) (start env) s := by
  refine .tryCatch (.bind (coincide_login h env s) fun username s' hlogin => ?_) fun _ =>
    coincide_closeSocket env
  have hkey := hgate username s' hlogin
  exact Coincide.bind (coincide_sendFileHash h env hkey) (fun _ => coincide_actionHandler h env hkey) s'

end Runs

/-- The user is registered, and the password of the user is not one that the peer has given. -/
structure Secret (db : Db) (wire u password : Bytes) : Prop where
  isolated : Sessions.Isolated ⟨db, []⟩
  registered : (u, password) ∈ db.users
  unsaid : ¬Offered wire (cString password)

/-- A sign-up that succeeds has found its table free. -/
theorem free_of_createNewUser {codes : SignUpCodes} {username password : Bytes} {db : Db}
    (h : (createNewUser codes username password ⟨db, none⟩).1 = true) :
    db.tables (tableKey username) = none := by
  by_cases hbegin : codes.begin = .ok
  · by_cases hboth : codes.Inserts ∧ codes.Creates username (db.addUser username password)
    · exact hboth.2.free
    · rw [(createNewUser_begun codes username password hbegin db).2 hboth] at h
      cases h
  · obtain ⟨-, hrefused, hnone⟩ := createNewUser_autocommit codes username password hbegin db
    by_cases hinsert : codes.Inserts
    · by_cases hcreate : codes.Creates username (db.addUser username password)
      · exact hcreate.free
      · rw [hrefused hinsert hcreate] at h
        cases h
    · rw [hnone hinsert] at h
      cases h

section Guarded

variable {env : ServiceEnv} {db : Db} {wire u password : Bytes} {closed : Bool}

theorem Secret.exists_table (h : Secret db wire u password) :
    ∃ table, db.tables (tableKey u) = some table :=
  Option.ne_none_iff_exists'.mp
    (h.isolated.created u (List.mem_map.mpr ⟨_, h.registered, rfl⟩))

/-- The user has one row. -/
theorem Secret.unique (h : Secret db wire u password) {password' : Bytes}
    (hrow : (u, password') ∈ db.users) : password' = password := by
  have hsame := List.inj_on_of_nodup_map h.isolated.nodup hrow h.registered rfl
  exact (Prod.mk.inj hsame).2

/-- Who passes the login has another table. -/
theorem Secret.gate (h : Secret db wire u password) {username : Bytes} {s' : Session Service}
    (hlogin : login env (accepted db wire closed) = (.returns username, s')) :
    tableKey username ≠ tableKey u := by
  have hgate := @login_gate env (accepted db wire closed) db wire rfl rfl
  obtain ⟨actualPassword, hoffered, hidentified⟩ := hgate.2 username (congrArg Prod.fst hlogin)
  intro hkey
  rcases hidentified with ⟨hlookup, -⟩ | hcreate
  · obtain ⟨found, hrow, rfl⟩ := exists_row_of_lookup hlookup
    have hname : username = u := h.isolated.apart username (List.mem_map.mpr ⟨_, hrow, rfl⟩) u
      (List.mem_map.mpr ⟨_, h.registered, rfl⟩) hkey
    subst hname
    rw [h.unique hrow] at hoffered
    exact h.unsaid hoffered
  · have hfree := free_of_createNewUser (congrArg Prod.fst hcreate)
    obtain ⟨table, htable⟩ := h.exists_table
    rw [hkey, htable] at hfree
    cases hfree

/-- The table is there, and no user has been removed. -/
def Keeps (k : Bytes) (table : UserTable) (users : List (Bytes × Bytes)) (d d' : Db) : Prop :=
  d = d' ∧ d.tables k = some table ∧ users <+: d.users

theorem steady_keeps (k : Bytes) (table : UserTable) (users : List (Bytes × Bytes)) :
    Steady k (Keeps k table users) where
  users := by
    rintro d _ ⟨rfl, -, -⟩
    rfl
  tables := by
    rintro d _ key ⟨rfl, -, -⟩ -
    rfl
  taken := by
    rintro d _ ⟨rfl, htable, -⟩
    rw [htable]
    exact ⟨rfl, rfl⟩
  addUser := by
    rintro d _ username password ⟨rfl, htable, husers⟩
    exact ⟨rfl, htable, husers.trans (List.prefix_append _ _)⟩
  setTable := by
    rintro d _ key table' ⟨rfl, htable, husers⟩ hkey
    refine ⟨rfl, ?_, husers⟩
    rw [← htable]
    exact Function.update_of_ne (Ne.symm hkey) _ _

/-- Databases that differ in one table at most. -/
structure Differ (k : Bytes) (d d' : Db) : Prop where
  users : d.users = d'.users
  tables : ∀ key, key ≠ k → d.tables key = d'.tables key
  taken : (d.tables k).isSome = true ∧ (d'.tables k).isSome = true

theorem steady_differ (k : Bytes) : Steady k (Differ k) where
  users := fun h => h.users
  tables := fun h hkey => h.tables _ hkey
  taken := fun h => h.taken
  addUser := fun username password h =>
    ⟨congrArg (· ++ [(username, password)]) h.users, h.tables, h.taken⟩
  setTable := by
    intro d d' key table h hkey
    refine ⟨h.users, fun key' hkey' => ?_, ?_⟩
    · show Function.update d.tables key (some table) key' = Function.update d'.tables key (some table) key'
      by_cases hsame : key' = key
      · rw [hsame, Function.update_self, Function.update_self]
      · rw [Function.update_of_ne hsame, Function.update_of_ne hsame]
        exact h.tables key' hkey'
    · show (Function.update d.tables key (some table) k).isSome = true ∧
        (Function.update d'.tables key (some table) k).isSome = true
      rw [Function.update_of_ne (Ne.symm hkey), Function.update_of_ne (Ne.symm hkey)]
      exact h.taken

/-- Whatever a peer sends that does not give the password of a user, the database afterwards holds
the same for that user: both queries have the same results, and the password is the same. -/
theorem session_guarded (h : Secret db wire u password) (env : ServiceEnv) (closed : Bool) :
    SameResults db (serve env db wire closed).2.world.database u ∧
      (selectPassword (serve env db wire closed).2.world.database.users u).head? = some password := by
  obtain ⟨table, htable⟩ := h.exists_table
  have hstart : Alike (Keeps (tableKey u) table db.users) (accepted db wire closed).world
      (accepted db wire closed).world :=
    ⟨⟨⟨rfl, htable, List.prefix_refl _⟩, .none⟩, rfl, rfl, rfl⟩
  obtain ⟨w, halike, -⟩ := coincide_start (steady_keeps (tableKey u) table db.users) env
    (s := accepted db wire closed) (fun username s' hlogin => h.gate hlogin) _ hstart
  obtain ⟨-, hkept, husers⟩ := halike.connection.committed
  refine ⟨sameResults_of_tables (hkept.trans htable.symm), ?_⟩
  obtain ⟨more, hmore⟩ := husers
  have hselect : selectPassword (db.users ++ more) u =
      selectPassword db.users u ++ selectPassword more u := by
    simp only [selectPassword, List.filter_append, List.map_append]
  have hmem : password ∈ selectPassword db.users u :=
    List.mem_map.mpr ⟨_, List.mem_filter.mpr ⟨h.registered, by simp⟩, rfl⟩
  show (selectPassword (serve env db wire closed).2.world.connection.committed.users u).head? = _
  have hmore' : (serve env db wire closed).2.world.connection.committed.users = db.users ++ more :=
    hmore.symm
  rw [hmore', hselect]
  cases hrows : selectPassword db.users u with
  | nil =>
    rw [hrows] at hmem
    cases hmem
  | cons first rest =>
    have hfirst : first ∈ selectPassword db.users u := hrows ▸ List.mem_cons_self
    obtain ⟨⟨name, word⟩, hrow, rfl⟩ := List.mem_map.mp hfirst
    obtain ⟨hrow, hname⟩ := List.mem_filter.mp hrow
    have hword : word = password := h.unique (of_decide_eq_true hname ▸ hrow)
    rw [← hword]
    rfl

/-- A database with one user. -/
def oneUser (u password : Bytes) : Db := Db.register u password ⟨[], fun _ => none⟩

theorem isolated_oneUser (u password : Bytes) : Sessions.Isolated ⟨oneUser u password, []⟩ := by
  have husers : (oneUser u password).usernames = [u] := rfl
  refine ⟨?_, ?_, ?_, ?_⟩
  · rw [husers]
    exact List.nodup_singleton u
  · intro v hv
    rw [husers, List.mem_singleton] at hv
    subst hv
    simp [oneUser, tables_register]
  · intro v hv v' hv' _
    rw [husers, List.mem_singleton] at hv hv'
    rw [hv, hv']
  · intro v hv
    cases hv

/-- The user `u` with the password `pw`, and a peer that tries `xy`. -/
theorem secret_oneUser : Secret (oneUser [117] [112, 119])
    (Login.textBytes [117] ++ Login.textBytes [120, 121]) [117] [112, 119] where
  isolated := isolated_oneUser _ _
  registered := List.mem_singleton.mpr rfl
  unsaid := by
    have hsent : ¬[112, 119] <:+: Login.textBytes [117] ++ Login.textBytes [120, 121] := by decide
    rintro (hempty | hpart)
    · cases hempty
    · exact hsent hpart

/-- Everything goes through. -/
def faultless : ServiceEnv where
  login := ⟨.completes, commitCodes .ok, 0⟩
  initialization := complete
  restore _ := complete
  accepts _ _ := true
  localDay _ := [50, 48, 50, 52, 45, 48, 53, 45, 48, 49]
  hash content := content
  stray := []
  pastEnd _ := false
  shutdown := true

/-- Another password changes nothing. -/
theorem session_guarded_guess :
    SameResults (oneUser [117] [112, 119]) (serve faultless (oneUser [117] [112, 119])
        (Login.textBytes [117] ++ Login.textBytes [120, 121]) true).2.world.database [117] ∧
      (selectPassword (serve faultless (oneUser [117] [112, 119])
        (Login.textBytes [117] ++ Login.textBytes [120, 121]) true).2.world.database.users
          [117]).head? = some [112, 119] :=
  session_guarded secret_oneUser faultless true

/-- Nor does the peer learn anything of the user's table: with any other one in its place, the session
ends in the same way and everything that is written in it is the same. -/
theorem session_blind (h : Secret db wire u password) (env : ServiceEnv) (closed : Bool)
    (table : UserTable) :
    let r := serve env db wire closed
    let r' := serve env
      { db with tables := Function.update db.tables (tableKey u) (some table) } wire closed
    r'.1 = r.1 ∧ r'.2.world.written = r.2.world.written ∧ r'.2.world.trace = r.2.world.trace := by
  obtain ⟨old, hold⟩ := h.exists_table
  have hdiffer : Differ (tableKey u) db
      { db with tables := Function.update db.tables (tableKey u) (some table) } := by
    refine ⟨rfl, fun key hkey => ?_, ?_⟩
    · exact (Function.update_of_ne hkey _ _).symm
    · rw [hold]
      refine ⟨rfl, ?_⟩
      show (Function.update db.tables (tableKey u) (some table) (tableKey u)).isSome = true
      rw [Function.update_self]
      rfl
  have hstart : Alike (Differ (tableKey u)) (accepted db wire closed).world
      (accepted { db with tables := Function.update db.tables (tableKey u) (some table) } wire
        closed).world := ⟨⟨hdiffer, .none⟩, rfl, rfl, rfl⟩
  obtain ⟨w, halike, hrun⟩ := coincide_start (steady_differ (tableKey u)) env
    (s := accepted db wire closed) (fun username s' hlogin => h.gate hlogin) _ hstart
  intro r r'
  have hr' : r' = (r.1, r.2.within w) := hrun
  rw [hr']
  exact ⟨rfl, halike.written.symm, halike.trace.symm⟩

/-- The guess tells nothing. -/
theorem session_blind_guess :
    let db := oneUser [117] [112, 119]
    let wire := Login.textBytes [117] ++ Login.textBytes [120, 121]
    let r := serve faultless db wire true
    let r' := serve faultless
      { db with tables := Function.update db.tables (tableKey [117]) (some .empty) } wire true
    r'.1 = r.1 ∧ r'.2.world.written = r.2.world.written ∧ r'.2.world.trace = r.2.world.trace :=
  session_blind secret_oneUser faultless true .empty

end Guarded
end BackupManager.Protocol.Service
