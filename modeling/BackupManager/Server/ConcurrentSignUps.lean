import BackupManager.Server.CallRefinement
import BackupManager.Table.Locking

/-! Handlers that serve clients at the same time, each on its own connection to the database file: their
logins and their calls of `addAction`, statement by statement, in any order. -/
namespace BackupManager.Server.ConcurrentSignUps
open ByteStream Protocol Table Transition

/-- Where a handler stands: before a statement, or where it waits for its client. -/
inductive HandlerAt where
  | connected
  /-- In `createNewUser`, before `BEGIN`. -/
  | unknown
  /-- Past `BEGIN`, even where that has failed. -/
  | begun
  | inserted
  | created
  | checking (actualPassword : Bytes)
  | entered
  /-- In `addAction`, past `checkKeyExist`. -/
  | storing (c : AddAction) (doesKeyExist : Bool)
  | closed

/-- Past `createNewUser`, in a session that goes on. -/
def HandlerAt.loggedIn : HandlerAt → Bool
  | .checking _ | .entered | .storing _ _ => true
  | _ => false

structure State (T : Type) where
  store : Locking T Db
  handler : T → HandlerAt

inductive Event (T : Type) where
  | passwordFromUsername (t : T) (lookup : Lookup)
  | begin (t : T) (code : Code)
  | insert (t : T) (code : Code)
  | create (t : T) (code : Code)
  | commit (t : T) (code : Code)
  /-- The client sends a password. -/
  | attempt (t : T) (password : Bytes)
  | checkKeyExist (t : T) (c : AddAction) (ok : Bool)
  | upsert (t : T) (code : Code)
  /-- The session is over, and the connection to the database is closed. -/
  | close (t : T)

def Event.handler {T : Type} : Event T → T
  | .passwordFromUsername t _ | .begin t _ | .insert t _ | .create t _ | .commit t _ | .attempt t _
  | .checkKeyExist t _ _ | .upsert t _ | .close t => t

/-- A `BEGIN` that fails, so that there is no transaction, or a failure of a `COMMIT`, or of a statement
after it, that aborts the transaction. -/
def Event.aborts {T : Type} : Event T → Bool
  | .begin _ (.error _) | .commit _ (.error true) | .upsert _ (.error true) => true
  | _ => false

variable {T : Type} [DecidableEq T]

def State.goes (s : State T) (t : T) (store : Locking T Db) (handler : HandlerAt) : State T :=
  ⟨store, Function.update s.handler t handler⟩

@[simp] theorem handler_goes (s : State T) (t : T) (store : Locking T Db) (handler : HandlerAt) :
    (s.goes t store handler).handler t = handler := Function.update_self _ _ _

theorem handler_goes_of_ne {t t' : T} (h : t' ≠ t) (s : State T) (store : Locking T Db)
    (handler : HandlerAt) : (s.goes t store handler).handler t' = s.handler t' :=
  Function.update_of_ne h _ _

/-- A statement of `createNewUser`; when it fails the transaction is rolled back and the handler closes
the connection. -/
def State.tries (s : State T) (t : T) (change : Db → Option Db) (code : Code) (next : HandlerAt) :
    State T :=
  let r := s.store.execute t change code
  if r.1 then s.goes t r.2 next else s.goes t (r.2.rollback t) .closed

/-- What follows `passwordFromUsername`. -/
def afterLookup : Except String (Option Bytes) → HandlerAt
  | .error _ => .closed
  | .ok none => .unknown
  | .ok (some actualPassword) => .checking actualPassword

/-- What follows `checkKeyExist`; without a table the statement cannot be prepared. -/
def afterSelect (c : AddAction) (ok : Bool) : Option UserTable → HandlerAt
  | none => .entered
  | some table => if ok then .storing c (checkKeyExist table c.filename c.timestamp) else .entered

/-- No session has begun. -/
def start (db : Db) : State T := ⟨.opened db, fun _ => .connected⟩

section Clients

variable (username password : T → Bytes)

/-- The next statement of a handler, or what its client does; a call of `addAction` that fails is answered
with an error. -/
def step (s : State T) : Event T → Option (State T)
  | .passwordFromUsername t lookup => match s.handler t with
    | .connected =>
      some (s.goes t s.store (afterLookup (lookup.password (s.store.view t).users (username t))))
    | _ => none
  | .begin t code => match s.handler t with
    -- the result is not looked at; without a transaction every statement is committed at once
    | .unknown => some (s.goes t (if code = .ok then s.store.begin t else s.store) .begun)
    | _ => none
  | .insert t code => match s.handler t with
    | .begun => some (s.tries t (fun db => some (db.addUser (username t) (password t))) code .inserted)
    | _ => none
  | .create t code => match s.handler t with
    | .inserted => some (s.tries t
        (fun db => (db.whereFree (username t)).map (Db.addTable (username t))) code .created)
    | _ => none
  | .commit t code => match s.handler t with
    -- the result is not looked at
    | .created => some (s.goes t (s.store.commit t code) (.checking (password t)))
    | _ => none
  | .attempt t sent => match s.handler t with
    | .checking actualPassword =>
      some (s.goes t s.store (if actualPassword = sent then .entered else .checking actualPassword))
    | _ => none
  | .checkKeyExist t c ok => match s.handler t with
    | .entered => some (s.goes t s.store
        (afterSelect c ok ((s.store.view t).tables (tableKey (username t)))))
    | _ => none
  | .upsert t code => match s.handler t with
    | .storing c doesKeyExist => some (s.goes t
        (s.store.execute t (Db.upsert (username t) doesKeyExist c) code).2 .entered)
    | _ => none
  | .close t => match s.handler t with
    | .connected | .checking _ | .entered => some (s.goes t (s.store.rollback t) .closed)
    | _ => none

/-- The sign-ups that are committed. -/
def signed (s : State T) : Event T → List (Bytes × Bytes)
  | .commit t .ok => match s.handler t with
    | .created => [(username t, password t)]
    | _ => []
  | _ => []

/-- What the database and the connection of a handler hold when it stands at a point. -/
def Stands (username password : Bytes) (committed : Db) (begun : Bool) (pending : Option Db) :
    HandlerAt → Prop
  | .connected | .unknown | .closed => begun = false
  | .begun => begun = true ∧ pending = none
  | .inserted => pending = some (committed.addUser username password)
  | .created => pending = some (committed.register username password) ∧
      committed.tables (tableKey username) = none
  -- where a `COMMIT` has failed, the transaction is still open
  | .checking _ | .entered | .storing _ _ =>
    begun = false ∧ username ∈ committed.usernames ∨ pending.isSome = true

structure Inv (s : State T) : Prop where
  isolated : (⟨s.store.committed, []⟩ : Sessions).Isolated
  stands : ∀ t, Stands (username t) (password t) s.store.committed (s.store.begun t)
    (s.store.pending t) (s.handler t)

/-- What a step of a handler does, and the sign-up that it commits. -/
inductive Went (s : State T) (t : T) : State T → List (Bytes × Bytes) → Prop where
  /-- Nothing is committed. -/
  | keeps {store : Locking T Db} {handler : HandlerAt} (moved : s.store.Moved t store)
      (same : store.committed = s.store.committed)
      (stands : Stands (username t) (password t) store.committed (store.begun t) (store.pending t)
        handler) : Went s t (s.goes t store handler) []
  | registers (pending : s.store.pending t = some (s.store.committed.register (username t) (password t)))
      (free : s.store.committed.tables (tableKey (username t)) = none) :
      Went s t (s.goes t (s.store.commit t .ok) (.checking (password t))) [(username t, password t)]
  | stores {table : UserTable} (idle : s.store.begun t = false)
      (registered : username t ∈ s.store.committed.usernames) (free : s.store.free t = true) :
      Went s t (s.goes t (s.store.put t { s.store.committed with
        tables := Function.update s.store.committed.tables (tableKey (username t)) (some table) })
        .entered) []

end Clients

section Steps

variable {username password : T → Bytes} {s s' : State T} {t : T} {e : Event T}
  {done : List (Bytes × Bytes)}

/-- A statement of `createNewUser` is carried out, or the session is over. -/
theorem tries_cases (s : State T) (t : T) (change : Db → Option Db) (code : Code) (next : HandlerAt) :
    s.tries t change code next = s.goes t (s.store.rollback t) .closed ∨
      ∃ d, s.store.free t = true ∧ change (s.store.view t) = some d ∧
        s.tries t change code next = s.goes t (s.store.put t d) next := by
  unfold State.tries
  cases hrun : s.store.execute t change code with
  | mk ok store =>
    cases ok with
    | true =>
      obtain ⟨hfree, d, hchange, rfl⟩ := Locking.write_eq_some_iff.mp (Locking.write_of_execute hrun)
      exact .inr ⟨d, hfree, hchange, rfl⟩
    | false =>
      left
      rcases Locking.execute_refused hrun with rfl | ⟨-, rfl⟩
      · rfl
      · show s.goes t ((s.store.rollback t).rollback t) .closed = _
        unfold Locking.rollback
        rw [Locking.ends_ends]
        rfl

/-- The session is over, and what its transaction has written is gone. -/
theorem went_closed (s : State T) (t : T) :
    Went username password s t (s.goes t (s.store.rollback t) .closed) [] :=
  .keeps .rollsBack rfl (Locking.begun_ends_self _ _ _)

/-- The transaction of a handler is as it was. -/
theorem went_stays {handler : HandlerAt} (h : Stands (username t) (password t) s.store.committed
      (s.store.begun t) (s.store.pending t) handler) :
    Went username password s t (s.goes t s.store handler) [] := .keeps .stays rfl h

theorem went_tries {change : Db → Option Db} {code : Code} {next : HandlerAt}
    (hbegun : s.store.begun t = true) (hnext : ∀ d, change (s.store.view t) = some d →
      Stands (username t) (password t) s.store.committed true (some d) next) :
    Went username password s t (s.tries t change code next) [] := by
  rcases tries_cases s t change code next with hclosed | ⟨d, hfree, hd, hdone⟩
  · rw [hclosed]
    exact went_closed s t
  · obtain ⟨hcommitted, hpending, hsame⟩ := Locking.put_of_begun hbegun d
    rw [hdone]
    refine .keeps (.puts d hfree) hcommitted ?_
    rw [hcommitted, hpending, hsame, hbegun]
    exact hnext d hd

theorem went_commit (hpending : s.store.pending t =
      some (s.store.committed.register (username t) (password t)))
    (hfree : s.store.committed.tables (tableKey (username t)) = none)
    (hhandler : s.handler t = .created) {code : Code} (hcode : (Event.commit t code).aborts = false)
    (h : step username password s (.commit t code) = some s') :
    Went username password s t s' (signed username password s (.commit t code)) := by
  simp only [step, hhandler, Option.some.injEq] at h
  subst h
  cases code with
  | ok =>
    rw [signed, hhandler]
    exact .registers hpending hfree
  | error aborts =>
    cases aborts with
    | true => cases hcode
    | false => exact went_stays (.inr (by rw [hpending]; rfl))

theorem went_upsert (hstands : s.store.begun t = false ∧ username t ∈ s.store.committed.usernames ∨
      (s.store.pending t).isSome = true) {c : AddAction} {doesKeyExist : Bool}
    (hhandler : s.handler t = .storing c doesKeyExist) {code : Code}
    (hcode : (Event.upsert t code).aborts = false)
    (h : step username password s (.upsert t code) = some s') :
    Went username password s t s' [] := by
  simp only [step, hhandler, Option.some.injEq] at h
  subst h
  cases hrun : s.store.execute t (Db.upsert (username t) doesKeyExist c) code with
  | mk ok store =>
    cases ok with
    | false =>
      rcases Locking.execute_refused hrun with rfl | ⟨rfl, -⟩
      · exact went_stays hstands
      · cases hcode
    | true =>
      obtain ⟨hfree, d, hchange, rfl⟩ := Locking.write_eq_some_iff.mp (Locking.write_of_execute hrun)
      rcases hstands with ⟨hidle, hregistered⟩ | hopen
      · rw [Locking.view_of_idle (Locking.pending_of_not_begun hidle)] at hchange
        obtain ⟨table, -, hrest⟩ := Option.bind_eq_some_iff.mp hchange
        obtain ⟨table', -, rfl⟩ := Option.map_eq_some_iff.mp hrest
        exact .stores hidle hregistered hfree
      · obtain ⟨d', hpending⟩ := Option.isSome_iff_exists.mp hopen
        obtain ⟨hcommitted, hwritten, -⟩ :=
          Locking.put_of_begun (Locking.begun_of_pending hpending) d
        exact .keeps (.puts d hfree) hcommitted (.inr (by rw [hwritten]; rfl))

/-- A login that goes on has found the user's password, or no user of the name. -/
theorem went_lookup (hidle : s.store.begun t = false) (hhandler : s.handler t = .connected)
    {lookup : Lookup} (h : step username password s (.passwordFromUsername t lookup) = some s') :
    Went username password s t s' [] := by
  simp only [step, hhandler, Option.some.injEq] at h
  subst h
  apply went_stays
  rw [Locking.view_of_idle (Locking.pending_of_not_begun hidle)]
  cases hlookup : lookup.password s.store.committed.users (username t) with
  | error what => exact hidle
  | ok found =>
    cases found with
    | none => exact hidle
    | some actualPassword =>
      obtain ⟨word, hrow, -⟩ := exists_row_of_lookup hlookup
      exact .inl ⟨hidle, List.mem_map.mpr ⟨_, hrow, rfl⟩⟩

theorem went_begin (hidle : s.store.begun t = false) (hhandler : s.handler t = .unknown) {code : Code}
    (hcode : (Event.begin t code).aborts = false)
    (h : step username password s (.begin t code) = some s') :
    Went username password s t s' [] := by
  have hok : code = .ok := by
    cases code with
    | ok => rfl
    | error aborts => cases hcode
  have hnone : s.store.pending t = none := Locking.pending_of_not_begun hidle
  simp only [step, hhandler, Option.some.injEq] at h
  rw [← h, if_pos hok]
  exact .keeps .begins rfl ⟨Function.update_self _ _ _, hnone⟩

/-- `CREATE TABLE` goes through where the table of the name is free. -/
theorem went_create (hpending : s.store.pending t =
      some (s.store.committed.addUser (username t) (password t)))
    (hhandler : s.handler t = .inserted) {code : Code}
    (h : step username password s (.create t code) = some s') :
    Went username password s t s' [] := by
  simp only [step, hhandler, Option.some.injEq] at h
  subst h
  refine went_tries (Locking.begun_of_pending hpending) fun d hd => ?_
  rw [Locking.view_of_pending hpending, Option.map_eq_some_iff] at hd
  obtain ⟨d', hfree, rfl⟩ := hd
  unfold Db.whereFree at hfree
  split at hfree
  next => cases hfree
  next htable =>
    obtain rfl := Option.some.inj hfree
    exact ⟨rfl, Option.not_isSome_iff_eq_none.mp htable⟩

/-- What every step does. -/
theorem went_of_step (hinv : Inv username password s) (hcode : e.aborts = false)
    (h : step username password s e = some s') :
    Went username password s e.handler s' (signed username password s e) := by
  cases e with
  | passwordFromUsername t lookup =>
    cases hhandler : s.handler t with
    | connected =>
      have hstands := hinv.stands t
      rw [hhandler] at hstands
      exact went_lookup hstands hhandler h
    | _ => simp [step, hhandler] at h
  | begin t code =>
    cases hhandler : s.handler t with
    | unknown =>
      have hstands := hinv.stands t
      rw [hhandler] at hstands
      exact went_begin hstands hhandler hcode h
    | _ => simp [step, hhandler] at h
  | insert t code =>
    simp only [step] at h
    split at h
    next hhandler =>
      have hstands := hinv.stands t
      rw [hhandler] at hstands
      rw [← Option.some.inj h]
      refine went_tries (t := t) hstands.1 fun d hd => ?_
      rw [Locking.view_of_idle hstands.2] at hd
      exact hd.symm
    next => cases h
  | create t code =>
    cases hhandler : s.handler t with
    | inserted =>
      have hstands := hinv.stands t
      rw [hhandler] at hstands
      exact went_create hstands hhandler h
    | _ => simp [step, hhandler] at h
  | commit t code =>
    cases hhandler : s.handler t with
    | created =>
      have hstands := hinv.stands t
      rw [hhandler] at hstands
      exact went_commit hstands.1 hstands.2 hhandler hcode h
    | _ => simp [step, hhandler] at h
  | attempt t sent =>
    simp only [step] at h
    split at h
    next actualPassword hhandler =>
      have hstands := hinv.stands t
      rw [hhandler] at hstands
      rw [← Option.some.inj h]
      refine went_stays ?_
      split
      · exact hstands
      · exact hstands
    next => cases h
  | checkKeyExist t c ok =>
    simp only [step] at h
    split at h
    next hhandler =>
      have hstands := hinv.stands t
      rw [hhandler] at hstands
      rw [← Option.some.inj h]
      refine went_stays ?_
      unfold afterSelect
      split
      · exact hstands
      · cases ok with
        | true => exact hstands
        | false => exact hstands
    next => cases h
  | upsert t code =>
    cases hhandler : s.handler t with
    | storing c doesKeyExist =>
      have hstands := hinv.stands t
      rw [hhandler] at hstands
      exact went_upsert hstands hhandler hcode h
    | _ => simp [step, hhandler] at h
  | close t =>
    simp only [step] at h
    split at h
    all_goals first
      | exact Option.some.inj h ▸ went_closed s t
      | cases h

theorem Went.moved (h : Went username password s t s' done) :
    s.store.Moved t s'.store ∧ ∀ t', t' ≠ t → s'.handler t' = s.handler t' := by
  cases h with
  | keeps hmoved => exact ⟨hmoved, fun _ hne => handler_goes_of_ne hne s _ _⟩
  | registers => exact ⟨.commits, fun _ hne => handler_goes_of_ne hne s _ _⟩
  | stores hidle hregistered hfree =>
    exact ⟨.puts _ hfree, fun _ hne => handler_goes_of_ne hne s _ _⟩

/-- What is committed: as it was, with a user more, or with a table set that is the handler's. -/
theorem Went.committed (h : Went username password s t s' done) :
    s'.store.committed = s.store.committed ∧ done = [] ∨
      s'.store.committed = s.store.committed.register (username t) (password t) ∧
        s.store.committed.tables (tableKey (username t)) = none ∧ done = [(username t, password t)] ∨
      (∃ table, s'.store.committed = { s.store.committed with
        tables := Function.update s.store.committed.tables (tableKey (username t)) (some table) }) ∧
        username t ∈ s.store.committed.usernames ∧ done = [] := by
  cases h with
  | keeps _ hsame => exact .inl ⟨hsame, rfl⟩
  | registers hpending hfree =>
    exact .inr (.inl ⟨Locking.view_of_pending hpending, hfree, rfl⟩)
  | stores hidle hregistered =>
    exact .inr (.inr ⟨⟨_, (Locking.put_of_not_begun hidle _).1⟩, hregistered, rfl⟩)

theorem Went.users (h : Went username password s t s' done) :
    s'.store.committed.users = s.store.committed.users ++ done := by
  rcases h.committed with ⟨hsame, rfl⟩ | ⟨hregister, -, rfl⟩ | ⟨⟨table, hstore⟩, -, rfl⟩
  · rw [hsame, List.append_nil]
  · rw [hregister]
    rfl
  · rw [hstore, List.append_nil]

theorem Went.usernames (h : Went username password s t s' done) {u : Bytes}
    (hu : u ∈ s.store.committed.usernames) : u ∈ s'.store.committed.usernames := by
  unfold Db.usernames
  rw [h.users, List.map_append]
  exact List.mem_append_left _ hu

theorem Went.isolated (h : Went username password s t s' done)
    (hinv : (⟨s.store.committed, []⟩ : Sessions).Isolated) :
    (⟨s'.store.committed, []⟩ : Sessions).Isolated := by
  rcases h.committed with ⟨hsame, -⟩ | ⟨hregister, hfree, -⟩ | ⟨⟨table, hstore⟩, -, -⟩
  · rwa [hsame]
  · rw [hregister]
    exact hinv.register hfree fun u hu => absurd hu List.not_mem_nil
  · rw [hstore]
    refine ⟨hinv.nodup, fun u hu => ?_, hinv.apart, fun u hu => absurd hu List.not_mem_nil⟩
    dsimp only
    by_cases hkey : tableKey u = tableKey (username t)
    · rw [hkey, Function.update_self]
      exact Option.some_ne_none _
    · rw [Function.update_of_ne hkey]
      exact hinv.created u hu

/-- The tables of the other users are as they were. -/
theorem Went.sameResults (h : Went username password s t s' done)
    (hinv : (⟨s.store.committed, []⟩ : Sessions).Isolated) {u : Bytes}
    (hu : u ∈ s.store.committed.usernames) (hne : u ≠ username t) :
    SameResults s.store.committed s'.store.committed u := by
  refine sameResults_of_tables ?_
  rcases h.committed with ⟨hsame, -⟩ | ⟨hregister, hfree, -⟩ | ⟨⟨table, hstore⟩, hregistered, -⟩
  · rw [hsame]
  · have hkey : tableKey u ≠ tableKey (username t) := fun heq => hinv.created u hu (heq ▸ hfree)
    rw [hregister, tables_register, Function.update_of_ne hkey]
  · have hkey : tableKey u ≠ tableKey (username t) :=
      fun heq => hne (hinv.apart u hu _ hregistered heq)
    rw [hstore]
    exact Function.update_of_ne hkey _ _

theorem Went.stands_self (h : Went username password s t s' done) :
    Stands (username t) (password t) s'.store.committed (s'.store.begun t) (s'.store.pending t)
      (s'.handler t) := by
  have husers := h.users
  cases h with
  | keeps _ _ hstands =>
    rw [handler_goes]
    exact hstands
  | registers =>
    rw [handler_goes]
    refine .inl ⟨Locking.begun_ends_self _ _ _, ?_⟩
    unfold Db.usernames
    rw [husers]
    simp
  | stores hidle hregistered =>
    rw [handler_goes]
    obtain ⟨hcommitted, -, hbegun⟩ := Locking.put_of_not_begun hidle _
    refine .inl ⟨?_, ?_⟩
    · show (s.store.put t _).begun t = false
      rw [hbegun]
      exact hidle
    · unfold Db.usernames
      rw [husers, List.append_nil]
      exact hregistered

/-- A handler that has the lock finds everything as it was; the others depend on what is committed
only by the names in it. -/
theorem Went.stands_other (h : Went username password s t s' done) {t' : T} (hne : t' ≠ t)
    (hstands : Stands (username t') (password t') s.store.committed (s.store.begun t')
      (s.store.pending t') (s.handler t')) :
    Stands (username t') (password t') s'.store.committed (s'.store.begun t') (s'.store.pending t')
      (s'.handler t') := by
  obtain ⟨hmoved, hhandler⟩ := h.moved
  obtain ⟨hbegun, hpending⟩ := hmoved.others hne
  rw [hbegun, hpending, hhandler t' hne]
  cases hlock : s.store.pending t' with
  | some d =>
    rw [hmoved.committed hlock hne, ← hlock]
    exact hstands
  | none =>
    rw [hlock] at hstands
    cases hat : s.handler t' with
    | inserted | created =>
      rw [hat] at hstands
      simp [Stands] at hstands
    | checking | entered | storing =>
      rw [hat] at hstands
      exact hstands.imp_left fun hleft => ⟨hleft.1, h.usernames hleft.2⟩
    | _ =>
      rw [hat] at hstands
      exact hstands

theorem inv_step (hinv : Inv username password s) (hcode : e.aborts = false)
    (h : step username password s e = some s') : Inv username password s' := by
  have hwent := went_of_step hinv hcode h
  refine ⟨hwent.isolated hinv.isolated, fun t => ?_⟩
  by_cases hself : t = e.handler
  · rw [hself]
    exact hwent.stands_self
  · exact hwent.stands_other hself (hinv.stands t)

theorem inv_start {db : Db} (hdb : (⟨db, []⟩ : Sessions).Isolated) :
    Inv username password (start db : State T) := ⟨hdb, fun _ => rfl⟩

theorem inv_run {db : Db} (hdb : (⟨db, []⟩ : Sessions).Isolated) {events : List (Event T)}
    (hkept : ∀ e ∈ events, e.aborts = false)
    (hrun : run (step username password) (start db) events = some s) : Inv username password s :=
  run_invariant (fun _ _ _ h hcode hstep => inv_step h hcode hstep) (inv_start hdb)
    (meets_of_mem hkept _) hrun

/-- A handler that is past `createNewUser` and whose transaction is still open. -/
def Unfinished (s : State T) (t : T) : Prop :=
  (s.handler t).loggedIn = true ∧ (s.store.pending t).isSome = true

/-- What the session itself does with a transaction that it has kept open. -/
theorem unfinished_self (hat : (s.handler t).loggedIn = true) {d : Db} (hd : s.store.pending t = some d)
    (howner : e.handler = t) (hcode : e.aborts = false) (hgoes : e ≠ .close t)
    (h : step username password s e = some s') :
    Unfinished s' t ∧ s'.store.committed = s.store.committed := by
  have hopen : (s.store.pending t).isSome = true := by rw [hd]; rfl
  cases e with
  | attempt u sent =>
    obtain rfl : u = t := howner
    simp only [step] at h
    split at h
    next =>
      rw [← Option.some.inj h]
      refine ⟨⟨?_, hopen⟩, rfl⟩
      rw [handler_goes]
      split <;> rfl
    next => cases h
  | checkKeyExist u c ok =>
    obtain rfl : u = t := howner
    simp only [step] at h
    split at h
    next =>
      rw [← Option.some.inj h]
      refine ⟨⟨?_, hopen⟩, rfl⟩
      rw [handler_goes]
      unfold afterSelect
      cases ok <;> split <;> rfl
    next => cases h
  | upsert u code =>
    obtain rfl : u = t := howner
    simp only [step] at h
    split at h
    next c doesKeyExist _ =>
      rw [← Option.some.inj h]
      have hplain : code ≠ .error true := by
        rintro rfl
        cases hcode
      have hnext := Locking.execute_of_pending hd (Db.upsert (username u) doesKeyExist c) hplain
      exact ⟨⟨by rw [handler_goes]; rfl, hnext.1⟩, hnext.2⟩
    next => cases h
  | close u => exact absurd (congrArg Event.close howner) hgoes
  | passwordFromUsername u | begin u | insert u | create u | commit u =>
    obtain rfl : u = t := howner
    simp only [step] at h
    split at h
    next hhandler =>
      rw [hhandler] at hat
      cases hat
    next => cases h

theorem unfinished_commit (hinv : Inv username password s)
    (h : step username password s (.commit t (.error false)) = some s') :
    Unfinished s' t ∧ s'.store.committed = s.store.committed := by
  have hstands := hinv.stands t
  simp only [step] at h
  split at h
  next hhandler =>
    rw [hhandler] at hstands
    rw [← Option.some.inj h]
    refine ⟨⟨by rw [handler_goes]; rfl, ?_⟩, rfl⟩
    show (s.store.pending t).isSome = true
    rw [hstands.1]
    rfl
  next => cases h

/-- Until the connection is closed the transaction stays open, and nothing is committed. -/
theorem unfinished_step (hinv : Inv username password s) (hcode : e.aborts = false)
    (hgoes : e ≠ .close t) (hopen : Unfinished s t) (h : step username password s e = some s') :
    Unfinished s' t ∧ s'.store.committed = s.store.committed := by
  obtain ⟨hat, hpending⟩ := hopen
  obtain ⟨d, hd⟩ := Option.isSome_iff_exists.mp hpending
  by_cases howner : e.handler = t
  · exact unfinished_self hat hd howner hcode hgoes h
  · obtain ⟨hmoved, hhandler⟩ := (went_of_step hinv hcode h).moved
    refine ⟨?_, hmoved.committed hd (Ne.symm howner)⟩
    unfold Unfinished
    rw [hhandler t (Ne.symm howner), (hmoved.others (Ne.symm howner)).2]
    exact ⟨hat, hpending⟩

end Steps

/-! A sign-up that nobody interferes with is that of a single connection. -/

section Alone

variable {username password : T → Bytes} {s : State T} {t : T}

theorem tries_ok {change : Db → Option Db} {d : Db} (hfree : s.store.free t = true)
    (hchange : change (s.store.view t) = some d) (next : HandlerAt) :
    s.tries t change .ok next = s.goes t (s.store.put t d) next := by
  unfold State.tries Locking.execute Locking.write
  rw [hfree, if_pos rfl, hchange]
  rfl

theorem step_begin (h : s.handler t = .unknown) :
    step username password s (.begin t .ok) = some (s.goes t (s.store.begin t) .begun) := by
  rw [step, h]
  rfl

theorem step_insert (h : s.handler t = .begun) (code : Code) :
    step username password s (.insert t code) = some (s.tries t
      (fun db => some (db.addUser (username t) (password t))) code .inserted) := by
  rw [step, h]

theorem step_create (h : s.handler t = .inserted) (code : Code) :
    step username password s (.create t code) = some (s.tries t
      (fun db => (db.whereFree (username t)).map (Db.addTable (username t))) code .created) := by
  rw [step, h]

theorem step_commit (h : s.handler t = .created) (code : Code) :
    step username password s (.commit t code) =
      some (s.goes t (s.store.commit t code) (.checking (password t))) := by
  rw [step, h]

theorem step_insert_ok (h : s.handler t = .begun) (hfree : s.store.free t = true)
    (hidle : s.store.pending t = none) : step username password s (.insert t .ok) =
      some (s.goes t (s.store.put t (s.store.committed.addUser (username t) (password t)))
        .inserted) := by
  have hchange : some ((s.store.view t).addUser (username t) (password t)) =
      some (s.store.committed.addUser (username t) (password t)) := by rw [Locking.view_of_idle hidle]
  rw [step_insert h, tries_ok hfree hchange]

theorem step_create_ok (h : s.handler t = .inserted) {d : Db} (hpending : s.store.pending t = some d)
    (htable : d.tables (tableKey (username t)) = none) : step username password s (.create t .ok) =
      some (s.goes t (s.store.put t (d.addTable (username t))) .created) := by
  have hchange : ((s.store.view t).whereFree (username t)).map (Db.addTable (username t)) =
      some (d.addTable (username t)) := by
    rw [Locking.view_of_pending hpending, Db.whereFree, htable]
    rfl
  rw [step_create h, tries_ok (Locking.free_of_pending hpending) hchange]

/-- `createNewUser` of a single connection is a run of its handler. -/
theorem createNewUser_run (codes : SignUpCodes) (hbegin : codes.begin = .ok)
    (hhandler : s.handler t = .unknown) (hidle : s.store.begun t = false)
    (hfree : s.store.free t = true) :
    let r := createNewUser codes (username t) (password t) (s.store.connection t)
    ∃ events s', run (step username password) s events = some s' ∧ s'.store.connection t = r.2 ∧
      s'.handler t = if r.1 then .checking (password t) else .closed := by
  rw [Locking.connection_of_not_begun hidle]
  obtain ⟨hsucceeds, hfails⟩ :=
    createNewUser_begun codes (username t) (password t) hbegin s.store.committed
  let db := s.store.committed
  let s₁ := s.goes t (s.store.begin t) .begun
  let s₂ := s₁.goes t (s₁.store.put t (db.addUser (username t) (password t))) .inserted
  have h₁ : step username password s (.begin t .ok) = some s₁ := step_begin hhandler
  have hbegun₁ : s₁.store.begun t = true := Function.update_self _ _ _
  have h₂ : step username password s₁ (.insert t .ok) = some s₂ :=
    step_insert_ok (s := s₁) (handler_goes _ _ _ _) hfree
      (Locking.pending_of_not_begun (s := s.store) hidle)
  obtain ⟨hdb₂, hpending₂, hsame₂⟩ :=
    Locking.put_of_begun hbegun₁ (db.addUser (username t) (password t))
  have hbegun₂ : s₂.store.begun t = true := hsame₂ ▸ hbegun₁
  by_cases hboth : codes.Inserts ∧ codes.Creates (username t) (db.addUser (username t) (password t))
  · rw [hsucceeds hboth]
    let s₃ := s₂.goes t (s₂.store.put t (db.register (username t) (password t))) .created
    have h₃ : step username password s₂ (.create t .ok) = some s₃ :=
      step_create_ok (s := s₂) (handler_goes _ _ _ _) hpending₂ hboth.2.free
    obtain ⟨hdb₃, hpending₃, -⟩ :=
      Locking.put_of_begun hbegun₂ (db.register (username t) (password t))
    refine ⟨[.begin t .ok, .insert t .ok, .create t .ok, .commit t codes.commit],
      s₃.goes t (s₃.store.commit t codes.commit) (.checking (password t)), ?_, ?_,
      handler_goes s₃ _ _ _⟩
    · rw [run, h₁, Option.bind_some, run, h₂, Option.bind_some, run, h₃, Option.bind_some, run,
        step_commit (handler_goes _ _ _ _)]
      rfl
    · have hconnection := Locking.connection_of_pending hpending₃
      rw [hdb₃.trans hdb₂] at hconnection
      exact (Locking.connection_commit hpending₃ codes.commit).trans (by rw [hconnection]; rfl)
  · rw [hfails hboth]
    by_cases hinsert : codes.Inserts
    · refine ⟨[.begin t .ok, .insert t .ok, .create t (.error false)],
        s₂.goes t (s₂.store.rollback t) .closed, ?_, ?_, handler_goes s₂ _ _ _⟩
      · rw [run, h₁, Option.bind_some, run, h₂, Option.bind_some, run,
          step_create (handler_goes _ _ _ _)]
        rfl
      · have hconnection := Locking.connection_of_pending hpending₂
        rw [hdb₂] at hconnection
        exact (Locking.connection_rollback _ _).trans (congrArg Connection.rollback hconnection)
    · refine ⟨[.begin t .ok, .insert t (.error false)], s₁.goes t (s₁.store.rollback t) .closed, ?_,
        Locking.connection_rollback _ _, handler_goes s₁ _ _ _⟩
      rw [run, h₁, Option.bind_some, run, step_insert (handler_goes _ _ _ _)]
      rfl

/-- `addAction` of a single connection is a run of its handler. -/
theorem addAction_run (c : AddAction) (code : Code) {table : UserTable}
    (hhandler : s.handler t = .entered) (hfree : s.store.free t = true)
    (htable : (s.store.view t).tables (tableKey (username t)) = some table) :
    ∃ events s', run (step username password) s events = some s' ∧ s'.handler t = .entered ∧
      s'.store.connection t =
        (Connection.execute (Db.addAction (username t) c) code (s.store.connection t)).2 := by
  let found := checkKeyExist table c.filename c.timestamp
  let s₁ := s.goes t s.store (.storing c found)
  have h₁ : step username password s (.checkKeyExist t c true) = some s₁ := by
    rw [step, hhandler]
    dsimp only
    rw [htable]
    rfl
  refine ⟨[.checkKeyExist t c true, .upsert t code],
    s₁.goes t (s.store.execute t (Db.upsert (username t) found c) code).2 .entered, ?_,
    handler_goes s₁ _ _ _, ?_⟩
  · have hstoring : s₁.handler t = .storing c found := handler_goes s _ _ _
    rw [run, h₁, Option.bind_some, run, step, hstoring]
    rfl
  · have hsame : (s.store.connection t).current.upsert (username t) found c =
        (s.store.connection t).current.addAction (username t) c := by
      have hupsert := Calls.upsert_eq (username t) c (s.store.view t)
      rw [htable] at hupsert
      rwa [Locking.current_connection]
    rw [← Connection.execute_congr hsame, Locking.connection_execute hfree]
    rfl

end Alone

section Runs

variable {username password : T → Bytes} {db : Db} {s : State T}

/-- However the handlers take turns: the users are those of before and the sign-ups that were committed,
in that order, one row and one table each; a session that is logged in is that of a user, or its `COMMIT`
has failed; and no step of a handler changes what the others read. -/
theorem concurrent_sign_ups (hdb : (⟨db, []⟩ : Sessions).Isolated) (events : List (Event T))
    (hkept : ∀ e ∈ events, e.aborts = false)
    (hrun : run (step username password) (start db) events = some s) :
    s.store.committed.users =
        db.users ++ outputs (step username password) (signed username password) (start db) events ∧
      (⟨s.store.committed, []⟩ : Sessions).Isolated ∧
      (∀ t, (s.handler t).loggedIn = true →
        username t ∈ s.store.committed.usernames ∨ (s.store.pending t).isSome = true) ∧
      ∀ e s', e.aborts = false → step username password s e = some s' →
        ∀ u ∈ s.store.committed.usernames, u ≠ username e.handler →
          SameResults s.store.committed s'.store.committed u := by
  have hinv := inv_run hdb hkept hrun
  refine ⟨?_, hinv.isolated, fun t hat => ?_, fun e s' hcode hstep u hu hne =>
    (went_of_step hinv hcode hstep).sameResults hinv.isolated hu hne⟩
  · refine (run_outputs_meets (I := fun s l => Inv username password s ∧
      s.store.committed.users = db.users ++ l) (fun s e s' l h hcode hstep => ?_)
      ⟨inv_start hdb, (List.append_nil _).symm⟩ (meets_of_mem hkept _) hrun).2
    refine ⟨inv_step h.1 hcode hstep, ?_⟩
    rw [(went_of_step h.1 hcode hstep).users, h.2, List.append_assoc]
  · have hstands := hinv.stands t
    cases hhandler : s.handler t with
    | checking | entered | storing =>
      rw [hhandler] at hstands
      exact hstands.imp_left And.right
    | _ =>
      rw [hhandler] at hat
      cases hat

/-- Two clients, `a` and `A`, whose tables are one. -/
def sampleName : Bool → Bytes
  | true => [97]
  | false => [65]

def samplePassword : Bool → Bytes := fun _ => [120]

/-- Both are not known; the second one comes upon the lock. -/
def bothSignUp : List (Event Bool) :=
  [.passwordFromUsername true .completes, .passwordFromUsername false .completes, .begin false .ok,
    .begin true .ok, .insert true .ok, .insert false .ok, .create true .ok, .commit true .ok]

theorem concurrent_sign_ups_same_table : ∃ s,
    run (step sampleName samplePassword) (start emptyDb) bothSignUp = some s ∧
      s.store.committed.users = [([97], [120])] ∧ (⟨s.store.committed, []⟩ : Sessions).Isolated := by
  have hsome : (run (step sampleName samplePassword) (start emptyDb) bothSignUp).isSome = true := by
    decide
  obtain ⟨s, hs⟩ := Option.isSome_iff_exists.mp hsome
  have h := concurrent_sign_ups isolated_start bothSignUp (by decide) hs
  exact ⟨s, hs, h.1, h.2.1⟩

/-- From a `COMMIT` that fails with the transaction still open until that connection is closed, nothing
is committed: nobody else signs up or stores anything, and what the session stores is lost. -/
theorem failed_commit (hdb : (⟨db, []⟩ : Sessions).Isolated) (events later : List (Event T)) (t : T)
    (hkept : ∀ e ∈ events ++ .commit t (.error false) :: later, e.aborts = false)
    (hgoes : .close t ∉ later) {s s₁ s₂ : State T}
    (hrun : run (step username password) (start db) events = some s)
    (hcommit : step username password s (.commit t (.error false)) = some s₁)
    (hlater : run (step username password) s₁ later = some s₂) :
    s₂.store.committed = s.store.committed ∧
      (∀ t', t' ≠ t → s₂.store.pending t' = none) ∧
      ∀ s₃, step username password s₂ (.close t) = some s₃ →
        s₃.store.committed = s.store.committed ∧ ∀ t', s₃.store.pending t' = none := by
  have hbefore : Inv username password s :=
    inv_run hdb (fun e he => hkept e (List.mem_append_left _ he)) hrun
  have hafter : ∀ e ∈ later, e.aborts = false ∧ e ≠ .close t := fun e he =>
    ⟨hkept e (List.mem_append_right _ (List.mem_cons_of_mem _ he)), fun heq => hgoes (heq ▸ he)⟩
  have hfirst : Unfinished s₁ t ∧ s₁.store.committed = s.store.committed :=
    unfinished_commit hbefore hcommit
  obtain ⟨-, ⟨hat, hopen⟩, hcommitted⟩ := run_invariant
    (I := fun s' => Inv username password s' ∧ Unfinished s' t ∧
      s'.store.committed = s.store.committed)
    (fun s' e s'' h he hstep =>
      have hnext := unfinished_step h.1 he.1 he.2 h.2.1 hstep
      ⟨inv_step h.1 he.1 hstep, hnext.1, hnext.2.trans h.2.2⟩)
    ⟨inv_step hbefore rfl hcommit, hfirst⟩ (meets_of_mem hafter _) hlater
  obtain ⟨d, hd⟩ := Option.isSome_iff_exists.mp hopen
  have hothers : ∀ t', t' ≠ t → s₂.store.pending t' = none :=
    Locking.free_iff.mp (Locking.free_of_pending hd)
  refine ⟨hcommitted, hothers, fun s₃ hclose => ?_⟩
  have hs₃ : s₃.store = s₂.store.rollback t := by
    simp only [step] at hclose
    split at hclose
    all_goals first
      | exact Option.some.inj hclose ▸ rfl
      | cases hclose
  rw [hs₃]
  refine ⟨hcommitted, fun t' => ?_⟩
  by_cases hself : t' = t
  · rw [hself]
    exact Locking.pending_ends_self _ _ _
  · exact (Locking.pending_ends_of_ne hself _ _).trans (hothers t' hself)

/-- The first client has created its table. -/
def beforeCommit : List (Event Bool) :=
  [.passwordFromUsername true .completes, .begin true .ok, .insert true .ok, .create true .ok]

/-- Its `COMMIT` has failed; it logs in, and the second client tries to sign up. -/
def afterCommit : List (Event Bool) :=
  [.attempt true [120], .passwordFromUsername false .completes, .begin false .ok, .insert false .ok]

theorem failed_commit_busy : ∃ s s₁ s₂,
    run (step sampleName samplePassword) (start emptyDb) beforeCommit = some s ∧
      step sampleName samplePassword s (.commit true (.error false)) = some s₁ ∧
      run (step sampleName samplePassword) s₁ afterCommit = some s₂ ∧
      s₂.store.committed = s.store.committed ∧ s₂.store.pending false = none := by
  have hsome : ((run (step sampleName samplePassword) (start emptyDb) beforeCommit).bind fun s =>
      (step sampleName samplePassword s (.commit true (.error false))).bind fun s₁ =>
        run (step sampleName samplePassword) s₁ afterCommit).isSome = true := by decide
  obtain ⟨s₂, hs₂⟩ := Option.isSome_iff_exists.mp hsome
  obtain ⟨s, hrun, hrest⟩ := Option.bind_eq_some_iff.mp hs₂
  obtain ⟨s₁, hcommit, hlater⟩ := Option.bind_eq_some_iff.mp hrest
  obtain ⟨hsame, hidle, -⟩ := failed_commit isolated_start beforeCommit afterCommit true (by decide)
    (by simp [afterCommit]) hrun hcommit hlater
  exact ⟨s, s₁, s₂, hrun, hcommit, hlater, hsame, hidle false (by decide)⟩

end Runs

end BackupManager.Server.ConcurrentSignUps
