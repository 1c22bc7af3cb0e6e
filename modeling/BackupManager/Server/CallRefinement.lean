import BackupManager.Server.Statements

/-! Every run of the calls is a run of the tables: what a function of `Database` returns, and what it
leaves on the connection, is what the statements over whole tables say. -/
namespace BackupManager.Server.Calls
open ByteStream Protocol Table Script Connection

section Values

variable {results : ℕ → Code} {s s' : Driver Db}

/-- Nothing is written, however the program ends. -/
def Harmless {α : Type} (p : Script Db α) : Prop :=
  ∀ s, Unwritten s.connection (p s).2.connection

theorem Harmless.of_reads {α : Type} {p : Script Db α} (hp : Reads p) : Harmless p := by
  intro s
  cases hs : p s with
  | mk o s' =>
    cases o with
    | ok a => exact Or.inl (hp.ok hs)
    | error what => exact hp.error hs

theorem Harmless.bind {α β : Type} {p : Script Db α} {f : α → Script Db β} (hp : Harmless p)
    (hf : ∀ a, Harmless (f a)) : Harmless (p >>= f) := by
  intro s
  have h := hp s
  rw [bind_apply]
  cases hs : p s with
  | mk o s' =>
    rw [hs] at h
    cases o with
    | ok a => exact h.trans (hf a s')
    | error what => exact h

/-- What the loop over the rows returns is what the loop over some answers of SQLite returns. -/
theorem forRows_answers {M ρ : Type} (stmt : Option ℕ) (body : M → ρ → Except String M)
    (rows : List ρ) : ∀ (m : M) (s : Driver Db), ∃ steps, Answers rows steps ∧
      (forRows results stmt body rows m s).1 = stepLoop body m steps := by
  induction rows with
  | nil =>
    intro m s
    exact ⟨[.done], .done, rfl⟩
  | cons r rest ih =>
    intro m s
    obtain ⟨ok, s₁, hstep, -⟩ := @stepRead_cases Db results stmt s
    rw [forRows, Script.bind_apply, hstep]
    cases ok with
    | false => exact ⟨[.error 1], .error 0 1, rfl⟩
    | true =>
      simp only [if_true]
      rw [Script.bind_apply]
      cases hbody : body m r with
      | error what =>
        refine ⟨(r :: rest).map .row ++ [.done], .done, ?_⟩
        rw [List.map_cons, List.cons_append, stepLoop, hbody]
        rfl
      | ok m' =>
        obtain ⟨steps, hanswers, hresult⟩ := ih m' { s₁ with
          misused := s₁.misused || !stmt.any s₁.live.contains }
        refine ⟨.row r :: steps, ?_, ?_⟩
        · cases hanswers with
          | done => exact .done
          | error k code => exact @Answers.error _ (r :: rest) (k + 1) code
        · rw [stepLoop, hbody]
          exact hresult

theorem reads_call (stmt : Option ℕ) :
    Reads (callOrThrow results sqliteError Connection.call stmt : Script Db Unit) :=
  .callOrThrow asks_call _ stmt

theorem reads_bindValues (stmt : Option ℕ) (n : ℕ) : Reads (bindValues results stmt n) := by
  induction n with
  | zero => exact .pure ()
  | succ n ih => exact .bind (reads_call stmt) fun _ => ih

theorem reads_readColumnType (stmt : Option ℕ) (row : Bool) : Reads (readColumnType stmt row) := by
  unfold readColumnType
  split
  · exact .use stmt
  · exact .pure ()

theorem reads_checkKeyExist (username filename timestamp : Bytes) :
    Reads (checkKeyExist results username filename timestamp) :=
  .bind (.prepareOrThrow _ _) fun stmt => .bind (reads_call stmt) fun _ => .bind (reads_call stmt)
    fun _ => .bind .current fun _ => .bind (reads_call stmt) fun _ =>
      .bind (reads_readColumnType stmt _) fun _ => .bind (.finalize stmt) fun _ => .pure _

/-- The key is looked for in the table as it is. -/
theorem checkKeyExist_ok {username filename timestamp : Bytes} {found : Bool}
    (h : checkKeyExist results username filename timestamp s = (.ok found, s')) :
    found = (s.connection.current.tables (tableKey username)).any fun table =>
      Server.checkKeyExist table filename timestamp := by
  obtain ⟨stmt, s₁, hprepare, h⟩ := bind_ok h
  obtain ⟨_, s₂, hfilename, h⟩ := bind_ok h
  obtain ⟨_, s₃, htimestamp, h⟩ := bind_ok h
  obtain ⟨db, s₄, hcurrent, h⟩ := bind_ok h
  obtain ⟨_, s₅, -, h⟩ := bind_ok h
  obtain ⟨_, s₆, -, h⟩ := bind_ok h
  obtain ⟨_, s₇, -, h⟩ := bind_ok h
  cases h
  cases hcurrent
  have hsame : s₃.connection = s.connection := by
    rw [(reads_call stmt).ok htimestamp, (reads_call stmt).ok hfilename,
      (Reads.prepareOrThrow _ _).ok hprepare]
  rw [hsame]

/-- The statement that is executed is the one of `addAction`. -/
theorem upsert_eq (username : Bytes) (c : AddAction) (db : Db) :
    db.upsert username ((db.tables (tableKey username)).any fun table =>
      Server.checkKeyExist table c.filename c.timestamp) c = db.addAction username c := by
  unfold Db.upsert Db.addAction
  cases db.tables (tableKey username) with
  | none => rfl
  | some table =>
    simp only [Option.bind_some, Option.any_some]
    rfl

/-- The part of `addAction` after the search for the key. -/
theorem writes_upsert (username : Bytes) (found : Bool) (c : AddAction) :
    Writes (Db.upsert username found c) (do
      let stmt ← prepareOrThrow results sqliteError (Db.hasTable username)
      bindValues results stmt 8
      callOrThrow results sqliteError (Connection.execute (Db.upsert username found c)) stmt
      finalize stmt) := by
  refine .after (.prepareOrThrow _ _) fun stmt => .after (reads_bindValues stmt 8) fun _ =>
    .andThen (.stepOrThrow _ stmt) fun _ s => ⟨(), ?_⟩
  cases stmt <;> exact ⟨rfl, rfl⟩

/-- `addAction` does what it says or writes nothing. -/
theorem addAction_ok {username : Bytes} {c : AddAction}
    (h : addAction results username c s = (.ok (), s')) :
    ∃ db, s.connection.current.addAction username c = some db ∧
      s'.connection = s.connection.put db := by
  obtain ⟨found, s₁, hcheck, hrest⟩ := bind_ok h
  obtain ⟨db, hdb, hput⟩ := (writes_upsert username found c).ok hrest
  have hsame := (reads_checkKeyExist username c.filename c.timestamp).ok hcheck
  rw [hsame] at hdb hput
  rw [checkKeyExist_ok hcheck, upsert_eq] at hdb
  exact ⟨db, hdb, hput⟩

theorem addAction_error {username : Bytes} {c : AddAction} {what : String}
    (h : addAction results username c s = (.error what, s')) :
    Unwritten s.connection s'.connection := by
  rcases bind_error h with hcheck | ⟨found, s₁, hcheck, hrest⟩
  · exact (reads_checkKeyExist username c.filename c.timestamp).error hcheck
  · have hsame := (reads_checkKeyExist username c.filename c.timestamp).ok hcheck
    rw [← hsame]
    exact (writes_upsert username found c).error hrest

theorem harmless_passwordFromUsername (username : Bytes) :
    Harmless (passwordFromUsername results username) := by
  refine .bind (.of_reads (.prepareOrThrow _ _)) fun stmt => .bind (.of_reads (reads_call stmt))
    fun _ => .bind (.of_reads .current) fun db => .bind ?_ fun ok => .bind ?_ fun _ =>
      .of_reads (.bind (.finalize stmt) fun _ => .pure _)
  · intro s
    obtain ⟨ok, s', hstep, hunwritten⟩ := @stepRead_cases Db results stmt s
    rw [hstep]
    exact hunwritten
  · unfold readPassword
    split
    · exact .of_reads (.bind (.use stmt) fun _ => .pure _)
    · exact .of_reads (.pure _)

theorem passwordFromUsername_ok {username : Bytes} {result : Option Bytes}
    (h : passwordFromUsername results username s = (.ok result, s')) :
    ∃ lookup : Lookup, lookup.password s.connection.current.users username = .ok result := by
  obtain ⟨stmt, s₁, hprepare, h⟩ := bind_ok h
  obtain ⟨_, s₂, hbind, h⟩ := bind_ok h
  obtain ⟨db, s₃, hcurrent, h⟩ := bind_ok h
  obtain ⟨ok, s₄, -, h⟩ := bind_ok h
  obtain ⟨password, s₅, hread, h⟩ := bind_ok h
  obtain ⟨_, s₆, -, h⟩ := bind_ok h
  cases h
  cases hcurrent
  have hsame : s₂.connection = s.connection := by
    rw [(reads_call stmt).ok hbind, (Reads.prepareOrThrow _ _).ok hprepare]
  rw [hsame] at hread
  cases ok with
  | false =>
    cases hread
    exact ⟨.interrupted 1, rfl⟩
  | true =>
    refine ⟨.completes, ?_⟩
    unfold Lookup.password
    cases hrows : selectPassword s.connection.current.users username with
    | nil =>
      rw [hrows] at hread
      cases hread
      rfl
    | cons first rest =>
      rw [hrows] at hread
      cases hread
      rfl

theorem harmless_forRows {M ρ : Type} (stmt : Option ℕ) (body : M → ρ → Except String M)
    (rows : List ρ) (m : M) : Harmless (forRows results stmt body rows m) :=
  fun s => unwritten_forRows stmt body rows m s

theorem harmless_getInitailizationEntries (username : Bytes) :
    Harmless (getInitailizationEntries results username) :=
  .bind (.of_reads (.prepareOrThrow _ _)) fun stmt => .bind (.of_reads .current) fun _ =>
    .bind (harmless_forRows stmt _ _ _) fun _ => .of_reads (.bind (.finalize stmt) fun _ => .pure _)

theorem harmless_getRestoreEntries (username date : Bytes) :
    Harmless (getRestoreEntries results username date) :=
  .bind (.of_reads (.prepareOrThrow _ _)) fun stmt => .bind (.of_reads (reads_call stmt)) fun _ =>
    .bind (.of_reads .current) fun _ => .bind (harmless_forRows stmt _ _ _) fun _ =>
      .of_reads (.bind (.finalize stmt) fun _ => .pure _)

/-- A statement on a table is prepared when there is one. -/
theorem prepare_hasTable {username : Bytes} {stmt : Option ℕ}
    (h : prepareOrThrow results sqliteError (Db.hasTable username) s = (.ok stmt, s')) :
    ∃ table, s.connection.current.tables (tableKey username) = some table := by
  have houtcome := (@prepare_cases Db results sqliteError (Db.hasTable username) s).1
  rw [h] at houtcome
  by_contra hnone
  have htable : Db.hasTable username s.connection.current = false := by
    unfold Db.hasTable
    cases htables : s.connection.current.tables (tableKey username) with
    | none => rfl
    | some table => exact absurd ⟨table, htables⟩ hnone
  obtain ⟨c', hrefused, -⟩ := Connection.execute_refused (c := s.connection)
    (fun d => if Db.hasTable username d then some d else none) (results s.calls)
    (Or.inr (if_neg (by simp [htable])))
  rw [hrefused] at houtcome
  cases houtcome

theorem getInitailizationEntries_ok {username : Bytes} {m : HashMap}
    (h : getInitailizationEntries results username s = (.ok m, s')) :
    ∃ table steps, s.connection.current.tables (tableKey username) = some table ∧
      Answers (selectInitialization table .deletePath) steps ∧
      Server.getInitailizationEntries steps = .ok m := by
  obtain ⟨stmt, s₁, hprepare, h⟩ := bind_ok h
  obtain ⟨db, s₂, hcurrent, h⟩ := bind_ok h
  obtain ⟨result, s₃, hloop, h⟩ := bind_ok h
  obtain ⟨_, s₄, -, h⟩ := bind_ok h
  cases h
  cases hcurrent
  obtain ⟨table, htable⟩ := prepare_hasTable hprepare
  rw [(Reads.prepareOrThrow _ _).ok hprepare] at hloop
  obtain ⟨steps, hanswers, hresult⟩ := @forRows_answers results _ _ stmt
    (fun (m : HashMap) (r : Row) => .ok (m.insert (cString r.filename) (cString r.hash)))
    (selectFrom username (selectInitialization · .deletePath) s.connection.current) .empty s₁
  rw [hloop] at hresult
  have hrows : selectFrom username (selectInitialization · .deletePath) s.connection.current =
      selectInitialization table .deletePath := by rw [selectFrom, htable]; rfl
  rw [hrows] at hanswers
  exact ⟨table, steps, htable, hanswers, hresult.symm⟩

/-- What `getRestoreEntries` throws itself is the error of SQLite. -/
theorem prepare_error {valid : Db → Bool} {what : String}
    (h : prepareOrThrow results sqliteError valid s = (.error what, s')) : what = sqliteError := by
  have houtcome := (@prepare_cases Db results sqliteError valid s).1
  rw [h] at houtcome
  split at houtcome
  · cases houtcome
  · cases houtcome
    rfl

theorem call_error {stmt : Option ℕ} {what : String}
    (h : (callOrThrow results sqliteError Connection.call stmt : Script Db Unit) s =
      (.error what, s')) : what = sqliteError := by
  have houtcome := (@check_cases Db results Connection.call sqliteError stmt s).1
  rw [h] at houtcome
  split at houtcome
  · cases houtcome
  · cases houtcome
    rfl

theorem finalize_ok {α : Type} (stmt : Option ℕ) (a : α) (s : Driver Db) :
    ∃ s', (finalize stmt >>= fun _ => pure a : Script Db α) s = (.ok a, s') := by
  cases stmt with
  | none => exact ⟨_, rfl⟩
  | some h => exact ⟨_, rfl⟩

/-- The end of the loop is the end of the query, but for the errors of SQLite. -/
theorem getRestoreEntries_answers {username date : Bytes} {o : Except String RestoreMap}
    (h : getRestoreEntries results username date s = (o, s')) (ho : o ≠ .error sqliteError) :
    ∃ table steps, s.connection.current.tables (tableKey username) = some table ∧
      Answers (selectRestore table .deletePath date) steps ∧
      Server.getRestoreEntries steps = o := by
  have hloop : ∃ stmt s₁ s₂ s₃, prepareOrThrow results sqliteError (Db.hasTable username) s =
        (.ok stmt, s₁) ∧ (callOrThrow results sqliteError Connection.call stmt : Script Db Unit) s₁ =
          (.ok (), s₂) ∧ forRows results stmt (fun (m : RestoreMap) (r : Row) => do
            let f ← restoreFile r
            pure (m.insert f.filename f))
          (selectFrom username (selectRestore · .deletePath date) s₂.connection.current) .empty s₂ =
            (o, s₃) := by
    cases o with
    | ok m =>
      obtain ⟨stmt, s₁, hprepare, h⟩ := bind_ok h
      obtain ⟨_, s₂, hbind, h⟩ := bind_ok h
      obtain ⟨db, _, hcurrent, h⟩ := bind_ok h
      obtain ⟨result, s₃, hloop, h⟩ := bind_ok h
      obtain ⟨_, s₄, -, h⟩ := bind_ok h
      cases h
      cases hcurrent
      exact ⟨stmt, s₁, s₂, s₃, hprepare, hbind, hloop⟩
    | error what =>
      have hwhat : what ≠ sqliteError := fun hsame => ho (by rw [hsame])
      rcases bind_error h with hprepare | ⟨stmt, s₁, hprepare, h⟩
      · exact absurd (prepare_error hprepare) hwhat
      rcases bind_error h with hbind | ⟨_, s₂, hbind, h⟩
      · exact absurd (call_error hbind) hwhat
      rcases bind_error h with hcurrent | ⟨db, _, hcurrent, h⟩
      · cases hcurrent
      cases hcurrent
      rcases bind_error h with hloop | ⟨result, s₃, -, h⟩
      · exact ⟨stmt, s₁, s₂, s', hprepare, hbind, hloop⟩
      · obtain ⟨s₄, hfinal⟩ := finalize_ok stmt result s₃
        rw [hfinal] at h
        cases h
  obtain ⟨stmt, s₁, s₂, s₃, hprepare, hbind, hloop⟩ := hloop
  obtain ⟨table, htable⟩ := prepare_hasTable hprepare
  have hsame : s₂.connection = s.connection := by
    rw [(reads_call stmt).ok hbind, (Reads.prepareOrThrow _ _).ok hprepare]
  rw [hsame] at hloop
  obtain ⟨steps, hanswers, hresult⟩ := @forRows_answers results _ _ stmt
    (fun (m : RestoreMap) (r : Row) => do
      let f ← restoreFile r
      pure (m.insert f.filename f))
    (selectFrom username (selectRestore · .deletePath date) s.connection.current) .empty s₂
  rw [hloop] at hresult
  have hrows : selectFrom username (selectRestore · .deletePath date) s.connection.current =
      selectRestore table .deletePath date := by rw [selectFrom, htable]; rfl
  rw [hrows] at hanswers
  exact ⟨table, steps, htable, hanswers, hresult.symm⟩

end Values

section SignUp

variable {results : ℕ → Code} {username password : Bytes}

/-- The results that a sign-up is going to see. -/
def codesFrom (results : ℕ → Code) (n : ℕ) : SignUpCodes where
  begin := results n
  prepareInsert := results (n + 1)
  bindUsername := results (n + 2)
  bindPassword := results (n + 3)
  stepInsert := results (n + 4)
  prepareCreate := results (n + 5)
  stepCreate := results (n + 6)
  commit := results (n + 7)

/-- A part of the block does on the connection what the call does, and asks the oracle `k` times when
it succeeds. -/
def Tracks (n k : ℕ) (p : Script Db (Option ℕ × Bool)) (g : Call Db) : Prop :=
  ∀ s, s.calls = n → ∃ stmt, (p s).1 = .ok (stmt, (g s.connection).1) ∧
    (p s).2.connection = (g s.connection).2 ∧ ((g s.connection).1 = true → (p s).2.calls = n + k)

theorem Tracks.leaving {n k : ℕ} {f : Code → Call Db} {stmt : Option ℕ}
    {p : Script Db (Option ℕ × Bool)} {g : Call Db} (h : Tracks (n + 1) k p g) :
    Tracks n (k + 1) ((do use stmt; call results f) >>= fun ok =>
      if !ok then pure (stmt, false) else p) (andThen (f (results n)) g) := by
  intro s hs
  subst hs
  have hcall : (do use stmt; call results f : Script Db Bool) s =
      (.ok (f (results s.calls) s.connection).1, { s with
        connection := (f (results s.calls) s.connection).2
        misused := s.misused || !stmt.any s.live.contains
        calls := s.calls + 1 }) := rfl
  rw [Script.bind_apply, hcall]
  unfold andThen
  cases hf : f (results s.calls) s.connection with
  | mk ok c =>
    cases ok with
    | false => exact ⟨stmt, rfl, rfl, fun h => by cases h⟩
    | true =>
      obtain ⟨stmt', houtcome, hconnection, hcalls⟩ := h { s with
        connection := c
        misused := s.misused || !stmt.any s.live.contains
        calls := s.calls + 1 } rfl
      exact ⟨stmt', houtcome, hconnection, fun hg => (hcalls hg).trans (by omega)⟩

theorem Tracks.preparing {n k : ℕ} {valid : Db → Bool}
    {p : Option ℕ → Script Db (Option ℕ × Bool)} {g : Call Db}
    (h : ∀ handle, Tracks (n + 1) k (p (some handle)) g) :
    Tracks n (k + 1) (prepare results valid >>= fun stmt =>
        if stmt.isNone then pure (stmt, false) else p stmt)
      (andThen (execute (fun d => if valid d then some d else none) (results n)) g) := by
  intro s hs
  subst hs
  have hprepare : prepare results valid s = openHandle
      (execute (fun d => if valid d then some d else none) (results s.calls) s.connection).1
      { s with
        connection :=
          (execute (fun d => if valid d then some d else none) (results s.calls) s.connection).2
        calls := s.calls + 1 } := rfl
  rw [Script.bind_apply, hprepare]
  unfold andThen
  cases hf : execute (fun d => if valid d then some d else none) (results s.calls) s.connection with
  | mk ok c =>
    cases ok with
    | false => exact ⟨none, rfl, rfl, fun h => by cases h⟩
    | true =>
      obtain ⟨stmt, houtcome, hconnection, hcalls⟩ := h s.next
        { s with connection := c, calls := s.calls + 1, next := s.next + 1, live := s.next :: s.live }
        rfl
      exact ⟨stmt, houtcome, hconnection, fun hg => (hcalls hg).trans (by omega)⟩

theorem Tracks.finalizing {n k : ℕ} {stmt : Option ℕ} {p : Script Db (Option ℕ × Bool)}
    {g : Call Db} (h : Tracks n k p g) : Tracks n k (finalize stmt >>= fun _ => p) g := by
  intro s hs
  cases stmt with
  | none => exact h s hs
  | some handle =>
    exact h { s with live := s.live.erase handle, misused := s.misused || !s.live.contains handle } hs

theorem Tracks.last {n : ℕ} {f : Code → Call Db} {stmt : Option ℕ} :
    Tracks n 1 ((do use stmt; call results f) >>= fun ok => pure (stmt, ok)) (f (results n)) := by
  intro s hs
  subst hs
  exact ⟨stmt, rfl, rfl, fun _ => rfl⟩

theorem andThen_assoc (f g h : Call Db) : andThen (andThen f g) h = andThen f (andThen g h) := by
  funext c
  unfold andThen
  cases f c with
  | mk ok c' => cases ok <;> rfl

theorem whereFree_eq (username : Bytes) :
    Db.whereFree username = fun db => if !db.hasTable username then some db else none := by
  funext db
  unfold Db.whereFree Db.hasTable
  cases db.tables (tableKey username) <;> rfl

/-- The calls after `BEGIN`. -/
theorem tracks_block (username password : Bytes) (n : ℕ) :
    Tracks (n + 1) 6 (createNewUserBlock results username password)
      (andThen (insertUser (codesFrom results n) username password)
        (createTable (codesFrom results n) username)) := by
  have hcalls : andThen (insertUser (codesFrom results n) username password)
      (createTable (codesFrom results n) username) =
    andThen (execute (fun d => if (fun _ : Db => true) d then some d else none) (results (n + 1)))
      (andThen (Connection.call (results (n + 2))) (andThen (Connection.call (results (n + 3)))
        (andThen (execute (fun db => some (db.addUser username password)) (results (n + 4)))
          (andThen (execute (fun db => if !db.hasTable username then some db else none)
              (results (n + 5)))
            (execute (fun db => some (db.addTable username)) (results (n + 6))))))) := by
    unfold insertUser createTable
    rw [andThen_assoc, andThen_assoc, andThen_assoc, whereFree_eq]
    rfl
  rw [hcalls]
  unfold createNewUserBlock
  exact .preparing fun handle => .leaving (.leaving (.leaving (.finalizing (.preparing fun _ => .last))))

/-- A sign-up returns, and leaves on the connection, what the two statements say. -/
theorem createNewUser_refines (username password : Bytes) (s : Driver Db) :
    ∃ codes, Server.createNewUser codes username password s.connection =
      ((createNewUser results username password s).1.isOk,
        (createNewUser results username password s).2.connection) := by
  obtain ⟨stmt, houtcome, hconnection, hcalls⟩ := @tracks_block results username password s.calls
    { s with connection := (begin (results s.calls) s.connection).2, calls := s.calls + 1 } rfl
  refine ⟨codesFrom results s.calls, ?_⟩
  have hcall : call results Connection.begin s = (.ok _, { s with
    connection := (begin (results s.calls) s.connection).2, calls := s.calls + 1 }) := rfl
  have hbegin : (codesFrom results s.calls).begin = results s.calls := rfl
  unfold Server.createNewUser createNewUser
  rw [Script.bind_apply, hcall, hbegin]
  dsimp only
  rw [Script.bind_apply]
  cases hblock : createNewUserBlock results username password
      { s with connection := (begin (results s.calls) s.connection).2, calls := s.calls + 1 } with
  | mk o s₁ =>
    rw [hblock] at houtcome hconnection hcalls
    dsimp only at houtcome hconnection hcalls
    subst houtcome
    cases hr : andThen (insertUser (codesFrom results s.calls) username password)
        (createTable (codesFrom results s.calls) username)
        (begin (results s.calls) s.connection).2 with
    | mk ok c =>
      rw [hr] at hconnection hcalls
      subst hconnection
      cases ok with
      | true =>
        have hcommit : (codesFrom results s.calls).commit = results s₁.calls := by
          rw [hcalls rfl]
          rfl
        rw [hcommit]
        cases stmt <;> rfl
      | false => cases stmt <;> rfl

end SignUp

/-- What a call does, in terms of the tables: on an error of SQLite nothing is written. -/
def Refines (c c' : Table.Connection Db) : DbCall → Except String DbResult → Prop
  | .passwordFromUsername username, o => Unwritten c c' ∧ ∀ result, o = .ok result →
    ∃ (lookup : Lookup) (password : Option Bytes),
      lookup.password c.current.users username = .ok password ∧ result = .password password
  | .createNewUser username password, o => ∃ codes,
    Server.createNewUser codes username password c = (o.isOk, c')
  | .addAction username a, .ok _ => ∃ db, c.current.addAction username a = some db ∧ c' = c.put db
  | .addAction _ _, .error _ => Unwritten c c'
  | .getInitailizationEntries username, o => Unwritten c c' ∧ ∀ result, o = .ok result →
    ∃ table steps m, c.current.tables (tableKey username) = some table ∧
      Answers (selectInitialization table .deletePath) steps ∧
      Server.getInitailizationEntries steps = .ok m ∧ result = .hashes m
  | .getRestoreEntries username date, o => Unwritten c c' ∧ (o ≠ .error sqliteError →
    ∃ table steps, c.current.tables (tableKey username) = some table ∧
      Answers (selectRestore table .deletePath date) steps ∧
      (Server.getRestoreEntries steps).map .entries = o)

/-- A run of calls, each of which does what the tables say. -/
inductive Simulated : Table.Connection Db → List DbCall → List (Except String DbResult) →
    Table.Connection Db → Prop where
  | nil (c : Table.Connection Db) : Simulated c [] [] c
  | cons (c c' c'' : Table.Connection Db) (call : DbCall) (rest : List DbCall)
      (o : Except String DbResult) (later : List (Except String DbResult))
      (hcall : Refines c c' call o) (hrest : Simulated c' rest later c'') :
      Simulated c (call :: rest) (o :: later) c''

section Runs

variable {results : ℕ → Code}

theorem map_apply {α β : Type} (p : Script Db α) (g : α → β) (s : Driver Db) :
    (p >>= fun a => pure (g a)) s = ((p s).1.map g, (p s).2) := by
  rw [Script.bind_apply]
  cases p s with
  | mk o s' => cases o <;> rfl

theorem refines_perform (call : DbCall) (s : Driver Db) :
    Refines s.connection (perform results call s).2.connection call (perform results call s).1 := by
  cases call with
  | passwordFromUsername username =>
    rw [perform, map_apply]
    refine ⟨harmless_passwordFromUsername username s, fun result hresult => ?_⟩
    cases hrun : passwordFromUsername results username s with
    | mk o s' =>
      rw [hrun] at hresult
      cases o with
      | ok password =>
        cases hresult
        obtain ⟨lookup, hlookup⟩ := passwordFromUsername_ok hrun
        exact ⟨lookup, password, hlookup, rfl⟩
      | error what => cases hresult
  | createNewUser username password =>
    rw [perform, map_apply (createNewUser results username password) fun _ => DbResult.done]
    obtain ⟨codes, hcodes⟩ := @createNewUser_refines results username password s
    refine ⟨codes, hcodes.trans ?_⟩
    cases (createNewUser results username password s).1 <;> rfl
  | addAction username c =>
    rw [perform, map_apply (addAction results username c) fun _ => DbResult.done]
    cases hrun : addAction results username c s with
    | mk o s' =>
      cases o with
      | ok u => exact addAction_ok hrun
      | error what => exact addAction_error hrun
  | getInitailizationEntries username =>
    rw [perform, map_apply]
    refine ⟨harmless_getInitailizationEntries username s, fun result hresult => ?_⟩
    cases hrun : getInitailizationEntries results username s with
    | mk o s' =>
      rw [hrun] at hresult
      cases o with
      | ok m =>
        cases hresult
        obtain ⟨table, steps, htable, hanswers, hm⟩ := getInitailizationEntries_ok hrun
        exact ⟨table, steps, m, htable, hanswers, hm, rfl⟩
      | error what => cases hresult
  | getRestoreEntries username date =>
    rw [perform, map_apply]
    refine ⟨harmless_getRestoreEntries username date s, fun hsqlite => ?_⟩
    cases hrun : getRestoreEntries results username date s with
    | mk o s' =>
      rw [hrun] at hsqlite
      have ho : o ≠ .error sqliteError := by
        rintro rfl
        exact hsqlite rfl
      obtain ⟨table, steps, htable, hanswers, hm⟩ := getRestoreEntries_answers hrun ho
      exact ⟨table, steps, htable, hanswers, by rw [hm]⟩

/-- Every run of the functions of `Database`, whatever SQLite returns, is a run of the statements over
whole tables. -/
theorem calls_refine (results : ℕ → Code) (calls : List DbCall) (s : Driver Db) :
    Simulated s.connection calls (runCalls results calls s).1
      (runCalls results calls s).2.connection := by
  induction calls generalizing s with
  | nil => exact .nil _
  | cons call rest ih => exact .cons _ _ _ call rest _ _ (refines_perform call s) (ih _)

end Runs
end BackupManager.Server.Calls
