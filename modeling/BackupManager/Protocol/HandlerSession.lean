import BackupManager.ByteStream.Relational
import BackupManager.ByteStream.Unread
import BackupManager.Protocol.InitialStatus
import BackupManager.Protocol.Login

/-! A session of the server, from the accepted connection to the closing of the socket:
`ClientHandler::start` and the thread that it leaves behind. The peer may send anything. -/
namespace BackupManager.Protocol
open ByteStream Server Table Prog

/-- How the calls of SQLite end in a session, and what else it does not decide itself. -/
structure ServiceEnv where
  login : Login.Env
  initialization : List Row → List (Step Row)
  restore : List Effect → List Row → List (Step Row)
  /-- Whether the statements of `addAction` go through, after what has been done so far. -/
  accepts : List Effect → AddAction → Bool
  localDay : List Effect → Bytes
  hash : Bytes → Bytes
  stray : Bytes
  pastEnd : ℕ → Bool
  /-- `shutdown` and `close` of the socket go through. -/
  shutdown : Bool

/-- The world of a handler. -/
structure Service where
  connection : Table.Connection Db
  /-- What `login` and `send_file_hash` have written. -/
  written : List Bytes
  /-- What the thread of the session has done. -/
  trace : List Effect
  isOpen : Bool

namespace Service

/-- The database after a call of `addAction`, which changes nothing when it throws. -/
def applyEffect (accepts : List Effect → AddAction → Bool) (username : Bytes) (trace : List Effect)
    (db : Db) : Effect → Db
  | .addAction c => if accepts trace c then (db.addAction username c).getD db else db
  | _ => db

/-- The database after the calls of a trace; `trace` is what was done before. -/
def applyTrace (accepts : List Effect → AddAction → Bool) (username : Bytes) :
    List Effect → Db → List Effect → Db
  | _, db, [] => db
  | trace, db, e :: rest =>
    applyTrace accepts username (trace ++ [e]) (applyEffect accepts username trace db e) rest

variable (env : ServiceEnv)

/-- The database of a session that has found this one, as far as its thread has gone. -/
def stored (username : Bytes) (db : Db) (trace : List Effect) : Db :=
  applyTrace env.accepts username [] db trace

/-- What the thread of the session calls. -/
def backend (username : Bytes) (db : Db) : Backend where
  addAction trace c :=
    env.accepts trace c && ((stored env username db trace).addAction username c).isSome
  getRestoreEntries trace date :=
    ((stored env username db trace).getRestoreEntries (env.restore trace) username date).toOption
  localDay := env.localDay
  hash := env.hash
  uninit := env.login.uninit
  stray := env.stray
  pastEnd := env.pastEnd

def onConnection {α : Type} : Prog (Table.Connection Db) α → Prog Service α :=
  zoom Service.connection fun w c => { w with connection := c }

def write (messages : List Bytes) : Prog Service Unit :=
  modifyWorld fun w => { w with written := w.written ++ messages }

/-- `login` returns with the username, or goes on at its next point. -/
def goesOn : Login.ServerAt → Login.ServerAt ⊕ Bytes
  | .entered username => .inr username
  | point => .inl point

/-- `login`, from one point at which it reads to the next. -/
def loginRound (point : Login.ServerAt) : Prog Service (Login.ServerAt ⊕ Bytes) := do
  let (point, messages) ← onConnection (Login.server env.login point)
  write messages
  pure (goesOn point)

/-- `login`; it leaves `username` behind. -/
def login : Prog Service Bytes := loop (loginRound env) .connected

def sendFileHash (username : Bytes) : Prog Service Unit := do
  let w ← getWorld
  match w.connection.current.getInitailizationEntries env.initialization username with
  | .error what => throw what
  | .ok initMap => write [Protocol.sendFileHash initMap]

/-- `while (read_action()) {}`. -/
def readActionLoop (b : Backend) : Server.Handler Unit :=
  loop (fun _ => do
    let more ← readAction b
    pure (if more then .inl () else .inr ())) ()

/-- What was stored goes to the connection. -/
def actions (username : Bytes) : Prog Service Unit := do
  let w ← getWorld
  zoom Service.trace
    (fun w trace => { w with
      connection := w.connection.put (stored env username w.connection.current trace)
      trace := trace })
    (readActionLoop (backend env username w.connection.current))

/-- Both places that close the socket catch what that throws. -/
def closeSocket : Prog Service Unit :=
  tryCatch (act "shutdown" fun w => (env.shutdown, { w with isOpen := w.isOpen && !env.shutdown }))
    fun _ => pure ()

/-- The thread of the session. -/
def actionHandler (username : Bytes) : Prog Service Unit := do
  tryCatch (actions env username) fun _ => pure ()
  closeSocket env

/-- `ClientHandler::start`, with the thread of the session run to its end. -/
def start : Prog Service Unit :=
  tryCatch (do
      let username ← login env
      sendFileHash env username
      actionHandler env username)
    fun _ => closeSocket env

/-- A connection has been accepted: the peer sends these bytes, and perhaps nothing more. -/
def accepted (db : Db) (wire : Bytes) (closed : Bool) : Session Service :=
  ⟨wire, closed, .fresh [], ⟨⟨db, none⟩, [], [], true⟩⟩

/-- A session from the accepted connection on. -/
def serve (db : Db) (wire : Bytes) (closed : Bool) : Outcome Unit × Session Service :=
  start env (accepted db wire closed)

/-- The database as the session leaves it: closing the connection rolls a transaction back. -/
def database (w : Service) : Db := w.connection.rollback.committed

end Service

/-! Everything that the thread of the session does is composed of the basic programs. -/

section Composed

variable {P : (α : Type) → Server.Handler α → Prop} (h : Compositional P) (b : Backend)

include h

theorem composed_emit (e : Effect) : P Unit (emit e) := h.modifyWorld _

theorem composed_readFrame : P Frame (readFrame b) := by
  have hline : P Bytes readSizedLine := h.bind (h.recvSize _ _) fun _ => h.recvLine _ _
  exact h.bind (h.recvSize _ _) fun _ => h.bind (h.recvInt _ _) fun _ => h.bind hline fun _ =>
    h.bind hline fun _ => h.bind hline fun _ => h.pure _

theorem composed_store (c : AddAction) (index : ℤ) :
    P Unit (do callAddAction b c; sendResponseToClient index .completed) := by
  refine h.bind (h.bind h.getWorld fun _ => h.bind (composed_emit h _) fun _ => ?_) fun _ =>
    composed_emit h _
  split
  · exact h.pure _
  · exact h.throw _

theorem composed_actionReadFile (path : Bytes) (index : ℤ)
    (time lastWriteTime permissions : Bytes) :
    P Unit (actionReadFile b path index time lastWriteTime permissions) := by
  unfold actionReadFile
  refine h.bind (h.recvInt _ _) fun size => h.bind (h.extract _) fun _ => ?_
  have hrest : P Unit (do
      let file ← recvChunks maxMsgSize (fun _ => pure ()) size.toNat
      callAddAction b
        (bindFile b (readFileCall b.hash path time lastWriteTime permissions file size))
      sendResponseToClient index .completed) :=
    h.bind (h.recvChunks (fun _ => h.pure _) _) fun _ => composed_store h b _ _
  split
  · exact h.bind (h.throw _) fun _ => hrest
  · exact hrest

theorem composed_actionRestore (index : ℤ) : P Unit (actionRestore b index) := by
  unfold actionRestore
  refine h.bind (h.recvInt _ _) fun _ => h.bind (h.read _) fun _ => h.bind (h.extract _) fun _ =>
    h.bind (composed_emit h _) fun _ => h.bind h.getWorld fun _ =>
      h.bind (composed_emit h _) fun _ => ?_
  split
  · exact h.throw _
  · exact h.bind (composed_emit h _) fun _ => composed_emit h _

theorem composed_perform (f : Frame) (currentDate : Bytes) : P Bool (perform b f currentDate) := by
  unfold perform
  split
  · exact h.bind (composed_actionReadFile h b _ _ _ _ _) fun _ => h.pure _
  · split
    · exact h.bind (composed_store h b _ _) fun _ => h.pure _
    · split
      · exact h.bind (composed_store h b _ _) fun _ => h.pure _
      · split
        · exact h.pure _
        · split
          · exact h.bind (composed_actionRestore h b _) fun _ => h.pure _
          · exact h.throw _

/-- What follows the frame of a request. -/
theorem composed_answer (f : Frame) : P Bool (do acknowledge f; dispatch b f) := by
  have hacknowledge : P Unit (acknowledge f) := by
    refine h.bind (composed_emit h _) fun _ => ?_
    split
    · exact composed_emit h _
    · exact composed_emit h _
  have hname : P Unit (typeName b f.actionType) := by
    unfold typeName
    split
    · exact h.pure _
    · exact h.throw _
  have hcaught : ∀ what : String, P Bool (do
      typeName b f.actionType
      sendResponseToClient f.index .error
      pure true) := fun _ => h.bind hname fun _ => h.bind (composed_emit h _) fun _ => h.pure _
  exact h.bind hacknowledge fun _ =>
    h.bind h.getWorld fun _ => h.tryCatch (composed_perform h b f _) hcaught

theorem composed_readAction : P Bool (readAction b) :=
  h.bind (composed_readFrame h b) fun f => composed_answer h b f

end Composed

/-- A round of the loop takes at least the width of its first number. -/
theorem consumes_readAction (b : Backend) : Consumes (readAction b) := by
  have hline : Shrinks readSizedLine :=
    .bind (shrinks_compositional.recvSize _ _) fun _ => shrinks_compositional.recvLine _ _
  refine ((Consumes.recvSize _ _).bind fun _ => ?_).bind fun f =>
    composed_answer shrinks_compositional b f
  exact .bind (shrinks_compositional.recvInt _ _) fun _ => .bind hline fun _ => .bind hline fun _ =>
    .bind hline fun _ => shrinks_compositional.pure _

namespace Service

variable (env : ServiceEnv)

theorem consumes_actionRound (b : Backend) (u : Unit) : Consumes (do
    let more ← readAction b
    pure (if more then .inl u else .inr ()) : Server.Handler (Unit ⊕ Unit)) :=
  (consumes_readAction b).bind fun _ => shrinks_compositional.pure _

theorem halts_readActionLoop (b : Backend) : Halts (readActionLoop b) :=
  .loop (consumes_actionRound b)
    (fun _ => .bind (composed_readAction halts_compositional b) fun _ => .pure _) ()

/-! The rounds of `login`. -/

section Login

variable {env : Login.Env}

theorem composed_recvText {P : (α : Type) → Prog (Table.Connection Db) α → Prop}
    (h : Compositional P) (length : ℤ) (old : Bytes) : P (ℤ × Bytes) (Login.recvText length old) :=
  h.bind (h.recvInt _ _) fun _ => h.bind (h.recvLine _ _) fun _ => h.pure _

theorem composed_recvUsername {P : (α : Type) → Prog (Table.Connection Db) α → Prop}
    (h : Compositional P) (length : ℤ) : P (ℤ × Bytes) (Login.recvUsername length) :=
  h.bind (h.recvInt _ _) fun _ => h.bind (h.read _) fun _ => h.bind (h.extract _) fun _ => h.pure _

theorem consumes_recvText (length : ℤ) (old : Bytes) :
    Consumes (Login.recvText length old : Prog (Table.Connection Db) (ℤ × Bytes)) :=
  (Consumes.recvInt _ _).bind fun _ =>
    .bind (shrinks_compositional.recvLine _ _) fun _ => shrinks_compositional.pure _

theorem consumes_recvUsername (length : ℤ) :
    Consumes (Login.recvUsername length : Prog (Table.Connection Db) (ℤ × Bytes)) :=
  (Consumes.recvInt _ _).bind fun _ => .bind (.read _) fun _ =>
    .bind (shrinks_compositional.extract _) fun _ => shrinks_compositional.pure _

/-- What `login` does with the name that it has read. -/
theorem lookup_rule {P : Prog (Table.Connection Db) (Login.ServerAt × List Bytes) → Prop}
    (hthrow : ∀ what, P (Prog.throw what)) (hpure : ∀ r, P (pure r)) (username : Bytes) (length : ℤ)
    (c : Table.Connection Db) :
    P (match env.lookup.password c.current.users username with
      | .error what => Prog.throw what
      | .ok (some actualPassword) =>
        pure (.checking username actualPassword length [], [Login.flagBytes 1])
      | .ok none => pure (.signingUp username length, [Login.flagBytes 0])) := by
  split
  · exact hthrow _
  · exact hpure _
  · exact hpure _

/-- What `login` does with a password that it has read. -/
theorem verdict_rule {P : Prog (Table.Connection Db) (Login.ServerAt × List Bytes) → Prop}
    (hpure : ∀ r, P (pure r)) (username actualPassword password : Bytes) (length : ℤ) :
    P (if actualPassword = password then pure (.entered username, [Login.flagBytes 1])
      else pure (.checking username actualPassword length password, [Login.flagBytes 0])) := by
  split
  · exact hpure _
  · exact hpure _

/-- Every round reads a number first. -/
theorem consumes_server (point : Login.ServerAt) : Consumes (Login.server env point) := by
  cases point with
  | connected =>
    exact (consumes_recvUsername _).bind fun r => .bind shrinks_compositional.getWorld fun c =>
      lookup_rule shrinks_compositional.throw shrinks_compositional.pure r.2 r.1 c
  | signingUp username length =>
    exact (consumes_recvText _ _).bind fun _ => .bind (shrinks_compositional.act _ _) fun _ =>
      shrinks_compositional.pure _
  | checking username actualPassword length password =>
    exact (consumes_recvText _ _).bind fun r =>
      verdict_rule shrinks_compositional.pure username actualPassword r.2 r.1
  | entered username =>
    intro s a s' h
    cases h
  | failed =>
    intro s a s' h
    cases h

/-- The points at which `login` reads. -/
def reads : Login.ServerAt → Prop
  | .entered _ | .failed => False
  | _ => True

theorem halts_server {point : Login.ServerAt} (h : reads point) : Halts (Login.server env point) := by
  cases point with
  | connected =>
    exact .bind (composed_recvUsername halts_compositional _) fun r =>
      .bind halts_compositional.getWorld fun c => lookup_rule .throw .pure r.2 r.1 c
  | signingUp username length =>
    exact .bind (composed_recvText halts_compositional _ _) fun _ =>
      .bind (halts_compositional.act _ _) fun _ => .pure _
  | checking username actualPassword length password =>
    exact .bind (composed_recvText halts_compositional _ _) fun r =>
      verdict_rule .pure username actualPassword r.2 r.1
  | entered username => exact absurd h id
  | failed => exact absurd h id

/-- What a round of `login` does when it returns; a password is what the variable held, or it was
sent. -/
inductive Moves (env : Login.Env) (unread : Bytes) (c : Table.Connection Db) :
    Login.ServerAt → Login.ServerAt → Table.Connection Db → Prop where
  | known (username actualPassword : Bytes) (length : ℤ)
      (hlookup : env.lookup.password c.current.users username = .ok (some actualPassword)) :
      Moves env unread c .connected (.checking username actualPassword length []) c
  | unknown (username : Bytes) (length : ℤ) :
      Moves env unread c .connected (.signingUp username length) c
  | signedUp (username password : Bytes) (length length' : ℤ) (c' : Table.Connection Db)
      (hsent : password = [] ∨ password <:+: unread)
      (hcreate : createNewUser env.codes username password c = (true, c')) :
      Moves env unread c (.signingUp username length) (.checking username password length' password)
        c'
  | accepted (username actualPassword old : Bytes) (length : ℤ)
      (hsent : actualPassword = old ∨ actualPassword <:+: unread) :
      Moves env unread c (.checking username actualPassword length old) (.entered username) c
  | refused (username actualPassword old password : Bytes) (length length' : ℤ)
      (hsent : password = old ∨ password <:+: unread) :
      Moves env unread c (.checking username actualPassword length old)
        (.checking username actualPassword length' password) c

theorem draws_recvText (length : ℤ) (old : Bytes) :
    Draws (Login.recvText length old : Prog (Table.Connection Db) (ℤ × Bytes)) :=
  .bind (.recvInt _ _) fun _ => .bind (.recvLine _ _) fun _ => .pure _

theorem draws_server (point : Login.ServerAt) : Draws (Login.server env point) := by
  cases point with
  | connected =>
    have husername : Draws (Login.recvUsername env.uninit :
        Prog (Table.Connection Db) (ℤ × Bytes)) :=
      .bind (.recvInt _ _) fun _ => .bind (.read _) fun _ =>
        .bind (.extract (Istream.getWord_suffix [])) fun _ => .pure _
    exact .bind husername fun r => .bind .getWorld fun c => lookup_rule .throw .pure r.2 r.1 c
  | signingUp username length =>
    exact .bind (draws_recvText _ _) fun _ => .bind (.act _ _) fun _ => .pure _
  | checking username actualPassword length password =>
    exact .bind (draws_recvText _ _) fun r => verdict_rule .pure username actualPassword r.2 r.1
  | entered username => exact fun _ => List.suffix_refl _
  | failed => exact fun _ => List.suffix_refl _

theorem recvText_within {length length' : ℤ} {old text : Bytes}
    {s s' : Session (Table.Connection Db)}
    (h : Login.recvText length old s = (.returns (length', text), s')) :
    text = old ∨ text <:+: s.unread := by
  obtain ⟨n, s₁, hlength, h⟩ := bind_returns h
  obtain ⟨line, s₂, hline, h⟩ := bind_returns h
  cases h
  have hunread : s₁.unread <:+ s.unread := (Draws.recvInt _ _).returns hlength
  exact (recvLine_within hline).imp_right fun hpart => hpart.trans hunread.isInfix

/-- Reading leaves the connection to the database as it is. -/
theorem steps_recvText (length : ℤ) (old : Bytes) :
    Steps Eq (Login.recvText length old : Prog (Table.Connection Db) (ℤ × Bytes)) :=
  .bind (.recvInt _ _) fun _ => .bind (.recvLine _ _) fun _ => .pure _

theorem steps_recvUsername (length : ℤ) :
    Steps Eq (Login.recvUsername length : Prog (Table.Connection Db) (ℤ × Bytes)) :=
  .bind (.recvInt _ _) fun _ => .bind (.read _) fun _ => .bind (.extract _) fun _ => .pure _

theorem moves_server {point next : Login.ServerAt} {messages : List Bytes}
    {s s' : Session (Table.Connection Db)}
    (h : Login.server env point s = (.returns (next, messages), s')) :
    Moves env s.unread s.world point next s'.world := by
  cases point with
  | connected =>
    obtain ⟨⟨length, username⟩, s₁, hname, h⟩ := bind_returns h
    have hworld : s.world = s₁.world := (steps_recvUsername _).returns hname
    rw [hworld]
    cases hlookup : env.lookup.password s₁.world.current.users username with
    | error what =>
      simp [bind_apply, hlookup, Prog.throw] at h
    | ok found =>
      cases found with
      | some actualPassword =>
        simp only [bind_apply, getWorld_apply, hlookup, pure_apply, Prod.mk.injEq] at h
        obtain ⟨hnext, rfl⟩ := h
        cases hnext
        exact .known username actualPassword length hlookup
      | none =>
        simp only [bind_apply, getWorld_apply, hlookup, pure_apply, Prod.mk.injEq] at h
        obtain ⟨hnext, rfl⟩ := h
        cases hnext
        exact .unknown username length
  | signingUp username length =>
    obtain ⟨⟨length', password⟩, s₁, htext, h⟩ := bind_returns h
    obtain ⟨_, s₂, hact, h⟩ := bind_returns h
    have hworld : s.world = s₁.world := (steps_recvText _ _).returns htext
    cases h
    obtain ⟨hok, rfl⟩ := Prod.mk.inj hact
    rw [hworld]
    refine .signedUp username password length length' _ (recvText_within htext) (Prod.ext ?_ rfl)
    by_contra hfailed
    rw [if_neg hfailed] at hok
    cases hok
  | checking username actualPassword length old =>
    obtain ⟨⟨length', password⟩, s₁, htext, h⟩ := bind_returns h
    have hworld : s.world = s₁.world := (steps_recvText _ _).returns htext
    have hsent := recvText_within htext
    rw [hworld]
    by_cases hsame : actualPassword = password
    · simp only [hsame, if_true, pure_apply, Prod.mk.injEq] at h
      obtain ⟨hnext, rfl⟩ := h
      cases hnext
      exact .accepted username actualPassword old length (hsame ▸ hsent)
    · simp only [hsame, if_false, pure_apply, Prod.mk.injEq] at h
      obtain ⟨hnext, rfl⟩ := h
      cases hnext
      exact .refused username actualPassword old password length length' hsent
  | entered username => cases h
  | failed => cases h

/-- However a round ends, only a sign-up has touched the connection. -/
theorem world_server (point : Login.ServerAt) (s : Session (Table.Connection Db)) :
    (Login.server env point s).2.world = s.world ∨ ∃ username length password,
      point = .signingUp username length ∧ (Login.server env point s).2.world =
        (createNewUser env.codes username password s.world).2 := by
  cases point with
  | connected =>
    have hsteps : Steps Eq (Login.server env .connected) :=
      .bind (steps_recvUsername _) fun r => .bind .getWorld fun c =>
        lookup_rule .throw .pure r.2 r.1 c
    exact Or.inl (hsteps s).symm
  | signingUp username length =>
    have hworld := steps_recvText length [] s
    have hserver : Login.server env (.signingUp username length) =
        Login.recvText length [] >>= fun r =>
          act "SQLITE error" (createNewUser env.codes username r.2) >>= fun _ =>
            pure (.checking username r.2 r.1 r.2, []) := rfl
    rw [hserver, bind_apply]
    cases htext : Login.recvText length [] s with
    | mk o s₁ =>
      rw [htext] at hworld
      cases o with
      | returns r =>
        obtain ⟨length', password⟩ := r
        refine Or.inr ⟨username, length, password, rfl, ?_⟩
        rw [hworld]
        exact act_bind_world _ _ _ s₁
      | throws what => exact Or.inl hworld.symm
      | waits => exact Or.inl hworld.symm
  | checking username actualPassword length old =>
    have hsteps : Steps Eq (Login.server env (.checking username actualPassword length old)) :=
      .bind (steps_recvText _ _) fun r => verdict_rule .pure username actualPassword r.2 r.1
    exact Or.inl (hsteps s).symm
  | entered username => exact Or.inl rfl
  | failed => exact Or.inl rfl

end Login

/-- A password that a peer which has sent these bytes can have given. -/
def Offered (sent password : Bytes) : Prop := password = [] ∨ password <:+: sent

/-- The password that is asked for: that of a known user, or that of the sign-up of this session. -/
def Identified (env : Login.Env) (db : Db) (username actualPassword : Bytes)
    (c : Table.Connection Db) : Prop :=
  env.lookup.password db.users username = .ok (some actualPassword) ∧ c = ⟨db, none⟩ ∨
    createNewUser env.codes username actualPassword ⟨db, none⟩ = (true, c)

/-- A login that has returned. -/
def Admitted (env : Login.Env) (db : Db) (sent username : Bytes) (c : Table.Connection Db) : Prop :=
  ∃ actualPassword, Offered sent actualPassword ∧ Identified env db username actualPassword c

/-- Nothing has been written, or a sign-up was tried. -/
def Touched (env : Login.Env) (db : Db) (c : Table.Connection Db) : Prop :=
  c = ⟨db, none⟩ ∨ ∃ username password, c = (createNewUser env.codes username password ⟨db, none⟩).2

/-- What holds at the points of `login`. -/
def Stands (env : Login.Env) (db : Db) (sent : Bytes) :
    Login.ServerAt → Table.Connection Db → Prop
  | .connected, c => c = ⟨db, none⟩
  | .signingUp _ _, c => c = ⟨db, none⟩
  | .checking username actualPassword _ password, c =>
    Offered sent password ∧ Identified env db username actualPassword c
  | .entered username, c => Admitted env db sent username c
  | .failed, _ => False

section Gate

variable {env : Login.Env} {db : Db} {sent unread : Bytes} {c c' : Table.Connection Db}
  {point next : Login.ServerAt}

theorem Offered.of_unread {password old : Bytes} (hunread : unread <:+ sent) (hold : Offered sent old)
    (h : password = old ∨ password <:+: unread) : Offered sent password := by
  rcases h with rfl | hpart
  · exact hold
  · exact Or.inr (hpart.trans hunread.isInfix)

theorem Stands.moves (h : Stands env db sent point c) (hunread : unread <:+ sent)
    (hmoves : Moves env unread c point next c') : Stands env db sent next c' := by
  cases hmoves with
  | known username actualPassword length hlookup =>
    have hc : c = ⟨db, none⟩ := h
    refine ⟨Or.inl rfl, Or.inl ⟨?_, hc⟩⟩
    rwa [hc] at hlookup
  | unknown username length => exact h
  | signedUp username password length length' c' hsent hcreate =>
    have hc : c = ⟨db, none⟩ := h
    rw [hc] at hcreate
    exact ⟨.of_unread hunread (Or.inl rfl) hsent, Or.inr hcreate⟩
  | accepted username actualPassword old length hsent =>
    exact ⟨actualPassword, .of_unread hunread h.1 hsent, h.2⟩
  | refused username actualPassword old password length length' hsent =>
    exact ⟨.of_unread hunread h.1 hsent, h.2⟩

theorem Identified.touched {username actualPassword : Bytes}
    (h : Identified env db username actualPassword c) : Touched env db c := by
  rcases h with ⟨-, hc⟩ | hcreate
  · exact Or.inl hc
  · exact Or.inr ⟨username, actualPassword, by rw [hcreate]⟩

theorem Stands.touched (h : Stands env db sent point c) : Touched env db c := by
  cases point with
  | connected => exact Or.inl h
  | signingUp username length => exact Or.inl h
  | checking username actualPassword length password => exact h.2.touched
  | entered username =>
    obtain ⟨actualPassword, -, hidentified⟩ := h
    exact hidentified.touched
  | failed => exact absurd h id

/-- A round that does not return may have tried a sign-up. -/
theorem Stands.touched_server {s : Session (Table.Connection Db)}
    (h : Stands env db sent point s.world) :
    Touched env db (Login.server env point s).2.world := by
  rcases @world_server env point s with hworld | ⟨username, length, password, rfl, hworld⟩
  · rw [hworld]
    exact h.touched
  · have hc : s.world = ⟨db, none⟩ := h
    rw [hworld, hc]
    exact Or.inr ⟨username, password, rfl⟩

end Gate

section Session

variable {env : ServiceEnv} {s s' : Session Service} {point : Login.ServerAt}

theorem loginRound_eq (point : Login.ServerAt) : loginRound env point =
    onConnection (Login.server env.login point) >>= fun r =>
      write r.2 >>= fun _ => pure (goesOn r.1) := rfl

theorem consumes_loginRound (point : Login.ServerAt) : Consumes (loginRound env point) := by
  rw [loginRound_eq]
  exact (consumes_server point).zoom.bind fun _ => .bind (shrinks_compositional.modifyWorld _) fun _ =>
    shrinks_compositional.pure _

/-- A round of `login` in the world of the handler. -/
theorem loginRound_cases {o : Outcome (Login.ServerAt ⊕ Bytes)}
    (h : loginRound env point s = (o, s')) :
    s'.world.connection =
        (Login.server env.login point (s.within s.world.connection)).2.world ∧
      s'.unread <:+ s.unread ∧ s'.closed =
        (Login.server env.login point (s.within s.world.connection)).2.closed ∧
      ∀ x, o = .returns x → ∃ next, x = goesOn next ∧
        Moves env.login s.unread s.world.connection point next s'.world.connection := by
  rw [loginRound_eq, bind_apply] at h
  have hunread := @draws_server env.login point (s.within s.world.connection)
  have hmoves : ∀ next messages s₁, Login.server env.login point (s.within s.world.connection) =
      (.returns (next, messages), s₁) → Moves env.login s.unread s.world.connection point next
        s₁.world := fun _ _ _ hrun => moves_server hrun
  unfold onConnection zoom at h
  cases hrun : Login.server env.login point (s.within s.world.connection) with
  | mk o₁ s₁ =>
    rw [hrun] at hunread
    have hrun' : Login.server env.login point ⟨s.wire, s.closed, s.stream, s.world.connection⟩ =
      (o₁, s₁) := hrun
    rw [hrun'] at h
    cases o₁ with
    | returns r =>
      obtain ⟨next, messages⟩ := r
      cases h
      refine ⟨rfl, hunread, rfl, fun x hx => ?_⟩
      cases hx
      exact ⟨next, rfl, hmoves next messages s₁ hrun⟩
    | throws what =>
      cases h
      exact ⟨rfl, hunread, rfl, fun x hx => by cases hx⟩
    | waits =>
      cases h
      exact ⟨rfl, hunread, rfl, fun x hx => by cases hx⟩

/-- Past the login is only who has given the password of a known user or of the sign-up; a sign-up is
all that a login writes. -/
theorem login_gate {db : Db} {sent : Bytes} (hconnection : s.world.connection = ⟨db, none⟩)
    (hsent : s.unread = sent) :
    Touched env.login db (login env s).2.world.connection ∧
      ∀ username, (login env s).1 = .returns username →
        Admitted env.login db sent username (login env s).2.world.connection := by
  have hwhole : ∀ {b : Login.ServerAt} {s s' : Session Service} {o : Outcome (Login.ServerAt ⊕ Bytes)},
      Stands env.login db sent b s.world.connection → loginRound env b s = (o, s') →
        Touched env.login db s'.world.connection := by
    intro b s s' o hstands hround
    rw [(loginRound_cases hround).1]
    exact Stands.touched_server (s := s.within s.world.connection) hstands
  refine loop_rule (@consumes_loginRound env)
    (I := fun b s => Stands env.login db sent b s.world.connection ∧ s.unread <:+ sent)
    (Q := fun o s' => Touched env.login db s'.world.connection ∧ ∀ username, o = .returns username →
      Admitted env.login db sent username s'.world.connection) ?_ ?_ ?_ ?_
    ⟨hconnection, hsent ▸ List.suffix_refl _⟩
  · intro b s b' s' ⟨hstands, hunread⟩ hround
    obtain ⟨-, hleft, -, hmoves⟩ := loginRound_cases hround
    obtain ⟨next, hnext, hmove⟩ := hmoves _ rfl
    have hthere : Stands env.login db sent next s'.world.connection := hstands.moves hunread hmove
    refine ⟨?_, hleft.trans hunread⟩
    cases next <;> cases hnext <;> exact hthere
  · intro b s username s' ⟨hstands, hunread⟩ hround
    obtain ⟨-, -, -, hmoves⟩ := loginRound_cases hround
    obtain ⟨next, hnext, hmove⟩ := hmoves _ rfl
    have hthere : Stands env.login db sent next s'.world.connection := hstands.moves hunread hmove
    refine ⟨hwhole hstands hround, fun name hname => ?_⟩
    cases hname
    cases next <;> cases hnext
    exact hthere
  · intro b s what s' ⟨hstands, _⟩ hround
    exact ⟨hwhole hstands hround, fun username h => by cases h⟩
  · intro b s s' ⟨hstands, _⟩ hround
    exact ⟨hwhole hstands hround, fun username h => by cases h⟩

theorem reads_of_goesOn {unread : Bytes} {c c' : Table.Connection Db} {next b : Login.ServerAt}
    (hmove : Moves env.login unread c point next c') (hgo : .inl b = goesOn next) : reads b := by
  cases hmove <;> cases hgo <;> exact trivial

/-- The rounds of `login` come to an end with the bytes of the peer. -/
theorem halts_login : Halts (login env) := by
  have hround : ∀ {b : Login.ServerAt}, reads b → Halts (loginRound env b) := by
    intro b hb
    rw [loginRound_eq]
    exact .bind (halts_server hb).zoom fun _ => .bind (.modifyWorld _) fun _ => .pure _
  have hends : ∀ {b : Login.ServerAt} {s s' : Session Service} {o : Outcome (Login.ServerAt ⊕ Bytes)},
      reads b → s.closed = true → loginRound env b s = (o, s') → s'.closed = true ∧ o ≠ .waits := by
    intro b s s' o hb hs hrun
    have hhalts := hround hb s hs
    rwa [hrun] at hhalts
  intro s hs
  refine loop_rule (@consumes_loginRound env)
    (I := fun b s => reads b ∧ s.closed = true)
    (Q := fun o s' => s'.closed = true ∧ o ≠ .waits) ?_ ?_ ?_ ?_ ⟨trivial, hs⟩
  · intro b s b' s' ⟨hb, hs⟩ hrun
    obtain ⟨-, -, -, hmoves⟩ := loginRound_cases hrun
    obtain ⟨next, hnext, hmove⟩ := hmoves _ rfl
    exact ⟨reads_of_goesOn hmove hnext, (hends hb hs hrun).1⟩
  · intro b s username s' ⟨hb, hs⟩ hrun
    exact ⟨(hends hb hs hrun).1, by simp⟩
  · intro b s what s' ⟨hb, hs⟩ hrun
    exact ⟨(hends hb hs hrun).1, by simp⟩
  · intro b s s' ⟨hb, hs⟩ hrun
    exact absurd rfl (hends hb hs hrun).2

theorem halts_closeSocket : Halts (closeSocket env) := .tryCatch (.act _ _) fun _ => .pure _

theorem halts_actionHandler (username : Bytes) : Halts (actionHandler env username) :=
  .bind (.tryCatch (.bind halts_compositional.getWorld fun _ => (halts_readActionLoop _).zoom)
    fun _ => .pure _) fun _ => halts_closeSocket

theorem halts_start : Halts (start env) := by
  refine .tryCatch (.bind halts_login fun username => .bind ?_ fun _ => halts_actionHandler username)
    fun _ => halts_closeSocket
  refine .bind halts_compositional.getWorld fun w => ?_
  split
  · exact .throw _
  · exact .modifyWorld _

/-- Closing the socket does not throw. -/
theorem closeSocket_apply (s : Session Service) : closeSocket env s =
    (.returns (), { s with world := { s.world with isOpen := s.world.isOpen && !env.shutdown } }) := by
  have hact : act "shutdown" (fun w : Service =>
      (env.shutdown, { w with isOpen := w.isOpen && !env.shutdown })) s =
    (if env.shutdown then .returns () else .throws "shutdown",
      { s with world := { s.world with isOpen := s.world.isOpen && !env.shutdown } }) := rfl
  unfold closeSocket Prog.tryCatch
  rw [hact]
  cases env.shutdown <;> rfl

/-- Nothing is thrown by the thread of a session, and it closes the socket. -/
theorem actionHandler_ends (username : Bytes) {o : Outcome Unit}
    (h : actionHandler env username s = (o, s')) :
    (∀ what, o ≠ .throws what) ∧
      (o = .returns () → env.shutdown = true → s'.world.isOpen = false) := by
  unfold actionHandler at h
  rw [bind_apply] at h
  unfold Prog.tryCatch at h
  cases hactions : actions env username s with
  | mk o₁ s₁ =>
    rw [hactions] at h
    cases o₁ with
    | returns u =>
      dsimp only at h
      rw [closeSocket_apply] at h
      cases h
      exact ⟨by simp, fun _ hshutdown => by simp [hshutdown]⟩
    | throws what =>
      dsimp only [pure_apply] at h
      rw [closeSocket_apply] at h
      cases h
      exact ⟨by simp, fun _ hshutdown => by simp [hshutdown]⟩
    | waits =>
      cases h
      exact ⟨by simp, fun hreturns => by cases hreturns⟩

/-- Nor is anything thrown by `start`. -/
theorem start_ends {o : Outcome Unit} (h : start env s = (o, s')) :
    (∀ what, o ≠ .throws what) ∧
      (o = .returns () → env.shutdown = true → s'.world.isOpen = false) := by
  unfold start Prog.tryCatch at h
  cases hbody : (login env >>= fun username => sendFileHash env username >>= fun _ =>
      actionHandler env username) s with
  | mk o₁ s₁ =>
    rw [hbody] at h
    cases o₁ with
    | returns u =>
      cases h
      obtain ⟨username, s₂, -, hrest⟩ := bind_returns hbody
      obtain ⟨_, s₃, -, hhandler⟩ := bind_returns hrest
      exact actionHandler_ends username hhandler
    | throws what =>
      have hclose : closeSocket env s₁ = (o, s') := h
      rw [closeSocket_apply] at hclose
      cases hclose
      exact ⟨by simp, fun _ hshutdown => by simp [hshutdown]⟩
    | waits =>
      cases h
      exact ⟨by simp, fun hreturns => by cases hreturns⟩

/-- Whatever the peer sends and the database does, no exception leaves the session; when it is over,
its socket has been closed; and it is over once the peer has closed its end. -/
theorem session_ends (env : ServiceEnv) (db : Db) (wire : Bytes) (closed : Bool) :
    (∀ what, (serve env db wire closed).1 ≠ .throws what) ∧
      ((serve env db wire closed).1 = .returns () → env.shutdown = true →
        (serve env db wire closed).2.world.isOpen = false) ∧
      (closed = true → (serve env db wire closed).1 = .returns ()) := by
  obtain ⟨hthrows, hclosed⟩ := @start_ends env (accepted db wire closed) _ _ rfl
  refine ⟨hthrows, hclosed, fun hpeer => ?_⟩
  have hwaits := (@halts_start env (accepted db wire closed) hpeer).2
  unfold serve
  cases hrun : (start env (accepted db wire closed)).1 with
  | returns u => rfl
  | throws what => exact absurd hrun (hthrows what)
  | waits => exact absurd hrun hwaits

end Session
end Service
end BackupManager.Protocol
