import BackupManager.ByteStream.IsoDate
import BackupManager.Client.SendAction
import BackupManager.Protocol.Guarded

/-! What a user's table holds after any number of sessions: the calls of `addAction` that were made in
them, each with the date of its day, so that a restore of a day means the calendar. -/
namespace BackupManager.Server
open ByteStream Protocol Table Connection

/-- The tables of a database that a login may leave: those of before, and perhaps a new one. -/
def Opens (db d : Db) : Prop :=
  d.tables = db.tables ∨ ∃ username, db.tables (tableKey username) = none ∧
    d.tables = Function.update db.tables (tableKey username) (some .empty)

/-- The tables that the calls of a log leave; a call stands with the name of its user. -/
def callsFor (log : List (Bytes × AddAction)) (username : Bytes) : List AddAction :=
  (log.filter fun e => tableKey e.1 = tableKey username).map Prod.snd

/-- Every table is what the calls of the log have made of an empty one. -/
def Logged (db : Db) (log : List (Bytes × AddAction)) : Prop :=
  ∀ username, match db.tables (tableKey username) with
    | none => callsFor log username = []
    | some table => addActions .empty (callsFor log username) = some table

section Log

variable {db d : Db} {log : List (Bytes × AddAction)}

theorem callsFor_append (log log' : List (Bytes × AddAction)) (username : Bytes) :
    callsFor (log ++ log') username = callsFor log username ++ callsFor log' username := by
  rw [callsFor, List.filter_append, List.map_append]
  rfl

theorem logged_emptyDb : Logged emptyDb [] := fun _ => rfl

theorem Logged.opens (h : Logged db log) (hopens : Opens db d) : Logged d log := by
  intro username
  rcases hopens with htables | ⟨newUser, hfree, htables⟩
  · rw [htables]
    exact h username
  · rw [htables]
    by_cases hkey : tableKey username = tableKey newUser
    · have hcalls := h username
      rw [hkey, hfree] at hcalls
      rw [hkey, Function.update_self, hcalls]
      rfl
    · rw [Function.update_of_ne hkey]
      exact h username

/-- A call that is made on the table of its user. -/
theorem Logged.addAction (h : Logged db log) {username : Bytes} {c : AddAction}
    (hadd : db.addAction username c = some d) : Logged d (log ++ [(username, c)]) := by
  obtain ⟨table, htable, hrest⟩ := Option.bind_eq_some_iff.mp hadd
  obtain ⟨table', htable', rfl⟩ := Option.map_eq_some_iff.mp hrest
  intro u
  rw [callsFor_append]
  by_cases hkey : tableKey u = tableKey username
  · have hcalls := h u
    rw [hkey, htable] at hcalls
    have hone : callsFor [(username, c)] u = [c] := by simp [callsFor, hkey]
    rw [hone]
    simp only [hkey, Function.update_self]
    rw [addActions, List.foldlM_append]
    rw [addActions] at hcalls
    rw [hcalls]
    simpa using htable'
  · have hnone : callsFor [(username, c)] u = [] := by
      rw [callsFor, List.filter_cons_of_neg (by simpa using Ne.symm hkey)]
      rfl
    rw [hnone, List.append_nil]
    simp only [Function.update_of_ne hkey]
    exact h u

/-- What a sign-up leaves, committed or in a transaction. -/
theorem opens_createNewUser (codes : SignUpCodes) (username password : Bytes) (db : Db) :
    let c := (createNewUser codes username password ⟨db, none⟩).2
    Opens db c.committed ∧ Opens db c.current := by
  have hsame : Opens db db := .inl rfl
  have huser : Opens db (db.addUser username password) := .inl rfl
  have hregister : codes.Creates username (db.addUser username password) →
      Opens db (db.register username password) := fun h => .inr ⟨username, h.free, rfl⟩
  by_cases hbegin : codes.begin = .ok
  · obtain ⟨hsucceeds, hfails⟩ := createNewUser_begun codes username password hbegin db
    by_cases hboth : codes.Inserts ∧ codes.Creates username (db.addUser username password)
    · rw [hsucceeds hboth]
      cases codes.commit with
      | ok => exact ⟨hregister hboth.2, hregister hboth.2⟩
      | error aborts => cases aborts <;> exact ⟨hsame, by first | exact hregister hboth.2 | exact hsame⟩
    · rw [hfails hboth]
      exact ⟨hsame, hsame⟩
  · obtain ⟨hsucceeds, hkeeps, hfails⟩ := createNewUser_autocommit codes username password hbegin db
    by_cases hinsert : codes.Inserts
    · by_cases hcreate : codes.Creates username (db.addUser username password)
      · rw [hsucceeds hinsert hcreate]
        exact ⟨hregister hcreate, hregister hcreate⟩
      · rw [hkeeps hinsert hcreate]
        exact ⟨huser, huser⟩
    · rw [hfails hinsert]
      exact ⟨hsame, hsame⟩

end Log

/-- The last call on a file among those made on its latest admitted day. -/
def LastAmong (admits : Date → Prop) (calls : List AddAction) (filename : Bytes) (c : AddAction) : Prop :=
  ∃ today before after, admits today ∧ calls = before ++ c :: after ∧ c.filename = filename ∧
    c.timestamp = today.iso ∧ ∀ e, admits e → ∀ c', c'.filename = filename → c'.timestamp = e.iso →
      (c' ∈ before → e ≤ today) ∧ (c' ∈ after → e < today)

theorem getLast?_filter_eq_some_iff {α : Type} {p : α → Bool} {l : List α} {a : α} :
    (l.filter p).getLast? = some a ↔
      ∃ before after, l = before ++ a :: after ∧ p a = true ∧ ∀ x ∈ after, p x = false := by
  rw [List.getLast?_eq_head?_reverse, ← List.filter_reverse, List.head?_filter,
    List.find?_eq_some_iff_append]
  constructor
  · rintro ⟨ha, after, before, hl, hafter⟩
    refine ⟨before.reverse, after.reverse, ?_, ha, fun x hx => ?_⟩
    · simpa using congrArg List.reverse hl
    · simpa using hafter x (List.mem_reverse.mp hx)
  · rintro ⟨before, after, rfl, ha, hafter⟩
    refine ⟨ha, after.reverse, before.reverse, by simp, fun x hx => ?_⟩
    simpa using hafter x (List.mem_reverse.mp hx)

section Calendar

variable {calls : List AddAction} {filename : Bytes} {c : AddAction}

/-- The greatest text is that of the latest day. -/
theorem lastCall_eq_some_iff (hdated : ∀ c ∈ calls, ∃ today : Date, c.timestamp = today.iso)
    {admits : Bytes → Bool} {admitted : Date → Prop}
    (hadmits : ∀ e : Date, admits e.iso = true ↔ admitted e) :
    lastCall calls admits filename = some c ↔ LastAmong admitted calls filename c := by
  have hon : ∀ {c' : AddAction} {e : Date}, c' ∈ calls → c'.filename = filename →
      c'.timestamp = e.iso → admitted e → c' ∈ callsOn calls admits filename := by
    intro c' e hc' hname hday he
    exact mem_callsOn.mpr ⟨hc', hname, hday ▸ (hadmits e).mpr he⟩
  unfold lastCall
  rw [callsOn, List.filter_filter, getLast?_filter_eq_some_iff]
  simp only [Bool.and_eq_true, Bool.and_eq_false_iff, decide_eq_true_eq, decide_eq_false_iff_not,
    List.all_eq_true]
  constructor
  · rintro ⟨before, after, hcalls, ⟨hgreatest, hname, hadmit⟩, hafter⟩
    obtain ⟨today, htoday⟩ := hdated c (by simp [hcalls])
    refine ⟨today, before, after, (hadmits today).mp (htoday ▸ hadmit), hcalls, hname, htoday, ?_⟩
    intro e he c' hname' hday'
    have hle : c' ∈ calls → e ≤ today := by
      intro hc'
      have hbytes := hgreatest c' (hon hc' hname' hday' he)
      rw [hday', htoday] at hbytes
      exact Date.iso_le_iso.mp hbytes
    refine ⟨fun hc' => hle (by simp [hcalls, hc']), fun hc' => ?_⟩
    refine lt_of_le_of_ne (hle (by simp [hcalls, hc'])) ?_
    rintro rfl
    rcases hafter c' hc' with hless | hout
    · refine absurd ?_ (Bool.eq_false_iff.mp hless)
      simp only [List.all_eq_true, decide_eq_true_eq]
      intro c'' hc''
      rw [hday', ← htoday]
      exact hgreatest c'' hc''
    · exact hout ⟨hname', hday' ▸ (hadmits e).mpr he⟩
  · rintro ⟨today, before, after, htoday, hcalls, hname, hday, hothers⟩
    have hadmit : admits c.timestamp = true := hday ▸ (hadmits today).mpr htoday
    refine ⟨before, after, hcalls, ⟨fun c' hc' => ?_, hname, hadmit⟩, fun c' hc' => ?_⟩
    · obtain ⟨hmem, hname', hadmit'⟩ := mem_callsOn.mp hc'
      obtain ⟨e, he⟩ := hdated c' hmem
      have hother := hothers e ((hadmits e).mp (he ▸ hadmit')) c' hname' he
      rw [hday, he]
      refine Date.iso_le_iso.mpr ?_
      rw [hcalls, List.mem_append, List.mem_cons] at hmem
      rcases hmem with hbefore | rfl | hafter
      · exact hother.1 hbefore
      · exact (Date.iso_injective (he.symm.trans hday)).le
      · exact (hother.2 hafter).le
    · by_contra hno
      rw [not_or, not_not] at hno
      obtain ⟨hgreatest, hname', hadmit'⟩ := hno
      rw [Bool.not_eq_false] at hgreatest
      simp only [List.all_eq_true, decide_eq_true_eq] at hgreatest
      have hmem : c' ∈ calls := by simp [hcalls, hc']
      obtain ⟨e, he⟩ := hdated c' hmem
      have hlater := (hothers e ((hadmits e).mp (he ▸ hadmit')) c' hname' he).2 hc'
      have hbytes := hgreatest c (hon (by simp [hcalls]) hname hday htoday)
      rw [he, hday] at hbytes
      exact absurd (Date.iso_le_iso.mp hbytes) hlater.not_ge

end Calendar
end BackupManager.Server

namespace BackupManager.Protocol.Service
open ByteStream Server Table Connection Prog

/-! Every call in the trace of a handler has the date of the day on which it was made. -/

section Dated

variable (b : Backend)

/-- The date is one that the clock has shown. -/
def Dated (c : AddAction) : Prop := ∃ past, c.timestamp = b.localDay past

/-- The trace is added to, and the calls that are added are dated. -/
def AddsDated (trace trace' : List Effect) : Prop :=
  ∃ effects, trace' = trace ++ effects ∧ ∀ c, .addAction c ∈ effects → Dated b c

local instance : Std.Refl (AddsDated b) := ⟨fun _ => ⟨[], (List.append_nil _).symm, by simp⟩⟩

local instance : IsTrans (List Effect) (AddsDated b) where
  trans := by
    rintro _ _ _ ⟨effects, rfl, h⟩ ⟨effects', rfl, h'⟩
    refine ⟨effects ++ effects', List.append_assoc _ _ _, fun c hc => ?_⟩
    exact (List.mem_append.mp hc).elim (h c) (h' c)

theorem adds_emit {e : Effect} (h : ∀ c, e = .addAction c → Dated b c) :
    Steps (AddsDated b) (emit e) :=
  .modifyWorld fun _ => ⟨[e], rfl, fun c hc => h c (List.mem_singleton.mp hc).symm⟩

theorem adds_respond (index : ℤ) (status : ActionStatus) :
    Steps (AddsDated b) (sendResponseToClient index status) := adds_emit b (by simp)

theorem adds_store {c : AddAction} (h : Dated b c) (index : ℤ) :
    Steps (AddsDated b) (do callAddAction b c; sendResponseToClient index .completed) := by
  have hcall : Steps (AddsDated b) (emit (.addAction c)) := adds_emit b fun c' hc' => by
    cases hc'
    exact h
  refine .bind (.bind .getWorld fun _ => .bind hcall fun _ => ?_) fun _ => adds_respond b _ _
  split
  · exact .pure _
  · exact .throw _

theorem adds_actionReadFile (path : Bytes) (index : ℤ) {time : Bytes} (past : List Effect)
    (htime : time = b.localDay past) (lastWriteTime permissions : Bytes) :
    Steps (AddsDated b) (actionReadFile b path index time lastWriteTime permissions) := by
  unfold actionReadFile
  refine .bind (.recvInt _ _) fun size => .bind (.extract _) fun _ => ?_
  have hrest : Steps (AddsDated b) (do
      let file ← recvChunks maxMsgSize (fun _ => pure ()) size.toNat
      callAddAction b
        (bindFile b (readFileCall b.hash path time lastWriteTime permissions file size))
      sendResponseToClient index .completed) :=
    .bind (.recvChunks (fun _ => .pure _) _) fun _ =>
      adds_store b ⟨past, (timestamp_bindFile b _).trans htime⟩ _
  split
  · exact .bind (.throw _) fun _ => hrest
  · exact hrest

theorem adds_actionRestore (index : ℤ) : Steps (AddsDated b) (actionRestore b index) := by
  unfold actionRestore
  refine .bind (.recvInt _ _) fun _ => .bind (.read _) fun _ => .bind (.extract _) fun _ =>
    .bind (adds_emit b (by simp)) fun _ => .bind .getWorld fun _ =>
      .bind (adds_emit b (by simp)) fun _ => ?_
  split
  · exact .throw _
  · exact .bind (adds_emit b (by simp)) fun _ => adds_respond b _ _

theorem adds_perform (f : Frame) (past : List Effect) :
    Steps (AddsDated b) (perform b f (b.localDay past)) := by
  unfold perform
  split
  · exact .bind (adds_actionReadFile b _ _ past rfl _ _) fun _ => .pure _
  · split
    · exact .bind (adds_store b ⟨past, rfl⟩ _) fun _ => .pure _
    · split
      · exact .bind (adds_store b ⟨past, rfl⟩ _) fun _ => .pure _
      · split
        · exact .pure _
        · split
          · exact .bind (adds_actionRestore b _) fun _ => .pure _
          · exact .throw _

theorem adds_readAction : Steps (AddsDated b) (readAction b) := by
  refine .bind (steps_readFrame b) fun f => .bind (.bind (adds_emit b (by simp)) fun _ => ?_) fun _ =>
    .bind .getWorld fun trace => .tryCatch (adds_perform b f trace) fun _ =>
      .bind (steps_typeName b _) fun _ => .bind (adds_respond b _ _) fun _ => .pure _
  split
  · exact adds_respond b _ _
  · exact adds_respond b _ _

theorem adds_readActionLoop : Steps (AddsDated b) (readActionLoop b) :=
  .loop (fun u => consumes_actionRound b u) (fun _ => .bind (adds_readAction b) fun _ => .pure _) ()

end Dated

section Session

variable (env : ServiceEnv)

/-- The calls of `addAction` that return, in the session of a user. -/
def saved (accepts : List Effect → AddAction → Bool) (username : Bytes) :
    List Effect → Db → List Effect → List AddAction
  | _, _, [] => []
  | trace, db, .addAction c :: rest =>
    (if accepts trace c && (db.addAction username c).isSome then [c] else []) ++
      saved accepts username (trace ++ [.addAction c])
        (applyEffect accepts username trace db (.addAction c)) rest
  | trace, db, e :: rest =>
    saved accepts username (trace ++ [e]) (applyEffect accepts username trace db e) rest

theorem mem_saved {accepts : List Effect → AddAction → Bool} {username : Bytes} {c : AddAction}
    {effects : List Effect} : ∀ {trace : List Effect} {db : Db},
      c ∈ saved accepts username trace db effects → .addAction c ∈ effects := by
  induction effects with
  | nil => exact fun h => absurd h List.not_mem_nil
  | cons e rest ih =>
    intro trace db h
    cases e with
    | addAction c' =>
      rcases List.mem_append.mp h with hhere | hlater
      · split at hhere
        · rw [List.mem_singleton.mp hhere]
          exact List.mem_cons_self
        · exact absurd hhere List.not_mem_nil
      · exact List.mem_cons_of_mem _ (ih hlater)
    | _ => exact List.mem_cons_of_mem _ (ih h)

/-- The calls that return are those that the table has got. -/
theorem logged_applyTrace {accepts : List Effect → AddAction → Bool} {username : Bytes}
    {effects : List Effect} : ∀ {trace : List Effect} {db : Db} {log : List (Bytes × AddAction)},
      Logged db log → Logged (applyTrace accepts username trace db effects)
        (log ++ (saved accepts username trace db effects).map fun c => (username, c)) := by
  induction effects with
  | nil =>
    intro trace db log h
    rw [saved, List.map_nil, List.append_nil]
    exact h
  | cons e rest ih =>
    intro trace db log h
    cases e with
    | addAction c =>
      rw [applyTrace, saved, List.map_append, ← List.append_assoc]
      refine ih ?_
      unfold applyEffect
      cases haccepts : accepts trace c with
      | false => simpa [haccepts] using h
      | true =>
        cases hadd : db.addAction username c with
        | none => simpa [hadd] using h
        | some d => simpa [haccepts, hadd] using h.addAction hadd
    | _ => exact ih h

/-- A session after its login: what its thread has stored is in the database. -/
structure Left (c : Table.Connection Db) (username : Bytes) (w : Service) : Prop where
  connection : w.connection = c.put (stored env username c.current w.trace)
  dated : ∀ a, .addAction a ∈ w.trace → ∃ past, a.timestamp = env.localDay past

variable {env} {s : Session Service}

theorem Left.of_idle {w : Service} (h : w.trace = []) (username : Bytes) :
    Left env w.connection username w := by
  refine ⟨?_, by simp [h]⟩
  rw [h]
  exact (put_current w.connection).symm

theorem left_closeSocket {c : Table.Connection Db} {username : Bytes} (h : Left env c username s.world) :
    Left env c username (closeSocket env s).2.world := by
  rw [closeSocket_apply]
  exact ⟨h.connection, h.dated⟩

variable (env)

theorem left_actions (htrace : s.world.trace = []) (username : Bytes) :
    Left env s.world.connection username (actions env username s).2.world := by
  obtain ⟨effects, heffects, hdated⟩ :=
    adds_readActionLoop (backend env username s.world.connection.current)
      ⟨s.wire, s.closed, s.stream, s.world.trace⟩
  refine ⟨rfl, fun a ha => hdated a ?_⟩
  have hworld : (actions env username s).2.world.trace = s.world.trace ++ effects := heffects
  rwa [hworld, htrace] at ha

theorem left_actionHandler (htrace : s.world.trace = []) (username : Bytes) :
    Left env s.world.connection username (actionHandler env username s).2.world := by
  have hleft := left_actions env htrace username
  unfold actionHandler
  rw [bind_apply]
  unfold Prog.tryCatch
  cases hactions : actions env username s with
  | mk o s₁ =>
    rw [hactions] at hleft
    cases o with
    | returns u => exact left_closeSocket hleft
    | throws what => exact left_closeSocket hleft
    | waits => exact hleft

/-- A part of the handler's world that stays as it is. -/
def Same {γ : Type} (part : Service → γ) (w w' : Service) : Prop := part w = part w'

local instance {γ : Type} (part : Service → γ) : Std.Refl (Same part) := ⟨fun _ => rfl⟩

local instance {γ : Type} (part : Service → γ) : IsTrans Service (Same part) := ⟨fun _ _ _ => Eq.trans⟩

/-- A login has done nothing yet of what the thread does. -/
theorem trace_login (s : Session Service) : s.world.trace = (login env s).2.world.trace :=
  Steps.loop (R := Same Service.trace) consumes_loginRound (fun _ => .bind (.zoom fun _ _ => rfl) fun _ =>
    .bind (.modifyWorld fun _ => rfl) fun _ => .pure _) .connected s

theorem steps_sendFileHash (username : Bytes) :
    Steps (Same fun w => (w.connection, w.trace)) (sendFileHash env username) := by
  refine .bind .getWorld fun w => ?_
  split
  · exact .throw _
  · exact .modifyWorld fun _ => rfl

/-- How a session leaves the database: as the login has left it, or with what the user has stored. -/
theorem left_start (htrace : s.world.trace = []) :
    (∃ username, (login env s).1 = .returns username ∧
        Left env (login env s).2.world.connection username (start env s).2.world) ∨
      (∀ username, (login env s).1 ≠ .returns username) ∧ (start env s).2.world.trace = [] ∧
        (start env s).2.world.connection = (login env s).2.world.connection := by
  have hlogin := trace_login env s
  rw [htrace] at hlogin
  unfold start Prog.tryCatch
  rw [bind_apply]
  cases hrun : login env s with
  | mk o s₁ =>
    rw [hrun] at hlogin
    cases o with
    | throws what =>
      refine .inr ⟨by simp, ?_⟩
      dsimp only
      rw [closeSocket_apply]
      exact ⟨hlogin.symm, rfl⟩
    | waits => exact .inr ⟨by simp, hlogin.symm, rfl⟩
    | returns username =>
      refine .inl ⟨username, rfl, ?_⟩
      dsimp only
      rw [bind_apply]
      cases hsend : sendFileHash env username s₁ with
      | mk o₂ s₂ =>
        have hkeeps := steps_sendFileHash env username s₁
        rw [hsend] at hkeeps
        obtain ⟨hconnection, htrace₂⟩ := Prod.mk.inj hkeeps
        have hstart : s₂.world.trace = [] := htrace₂.symm.trans hlogin.symm
        have hidle : Left env s₁.world.connection username s₂.world :=
          hconnection ▸ .of_idle hstart username
        cases o₂ with
        | throws what => exact left_closeSocket hidle
        | waits => exact hidle
        | returns u =>
          have hleft := left_actionHandler env hstart username
          rw [← hconnection] at hleft
          dsimp only
          cases hhandler : actionHandler env username s₂ with
          | mk o₃ s₃ =>
            rw [hhandler] at hleft
            cases o₃ with
            | returns u => exact hleft
            | waits => exact hleft
            | throws what => exact left_closeSocket hleft

end Session

/-- A session of the server, on days that the clock shows. -/
structure Visit where
  env : ServiceEnv
  today : List Effect → Date
  clock : ∀ past, env.localDay past = (today past).iso
  wire : Bytes
  closed : Bool

namespace Visit

def run (v : Visit) (db : Db) : Outcome Unit × Session Service := serve v.env db v.wire v.closed

/-- The calls of `addAction` that return in the session; those of a transaction that is never committed
are lost when the connection is closed. -/
def stores (v : Visit) (db : Db) : List (Bytes × AddAction) :=
  let r := login v.env (accepted db v.wire v.closed)
  let c := r.2.world.connection
  match r.1, c.pending with
  | .returns username, none =>
    (saved v.env.accepts username [] c.current (v.run db).2.world.trace).map fun a => (username, a)
  | _, _ => []

end Visit

/-- Sessions one after the other. -/
def visits : Db → List Visit → Db
  | db, [] => db
  | db, v :: rest => visits (v.run db).2.world.database rest

def storedIn : Db → List Visit → List (Bytes × AddAction)
  | _, [] => []
  | db, v :: rest => v.stores db ++ storedIn (v.run db).2.world.database rest

section Visits

variable {db : Db} {log : List (Bytes × AddAction)}

theorem opens_touched {env : Login.Env} {c : Table.Connection Db} (h : Touched env db c) :
    Opens db c.committed ∧ Opens db c.current := by
  rcases h with rfl | ⟨username, password, rfl⟩
  · exact ⟨.inl rfl, .inl rfl⟩
  · exact opens_createNewUser env.codes username password db

/-- One more session. -/
theorem logged_run (h : Logged db log) (v : Visit) :
    Logged (v.run db).2.world.database (log ++ v.stores db) := by
  obtain ⟨hcommitted, hcurrent⟩ := opens_touched
    (@login_gate v.env (accepted db v.wire v.closed) db _ rfl rfl).1
  rcases left_start v.env (s := accepted db v.wire v.closed) rfl with
    ⟨username, hlogin, hleft⟩ | ⟨hlogin, -, hconnection⟩
  · have hdatabase : (v.run db).2.world.database =
        ((login v.env (accepted db v.wire v.closed)).2.world.connection.put (stored v.env username
          (login v.env (accepted db v.wire v.closed)).2.world.connection.current
          (v.run db).2.world.trace)).committed :=
      congrArg (fun c : Table.Connection Db => c.rollback.committed) hleft.connection
    rw [hdatabase]
    cases hpending : (login v.env (accepted db v.wire v.closed)).2.world.connection.pending with
    | none =>
      have hstores : v.stores db = (saved v.env.accepts username []
          (login v.env (accepted db v.wire v.closed)).2.world.connection.current
          (v.run db).2.world.trace).map fun a => (username, a) := by
        unfold Visit.stores
        dsimp only
        rw [hlogin, hpending]
      rw [hstores, put_of_none hpending]
      exact logged_applyTrace (h.opens hcurrent)
    | some d =>
      have hstores : v.stores db = [] := by
        unfold Visit.stores
        dsimp only
        rw [hlogin, hpending]
      rw [hstores, List.append_nil]
      unfold put
      rw [hpending]
      exact h.opens hcommitted
  · have hdatabase : (v.run db).2.world.database =
        (login v.env (accepted db v.wire v.closed)).2.world.connection.committed :=
      congrArg (fun c : Table.Connection Db => c.rollback.committed) hconnection
    have hstores : v.stores db = [] := by
      unfold Visit.stores
      dsimp only
      split
      · next hname _ => exact absurd hname (hlogin _)
      · rfl
    rw [hdatabase, hstores, List.append_nil]
    exact h.opens hcommitted

/-- Every call that is kept has the date of a day. -/
theorem dated_stores {v : Visit} {e : Bytes × AddAction} (he : e ∈ v.stores db) :
    ∃ today : Date, e.2.timestamp = today.iso := by
  unfold Visit.stores at he
  dsimp only at he
  split at he
  · next username hlogin _ =>
    obtain ⟨a, ha, rfl⟩ := List.mem_map.mp he
    rcases left_start v.env (s := accepted db v.wire v.closed) rfl with
      ⟨username', -, hleft⟩ | ⟨hno, -, -⟩
    · obtain ⟨past, hpast⟩ := hleft.dated a (mem_saved ha)
      exact ⟨v.today past, hpast.trans (v.clock past)⟩
    · exact absurd hlogin (hno username)
  · exact absurd he List.not_mem_nil

theorem logged_visits (vs : List Visit) : ∀ {db : Db} {log : List (Bytes × AddAction)},
    Logged db log → Logged (visits db vs) (log ++ storedIn db vs) := by
  induction vs with
  | nil =>
    intro db log h
    rw [storedIn, List.append_nil]
    exact h
  | cons v rest ih =>
    intro db log h
    rw [storedIn, ← List.append_assoc]
    exact ih (logged_run h v)

theorem dated_storedIn (vs : List Visit) : ∀ {db : Db} {e : Bytes × AddAction},
    e ∈ storedIn db vs → ∃ today : Date, e.2.timestamp = today.iso := by
  induction vs with
  | nil => exact fun he => absurd he List.not_mem_nil
  | cons v rest ih =>
    intro db e he
    exact (List.mem_append.mp he).elim dated_stores ih

/-- After any sessions, whatever their peers have sent and SQLite has done, the table of a user is what
the calls that returned have made of an empty one. A restore of a day finds for each file the last of
those that were stored on its latest day up to that day, unless it is a deletion; and the status that a
client starts from is that of the latest days. -/
theorem calendar_history (vs : List Visit) (username : Bytes) (table : UserTable)
    (htable : (visits emptyDb vs).tables (tableKey username) = some table) :
    addActions .empty (callsFor (storedIn emptyDb vs) username) = some table ∧
    (∀ (d : Date) (r : Row), r ∈ selectRestore table .deletePath d.iso ↔
      ∃ c, LastAmong (· ≤ d) (callsFor (storedIn emptyDb vs) username) r.filename c ∧
        c.action ≠ .deletePath ∧ r = c.row) ∧
      ∀ r : Row, r ∈ selectInitialization table .deletePath ↔
        ∃ c, LastAmong (fun _ => True) (callsFor (storedIn emptyDb vs) username) r.filename c ∧
          c.action ≠ .deletePath ∧ r = c.row := by
  have hcalls := logged_visits vs logged_emptyDb username
  rw [htable, List.nil_append] at hcalls
  have hdated : ∀ c ∈ callsFor (storedIn emptyDb vs) username,
      ∃ today : Date, c.timestamp = today.iso := by
    intro c hc
    obtain ⟨e, he, rfl⟩ := List.mem_map.mp hc
    exact dated_storedIn vs (List.mem_filter.mp he).1
  have hlast : ∀ (admits : Bytes → Bool) (admitted : Date → Prop),
      (∀ e : Date, admits e.iso = true ↔ admitted e) → ∀ filename c,
        lastCall (callsFor (storedIn emptyDb vs) username) admits filename = some c ↔
          LastAmong admitted (callsFor (storedIn emptyDb vs) username) filename c :=
    fun _ _ hadmits _ _ => lastCall_eq_some_iff hdated hadmits
  refine ⟨hcalls, fun d r => ?_, fun r => ?_⟩
  · rw [mem_selectRestore_iff hcalls]
    simp only [hlast (fun t => decide (t ≤ d.iso)) (· ≤ d)
      fun e => decide_eq_true_iff.trans Date.iso_le_iso]
  · rw [mem_selectInitialization_iff hcalls]
    simp only [hlast (fun _ => true) (fun _ => True) fun e => by simp]

/-- A session of the user `u`, whose password is `p`, in which everything goes through. -/
def sampleVisit (day : Date) (wire : Bytes) : Visit where
  env := { faultless with localDay := fun _ => day.iso }
  today := fun _ => day
  clock := fun _ => rfl
  wire := Login.textBytes [117] ++ Login.textBytes [112] ++ wire
  closed := true

/-- The user signs up and stores a folder on the first of May, and deletes it a month later. -/
def folderVisits : List Visit :=
  [sampleVisit ⟨2024, 5, 1, by decide, by decide, by decide⟩ (Login.textBytes [112] ++
      Client.Message.bytes ⟨.createFolder, 1, [47, 100], decimal 5, decimal 448⟩),
    sampleVisit ⟨2024, 6, 1, by decide, by decide, by decide⟩
      (Client.Message.bytes ⟨.deletePath, 1, [47, 100], decimal 0, decimal 0⟩)]

theorem calendar_history_folder :
    ∃ table, (visits emptyDb folderVisits).tables (tableKey [117]) = some table ∧
      addActions .empty (callsFor (storedIn emptyDb folderVisits) [117]) = some table ∧
      (∀ (d : Date) (r : Row), r ∈ selectRestore table .deletePath d.iso ↔
        ∃ c, LastAmong (· ≤ d) (callsFor (storedIn emptyDb folderVisits) [117]) r.filename c ∧
          c.action ≠ .deletePath ∧ r = c.row) ∧
      ∀ r : Row, r ∈ selectInitialization table .deletePath ↔
        ∃ c, LastAmong (fun _ => True) (callsFor (storedIn emptyDb folderVisits) [117]) r.filename c ∧
          c.action ≠ .deletePath ∧ r = c.row := by
  have hsome : ((visits emptyDb folderVisits).tables (tableKey [117])).isSome = true := by decide +kernel
  obtain ⟨table, htable⟩ := Option.isSome_iff_exists.mp hsome
  exact ⟨table, htable, calendar_history folderVisits [117] table htable⟩

end Visits
end BackupManager.Protocol.Service
