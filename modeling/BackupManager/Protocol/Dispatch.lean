import BackupManager.ByteStream.Block
import BackupManager.Protocol.RequestStream

/-! The part of a round that follows its header, from any stream: what is taken from the channel, and what
is stored. -/
namespace BackupManager.Protocol
open ByteStream Client Server

/-- The calls of `addAction` in a trace, but for their dates. -/
def calls (trace : List Effect) : List AddAction :=
  trace.filterMap fun
    | .addAction c => some { c with timestamp := [] }
    | _ => none

theorem calls_append (trace later : List Effect) : calls (trace ++ later) = calls trace ++ calls later :=
  List.filterMap_append

theorem calls_acknowledged (trace : List Effect) (f : Frame) :
    calls (acknowledged trace f) = calls trace := by
  unfold acknowledged
  rw [calls_append]
  split <;> exact List.append_nil _

/-- The bytes of a field for a number. -/
def numberWidth : ℕ := intMaxNDigit + 1

/-- The body of a file, after its size. -/
def fileBody (b : Backend) (path : Bytes) (index : ℤ) (day lastWriteTime permissions : Bytes) (v : ℤ) :
    Handler Unit :=
  if v < -1 ∨ v = Istream.intMax then Prog.throw "vector::reserve"
  else do
    let file ← Prog.recvChunks maxMsgSize (fun _ => pure ()) v.toNat
    callAddAction b (bindFile b (readFileCall b.hash path day lastWriteTime permissions file v))
    sendResponseToClient index .completed

theorem actionReadFile_eq (b : Backend) (path : Bytes) (index : ℤ)
    (day lastWriteTime permissions : Bytes) :
    actionReadFile b path index day lastWriteTime permissions =
      Prog.recvBlock numberWidth Istream.numberAndBreak >>=
        fileBody b path index day lastWriteTime permissions := by
  funext s
  cases hread : (Prog.read numberWidth : Handler Unit) s with
  | mk o s' =>
    cases o with
    | waits =>
      have hint : Prog.recvInt intMaxNDigit 0 s = (.waits, s') := Prog.bind_of_waits hread _
      have hblock : Prog.recvBlock numberWidth Istream.numberAndBreak s = (.waits, s') :=
        Prog.bind_of_waits hread _
      rw [actionReadFile, Prog.bind_of_waits hint, Prog.bind_of_waits hblock]
    | throws what =>
      have hint : Prog.recvInt intMaxNDigit 0 s = (.throws what, s') := Prog.bind_of_throws hread _
      have hblock : Prog.recvBlock numberWidth Istream.numberAndBreak s = (.throws what, s') :=
        Prog.bind_of_throws hread _
      rw [actionReadFile, Prog.bind_of_throws hint, Prog.bind_of_throws hblock]
    | returns u =>
      have hint : Prog.recvInt intMaxNDigit 0 s = (.returns (s'.stream.getNumber Istream.toInt 0).1,
          { s' with stream := (s'.stream.getNumber Istream.toInt 0).2 }) :=
        Prog.bind_of_returns hread _
      have hblock : Prog.recvBlock numberWidth Istream.numberAndBreak s =
          (.returns (s'.stream.getNumber Istream.toInt 0).1,
            { s' with stream := (s'.stream.getNumber Istream.toInt 0).2.ignore }) :=
        Prog.bind_of_returns hread _
      rw [actionReadFile, Prog.bind_of_returns hint, Prog.bind_of_returns (Prog.ignore_apply _),
        Prog.bind_of_returns hblock, fileBody]
      split <;> rfl

section Dispatch

variable (b : Backend) {f : Frame} {day : Bytes} {s s₁ : Session (List Effect)} {v : ℤ}

theorem perform_readFile (h : f.actionType = ActionType.readFile.code) :
    perform b f day = (do
      actionReadFile b f.path f.index day f.lastWriteTime f.permissions
      pure true) := by
  unfold perform
  rw [if_pos h]

theorem perform_createFolder (h : f.actionType = ActionType.createFolder.code) :
    perform b f day = (do
      actionCreateFolder b f.path f.index day f.lastWriteTime f.permissions
      pure true) := by
  unfold perform
  rw [h]
  rfl

theorem perform_deletePath (h : f.actionType = ActionType.deletePath.code) :
    perform b f day = (do
      actionDeletePath b f.path f.index day f.lastWriteTime f.permissions
      pure true) := by
  unfold perform
  rw [h]
  rfl

theorem perform_quit (h : f.actionType = ActionType.quit.code) : perform b f day = pure false := by
  unfold perform
  rw [h]
  rfl

theorem perform_restore (h : f.actionType = ActionType.restore.code) :
    perform b f day = (do
      actionRestore b f.index
      pure true) := by
  unfold perform
  rw [h]
  rfl

/-- The types that the server does not know. -/
theorem perform_unrecognized (h : ActionType.ignore.code ≤ f.actionType) :
    perform b f day = Prog.throw "Action not recognized" := by
  have hother : ∀ t : ActionType, t.code < ActionType.ignore.code → ¬f.actionType = t.code := by
    intro t ht he
    omega
  unfold perform
  rw [if_neg (hother .readFile (by decide)), if_neg (hother .createFolder (by decide)),
    if_neg (hother .deletePath (by decide)), if_neg (hother .quit (by decide)),
    if_neg (hother .restore (by decide))]

/-- What is caught is answered, and the loop goes on, if the type has a name. -/
theorem dispatch_throws (hname : HasName b.pastEnd f.actionType) (s : Session (List Effect))
    {s' : Session (List Effect)} {what : String}
    (h : perform b f (b.localDay s.world) s = (.throws what, s')) :
    dispatch b f s =
      (.returns true, { s' with world := s'.world ++ [.response f.index .error] }) := by
  rw [dispatch, Prog.bind_of_returns (Prog.getWorld_apply _)]
  unfold Prog.tryCatch
  rw [h]
  exact Prog.bind_of_returns (typeName_apply hname s') _

/-- A type without a name ends the loop once it is caught. -/
theorem dispatch_dies (hname : ¬HasName b.pastEnd f.actionType) (s : Session (List Effect))
    {s' : Session (List Effect)} {what : String}
    (h : perform b f (b.localDay s.world) s = (.throws what, s')) :
    dispatch b f s = (.throws "std::bad_alloc", s') := by
  have hthrows : typeName b f.actionType s' = (.throws "std::bad_alloc", s') := by
    unfold typeName
    rw [if_neg hname]
    rfl
  rw [dispatch, Prog.bind_of_returns (Prog.getWorld_apply _)]
  unfold Prog.tryCatch
  rw [h]
  exact Prog.bind_of_throws hthrows _

theorem dispatch_of_not_throws (s : Session (List Effect)) {s' : Session (List Effect)} {o : Outcome Bool}
    (h : perform b f (b.localDay s.world) s = (o, s')) (ho : ∀ what, o ≠ .throws what) :
    dispatch b f s = (o, s') := by
  rw [dispatch, Prog.bind_of_returns (Prog.getWorld_apply _)]
  unfold Prog.tryCatch
  rw [h]
  cases o with
  | throws what => exact absurd rfl (ho what)
  | returns a => rfl
  | waits => rfl

/-- A program that stores is answered by what the database says. -/
theorem dispatch_stores (hname : HasName b.pastEnd f.actionType) (s : Session (List Effect))
    {s' : Session (List Effect)} {c : AddAction}
    (h : perform b f (b.localDay s.world) s = (do
      callAddAction b c
      sendResponseToClient f.index .completed
      pure true : Handler Bool) s') :
    ∃ effects, dispatch b f s = (.returns true, { s' with world := s'.world ++ effects }) ∧
      calls effects = [{ c with timestamp := [] }] := by
  refine ⟨[.addAction c, .response f.index (if b.addAction s'.world c then .completed else .error)],
    ?_, rfl⟩
  rw [dispatch, Prog.bind_of_returns (Prog.getWorld_apply _)]
  exact (Prog.tryCatch_congr h _).trans (store_apply hname c f.index s')

theorem dispatch_createFolder (s : Session (List Effect))
    (h : f.actionType = ActionType.createFolder.code) :
    ∃ effects, dispatch b f s = (.returns true, { s with world := s.world ++ effects }) ∧
      calls effects = [createFolderCall f.path [] f.lastWriteTime f.permissions] := by
  have hperform : perform b f (b.localDay s.world) s = (do
      callAddAction b (createFolderCall f.path (b.localDay s.world) f.lastWriteTime f.permissions)
      sendResponseToClient f.index .completed
      pure true : Handler Bool) s := by
    rw [perform_createFolder b h]
    exact congrFun (Prog.bind_bind _ _ _) _
  exact dispatch_stores b (hasName_of_eq b.pastEnd h) s hperform

theorem dispatch_deletePath (s : Session (List Effect))
    (h : f.actionType = ActionType.deletePath.code) :
    ∃ effects, dispatch b f s = (.returns true, { s with world := s.world ++ effects }) ∧
      calls effects = [deletePathCall f.path [] f.lastWriteTime f.permissions] := by
  have hperform : perform b f (b.localDay s.world) s = (do
      callAddAction b (deletePathCall f.path (b.localDay s.world) f.lastWriteTime f.permissions)
      sendResponseToClient f.index .completed
      pure true : Handler Bool) s := by
    rw [perform_deletePath b h]
    exact congrFun (Prog.bind_bind _ _ _) _
  exact dispatch_stores b (hasName_of_eq b.pastEnd h) s hperform

/-- A round without a body stores its row. -/
theorem dispatch_store (s : Session (List Effect))
    (h : f.actionType = ActionType.createFolder.code ∨ f.actionType = ActionType.deletePath.code) :
    ∃ c s₂, dispatch b f s = (.returns true, s₂) ∧ calls s₂.world = calls s.world ++ [c] := by
  have hrow : ∀ {effects c}, dispatch b f s = (.returns true, { s with world := s.world ++ effects }) ∧
      calls effects = [c] →
      ∃ c s₂, dispatch b f s = (.returns true, s₂) ∧ calls s₂.world = calls s.world ++ [c] := by
    intro effects c hstored
    refine ⟨c, _, hstored.1, ?_⟩
    rw [calls_append, hstored.2]
  rcases h with h | h
  · obtain ⟨effects, hstored⟩ := dispatch_createFolder b s h
    exact hrow hstored
  · obtain ⟨effects, hstored⟩ := dispatch_deletePath b s h
    exact hrow hstored

theorem dispatch_quit (s : Session (List Effect))
    (h : f.actionType = ActionType.quit.code) : dispatch b f s = (.returns false, s) :=
  dispatch_of_not_throws b s (by rw [perform_quit b h]; rfl) (by simp)

theorem dispatch_unrecognized (s : Session (List Effect))
    (h : ActionType.ignore.code ≤ f.actionType) (hname : HasName b.pastEnd f.actionType) :
    dispatch b f s =
      (.returns true, { s with world := s.world ++ [.response f.index .error] }) :=
  dispatch_throws b hname s (by rw [perform_unrecognized b h]; rfl)

theorem dispatch_nameless (s : Session (List Effect))
    (h : ActionType.ignore.code ≤ f.actionType) (hname : ¬HasName b.pastEnd f.actionType) :
    dispatch b f s = (.throws "std::bad_alloc", s) :=
  dispatch_dies b hname s (by rw [perform_unrecognized b h]; rfl)

variable {b}

/-- A file of which the bytes have arrived is stored. -/
theorem fileBody_enough (hroom : ¬(v < -1 ∨ v = Istream.intMax)) (henough : v.toNat ≤ s.wire.length)
    (b : Backend) (path : Bytes) (index : ℤ) (day lastWriteTime permissions : Bytes) :
    ∃ file stream, fileBody b path index day lastWriteTime permissions v s = (do
      callAddAction b (bindFile b (readFileCall b.hash path day lastWriteTime permissions file v))
      sendResponseToClient index .completed : Handler Unit)
        ⟨s.wire.drop v.toNat, s.closed, stream, s.world⟩ := by
  obtain ⟨file, stream, hchunks⟩ := Prog.recvChunks_enough maxMsgSize_pos henough
  refine ⟨file, stream, ?_⟩
  rw [fileBody, if_neg hroom, Prog.bind_of_returns hchunks]

/-- A round with a file, once its size was taken. -/
theorem perform_file (h : f.actionType = ActionType.readFile.code)
    (hsize : Prog.recvBlock numberWidth Istream.numberAndBreak s = (.returns v, s₁)) (day : Bytes) :
    perform b f day s = (do
      fileBody b f.path f.index day f.lastWriteTime f.permissions v
      pure true : Handler Bool) s₁ := by
  rw [perform_readFile b h, actionReadFile_eq, Prog.bind_bind, Prog.bind_of_returns hsize]

theorem dispatch_file_enough (h : f.actionType = ActionType.readFile.code)
    (hsize : Prog.recvBlock numberWidth Istream.numberAndBreak s = (.returns v, s₁))
    (hworld : s₁.world = s.world) (hroom : ¬(v < -1 ∨ v = Istream.intMax))
    (henough : v.toNat ≤ s₁.wire.length) :
    ∃ c s₂, dispatch b f s = (.returns true, s₂) ∧ calls s₂.world = calls s.world ++ [c] := by
  obtain ⟨file, stream, hbody⟩ := fileBody_enough hroom henough b f.path f.index
    (b.localDay s.world) f.lastWriteTime f.permissions
  have hperform := (perform_file h hsize (b.localDay s.world)).trans
    ((Prog.bind_congr_apply hbody _).trans (congrFun (Prog.bind_bind _ _ _) _))
  obtain ⟨effects, hrun, hcalls⟩ := dispatch_stores b (hasName_of_eq b.pastEnd h) s hperform
  have hrow := calls_append s₁.world effects
  rw [hcalls, hworld] at hrow
  exact ⟨_, _, hrun, by rw [hworld]; exact hrow⟩

theorem dispatch_file_refused (h : f.actionType = ActionType.readFile.code)
    (hsize : Prog.recvBlock numberWidth Istream.numberAndBreak s = (.returns v, s₁))
    (hroom : v < -1 ∨ v = Istream.intMax) :
    dispatch b f s = (.returns true, { s₁ with world := s₁.world ++ [.response f.index .error] }) := by
  apply dispatch_throws b (hasName_of_eq b.pastEnd h) s
  rw [perform_file h hsize, fileBody, if_pos hroom]
  rfl

/-- With a date, read or not, the database is asked, and nothing is stored. -/
theorem actionRestore_date {date : Bytes} {s₂ : Session (List Effect)}
    (hlength : Prog.recvInt intMaxNDigit b.uninit s = (.returns v, s₁))
    (hdate : Prog.recvBlock (Prog.sizeOfInt (Prog.intSucc v)) (Istream.getWord []) s₁ = (.returns date, s₂))
    (index : ℤ) :
    ∃ o effects, calls effects = [] ∧ o ≠ .waits ∧
      Server.actionRestore b index s = (o, { s₂ with world := s₂.world ++ effects }) := by
  obtain ⟨u, s', hread, hword⟩ := Prog.bind_returns hdate
  rw [Server.actionRestore, Prog.bind_of_returns hlength, Prog.bind_of_returns hread,
    Prog.bind_of_returns (show Prog.getWord [] s' = (.returns date, s₂) from hword),
    Prog.bind_of_returns (emit_apply _ _), Prog.bind_of_returns (Prog.getWorld_apply _),
    Prog.bind_of_returns (emit_apply _ _)]
  cases b.getRestoreEntries (s₂.world ++ [.parsedDate v date]) date with
  | none =>
    refine ⟨.throws "SQLITE error", [.parsedDate v date, .getRestoreEntries date], rfl, by simp, ?_⟩
    rw [← List.append_cons]
    rfl
  | some m =>
    refine ⟨.returns (), [.parsedDate v date, .getRestoreEntries date, .entries m,
      .response index .completed], rfl, by simp, ?_⟩
    refine (Prog.bind_of_returns (emit_apply _ _) _).trans ?_
    rw [sendResponseToClient_apply]
    simp only [List.append_assoc]
    rfl

theorem dispatch_date {date : Bytes} {s₂ : Session (List Effect)}
    (h : f.actionType = ActionType.restore.code)
    (hlength : Prog.recvInt intMaxNDigit b.uninit s = (.returns v, s₁))
    (hdate : Prog.recvBlock (Prog.sizeOfInt (Prog.intSucc v)) (Istream.getWord []) s₁ = (.returns date, s₂)) :
    ∃ effects, calls effects = [] ∧
      dispatch b f s = (.returns true, { s₂ with world := s₂.world ++ effects }) := by
  obtain ⟨o, effects, hcalls, ho, hrun⟩ := actionRestore_date hlength hdate f.index
  cases o with
  | waits => exact absurd rfl ho
  | throws what =>
    have hperform : perform b f (b.localDay s.world) s =
        (.throws what, { s₂ with world := s₂.world ++ effects }) := by
      rw [perform_restore b h]
      exact Prog.bind_of_throws hrun _
    refine ⟨effects ++ [.response f.index .error], ?_, ?_⟩
    · rw [calls_append, hcalls]
      rfl
    · rw [← List.append_assoc]
      exact dispatch_throws b (hasName_of_eq b.pastEnd h) s hperform
  | returns u =>
    have hperform : perform b f (b.localDay s.world) s =
        (.returns true, { s₂ with world := s₂.world ++ effects }) := by
      rw [perform_restore b h]
      exact Prog.bind_of_returns hrun _
    exact ⟨effects, hcalls, dispatch_of_not_throws b s hperform (by simp)⟩

end Dispatch
end BackupManager.Protocol
