import BackupManager.Protocol.RestoreStream
import BackupManager.Server.RowDecoding
import BackupManager.Client.SendAction

/-! The outcome of a restore at both ends: what the handler answers when the database call
succeeds or throws, and what the client makes of it. -/
namespace BackupManager.Protocol
open ByteStream Client Server Table

/-- A text that `operator>>` takes as a whole. -/
def IsWord (text : Bytes) : Prop :=
  text ≠ [] ∧ (∀ b ∈ text, isSpace b = false) ∧ text.length ≤ 1000000000

instance : DecidablePred IsWord := fun _ => inferInstanceAs (Decidable (_ ∧ _ ∧ _))

/-- A date block that is read as it was written; its length is an `int`, and not the largest
one. -/
def IsDate (text : Bytes) : Prop :=
  text ≠ [] ∧ (∀ b ∈ text, isSpace b = false) ∧ text.length < 2147483647

theorem IsWord.isDate {text : Bytes} (h : IsWord text) : IsDate text :=
  ⟨h.1, h.2.1, lt_of_le_of_lt h.2.2 (by decide)⟩

/-- What the handler does about a restore once the date is read. -/
def restoreEffects (outcome : Option RestoreMap) (index : ℤ) (date : Bytes) : List Effect :=
  [.parsedDate date.length date, .getRestoreEntries date] ++
    match outcome with
    | some m => [.entries m, .response index .completed]
    | none => [.response index .error]

section Server

variable (b : Backend) (index : ℤ) {date residue wire : Bytes} {closed : Bool}
variable {trace : List Effect}

/-- The handler takes the date block, and nothing after it. -/
theorem readDate {α : Type} (hdate : IsDate date) (hr : Blank residue) (k : Bytes → Handler α) :
    (do
      let dateLength ← Prog.recvInt intMaxNDigit b.uninit
      Prog.read (Prog.sizeOfInt (Prog.intSucc dateLength))
      let dateString ← Prog.getWord []
      emit (.parsedDate dateLength dateString)
      k dateString : Handler α) ⟨dateBlock date ++ wire, closed, .fresh residue, trace⟩ =
      k date ⟨wire, closed, .fresh [newline], trace ++ [.parsedDate date.length date]⟩ := by
  have hint := inInt_natCast hdate.2.2.le
  have hread := Prog.read_append (date ++ [newline]) wire closed (.fresh [newline]) trace
  rw [List.length_append, List.length_singleton, ← Prog.sizeOfInt_intSucc hdate.2.2] at hread
  have hword := @Istream.getWord_fresh date [] hdate.1 hdate.2.1 [newline] Blank.newline []
  rw [dateBlock, List.append_assoc, List.append_assoc,
    Prog.bind_of_returns (Prog.recvInt_field (fits_of_nonneg hint (by omega)) hint hr b.uninit),
    ← List.append_assoc, Prog.bind_of_returns hread, Prog.bind_of_returns (Prog.getWord_apply _ _),
    Prog.bind_of_returns (emit_apply _ _)]
  simp only [Istream.receive_fresh, ← List.append_assoc, hword]

theorem actionRestore_some {m : RestoreMap} (hdate : IsDate date) (hr : Blank residue)
    (hm : b.getRestoreEntries (trace ++ [.parsedDate date.length date]) date = some m) :
    Server.actionRestore b index ⟨dateBlock date ++ wire, closed, .fresh residue, trace⟩ =
      (.returns (), ⟨wire, closed, .fresh [newline],
        trace ++ restoreEffects (some m) index date⟩) := by
  refine (readDate b hdate hr _).trans ?_
  rw [Prog.bind_of_returns (Prog.getWorld_apply _), Prog.bind_of_returns (emit_apply _ _)]
  dsimp only
  rw [hm]
  refine (Prog.bind_of_returns (emit_apply _ _) _).trans ?_
  rw [sendResponseToClient_apply]
  simp only [restoreEffects, List.append_assoc]
  rfl

theorem actionRestore_none (hdate : IsDate date) (hr : Blank residue)
    (hm : b.getRestoreEntries (trace ++ [.parsedDate date.length date]) date = none) :
    Server.actionRestore b index ⟨dateBlock date ++ wire, closed, .fresh residue, trace⟩ =
      (.throws "SQLITE error", ⟨wire, closed, .fresh [newline],
        trace ++ [.parsedDate date.length date, .getRestoreEntries date]⟩) := by
  refine (readDate b hdate hr _).trans ?_
  rw [Prog.bind_of_returns (Prog.getWorld_apply _), Prog.bind_of_returns (emit_apply _ _)]
  dsimp only
  rw [hm, List.append_assoc]
  rfl

/-- Every outcome of the database call is answered. -/
theorem dispatch_restore {f : Frame} (hkind : f.actionType = ActionType.restore.code)
    (hdate : IsDate date) (hr : Blank residue) :
    dispatch b f ⟨dateBlock date ++ wire, closed, .fresh residue, trace⟩ =
      (.returns true, ⟨wire, closed, .fresh [newline], trace ++ restoreEffects
        (b.getRestoreEntries (trace ++ [.parsedDate date.length date]) date) f.index date⟩) := by
  obtain ⟨actionType, index, path, lastWriteTime, permissions⟩ := f
  subst hkind
  have hperform : ∀ currentDate s,
      perform b ⟨ActionType.restore.code, index, path, lastWriteTime, permissions⟩ currentDate s =
        (Server.actionRestore b index >>= fun _ => pure true) s := fun _ _ => rfl
  rw [dispatch, Prog.bind_of_returns (Prog.getWorld_apply _),
    Prog.tryCatch_congr (hperform (b.localDay trace) _)]
  unfold Prog.tryCatch
  cases hm : b.getRestoreEntries (trace ++ [.parsedDate date.length date]) date with
  | some m =>
    rw [Prog.bind_of_returns (actionRestore_some b index hdate hr hm)]
    rfl
  | none =>
    rw [Prog.bind_of_throws (actionRestore_none b index hdate hr hm)]
    dsimp only
    refine (Prog.bind_of_returns (typeName_apply (hasName_of_eq b.pastEnd rfl) _) _).trans ?_
    refine (Prog.bind_of_returns (sendResponseToClient_apply _ _ _) _).trans ?_
    rw [List.append_assoc]
    rfl

end Server

section Rows

/-- A row as `addAction` stores it, within the limits of SQLite and of an `int`. -/
structure Stored (r : Row) : Prop where
  filename : r.filename.length ≤ 1000000000
  size : r.size = r.file.length
  small : InInt r.size

theorem inInt_of_stoi {text : Bytes} {z : ℤ} (h : stoi text = some z) : InInt z := by
  unfold stoi at h
  dsimp only at h
  split at h
  · rw [← Option.some.inj h]
    exact inInt_toInt _ _
  · exact absurd h (by simp)

/-- What a query gives back fits the variables of the client. -/
theorem wellSized_restoreFile {r : Row} (hr : Stored r) {f : File} (h : restoreFile r = .ok f) :
    WellSized f := by
  have hname : (r.filename.take (sqliteLength r.filename)).length ≤ 1000000000 :=
    (List.length_take_le' _ _).trans hr.filename
  have htake : r.file.take r.size.toNat = r.file := by
    rw [hr.size, Int.toNat_natCast, List.take_length]
  unfold restoreFile at h
  dsimp only at h
  cases htime : stoi r.lastWriteTime with
  | none =>
    rw [htime] at h
    exact absurd h (by simp [throw, throwThe, MonadExceptOf.throw])
  | some t =>
    cases hmode : stoi r.permissions with
    | none =>
      rw [htime, hmode] at h
      exact absurd h (by simp [throw, throwThe, MonadExceptOf.throw])
    | some p =>
      rw [htime, hmode] at h
      dsimp only at h
      split at h
      · split at h
        · exact absurd h (by simp [throw, throwThe, MonadExceptOf.throw, bind, Except.bind])
        · have hf := Except.ok.inj h
          rw [htake] at hf
          rw [← hf]
          exact ⟨hname, inInt_of_stoi htime, inInt_of_stoi hmode, Or.inr ⟨rfl, hr.size⟩, hr.small⟩
      · rw [← Except.ok.inj h]
        exact ⟨hname, inInt_of_stoi htime, inInt_of_stoi hmode, Or.inl rfl, hr.small⟩

/-- Every entry of the map was decoded from a row that was delivered. -/
theorem mem_filesOf_getRestoreEntries {steps : List (Step Row)} {m : RestoreMap}
    (h : getRestoreEntries steps = .ok m) {f : File} (hf : f ∈ filesOf m) :
    ∃ r, .row r ∈ steps ∧ restoreFile r = .ok f := by
  suffices hloop : ∀ m₀ : RestoreMap, stepLoop (fun m r => do
      let f ← restoreFile r
      pure (m.insert f.filename f)) m₀ steps = .ok m →
      f ∈ filesOf m₀ ∨ ∃ r, .row r ∈ steps ∧ restoreFile r = .ok f by
    exact (hloop .empty h).resolve_left (by simp [filesOf, SortedMap.empty])
  clear h
  intro m₀ hrun
  induction steps generalizing m₀ with
  | nil =>
    rw [← Except.ok.inj hrun] at hf
    exact Or.inl hf
  | cons step steps ih =>
    cases step with
    | row r =>
      cases hr : restoreFile r with
      | error what =>
        rw [stepLoop, hr] at hrun
        exact absurd hrun (by simp [bind, Except.bind])
      | ok f₁ =>
        have hrest : stepLoop (fun m r => do
            let f ← restoreFile r
            pure (m.insert f.filename f)) (m₀.insert f₁.filename f₁) steps = .ok m := by
          rw [stepLoop, hr] at hrun
          exact hrun
        rcases ih _ hrest with hmem | hrow
        · obtain ⟨e, he, hef⟩ := List.mem_map.mp hmem
          rcases SortedMap.mem_entries_insert he with heq | hold
          · refine Or.inr ⟨r, List.mem_cons_self, ?_⟩
            rw [hr, ← hef, heq]
          · exact Or.inl (List.mem_map.mpr ⟨e, hold, hef⟩)
        · obtain ⟨r', hr', hf'⟩ := hrow
          exact Or.inr ⟨r', List.mem_cons_of_mem _ hr', hf'⟩
    | done =>
      rw [← Except.ok.inj hrun] at hf
      exact Or.inl hf
    | error code =>
      rw [← Except.ok.inj hrun] at hf
      exact Or.inl hf

/-- Every map that a query over stored rows returns fits the variables of the client. -/
theorem wellSized_getRestoreEntries {steps : List (Step Row)} {m : RestoreMap}
    (hrows : ∀ r, .row r ∈ steps → Stored r) (h : getRestoreEntries steps = .ok m) :
    ∀ f ∈ filesOf m, WellSized f := by
  intro f hf
  obtain ⟨r, hr, hdecode⟩ := mem_filesOf_getRestoreEntries h hf
  exact wellSized_restoreFile (hrows r hr) hdecode

end Rows

/-- The outcome that the client should learn, and the response that should be left to it. -/
def roles : Option RestoreMap → List Received × ActionStatus
  | some m => (expected m, .completed)
  | none => ([], .error)

/-- The client takes the bytes of the handler in the roles in which they were written: the
entries when there are some, and then the response, before whatever is sent later. -/
def Agrees (outcome : Option RestoreMap) (index : ℤ) (bytes : Bytes) : Prop :=
  ∀ (φ : Type) (ops : FileOps φ) (v : Locals) (pathNumber : ℤ)
    (date userPath residue later : Bytes) (closed : Bool) (files : φ), Blank residue →
    Prog.Ends (Client.actionRestore ops v pathNumber date userPath)
      ⟨bytes ++ later, closed, .fresh residue, ⟨[], files, []⟩⟩
      (fun _ s' => Arrived (responseBytes index (roles outcome).2 ++ later) closed
        (roles outcome).1 s')
      (fun s' => (outcome = none ∨ ¬ops.Succeeds) ∧ s'.world.received <+: (roles outcome).1)

theorem bytes_restoreEffects (outcome : Option RestoreMap) (index : ℤ) (date : Bytes) :
    (restoreEffects outcome index date).flatMap Effect.bytes =
      (match outcome with
        | some m => restoreBytes m
        | none => []) ++ responseBytes index (roles outcome).2 := by
  cases outcome with
  | some m =>
    simp [restoreEffects, Effect.bytes, roles]
  | none => simp [restoreEffects, Effect.bytes, roles]

theorem length_responseBytes (index : ℤ) (status : ActionStatus) :
    intMaxNDigit + 1 ≤ (responseBytes index status).length := by
  rw [responseBytes, List.length_append, length_field]
  omega

/-- Without entries to deliver, the client takes the start of whatever it is sent for their number. -/
theorem not_agrees_of_length {index : ℤ} {bytes : Bytes} (hlong : intMaxNDigit + 1 ≤ bytes.length) :
    ¬Agrees none index bytes := by
  intro h
  have hends := h Unit willingOps zeroLocals 0 [] [] [] [] true () Blank.nil
  have hnothing : (Client.actionRestore willingOps zeroLocals 0 [] []
      ⟨bytes ++ [], true, .fresh [], ⟨[], (), []⟩⟩).2.world.received = [] := by
    refine hends.state (I := fun s' => s'.world.received = []) ?_ ?_
    · intro _ s' harrived
      obtain ⟨residue, world, -, rfl, hreceived⟩ := harrived
      exact hreceived
    · intro s' hthrown
      exact List.prefix_nil.mp hthrown.2
  rw [← List.append_nil bytes] at hlong
  obtain ⟨n, hcount⟩ := count_of_actionRestore willingOps zeroLocals 0 [] []
    (s := ⟨bytes ++ [], true, .fresh [], ⟨[], (), []⟩⟩) hlong
  rw [hnothing] at hcount
  exact absurd (List.prefix_nil.mp hcount) (by simp)

/-- After an error the client takes the index of the response for the number of entries. -/
theorem not_agrees_none (index : ℤ) (date : Bytes) :
    ¬Agrees none index ((restoreEffects none index date).flatMap Effect.bytes) := by
  apply not_agrees_of_length
  rw [bytes_restoreEffects]
  exact length_responseBytes index .error

theorem sendable_of_agrees {m : RestoreMap} {index : ℤ} {date : Bytes}
    (hf : ∀ f ∈ filesOf m, WellSized f)
    (h : Agrees (some m) index ((restoreEffects (some m) index date).flatMap Effect.bytes)) :
    (m.entries.length : ℤ) ≤ Istream.intMax ∧ ∀ f ∈ filesOf m, Sendable f := by
  have hends := h Unit willingOps zeroLocals 0 [] [] [] [] true () Blank.nil
  rw [bytes_restoreEffects, List.append_nil] at hends
  obtain ⟨_, s', hrun, harrived⟩ :=
    (hends.mono (fun _ _ h => h) fun _ h => h.1.elim (by simp) fun hops =>
      hops succeeds_willingOps).exists_returns
  obtain ⟨residue, world, -, rfl, hreceived⟩ := harrived
  exact sendable_of_actionRestore hf Blank.nil zeroLocals 0 [] [] hrun rfl hreceived

/-- Both ends agree on the outcome of a restore exactly when the database call succeeds and every
entry passes through the stream unchanged. -/
theorem restore_outcome (b : Backend) (f : Frame)
    (hkind : f.actionType = ActionType.restore.code) (date : Bytes) (hdate : IsWord date)
    (trace : List Effect) (outcome : Option RestoreMap)
    (hb : b.getRestoreEntries (trace ++ [.parsedDate date.length date]) date = outcome)
    (hrows : ∀ m ∈ outcome, ∃ steps, getRestoreEntries steps = .ok m ∧
      ∀ r, .row r ∈ steps → Stored r)
    (residue wire : Bytes) (hr : Blank residue) (closed : Bool) :
    ∃ effects, dispatch b f ⟨dateBlock date ++ wire, closed, .fresh residue, trace⟩ =
        (.returns true, ⟨wire, closed, .fresh [newline], trace ++ effects⟩) ∧
      (Agrees outcome f.index (effects.flatMap Effect.bytes) ↔
        ∃ m, outcome = some m ∧ (m.entries.length : ℤ) ≤ Istream.intMax ∧
          ∀ f ∈ filesOf m, Sendable f) := by
  refine ⟨_, dispatch_restore b hkind hdate.isDate hr, ?_⟩
  rw [hb]
  cases outcome with
  | none =>
    constructor
    · intro h
      exact absurd h (not_agrees_none f.index date)
    · intro h
      obtain ⟨m, hm, -⟩ := h
      exact absurd hm (by simp)
  | some m =>
    obtain ⟨steps, hm, hstored⟩ := hrows m rfl
    have hf := wellSized_getRestoreEntries hstored hm
    constructor
    · intro h
      exact ⟨m, rfl, sendable_of_agrees hf h⟩
    · intro h φ ops v pathNumber date' userPath residue' later closed' files hr'
      obtain ⟨m', hm', hcount, hsend⟩ := h
      rw [← Option.some.inj hm'] at hcount hsend
      rw [bytes_restoreEffects, List.append_assoc]
      exact (ends_actionRestore hf hr' v pathNumber date' userPath hcount hsend).mono
        (fun _ _ h => h) fun _ h => ⟨Or.inr h.1, h.2⟩

/-- A database on which every restore has the same outcome. -/
def fixedBackend (outcome : Option RestoreMap) : Backend where
  addAction _ _ := true
  getRestoreEntries _ _ := outcome
  localDay _ := []
  hash content := content
  uninit := 0
  stray := []
  pastEnd _ := false

/-- The request of a restore, with the index 7. -/
def restoreFrame : Frame := ⟨ActionType.restore.code, 7, blank, blank, blank⟩

/-- The day 2024-05-01. -/
def sampleDate : Bytes := [50, 48, 50, 52, 45, 48, 53, 45, 48, 49]

theorem isDate_sampleDate : IsDate sampleDate := by
  have hword : IsWord sampleDate := by decide
  exact hword.isDate

/-- The stored row of a folder `/d`. -/
def folderRow : Row :=
  (createFolderCall [47, 100] sampleDate (showInt 1714521600) (showInt 493)).row

theorem getRestoreEntries_folderRow :
    getRestoreEntries (complete [folderRow]) = .ok (folderMap 1714521600) := by rfl

theorem restore_outcome_folder :
    ∃ effects, dispatch (fixedBackend (some (folderMap 1714521600))) restoreFrame
        ⟨dateBlock sampleDate, false, .fresh [], []⟩ =
        (.returns true, ⟨[], false, .fresh [newline], effects⟩) ∧
      Agrees (some (folderMap 1714521600)) 7 (effects.flatMap Effect.bytes) := by
  have hstored : ∀ r, .row r ∈ complete [folderRow] → Stored r := by
    intro r hr
    have hfolder : r = folderRow := by simpa [complete] using hr
    rw [hfolder]
    exact ⟨Nat.le_of_ble_eq_true rfl, rfl, by decide⟩
  obtain ⟨effects, hrun, hiff⟩ := restore_outcome (fixedBackend (some (folderMap 1714521600)))
    restoreFrame rfl sampleDate (by decide) [] _ rfl
    (fun m hm => ⟨complete [folderRow], by
      rw [getRestoreEntries_folderRow, Option.some.inj hm], hstored⟩) [] [] Blank.nil false
  rw [List.append_nil, List.nil_append] at hrun
  have hcount : ((folderMap 1714521600).entries.length : ℤ) ≤ Istream.intMax := by decide
  have hsend : ∀ f ∈ filesOf (folderMap 1714521600), Sendable f := by
    intro f hf
    rw [List.mem_singleton.mp hf]
    exact ⟨by decide, by decide, by decide⟩
  exact ⟨effects, hrun, hiff.mpr ⟨_, rfl, hcount, hsend⟩⟩

/-- When the query throws, the response `(7, error)` is taken for seven entries. -/
theorem restore_outcome_error :
    ∃ effects, dispatch (fixedBackend none) restoreFrame
        ⟨dateBlock sampleDate, false, .fresh [], []⟩ =
        (.returns true, ⟨[], false, .fresh [newline], effects⟩) ∧
      ¬Agrees none 7 (effects.flatMap Effect.bytes) := by
  have hrun : dispatch (fixedBackend none) restoreFrame
      ⟨dateBlock sampleDate ++ [], false, .fresh [], []⟩ = (.returns true,
        ⟨[], false, .fresh [newline], [] ++ restoreEffects none 7 sampleDate⟩) :=
    dispatch_restore (fixedBackend none) rfl isDate_sampleDate Blank.nil
  rw [List.append_nil] at hrun
  exact ⟨_, hrun, not_agrees_none 7 sampleDate⟩

end BackupManager.Protocol
