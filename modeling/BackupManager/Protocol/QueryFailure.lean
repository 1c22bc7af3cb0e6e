import BackupManager.Protocol.RestoreOutcome
import BackupManager.Server.View

/-! Queries that fail midway: which answers the row loops take for complete, and what becomes of
a truncated one at the client. -/
namespace BackupManager.Protocol
open ByteStream Client Server Table

/-- A row that the loop of `getRestoreEntries` cannot decode. -/
def Undecodable (r : Row) : Prop :=
  stoi r.lastWriteTime = none ∨ stoi r.permissions = none ∨ cString r.hash ≠ dirHash ∧ r.size < 0

/-- No byte of the name is lost when the number of its characters is taken for its length. -/
def WholeName (r : Row) : Prop := r.filename.length ≤ sqliteLength r.filename

/-- A map comes only from an answer that ended in `SQLITE_DONE`, and it has every row. -/
def RestoreWhole (rows : List Row) (steps : List (Step Row)) : Prop :=
  ∀ m, getRestoreEntries steps = .ok m →
    steps = complete rows ∧ ∀ r ∈ rows, ∃ f, restoreFile r = .ok f ∧ (r.filename, f) ∈ m.entries

def InitializationWhole (rows : List Row) (steps : List (Step Row)) : Prop :=
  ∀ m, getInitailizationEntries steps = .ok m →
    steps = complete rows ∧ ∀ r ∈ rows, (r.filename, r.hash) ∈ m.entries

/-- An absent user is reported only on `SQLITE_DONE`, a password only on `SQLITE_ROW`. -/
def PasswordWhole (steps : List (Step Bytes)) : Prop :=
  ∀ answer, passwordFromUsername steps = .ok answer →
    answer = none ∧ steps.head? = some .done ∨
      ∃ password, answer = some (cString password) ∧ steps.head? = some (.row password)

/-- A client that returns, so that it has replaced its folder, has an entry for every row, as far
as an `int` counts them. -/
def SnapshotWhole (rows : List Row) (steps : List (Step Row)) (index : ℤ) : Prop :=
  ∀ m, getRestoreEntries steps = .ok m →
    ∀ (φ : Type) (ops : FileOps φ) (v : Locals) (pathNumber : ℤ)
      (date userPath residue later : Bytes) (closed : Bool) (files : φ)
      (s' : Session (Restoring φ)), Blank residue →
      Client.actionRestore ops v pathNumber date userPath
        ⟨restoreBytes m ++ (responseBytes index .completed ++ later), closed, .fresh residue,
          ⟨[], files, []⟩⟩ = (.returns (), s') →
      ∃ (n : ℤ) (entries : List Entry),
        s'.world.received = .count n :: entries.map Received.entry ∧
        min (rows.length : ℤ) Istream.intMax ≤ (entries.length : ℤ)

section Rows

theorem restoreFile_throws_iff (r : Row) : (∃ what, restoreFile r = .error what) ↔ Undecodable r := by
  unfold restoreFile Undecodable
  cases stoi r.lastWriteTime with
  | none => simp [throw, throwThe, MonadExceptOf.throw]
  | some t =>
    cases stoi r.permissions with
    | none => simp [throw, throwThe, MonadExceptOf.throw]
    | some p =>
      by_cases hdir : cString r.hash = dirHash
      · simp [hdir, pure, Except.pure]
      · by_cases hsize : r.size < 0
        · simp [hdir, hsize, throw, throwThe, MonadExceptOf.throw, bind, Except.bind]
        · simp [hdir, hsize, pure, Except.pure]

theorem restoreFile_filename {r : Row} {f : File} (h : restoreFile r = .ok f) :
    f.filename = r.filename.take (sqliteLength r.filename) := by
  unfold restoreFile at h
  cases htime : stoi r.lastWriteTime with
  | none => simp [htime, throw, throwThe, MonadExceptOf.throw] at h
  | some t =>
    cases hmode : stoi r.permissions with
    | none => simp [htime, hmode, throw, throwThe, MonadExceptOf.throw] at h
    | some p =>
      by_cases hdir : cString r.hash = dirHash
      · simp [htime, hmode, hdir, pure, Except.pure] at h
        rw [← h]
      · by_cases hsize : r.size < 0
        · simp [htime, hmode, hdir, hsize, throw, throwThe, MonadExceptOf.throw, bind,
            Except.bind] at h
        · simp [htime, hmode, hdir, hsize, pure, Except.pure] at h
          rw [← h]

/-- Rows that all decode give the files of the map. -/
theorem exists_files {rows : List Row} (h : ∀ r ∈ rows, ¬Undecodable r) :
    ∃ files : List File, rows.map restoreFile = files.map .ok := by
  have hrange : rows.map restoreFile ∈ Set.range (List.map Except.ok) := by
    rw [Set.range_list_map]
    intro e he
    obtain ⟨r, hr, rfl⟩ := List.mem_map.mp he
    cases hdecode : restoreFile r with
    | ok f => exact ⟨f, rfl⟩
    | error what => exact absurd ((restoreFile_throws_iff r).mp ⟨what, hdecode⟩) (h r hr)
  obtain ⟨files, hfiles⟩ := hrange
  exact ⟨files, hfiles.symm⟩

/-- An answer is a prefix of the rows and a last code; the last code tells whether it is all. -/
theorem answers_split {ρ : Type} {rows : List ρ} {steps : List (Step ρ)} (h : Answers rows steps) :
    ∃ (rows' : List ρ) (last : Step ρ), steps = rows'.map .row ++ [last] ∧
      ∀ r, last ≠ .row r := by
  cases h with
  | done => exact ⟨rows, .done, rfl, done_ne_row⟩
  | error k code => exact ⟨rows.take k, .error code, rfl, fun r => by simp⟩

theorem mem_delivered {ρ : Type} {rows : List ρ} {last : Step ρ} (hlast : ∀ r, last ≠ .row r)
    (r : ρ) : Step.row r ∈ rows.map Step.row ++ [last] ↔ r ∈ rows := by
  have hne : Step.row r ≠ last := fun h => hlast r h.symm
  simp [hne]

/-- A complete answer with whole names gives a map that has every row. -/
theorem entries_of_complete {rows : List Row} {m : RestoreMap}
    (hsorted : (rows.map Row.filename).Pairwise (· < ·)) (hwhole : ∀ r ∈ rows, WholeName r)
    (hm : getRestoreEntries (complete rows) = .ok m) :
    ∀ r ∈ rows, ∃ f, restoreFile r = .ok f ∧ (r.filename, f) ∈ m.entries := by
  obtain ⟨files, hfiles, rfl⟩ := (getRestoreEntries_rows done_ne_row).mp hm
  have hdecode : ∀ r ∈ rows, ∃ f ∈ files, restoreFile r = .ok f ∧ f.filename = r.filename := by
    intro r hr
    have hmem : restoreFile r ∈ files.map Except.ok := by
      rw [← hfiles]
      exact List.mem_map_of_mem hr
    obtain ⟨f, hf, heq⟩ := List.mem_map.mp hmem
    refine ⟨f, hf, heq.symm, ?_⟩
    rw [restoreFile_filename heq.symm, List.take_of_length_le (hwhole r hr)]
  have hnames : files.map File.filename = rows.map Row.filename := by
    have hsome := congrArg (List.map fun e : Except String File => e.toOption.map File.filename)
      hfiles
    rw [List.map_map, List.map_map] at hsome
    apply List.map_injective_iff.mpr (Option.some_injective Bytes)
    rw [List.map_map, List.map_map]
    refine hsome.symm.trans (List.map_congr_left fun r hr => ?_)
    obtain ⟨f, -, hf, hname⟩ := hdecode r hr
    rw [Function.comp_apply, hf, Function.comp_apply, ← hname]
    rfl
  intro r hr
  obtain ⟨f, hf, hok, hname⟩ := hdecode r hr
  refine ⟨f, hok, ?_⟩
  rw [insertAll_empty (by rwa [hnames]), ← hname]
  exact List.mem_map_of_mem hf

theorem restoreWhole_iff {rows : List Row} {steps : List (Step Row)}
    (hsorted : (rows.map Row.filename).Pairwise (· < ·)) (h : Answers rows steps) :
    RestoreWhole rows steps ↔
      (steps = complete rows ∧ ∀ r ∈ rows, WholeName r) ∨
        ∃ r, .row r ∈ steps ∧ Undecodable r := by
  obtain ⟨rows', last, hsteps, hlast⟩ := answers_split h
  constructor
  · intro hwhole
    by_cases hdecode : ∀ r ∈ rows', ¬Undecodable r
    · left
      obtain ⟨files, hfiles⟩ := exists_files hdecode
      have hok : getRestoreEntries steps = .ok (insertAll .empty files) := by
        rw [hsteps]
        exact (getRestoreEntries_rows hlast).mpr ⟨files, hfiles, rfl⟩
      obtain ⟨hcomplete, hentries⟩ := hwhole _ hok
      refine ⟨hcomplete, fun r hr => ?_⟩
      obtain ⟨f, hf, hmem⟩ := hentries r hr
      have hname := (mem_entries_insertAll hmem).1
      rw [restoreFile_filename hf] at hname
      have hlen := congrArg List.length hname
      rw [List.length_take] at hlen
      unfold WholeName
      omega
    · right
      push Not at hdecode
      obtain ⟨r, hr, hbad⟩ := hdecode
      refine ⟨r, ?_, hbad⟩
      rw [hsteps]
      exact (mem_delivered hlast r).mpr hr
  · intro hcond m hm
    rcases hcond with hcomplete | hbad
    · obtain ⟨rfl, hnames⟩ := hcomplete
      exact ⟨rfl, entries_of_complete hsorted hnames hm⟩
    · obtain ⟨r, hr, hbad⟩ := hbad
      rw [hsteps] at hr hm
      obtain ⟨files, hfiles, -⟩ := (getRestoreEntries_rows hlast).mp hm
      have hmem := List.mem_map_of_mem (f := restoreFile) ((mem_delivered hlast r).mp hr)
      rw [hfiles] at hmem
      obtain ⟨f, -, hf⟩ := List.mem_map.mp hmem
      obtain ⟨what, hthrow⟩ := (restoreFile_throws_iff r).mpr hbad
      exact absurd (hthrow.symm.trans hf.symm) (by simp)

theorem initializationWhole_iff {rows : List Row} {steps : List (Step Row)}
    (hsorted : (rows.map Row.filename).Pairwise (· < ·)) (h : Answers rows steps) :
    InitializationWhole rows steps ↔
      steps = complete rows ∧ ∀ r ∈ rows, 0 ∉ r.filename ∧ 0 ∉ r.hash := by
  obtain ⟨rows', last, hsteps, hlast⟩ := answers_split h
  constructor
  · intro hwhole
    have hok := getInitailizationEntries_rows rows' hlast
    rw [← hsteps] at hok
    obtain ⟨hcomplete, hentries⟩ := hwhole _ hok
    refine ⟨hcomplete, fun r hr => ?_⟩
    rcases SortedMap.mem_entries_insertList (hentries r hr) with hempty | hmem
    · exact absurd hempty (by simp [SortedMap.empty])
    · obtain ⟨r', -, heq⟩ := List.mem_map.mp hmem
      obtain ⟨hname, hhash⟩ := Prod.mk.inj heq
      rw [← hname, ← hhash]
      have hnot : ∀ text : Bytes, 0 ∉ cString text := by
        intro text hzero
        simpa using List.all_eq_true.mp List.all_takeWhile 0 hzero
      exact ⟨hnot _, hnot _⟩
  · intro hcond m hm
    obtain ⟨rfl, hclean⟩ := hcond
    refine ⟨rfl, fun r hr => ?_⟩
    rw [complete, getInitailizationEntries_rows _ done_ne_row] at hm
    have hentries : rows.map (fun r => (cString r.filename, cString r.hash)) =
        rows.map fun r => (r.filename, r.hash) := by
      apply List.map_congr_left
      intro r hr
      rw [cString_of_not_mem (hclean r hr).1, cString_of_not_mem (hclean r hr).2]
    rw [hentries] at hm
    rw [← Except.ok.inj hm, SortedMap.insertList_empty (by rw [List.map_map]; exact hsorted)]
    exact List.mem_map_of_mem (f := fun r : Row => (r.filename, r.hash)) hr

theorem passwordWhole_iff {passwords : List Bytes} {steps : List (Step Bytes)}
    (h : Answers passwords steps) :
    PasswordWhole steps ↔ ∀ code, steps.head? ≠ some (.error code) := by
  constructor
  · intro hwhole code hhead
    obtain ⟨rest, rfl⟩ := List.head?_eq_some_iff.mp hhead
    rcases hwhole none rfl with hnone | hsome
    · exact absurd hnone.2 (by simp)
    · obtain ⟨password, hpassword, -⟩ := hsome
      exact absurd hpassword (by simp)
  · intro hhead answer hanswer
    cases steps with
    | nil =>
      obtain ⟨rows', last, hsteps, -⟩ := answers_split h
      exact absurd hsteps (by simp)
    | cons step steps =>
      cases step with
      | row password => exact Or.inr ⟨password, (Except.ok.inj hanswer).symm, rfl⟩
      | done => exact Or.inl ⟨(Except.ok.inj hanswer).symm, rfl⟩
      | error code => exact absurd rfl (hhead code)

end Rows

section Snapshot

variable {φ : Type} {ops : FileOps φ}

/-- A loop that returns has taken as many entries as it was told. -/
theorem receiveEntries_received {n : ℕ} {v : Locals} {s s' : Session (Restoring φ)}
    (h : receiveEntries ops n v s = (.returns (), s')) :
    ∃ entries : List Entry, entries.length = n ∧
      s'.world.received = s.world.received ++ entries.map Received.entry := by
  induction n generalizing v s with
  | zero =>
    rw [receiveEntries, Prog.pure_apply, Prod.mk.injEq] at h
    exact ⟨[], rfl, by rw [← h.2, List.map_nil, List.append_nil]⟩
  | succ n ih =>
    rw [receiveEntries] at h
    obtain ⟨v₁, s₁, hentry, hrest⟩ := Prog.bind_returns h
    obtain ⟨pathLength, s₂, hlength, hentry⟩ := Prog.bind_returns hentry
    obtain ⟨path, s₃, hpath, hentry⟩ := Prog.bind_returns hentry
    obtain ⟨lastWriteTime, s₄, htime, hentry⟩ := Prog.bind_returns hentry
    obtain ⟨permissions, s₅, hmode, hstore⟩ := Prog.bind_returns hentry
    have hsame : s.world.received = s₅.world.received :=
      ((Prog.Steps.recvInt (R := SameReceived) _ _).returns hlength).trans
        (((Prog.Steps.recvLine (R := SameReceived) _ _).returns hpath).trans
          (((Prog.Steps.recvInt (R := SameReceived) _ _).returns htime).trans
            ((Prog.Steps.recvInt (R := SameReceived) _ _).returns hmode)))
    obtain ⟨e, hreceived, -⟩ := storeEntry_received hstore
    obtain ⟨entries, hlen, hentries⟩ := ih hrest
    refine ⟨e :: entries, by rw [List.length_cons, hlen], ?_⟩
    rw [hentries, hreceived, hsame, List.map_cons, List.append_assoc]
    rfl

/-- A restore that returns has taken as many entries as the count said. -/
theorem actionRestore_received {v : Locals} {pathNumber : ℤ} {date userPath : Bytes}
    {s s' : Session (Restoring φ)}
    (h : Client.actionRestore ops v pathNumber date userPath s = (.returns (), s')) :
    ∃ (n : ℤ) (s₁ : Session (Restoring φ)) (entries : List Entry),
      Prog.recvInt intMaxNDigit pathNumber { s with world :=
        { s.world with sent := s.world.sent ++ [dateBlock date] } } = (.returns n, s₁) ∧
      entries.length = n.toNat ∧
      s'.world.received = s.world.received ++ .count n :: entries.map Received.entry := by
  obtain ⟨n, s₁, s₃, files, files', hcount, hentries, rfl⟩ := actionRestore_phases h
  obtain ⟨entries, hlen, hreceived⟩ := receiveEntries_received hentries
  have hsame := (Prog.Steps.recvInt (R := SameReceived) _ _).returns hcount
  have hsame : s.world.received = s₁.world.received := hsame
  refine ⟨n, s₁, entries, hcount, hlen, ?_⟩
  dsimp only
  rw [hreceived, hsame, List.append_assoc]
  rfl

/-- A map that has every row makes a snapshot that has every row. -/
theorem snapshotWhole_of_restoreWhole {rows : List Row} {steps : List (Step Row)} (index : ℤ)
    (hsorted : (rows.map Row.filename).Pairwise (· < ·)) (h : RestoreWhole rows steps) :
    SnapshotWhole rows steps index := by
  intro m hm φ ops v pathNumber date userPath residue later closed files s' hr hrun
  have hentries := (h m hm).2
  have hlen : rows.length ≤ m.entries.length := by
    have hsub : rows.map Row.filename ⊆ m.entries.map Prod.fst := by
      intro name hname
      obtain ⟨r, hr, rfl⟩ := List.mem_map.mp hname
      obtain ⟨f, -, hmem⟩ := hentries r hr
      exact List.mem_map.mpr ⟨_, hmem, rfl⟩
    have hnodup : (rows.map Row.filename).Nodup := hsorted.imp ne_of_lt
    have hle := (List.subperm_of_subset hnodup hsub).length_le
    rwa [List.length_map, List.length_map] at hle
  obtain ⟨n, s₁, entries, hcount, hn, hreceived⟩ := actionRestore_received hrun
  rw [restoreBytes_eq, List.append_assoc] at hcount
  have hvalue := Prog.recvInt_count (by decide) hr hcount
  refine ⟨n, entries, hreceived, ?_⟩
  have hnonneg : 0 ≤ Istream.intMax := by decide
  omega

end Snapshot

/-- No query that fails midway is taken for complete, exactly when none fails midway or the rows
that came before throw anyway, and no name or hash is cut. -/
theorem query_failure (table : UserTable) (deleteCode : ActionType) (date : Bytes)
    (users : List (Bytes × Bytes)) (username : Bytes) (index : ℤ)
    {restore initialization : List (Step Row)} {user : List (Step Bytes)}
    (hrestore : Answers (selectRestore table deleteCode date) restore)
    (hinitialization : Answers (selectInitialization table deleteCode) initialization)
    (huser : Answers (selectPassword users username) user) :
    (RestoreWhole (selectRestore table deleteCode date) restore ∧
      SnapshotWhole (selectRestore table deleteCode date) restore index ∧
      InitializationWhole (selectInitialization table deleteCode) initialization ∧
      PasswordWhole user) ↔
    ((restore = complete (selectRestore table deleteCode date) ∧
        ∀ r ∈ selectRestore table deleteCode date, WholeName r) ∨
      ∃ r, .row r ∈ restore ∧ Undecodable r) ∧
    (initialization = complete (selectInitialization table deleteCode) ∧
      ∀ r ∈ selectInitialization table deleteCode, 0 ∉ r.filename ∧ 0 ∉ r.hash) ∧
    ∀ code, user.head? ≠ some (.error code) := by
  have hsorted := selectRestore_sorted table deleteCode date
  have hsorted' := selectInitialization_sorted table deleteCode
  constructor
  · intro h
    obtain ⟨hmap, -, hinit, hpassword⟩ := h
    exact ⟨(restoreWhole_iff hsorted hrestore).mp hmap,
      (initializationWhole_iff hsorted' hinitialization).mp hinit,
      (passwordWhole_iff huser).mp hpassword⟩
  · intro h
    obtain ⟨hmap, hinit, hpassword⟩ := h
    have hwhole := (restoreWhole_iff hsorted hrestore).mpr hmap
    exact ⟨hwhole, snapshotWhole_of_restoreWhole index hsorted hwhole,
      (initializationWhole_iff hsorted' hinitialization).mpr hinit,
      (passwordWhole_iff huser).mpr hpassword⟩

/-- The table that holds the folder `/d`. -/
def folderTable : UserTable := ⟨[folderRow], List.pairwise_singleton _ _⟩

theorem selectRestore_folderTable :
    selectRestore folderTable .deletePath sampleDate = [folderRow] := by decide

theorem selectInitialization_folderTable :
    selectInitialization folderTable .deletePath = [folderRow] := by decide

theorem query_failure_none :
    RestoreWhole (selectRestore folderTable .deletePath sampleDate) (complete [folderRow]) ∧
      SnapshotWhole (selectRestore folderTable .deletePath sampleDate) (complete [folderRow]) 7 ∧
      InitializationWhole (selectInitialization folderTable .deletePath) (complete [folderRow]) ∧
      PasswordWhole [.done] := by
  have hrestore : Answers (selectRestore folderTable .deletePath sampleDate)
      (complete [folderRow]) := by
    rw [selectRestore_folderTable]
    exact .done
  have hinitialization : Answers (selectInitialization folderTable .deletePath)
      (complete [folderRow]) := by
    rw [selectInitialization_folderTable]
    exact .done
  have huser : Answers (selectPassword [] []) [.done] := .done
  apply (query_failure folderTable .deletePath sampleDate [] [] 7 hrestore hinitialization
    huser).mpr
  rw [selectRestore_folderTable, selectInitialization_folderTable]
  refine ⟨Or.inl ⟨rfl, ?_⟩, ⟨rfl, ?_⟩, ?_⟩
  · intro r hr
    rw [List.mem_singleton.mp hr]
    exact Nat.le_of_ble_eq_true rfl
  · intro r hr
    rw [List.mem_singleton.mp hr]
    decide
  · simp

/-- A client that receives an empty map returns with no entry at all. -/
theorem actionRestore_empty (wire : Bytes) :
    ∃ s', Client.actionRestore willingOps zeroLocals 0 [] []
        ⟨restoreBytes .empty ++ wire, true, .fresh [], ⟨[], (), []⟩⟩ = (.returns (), s') ∧
      s'.world.received = [.count 0] := by
  have hnone : filesOf .empty = [] := rfl
  have hends : Prog.Ends (Client.actionRestore willingOps zeroLocals 0 [] [])
      ⟨restoreBytes .empty ++ wire, true, .fresh [], ⟨[], (), []⟩⟩
      (fun _ s' => Arrived wire true ([] ++ expected .empty) s')
      (fun s' => ¬willingOps.Succeeds ∧ s'.world.received <+: [] ++ expected .empty) :=
    ends_actionRestore (by simp [hnone]) Blank.nil zeroLocals 0 [] [] (by decide) (by simp [hnone])
  obtain ⟨_, s', hrun, harrived⟩ := (hends.mono (fun _ _ h => h)
    fun _ h => h.1 succeeds_willingOps).exists_returns
  obtain ⟨residue, world, -, rfl, hreceived⟩ := harrived
  exact ⟨_, hrun, hreceived⟩

/-- `SQLITE_BUSY` before the first row: every query returns all the same, and the client replaces
its folder by an empty one. -/
theorem query_failure_busy :
    (Answers (selectRestore folderTable .deletePath sampleDate) [.error 5] ∧
      Answers (selectInitialization folderTable .deletePath) [.error 5] ∧
      Answers (selectPassword [([97], [98])] [97]) [.error 5]) ∧
    ¬RestoreWhole (selectRestore folderTable .deletePath sampleDate) [.error 5] ∧
    ¬SnapshotWhole (selectRestore folderTable .deletePath sampleDate) [.error 5] 7 ∧
    ¬InitializationWhole (selectInitialization folderTable .deletePath) [.error 5] ∧
    ¬PasswordWhole [.error 5] := by
  have hmap : getRestoreEntries [.error 5] = .ok .empty := rfl
  have hinit : getInitailizationEntries [.error 5] = .ok .empty := rfl
  have hne : [Step.error 5] ≠ complete [folderRow] := by simp [complete]
  rw [selectRestore_folderTable, selectInitialization_folderTable]
  refine ⟨⟨.error 0 5, .error 0 5, .error 0 5⟩, fun h => hne (h _ hmap).1, ?_,
    fun h => hne (h _ hinit).1, ?_⟩
  · intro h
    obtain ⟨s', hrun, hreceived⟩ := actionRestore_empty (responseBytes 7 .completed ++ [])
    obtain ⟨n, entries, hreceived', hle⟩ := h _ hmap Unit willingOps zeroLocals 0 [] [] [] [] true ()
      s' Blank.nil hrun
    rw [hreceived] at hreceived'
    have hentries : entries = [] := by simpa using (List.cons.inj hreceived').2.symm
    rw [hentries] at hle
    exact absurd hle (by decide)
  · intro h
    rcases h none rfl with hdone | hrow
    · exact absurd hdone.2 (by simp)
    · obtain ⟨password, hpassword, -⟩ := hrow
      exact absurd hpassword (by simp)

end BackupManager.Protocol
