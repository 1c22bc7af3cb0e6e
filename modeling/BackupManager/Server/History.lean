import BackupManager.Server.Database

/-! The per-user table as a dated history: what the upserts of `addAction` leave in it, and what
the two queries select, in terms of the sequence of calls. -/
namespace BackupManager.Server
open ByteStream Protocol Table

/-- A sequence of calls of `addAction` on a table; `none` when one of them throws. -/
def addActions (table : UserTable) (calls : List AddAction) : Option UserTable :=
  calls.foldlM addAction table

/-- The calls on a file with an admitted timestamp. -/
def callsOn (calls : List AddAction) (admits : Bytes → Bool) (filename : Bytes) : List AddAction :=
  calls.filter (fun c => c.filename = filename ∧ admits c.timestamp)

/-- The last call, in call order, among those with the greatest admitted timestamp. -/
def lastCall (calls : List AddAction) (admits : Bytes → Bool) (filename : Bytes) :
    Option AddAction :=
  ((callsOn calls admits filename).filter fun c =>
    (callsOn calls admits filename).all fun c' => decide (c'.timestamp ≤ c.timestamp)).getLast?

/-- An update of a key that exists. -/
theorem updateRows_rows {table : UserTable} {r : Row}
    (hkey : checkKeyExist table r.filename r.timestamp = true) :
    (updateRows table r).rows = upsert Row.filename Row.timestamp table.rows r := by
  rw [upsert_of_exists (checkKeyExist_iff.mp hkey)]
  refine List.map_congr_left fun x _ => ?_
  by_cases hx : x.filename = r.filename ∧ x.timestamp = r.timestamp
  · have hk : SameKey Row.filename Row.timestamp x r := hx
    rw [if_pos hx, if_pos hk, hx.1, hx.2]
  · have hk : ¬SameKey Row.filename Row.timestamp x r := hx
    rw [if_neg hx, if_neg hk]

/-- An insertion of a key that does not exist. -/
theorem insertRow_rows {table : UserTable} {r : Row}
    (hkey : ¬checkKeyExist table r.filename r.timestamp = true) :
    ∃ table', insertRow table r = some table' ∧
      table'.rows = upsert Row.filename Row.timestamp table.rows r := by
  have hfresh : ∀ x ∈ table.rows, ¬SameKey Row.filename Row.timestamp x r :=
    fun x hx hk => hkey (checkKeyExist_iff.mpr ⟨x, hx, hk⟩)
  refine ⟨_, dif_neg hkey, ?_⟩
  rw [upsert_of_fresh hfresh]

/-- One call is one upsert of the row it binds. -/
theorem addAction_rows {table table' : UserTable} {c : AddAction}
    (h : addAction table c = some table') :
    table'.rows = upsert Row.filename Row.timestamp table.rows c.row := by
  unfold addAction at h
  split at h
  · next hkey =>
    rw [← Option.some.inj h]
    exact updateRows_rows hkey
  · next hkey =>
    obtain ⟨table₁, hinsert, hrows⟩ := insertRow_rows (r := c.row) hkey
    rw [← Option.some.inj (hinsert.symm.trans h)]
    exact hrows

/-- The key check leaves no call that violates the primary key. -/
theorem addAction_isSome (table : UserTable) (c : AddAction) : (addAction table c).isSome = true := by
  unfold addAction
  split
  · rfl
  · next hkey =>
    obtain ⟨table', hinsert, -⟩ := insertRow_rows (r := c.row) hkey
    rw [hinsert]
    rfl

theorem addActions_rows (calls : List AddAction) (table : UserTable) :
    ∃ table', addActions table calls = some table' ∧
      table'.rows = (calls.map AddAction.row).foldl (upsert Row.filename Row.timestamp) table.rows := by
  induction calls generalizing table with
  | nil => exact ⟨table, rfl, rfl⟩
  | cons c calls ih =>
    obtain ⟨table₁, h₁⟩ := Option.isSome_iff_exists.mp (addAction_isSome table c)
    obtain ⟨table', h', hrows⟩ := ih table₁
    refine ⟨table', ?_, ?_⟩
    · rw [addActions, List.foldlM_cons, h₁]
      exact h'
    · rw [hrows, addAction_rows h₁]
      rfl

theorem mem_callsOn {calls : List AddAction} {admits : Bytes → Bool} {filename : Bytes}
    {c : AddAction} :
    c ∈ callsOn calls admits filename ↔
      c ∈ calls ∧ c.filename = filename ∧ admits c.timestamp = true := by
  simp [callsOn]

/-- The last call is the last write of the table library. -/
theorem lastWrite_row (calls : List AddAction) (admits : Bytes → Bool) (filename : Bytes) :
    lastWrite Row.filename Row.timestamp (calls.map AddAction.row) admits filename =
      (lastCall calls admits filename).map AddAction.row := by
  rw [lastWrite, List.filter_map, List.getLast?_map, lastCall, callsOn, List.filter_filter]
  congr 2
  refine List.filter_congr fun c hc => ?_
  rw [Bool.eq_iff_iff]
  simp only [Function.comp_apply, decide_eq_true_eq, Bool.and_eq_true, List.all_eq_true]
  rw [newest_eq_some_iff]
  constructor
  · rintro ⟨hf, ⟨r, hr, hrf, hra, hrt⟩, hmax⟩
    have hadm : admits c.timestamp = true := by
      have ht : r.timestamp = c.timestamp := hrt
      rwa [← ht]
    refine ⟨?_, hf, hadm⟩
    intro c' hc'
    obtain ⟨hc', hf', ha'⟩ := mem_callsOn.mp hc'
    exact hmax c'.row (List.mem_map_of_mem hc') hf' ha'
  · rintro ⟨hmax, hf, ha⟩
    refine ⟨hf, ⟨c.row, List.mem_map_of_mem hc, hf, ha, rfl⟩, ?_⟩
    intro r hr hrf hra
    obtain ⟨c', hc', rfl⟩ := List.mem_map.mp hr
    exact hmax c' (mem_callsOn.mpr ⟨hc', hrf, hra⟩)

theorem mem_orderByFilename {rows : List Row} {r : Row} : r ∈ orderByFilename rows ↔ r ∈ rows :=
  List.mem_insertionSort _

/-- Rows with distinct filenames come out strictly sorted. -/
theorem orderByFilename_sorted {rows : List Row} (h : (rows.map Row.filename).Nodup) :
    ((orderByFilename rows).map Row.filename).Pairwise (· < ·) := by
  have : Std.Total (fun r r' : Row => r.filename ≤ r'.filename) := ⟨fun r r' => le_total _ _⟩
  have : IsTrans Row (fun r r' => r.filename ≤ r'.filename) := ⟨fun _ _ _ => le_trans⟩
  have hle : (orderByFilename rows).Pairwise (fun r r' => r.filename ≤ r'.filename) :=
    List.pairwise_insertionSort _ rows
  have hne : ((orderByFilename rows).map Row.filename).Nodup :=
    ((List.perm_insertionSort _ rows).map Row.filename).nodup_iff.mpr h
  rw [List.pairwise_map]
  exact (hle.and (List.pairwise_map.mp hne)).imp fun h => lt_of_le_of_ne h.1 h.2

theorem selectRestore_sorted (table : UserTable) (deleteCode : ActionType) (date : Bytes) :
    ((selectRestore table deleteCode date).map Row.filename).Pairwise (· < ·) :=
  orderByFilename_sorted (table.keyed.nodup_current _ _)

theorem selectInitialization_sorted (table : UserTable) (deleteCode : ActionType) :
    ((selectInitialization table deleteCode).map Row.filename).Pairwise (· < ·) :=
  orderByFilename_sorted (table.keyed.nodup_current _ _)

section Calls

variable {calls : List AddAction} {table : UserTable}

theorem rows_of_addActions (h : addActions .empty calls = some table) :
    table.rows = replay Row.filename Row.timestamp (calls.map AddAction.row) := by
  obtain ⟨table', h', hrows⟩ := addActions_rows calls .empty
  rw [h', Option.some.injEq] at h
  rw [← h, hrows]
  rfl

/-- A row is read exactly when it is what the last admitted call of its file bound, and that
call is none that is left out. -/
theorem mem_current_iff_lastCall (h : addActions .empty calls = some table)
    (admits : Bytes → Bool) (deleteCode : ActionType) (r : Row) :
    r ∈ current Row.filename Row.timestamp table.rows admits
        (fun r => decide (r.action ≠ deleteCode)) ↔
      ∃ c, lastCall calls admits r.filename = some c ∧ c.action ≠ deleteCode ∧ r = c.row := by
  rw [rows_of_addActions h, mem_current_replay, lastWrite_row, Option.map_eq_some_iff]
  constructor
  · intro hr
    obtain ⟨hkeep, c, hc, hrow⟩ := hr
    refine ⟨c, hc, ?_, hrow.symm⟩
    rw [decide_eq_true_eq, ← hrow] at hkeep
    exact hkeep
  · intro hr
    obtain ⟨c, hc, hkeep, hrow⟩ := hr
    refine ⟨?_, c, hc, hrow.symm⟩
    rw [decide_eq_true_eq, hrow]
    exact hkeep

theorem mem_selectRestore_iff (h : addActions .empty calls = some table) (deleteCode : ActionType)
    (date : Bytes) (r : Row) :
    r ∈ selectRestore table deleteCode date ↔
      ∃ c, lastCall calls (fun t => decide (t ≤ date)) r.filename = some c ∧
        c.action ≠ deleteCode ∧ r = c.row := by
  rw [selectRestore, mem_orderByFilename]
  exact mem_current_iff_lastCall h _ deleteCode r

theorem mem_selectInitialization_iff (h : addActions .empty calls = some table)
    (deleteCode : ActionType) (r : Row) :
    r ∈ selectInitialization table deleteCode ↔
      ∃ c, lastCall calls (fun _ => true) r.filename = some c ∧ c.action ≠ deleteCode ∧
        r = c.row := by
  rw [selectInitialization, mem_orderByFilename]
  exact mem_current_iff_lastCall h _ deleteCode r

theorem selectRestore_of_later {c : AddAction} {table' : UserTable} {date : Bytes}
    (deleteCode : ActionType) (hdate : date < c.timestamp) (h : addAction table c = some table') :
    selectRestore table' deleteCode date = selectRestore table deleteCode date := by
  have hcur : current Row.filename Row.timestamp
        (upsert Row.filename Row.timestamp table.rows c.row)
        (fun t => decide (t ≤ date)) (fun r => decide (r.action ≠ deleteCode)) =
      current Row.filename Row.timestamp table.rows
        (fun t => decide (t ≤ date)) (fun r => decide (r.action ≠ deleteCode)) :=
    current_upsert_of_not_admitted (decide_eq_false (not_le.mpr hdate))
  rw [selectRestore, selectRestore, addAction_rows h, hcur]

theorem mem_of_lastCall {admits : Bytes → Bool} {filename : Bytes} {c : AddAction}
    (h : lastCall calls admits filename = some c) : c ∈ calls ∧ c.filename = filename := by
  have hmem := List.mem_of_mem_filter (List.mem_of_getLast? h)
  exact ⟨(mem_callsOn.mp hmem).1, (mem_callsOn.mp hmem).2.1⟩

end Calls

/-- The row that carries the file and the other arguments of a call as they are. -/
def AddAction.wholeRow (c : AddAction) : Row :=
  ⟨c.filename, c.timestamp, c.file, c.size, c.action, c.hash, c.lastWriteTime, c.permissions⟩

theorem AddAction.row_eq_wholeRow {c : AddAction} (h : c.size = c.file.length) :
    c.row = c.wholeRow := by
  have hsized : c.Sized := ⟨by omega, by omega⟩
  rw [row, wholeRow, if_pos hsized, h, Int.toNat_natCast, List.take_length]

/-- The table is a dated history of the calls: one row for each key, and for each date and each
file the row of the last call with the greatest timestamp up to the date, unless that call is
a deletion. The calls pass the length of the file as its size; `action_read_file` does so unless the
peer has sent the size -1. -/
theorem dated_history (calls : List AddAction) (hsize : ∀ c ∈ calls, c.size = c.file.length) :
    ∃ table, addActions .empty calls = some table ∧
      (table.rows.map fun r => (r.filename, r.timestamp)).Nodup ∧
      (∀ date, ((selectRestore table .deletePath date).map Row.filename).Pairwise (· < ·) ∧
        ∀ r, r ∈ selectRestore table .deletePath date ↔
          ∃ c, lastCall calls (fun t => decide (t ≤ date)) r.filename = some c ∧
            c.action ≠ .deletePath ∧ r = c.wholeRow) ∧
      (((selectInitialization table .deletePath).map Row.filename).Pairwise (· < ·) ∧
        ∀ r, r ∈ selectInitialization table .deletePath ↔
          ∃ c, lastCall calls (fun _ => true) r.filename = some c ∧
            c.action ≠ .deletePath ∧ r = c.wholeRow) ∧
      ∀ date c table', date < c.timestamp → addAction table c = some table' →
        selectRestore table' .deletePath date = selectRestore table .deletePath date := by
  obtain ⟨table, h, -⟩ := addActions_rows calls .empty
  have hwhole : ∀ (admits : Bytes → Bool) (r : Row),
      (∃ c, lastCall calls admits r.filename = some c ∧ c.action ≠ .deletePath ∧ r = c.row) ↔
        ∃ c, lastCall calls admits r.filename = some c ∧ c.action ≠ .deletePath ∧
          r = c.wholeRow := by
    intro admits r
    refine exists_congr fun c => and_congr_right fun hc => ?_
    rw [AddAction.row_eq_wholeRow (hsize c (mem_of_lastCall hc).1)]
  refine ⟨table, h, table.keyed, ?_, ?_, ?_⟩
  · intro date
    refine ⟨selectRestore_sorted table _ date, fun r => ?_⟩
    rw [mem_selectRestore_iff h, hwhole]
  · refine ⟨selectInitialization_sorted table _, fun r => ?_⟩
    rw [mem_selectInitialization_iff h, hwhole]
  · intro date c table' hdate hadd
    exact selectRestore_of_later _ hdate hadd

/-- Two saves of the file `a` and a deletion, the clock stepping back in between. -/
def sampleCalls : List AddAction :=
  [⟨[97], [50], [1], 1, .readFile, [], [], [], []⟩, ⟨[97], [49], [2, 3], 2, .readFile, [], [], [], []⟩,
    ⟨[97], [51], [], 0, .deletePath, [], [], [], []⟩]

/-- The file `a` of 2024-05-01 with the size -1. -/
def unsizedCall : AddAction :=
  ⟨[97], [50, 48, 50, 52, 45, 48, 53, 45, 48, 49], [], -1, .readFile, [], [], [], [7]⟩

/-- Its row carries a byte that is not in the file. -/
theorem dated_history_unsized :
    ∃ table, addActions .empty [unsizedCall] = some table ∧
      ¬∀ r, r ∈ selectRestore table .deletePath unsizedCall.timestamp ↔
        ∃ c, lastCall [unsizedCall] (fun t => decide (t ≤ unsizedCall.timestamp)) r.filename =
          some c ∧ c.action ≠ .deletePath ∧ r = c.wholeRow := by
  obtain ⟨table, h, -⟩ := addActions_rows [unsizedCall] .empty
  refine ⟨table, h, fun hall => ?_⟩
  have hselected : unsizedCall.row ∈ selectRestore table .deletePath unsizedCall.timestamp :=
    (mem_selectRestore_iff h _ _ _).mpr ⟨unsizedCall, by decide, by decide, rfl⟩
  obtain ⟨c, hlast, -, hrow⟩ := (hall _).mp hselected
  rw [List.mem_singleton.mp (mem_of_lastCall hlast).1] at hrow
  exact absurd hrow (by decide)

theorem dated_history_sample :
    ∃ table, addActions .empty sampleCalls = some table ∧
      ⟨[97], [50], [1], 1, .readFile, [], [], []⟩ ∈ selectRestore table .deletePath [50] ∧
      ¬∃ r ∈ selectInitialization table .deletePath, r.filename = [97] := by
  obtain ⟨table, h, -, hrestore, hinit, -⟩ := dated_history sampleCalls (by decide)
  refine ⟨table, h, ((hrestore [50]).2 _).mpr ⟨_, rfl, by decide, rfl⟩, ?_⟩
  intro hr
  obtain ⟨r, hr, hname⟩ := hr
  obtain ⟨c, hc, haction, -⟩ := (hinit.2 r).mp hr
  rw [hname] at hc
  have hlast : lastCall sampleCalls (fun _ => true) [97] =
      some ⟨[97], [51], [], 0, .deletePath, [], [], [], []⟩ := by decide
  rw [hlast, Option.some.injEq] at hc
  rw [← hc] at haction
  exact haction rfl

end BackupManager.Server
