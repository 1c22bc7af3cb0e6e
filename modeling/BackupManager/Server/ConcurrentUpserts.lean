import BackupManager.Server.History
import BackupManager.Transition.Run

/-! Two handlers of a user call `addAction` at the same time, each on its own connection. A statement
is atomic; between the `SELECT` of `checkKeyExist` and the write that follows it the other handler may
do as it likes. -/
namespace BackupManager.Server.ConcurrentUpserts
open ByteStream Protocol Table Transition

inductive Side where
  | left
  | right
  deriving DecidableEq, Repr

def Side.other : Side → Side
  | .left => .right
  | .right => .left

/-- Where a call stands: before its `SELECT`, before its write, or over. -/
inductive CallAt where
  | selecting
  | writing (doesKeyExist : Bool)
  | returned
  | threw
  deriving DecidableEq, Repr

def CallAt.over : CallAt → Bool
  | .returned | .threw => true
  | _ => false

structure State where
  table : UserTable
  handler : Side → CallAt

def start (table : UserTable) : State := ⟨table, fun _ => .selecting⟩

/-- The handler is at this point of its call. -/
def State.at (s : State) (side : Side) (c : CallAt) : State :=
  { s with handler := Function.update s.handler side c }

/-- The handler has written. -/
def State.returns (s : State) (side : Side) (table : UserTable) : State :=
  ⟨table, Function.update s.handler side .returned⟩

/-- The next statement of a handler. -/
def statement (calls : Side → AddAction) (s : State) (side : Side) : Option State :=
  match s.handler side with
  | .selecting => some (s.at side
      (.writing (checkKeyExist s.table (calls side).filename (calls side).timestamp)))
  | .writing true => some (s.returns side (updateRows s.table (calls side).row))
  | .writing false =>
    match insertRow s.table (calls side).row with
    | none => some (s.at side .threw)
    | some table => some (s.returns side table)
  | _ => none

/-- Neither call throws, the table keeps one row for each key, and it is what the two upserts leave in
the order in which they were written: under a shared key, the last one's row. -/
structure Succeeded (calls : Side → AddAction) (table : UserTable) (statements : List Side) (s : State) :
    Prop where
  returned : ∀ side, s.handler side = .returned
  keyed : Keyed Row.filename Row.timestamp s.table.rows
  written : ∀ side ∈ statements.getLast?, s.table.rows =
    upsert Row.filename Row.timestamp
      (upsert Row.filename Row.timestamp table.rows (calls side.other).row) (calls side).row
  last : ∀ side ∈ statements.getLast?, ∀ r,
    r ∈ s.table.rows ∧ r.filename = (calls side).filename ∧ r.timestamp = (calls side).timestamp ↔
      r = (calls side).row

/-- Both `SELECT`s come before both writes, and neither finds the key that both calls write. -/
def Race (calls : Side → AddAction) (table : UserTable) (statements : List Side) : Prop :=
  statements[0]? ≠ statements[1]? ∧
  SameKey AddAction.filename AddAction.timestamp (calls .left) (calls .right) ∧
  checkKeyExist table (calls .left).filename (calls .left).timestamp = false

section Statements

variable (calls : Side → AddAction) {s s' : State} (side : Side)

@[simp] theorem other_other (side : Side) : side.other.other = side := by cases side <;> rfl

theorem other_ne (side : Side) : side.other ≠ side := by cases side <;> decide

@[simp] theorem at_self (s : State) (side : Side) (c : CallAt) : (s.at side c).handler side = c := by
  unfold State.at
  simp

@[simp] theorem at_other (s : State) (side : Side) (c : CallAt) :
    (s.at side c).handler side.other = s.handler side.other := by
  unfold State.at
  simp [other_ne]

@[simp] theorem returns_self (s : State) (side : Side) (table : UserTable) :
    (s.returns side table).handler side = .returned := at_self s side .returned

@[simp] theorem returns_other (s : State) (side : Side) (table : UserTable) :
    (s.returns side table).handler side.other = s.handler side.other := at_other s side .returned

@[simp] theorem returns_table (s : State) (side : Side) (table : UserTable) :
    (s.returns side table).table = table := rfl

theorem statement_select (h : s.handler side = .selecting) : statement calls s side = some (s.at side
    (.writing (checkKeyExist s.table (calls side).filename (calls side).timestamp))) := by
  unfold statement
  rw [h]

/-- The `SELECT` still holds: the call ends as `addAction` would. -/
theorem statement_write (h : s.handler side =
      .writing (checkKeyExist s.table (calls side).filename (calls side).timestamp)) :
    ∃ table, addAction s.table (calls side) = some table ∧
      statement calls s side = some (s.returns side table) := by
  unfold statement
  rw [h]
  unfold addAction
  cases hkey : checkKeyExist s.table (calls side).filename (calls side).timestamp with
  | true => exact ⟨_, rfl, rfl⟩
  | false =>
    have hfree : ¬checkKeyExist s.table (calls side).row.filename (calls side).row.timestamp = true :=
      fun h => absurd (hkey.symm.trans h) (by simp)
    obtain ⟨table, hinsert, -⟩ := insertRow_rows hfree
    refine ⟨table, hinsert, ?_⟩
    simp only [hinsert]

/-- The key has come in since the `SELECT`: the insertion fails. -/
theorem statement_refused (h : s.handler side = .writing false)
    (hkey : checkKeyExist s.table (calls side).filename (calls side).timestamp = true) :
    statement calls s side = some (s.at side .threw) := by
  have hinsert : insertRow s.table (calls side).row = none := dif_pos hkey
  unfold statement
  rw [h]
  simp only [hinsert]

/-- A handler that is left alone does what `addAction` does. -/
theorem run_alone (h : s.handler side = .selecting) :
    ∃ table, addAction s.table (calls side) = some table ∧
      run (statement calls) s [side, side] = some (s.returns side table) := by
  obtain ⟨table, hadd, hwrite⟩ := statement_write calls side (s := s.at side
    (.writing (checkKeyExist s.table (calls side).filename (calls side).timestamp))) (at_self _ _ _)
  refine ⟨table, hadd, ?_⟩
  rw [run, statement_select calls side h, Option.bind_some, run, hwrite, Option.bind_some, run]
  simp [State.at, State.returns]

/-- How many statements a call still has. -/
def CallAt.left : CallAt → ℕ
  | .selecting => 2
  | .writing _ => 1
  | _ => 0

/-- A statement brings its own call on and leaves the other where it is. -/
theorem statement_left (h : statement calls s side = some s') :
    (s'.handler side).left + 1 = (s.handler side).left ∧
      s'.handler side.other = s.handler side.other := by
  unfold statement at h
  split at h
  · next hat =>
    obtain rfl := Option.some.inj h
    simp [hat, CallAt.left]
  · next hat =>
    obtain rfl := Option.some.inj h
    simp [hat, CallAt.left]
  · next hat =>
    split at h
    · obtain rfl := Option.some.inj h
      simp [hat, CallAt.left]
    · obtain rfl := Option.some.inj h
      simp [hat, CallAt.left]
  · cases h

theorem run_left {statements : List Side} (h : run (statement calls) s statements = some s')
    (side : Side) : statements.count side + (s'.handler side).left = (s.handler side).left := by
  induction statements generalizing s with
  | nil =>
    obtain rfl := Option.some.inj h
    simp
  | cons first rest ih =>
    obtain ⟨s₁, h₁, hrest⟩ := run_cons_eq_some.mp h
    obtain ⟨hself, hother⟩ := statement_left calls first h₁
    have hcount := ih hrest
    by_cases hside : first = side
    · rw [hside] at hself
      rw [hside, List.count_cons_self]
      omega
    · have hside' : side = first.other := by cases first <;> cases side <;> simp_all [Side.other]
      rw [List.count_cons_of_ne hside, hcount, hside', hother]

end Statements

theorem count_add_count (statements : List Side) :
    statements.count .left + statements.count .right = statements.length := by
  induction statements with
  | nil => rfl
  | cons side rest ih =>
    cases side <;> simp only [List.count_cons, List.length_cons] <;> simp <;> omega

/-- Two statements of each side, in some order. -/
theorem interleavings {statements : List Side} (h : ∀ side, statements.count side = 2) :
    ∃ first : Side, statements = [first, first, first.other, first.other] ∨
      statements = [first, first.other, first, first.other] ∨
      statements = [first, first.other, first.other, first] := by
  have hlength : statements.length = 4 := by
    rw [← count_add_count, h .left, h .right]
  match statements, hlength with
  | [a, b, c, d], _ =>
    have hleft := h .left
    refine ⟨a, ?_⟩
    cases a <;> cases b <;> cases c <;> cases d <;>
      first
        | exact absurd hleft (by decide)
        | decide

section Interleavings

variable {calls : Side → AddAction} {table : UserTable} {statements : List Side} {s : State}

theorem mem_rows_of_upsert {rows : List Row} {c : AddAction} {r : Row} :
    r ∈ upsert Row.filename Row.timestamp rows c.row ∧ r.filename = c.filename ∧
      r.timestamp = c.timestamp ↔ r = c.row := by
  rw [mem_upsert]
  constructor
  · rintro ⟨rfl | ⟨-, hne⟩, hkey⟩
    · rfl
    · exact absurd hkey hne
  · rintro rfl
    exact ⟨Or.inl rfl, rfl, rfl⟩

/-- Two upserts, one after the other. -/
theorem succeeded_of_addAction {first : Side} {table₁ table₂ : UserTable}
    (hlast : statements.getLast? = some first.other) (h₁ : addAction table (calls first) = some table₁)
    (h₂ : addAction table₁ (calls first.other) = some table₂) (hs : s.table = table₂)
    (hreturned : ∀ side, s.handler side = .returned) : Succeeded calls table statements s := by
  have hrows : s.table.rows = upsert Row.filename Row.timestamp
      (upsert Row.filename Row.timestamp table.rows (calls first).row) (calls first.other).row := by
    rw [hs, addAction_rows h₂, addAction_rows h₁]
  have hside : ∀ side ∈ statements.getLast?, side = first.other := by
    intro side hmem
    rw [hlast] at hmem
    exact (Option.some.inj hmem).symm
  refine ⟨hreturned, s.table.keyed, ?_, ?_⟩
  · intro side hmem
    rw [hside side hmem, other_other, hrows]
  · intro side hmem r
    rw [hside side hmem, hrows]
    exact mem_rows_of_upsert

theorem checkKeyExist_addAction {table' : UserTable} {c : AddAction} (h : addAction table c = some table')
    (filename timestamp : Bytes) : checkKeyExist table' filename timestamp = true ↔
      (c.filename = filename ∧ c.timestamp = timestamp) ∨
        checkKeyExist table filename timestamp = true := by
  rw [checkKeyExist_iff, addAction_rows h, checkKeyExist_iff]
  constructor
  · rintro ⟨r, hr, hkey⟩
    rcases mem_upsert.mp hr with rfl | ⟨hold, -⟩
    · exact Or.inl hkey
    · exact Or.inr ⟨r, hold, hkey⟩
  · rintro (hkey | ⟨r, hr, hkey⟩)
    · exact ⟨c.row, mem_upsert.mpr (Or.inl rfl), hkey⟩
    · by_cases hsame : SameKey Row.filename Row.timestamp r c.row
      · have hrow : c.filename = filename ∧ c.timestamp = timestamp :=
          ⟨hsame.1.symm.trans hkey.1, hsame.2.symm.trans hkey.2⟩
        exact ⟨c.row, mem_upsert.mpr (Or.inl rfl), hrow⟩
      · exact ⟨r, mem_upsert.mpr (Or.inr ⟨hr, hsame⟩), hkey⟩

/-- Both `SELECT`s have been made on this table. -/
def selected (calls : Side → AddAction) (table : UserTable) : State where
  table := table
  handler := fun side => .writing (checkKeyExist table (calls side).filename (calls side).timestamp)

theorem run_selects (calls : Side → AddAction) (table : UserTable) (first : Side) :
    run (statement calls) (start table) [first, first.other] = some (selected calls table) := by
  have hother : ((start table).at first (.writing (checkKeyExist table (calls first).filename
      (calls first).timestamp))).handler first.other = .selecting := at_other _ _ _
  rw [run, statement_select calls _ rfl, Option.bind_some, run]
  rw [show (start table).table = table from rfl, statement_select calls _ hother, Option.bind_some, run]
  congr 1
  unfold State.at selected
  congr 1
  funext side
  cases first <;> cases side <;> rfl

theorem not_shared (writer : Side)
    (h : ¬(SameKey AddAction.filename AddAction.timestamp (calls .left) (calls .right) ∧
      checkKeyExist table (calls .left).filename (calls .left).timestamp = false)) :
    ¬(((calls writer).filename = (calls writer.other).filename ∧
        (calls writer).timestamp = (calls writer.other).timestamp) ∧
      checkKeyExist table (calls writer.other).filename (calls writer.other).timestamp = false) := by
  rintro ⟨⟨hfilename, htimestamp⟩, hfree⟩
  apply h
  cases writer with
  | left =>
    rw [hfilename, htimestamp]
    exact ⟨⟨hfilename, htimestamp⟩, hfree⟩
  | right => exact ⟨⟨hfilename.symm, htimestamp.symm⟩, hfree⟩

/-- After both `SELECT`s the writes are the upserts, unless the first one brings in the key that the
second has not found. -/
theorem run_writes {writer : Side}
    (h : ¬(((calls writer).filename = (calls writer.other).filename ∧
        (calls writer).timestamp = (calls writer.other).timestamp) ∧
      checkKeyExist table (calls writer.other).filename (calls writer.other).timestamp = false)) :
    ∃ table₁ s, addAction table (calls writer) = some table₁ ∧
      addAction table₁ (calls writer.other) = some s.table ∧ (∀ side, s.handler side = .returned) ∧
      run (statement calls) (selected calls table) [writer, writer.other] = some s := by
  obtain ⟨table₁, hadd₁, hwrite₁⟩ := statement_write calls writer (s := selected calls table) rfl
  have hkey := checkKeyExist_addAction hadd₁ (calls writer.other).filename
    (calls writer.other).timestamp
  have hstill : checkKeyExist table₁ (calls writer.other).filename (calls writer.other).timestamp =
      checkKeyExist table (calls writer.other).filename (calls writer.other).timestamp := by
    rw [Bool.eq_iff_iff, hkey]
    constructor
    · rintro (hshared | hold)
      · by_contra hfree
        exact h ⟨hshared, by simpa using hfree⟩
      · exact hold
    · exact Or.inr
  obtain ⟨table₂, hadd₂, hwrite₂⟩ := statement_write calls writer.other
    (s := ((selected calls table).returns writer table₁))
    (by rw [returns_table, hstill]; exact returns_other _ _ _)
  refine ⟨table₁, ((selected calls table).returns writer table₁).returns writer.other table₂, hadd₁,
    hadd₂, ?_, ?_⟩
  · intro side
    cases writer <;> cases side <;> rfl
  · rw [run, hwrite₁, Option.bind_some, run, hwrite₂, Option.bind_some, run]

/-- It fails on the key that the first write has brought in. -/
theorem run_writes_refused {writer : Side}
    (hshared : (calls writer).filename = (calls writer.other).filename ∧
      (calls writer).timestamp = (calls writer.other).timestamp)
    (hfree : checkKeyExist table (calls writer.other).filename (calls writer.other).timestamp = false) :
    ∃ s, s.handler writer.other = .threw ∧
      run (statement calls) (selected calls table) [writer, writer.other] = some s := by
  obtain ⟨table₁, hadd₁, hwrite₁⟩ := statement_write calls writer (s := selected calls table) rfl
  have hkey := (checkKeyExist_addAction hadd₁ (calls writer.other).filename
    (calls writer.other).timestamp).mpr (Or.inl hshared)
  have hrefused := statement_refused calls writer.other
    (s := ((selected calls table).returns writer table₁))
    (by rw [← hfree]; exact returns_other _ _ _) hkey
  refine ⟨((selected calls table).returns writer table₁).at writer.other .threw, at_self _ _ _, ?_⟩
  rw [run, hwrite₁, Option.bind_some, run, hrefused, Option.bind_some, run]

/-- One call after the other. -/
theorem run_sequential (calls : Side → AddAction) (table : UserTable) (first : Side) :
    ∃ table₁ s, addAction table (calls first) = some table₁ ∧
      addAction table₁ (calls first.other) = some s.table ∧ (∀ side, s.handler side = .returned) ∧
      run (statement calls) (start table) [first, first, first.other, first.other] = some s := by
  obtain ⟨table₁, hadd₁, hrun₁⟩ := run_alone calls first (s := start table) rfl
  obtain ⟨table₂, hadd₂, hrun₂⟩ := run_alone calls first.other
    (s := (start table).returns first table₁) (returns_other _ _ _)
  refine ⟨table₁, ((start table).returns first table₁).returns first.other table₂, hadd₁, hadd₂, ?_, ?_⟩
  · intro side
    cases first <;> cases side <;> rfl
  · refine (run_append (start table) [first, first] [first.other, first.other]).trans ?_
    rw [hrun₁, Option.bind_some]
    exact hrun₂

theorem run_overlapping (first : Side) (rest : List Side) :
    run (statement calls) (start table) (first :: first.other :: rest) =
      run (statement calls) (selected calls table) rest := by
  refine (run_append (start table) [first, first.other] rest).trans ?_
  rw [run_selects, Option.bind_some]

/-- The two orders of the writes after both `SELECT`s. -/
theorem succeeded_iff_of_overlapping (writer : Side) (hlast : statements.getLast? = some writer.other)
    (hover : statements[0]? ≠ statements[1]?)
    (hrun : run (statement calls) (selected calls table) [writer, writer.other] = some s) :
    Succeeded calls table statements s ↔ ¬Race calls table statements := by
  constructor
  · rintro hs ⟨-, ⟨hfilename, htimestamp⟩, hfree⟩
    have hrefused : ∃ s, s.handler writer.other = .threw ∧
        run (statement calls) (selected calls table) [writer, writer.other] = some s := by
      cases writer with
      | left =>
        rw [hfilename, htimestamp] at hfree
        exact run_writes_refused ⟨hfilename, htimestamp⟩ hfree
      | right => exact run_writes_refused ⟨hfilename.symm, htimestamp.symm⟩ hfree
    obtain ⟨s', hthrew, hrun'⟩ := hrefused
    have heq : s = s' := Option.some.inj (hrun.symm.trans hrun')
    have hreturned := hs.returned writer.other
    rw [heq, hthrew] at hreturned
    exact absurd hreturned (by simp)
  · intro hrace
    have hne := not_shared writer fun h => hrace ⟨hover, h⟩
    obtain ⟨table₁, s', hadd₁, hadd₂, hreturned, hrun'⟩ := run_writes hne
    have heq : s = s' := Option.some.inj (hrun.symm.trans hrun')
    rw [heq]
    exact succeeded_of_addAction hlast hadd₁ hadd₂ rfl hreturned

end Interleavings

/-- Two calls, however their statements interleave, succeed exactly when they do not race. -/
theorem concurrent_upserts (calls : Side → AddAction) (table : UserTable) (statements : List Side)
    (s : State) (hrun : run (statement calls) (start table) statements = some s)
    (hover : ∀ side, (s.handler side).over = true) :
    Succeeded calls table statements s ↔ ¬Race calls table statements := by
  have hcount : ∀ side, statements.count side = 2 := by
    intro side
    have hleft := run_left calls hrun side
    have hzero : (s.handler side).left = 0 := by
      have hend := hover side
      cases hat : s.handler side <;> simp_all [CallAt.over, CallAt.left]
    rw [hzero] at hleft
    exact hleft
  obtain ⟨first, rfl | rfl | rfl⟩ := interleavings hcount
  · obtain ⟨table₁, s', hadd₁, hadd₂, hreturned, hrun'⟩ := run_sequential calls table first
    have heq : s = s' := Option.some.inj (hrun.symm.trans hrun')
    have hs : Succeeded calls table [first, first, first.other, first.other] s := by
      rw [heq]
      exact succeeded_of_addAction rfl hadd₁ hadd₂ rfl hreturned
    have hrace : ¬Race calls table [first, first, first.other, first.other] :=
      fun hrace => hrace.1 rfl
    exact ⟨fun _ => hrace, fun _ => hs⟩
  · rw [run_overlapping] at hrun
    exact succeeded_iff_of_overlapping first rfl (by cases first <;> decide) hrun
  · rw [run_overlapping] at hrun
    refine succeeded_iff_of_overlapping first.other ?_ (by cases first <;> decide) ?_
    · rw [other_other]
      rfl
    · rw [other_other]
      exact hrun

/-- A file and its key, written twice. -/
def sameCall : AddAction := ⟨[47, 97], [49], [120], 1, .readFile, [], [48], [48], []⟩

theorem concurrent_upserts_in_turn :
    ∃ s, run (statement fun _ => sameCall) (start .empty) [.left, .left, .right, .right] = some s ∧
      Succeeded (fun _ => sameCall) .empty [.left, .left, .right, .right] s := by
  refine ⟨_, rfl, (concurrent_upserts (fun _ => sameCall) .empty [.left, .left, .right, .right] _ rfl
    ?_).mpr fun hrace => hrace.1 rfl⟩
  intro side
  cases side <;> rfl

/-- Both find that the key does not exist, and the second insertion fails. -/
theorem lost_insert : ¬∀ (calls : Side → AddAction) (table : UserTable) (statements : List Side)
    (s : State), run (statement calls) (start table) statements = some s →
    (∀ side, (s.handler side).over = true) → Succeeded calls table statements s := by
  intro hsucceeds
  have hs := hsucceeds (fun _ => sameCall) .empty [.left, .right, .left, .right] _ rfl
    (by intro side; cases side <;> rfl)
  exact absurd (hs.returned .right) (by decide)

end BackupManager.Server.ConcurrentUpserts
