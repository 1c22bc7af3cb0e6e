import BackupManager.Table.Connection
import Mathlib.Logic.Function.Basic

/-! A store with several connections and one write lock. A transaction takes the lock with its first
write and keeps it to its end; meanwhile the writes of the other connections are refused. -/
namespace BackupManager.Table

structure Locking (T D : Type) where
  committed : D
  /-- The connection that has the lock, and what its transaction has made of the store. -/
  writer : Option (T × D)
  /-- The connections that are in a transaction. -/
  begun : T → Bool
  writer_begun : ∀ w ∈ writer, begun w.1 = true

namespace Locking

variable {T D : Type} [DecidableEq T]

/-- No transaction is open. -/
def opened (d : D) : Locking T D := ⟨d, none, fun _ => false, fun _ h => by cases h⟩

section Calls

variable (s : Locking T D) (t : T)

/-- What the transaction of a connection has written. -/
def pending : Option D :=
  match s.writer with
  | some w => if w.1 = t then some w.2 else none
  | none => none

/-- What a connection reads. -/
def view : D := (s.pending t).getD s.committed

/-- No other connection has the lock. -/
def free : Bool := s.writer.all fun w => w.1 = t

/-- `BEGIN`, outside a transaction. -/
def begin : Locking T D where
  committed := s.committed
  writer := s.writer
  begun := Function.update s.begun t true
  writer_begun := by
    intro w hw
    by_cases h : w.1 = t
    · rw [h, Function.update_self]
    · rw [Function.update_of_ne h]
      exact s.writer_begun w hw

/-- What a connection writes goes to its transaction, if there is one. -/
def put (d : D) : Locking T D :=
  if h : s.begun t = true then
    { s with writer := some (t, d), writer_begun := fun w hw => by cases hw; exact h }
  else { s with committed := d }

/-- A statement that writes; `none` where it is refused. -/
def write (change : D → Option D) : Option (Locking T D) :=
  if s.free t then (change (s.view t)).map (s.put t) else none

/-- The end of a transaction. -/
def ends (d : D) : Locking T D where
  committed := d
  writer := s.writer.filter fun w => w.1 ≠ t
  begun := Function.update s.begun t false
  writer_begun := by
    intro w hw
    obtain ⟨hw, hne⟩ := Option.mem_filter_iff.mp hw
    rw [Function.update_of_ne (by simpa using hne)]
    exact s.writer_begun w hw

/-- `ROLLBACK`; also what closing the connection does. -/
def rollback : Locking T D := s.ends t s.committed

def failed (aborts : Bool) : Locking T D := if aborts then s.rollback t else s

def commit (code : Code) : Locking T D :=
  match code with
  | .ok => s.ends t (s.view t)
  | .error aborts => s.failed t aborts

/-- A statement that writes, with the result of its calls: whether it succeeds. -/
def execute (change : D → Option D) (code : Code) : Bool × Locking T D :=
  match code with
  | .error aborts => (false, s.failed t aborts)
  | .ok =>
    match s.write t change with
    | none => (false, s)
    | some s' => (true, s')

/-- The store as one connection has it. -/
def connection : Connection D := ⟨s.committed, if s.begun t then some (s.view t) else none⟩

/-- What a call on a connection makes of the store. -/
inductive Moved : Locking T D → Prop where
  | stays : Moved s
  | begins : Moved (s.begin t)
  | puts (d : D) (free : s.free t = true) : Moved (s.put t d)
  | commits : Moved (s.commit t .ok)
  | rollsBack : Moved (s.rollback t)

end Calls

section Rules

variable {s s' : Locking T D} {t t' : T} {d : D} {change : D → Option D}

theorem pending_eq_some_iff : s.pending t = some d ↔ s.writer = some (t, d) := by
  unfold pending
  cases s.writer with
  | none => simp
  | some w =>
    obtain ⟨u, e⟩ := w
    dsimp only
    by_cases h : u = t
    · rw [if_pos h, Option.some.injEq, Option.some.injEq, Prod.mk.injEq]
      exact ⟨fun heq => ⟨h, heq⟩, fun heq => heq.2⟩
    · rw [if_neg h, Option.some.injEq, Prod.mk.injEq]
      exact ⟨fun heq => (by cases heq), fun heq => absurd heq.1 h⟩

/-- One connection at most has the lock. -/
theorem eq_of_pending {d' : D} (h : s.pending t = some d) (h' : s.pending t' = some d') : t = t' := by
  have hw := (pending_eq_some_iff.mp h).symm.trans (pending_eq_some_iff.mp h')
  exact (Prod.mk.inj (Option.some.inj hw)).1

theorem free_iff : s.free t = true ↔ ∀ t', t' ≠ t → s.pending t' = none := by
  unfold free
  cases hw : s.writer with
  | none =>
    refine iff_of_true rfl fun t' _ => ?_
    unfold pending
    rw [hw]
  | some w =>
    simp only [Option.all_some, decide_eq_true_eq]
    constructor
    · intro h t' hne
      unfold pending
      rw [hw]
      exact if_neg fun heq => hne (heq.symm.trans h)
    · intro h
      by_contra hne
      have hnone := h w.1 hne
      rw [pending_eq_some_iff.mpr hw] at hnone
      cases hnone

theorem free_of_pending (h : s.pending t = some d) : s.free t = true := by
  refine free_iff.mpr fun t' hne => ?_
  cases hother : s.pending t' with
  | none => rfl
  | some e => exact absurd (eq_of_pending hother h) hne

/-- What is written is written in a transaction. -/
theorem begun_of_pending (h : s.pending t = some d) : s.begun t = true :=
  s.writer_begun _ (pending_eq_some_iff.mp h)

theorem pending_of_not_begun (h : s.begun t = false) : s.pending t = none := by
  cases hp : s.pending t with
  | none => rfl
  | some d => rw [begun_of_pending hp] at h; cases h

theorem view_of_pending (h : s.pending t = some d) : s.view t = d := by
  rw [view, h]
  rfl

theorem view_of_idle (h : s.pending t = none) : s.view t = s.committed := by
  rw [view, h]
  rfl

theorem put_of_begun (h : s.begun t = true) (d : D) : (s.put t d).committed = s.committed ∧
    (s.put t d).pending t = some d ∧ (s.put t d).begun = s.begun := by
  unfold put
  rw [dif_pos h]
  exact ⟨rfl, pending_eq_some_iff.mpr rfl, rfl⟩

theorem put_of_not_begun (h : s.begun t = false) (d : D) : (s.put t d).committed = d ∧
    (s.put t d).pending = s.pending ∧ (s.put t d).begun = s.begun := by
  unfold put
  rw [dif_neg (by simp [h])]
  exact ⟨rfl, rfl, rfl⟩

theorem pending_ends_self (s : Locking T D) (t : T) (d : D) : (s.ends t d).pending t = none := by
  cases h : (s.ends t d).pending t with
  | none => rfl
  | some e =>
    obtain ⟨-, hne⟩ := Option.mem_filter_iff.mp (pending_eq_some_iff.mp h)
    simp at hne

theorem pending_ends_of_ne (h : t' ≠ t) (s : Locking T D) (d : D) :
    (s.ends t d).pending t' = s.pending t' := by
  refine Option.ext fun e => ?_
  rw [pending_eq_some_iff, pending_eq_some_iff]
  show s.writer.filter _ = some _ ↔ _
  rw [← Option.mem_def, Option.mem_filter_iff, Option.mem_def]
  simp [h]

theorem ends_ends (s : Locking T D) (t : T) (d d' : D) : (s.ends t d).ends t d' = s.ends t d' := by
  have hwriter : (s.writer.filter fun w => w.1 ≠ t).filter (fun w => w.1 ≠ t) =
      s.writer.filter fun w => w.1 ≠ t := by
    rw [Option.filter_filter]
    simp
  unfold ends
  congr 1
  exact Function.update_idem _ _ _

@[simp] theorem begun_ends_self (s : Locking T D) (t : T) (d : D) : (s.ends t d).begun t = false :=
  Function.update_self _ _ _

theorem write_eq_some_iff : s.write t change = some s' ↔
    s.free t = true ∧ ∃ d, change (s.view t) = some d ∧ s.put t d = s' := by
  unfold write
  rw [Option.ite_none_right_eq_some, Option.map_eq_some_iff]

theorem write_of_execute {code : Code} (h : s.execute t change code = (true, s')) :
    s.write t change = some s' := by
  unfold execute at h
  cases code with
  | error aborts => cases h
  | ok =>
    cases hw : s.write t change with
    | none =>
      rw [hw] at h
      cases h
    | some s₁ =>
      rw [hw] at h
      exact congrArg some (Prod.mk.inj h).2

/-- A statement that fails leaves the transaction as it was, unless it aborts it. -/
theorem execute_refused {code : Code} (h : s.execute t change code = (false, s')) :
    s' = s ∨ code = .error true ∧ s' = s.rollback t := by
  unfold execute at h
  cases code with
  | error aborts =>
    obtain ⟨-, rfl⟩ := Prod.mk.inj h
    cases aborts with
    | false => exact .inl rfl
    | true => exact .inr ⟨rfl, rfl⟩
  | ok =>
    cases hw : s.write t change with
    | none =>
      rw [hw] at h
      exact .inl (Prod.mk.inj h).2.symm
    | some s₁ =>
      rw [hw] at h
      cases h

/-- A transaction that has written goes on with the next statement, and commits nothing. -/
theorem execute_of_pending (h : s.pending t = some d) (change : D → Option D) {code : Code}
    (hcode : code ≠ .error true) : ((s.execute t change code).2.pending t).isSome = true ∧
      (s.execute t change code).2.committed = s.committed := by
  cases hrun : s.execute t change code with
  | mk ok s' =>
    cases ok with
    | true =>
      obtain ⟨-, d', -, rfl⟩ := write_eq_some_iff.mp (write_of_execute hrun)
      obtain ⟨hcommitted, hpending, -⟩ := put_of_begun (begun_of_pending h) d'
      exact ⟨by rw [hpending]; rfl, hcommitted⟩
    | false =>
      rcases execute_refused hrun with rfl | ⟨haborts, -⟩
      · exact ⟨by rw [h]; rfl, rfl⟩
      · exact absurd haborts hcode

/-- A call does not touch the transactions of the others. -/
theorem Moved.others (h : Moved s t s') (hne : t' ≠ t) :
    s'.begun t' = s.begun t' ∧ s'.pending t' = s.pending t' := by
  cases h with
  | stays => exact ⟨rfl, rfl⟩
  | begins => exact ⟨Function.update_of_ne hne _ _, rfl⟩
  | commits => exact ⟨Function.update_of_ne hne _ _, pending_ends_of_ne hne s _⟩
  | rollsBack => exact ⟨Function.update_of_ne hne _ _, pending_ends_of_ne hne s _⟩
  | puts d hfree =>
    cases hbegun : s.begun t with
    | false =>
      obtain ⟨-, hpending, hsame⟩ := put_of_not_begun hbegun d
      rw [hpending, hsame]
      exact ⟨rfl, rfl⟩
    | true =>
      obtain ⟨-, hpending, hsame⟩ := put_of_begun hbegun d
      refine ⟨by rw [hsame], ?_⟩
      rw [free_iff.mp hfree t' hne]
      cases hother : (s.put t d).pending t' with
      | none => rfl
      | some e => exact absurd (eq_of_pending hother hpending) hne

/-- While a connection has the lock, no other one changes what is committed. -/
theorem Moved.committed (h : Moved s t s') (hlocked : s.pending t' = some d) (hne : t' ≠ t) :
    s'.committed = s.committed := by
  have hidle : s.pending t = none := by
    cases hp : s.pending t with
    | none => rfl
    | some e => exact absurd (eq_of_pending hlocked hp) hne
  cases h with
  | stays => rfl
  | begins => rfl
  | rollsBack => rfl
  | commits => exact view_of_idle hidle
  | puts e hfree =>
    have hnone := free_iff.mp hfree t' hne
    rw [hlocked] at hnone
    cases hnone

end Rules

/-! A connection that nobody interferes with. -/

section Connection

variable {s s' : Locking T D} {t : T} {d : D} {change : D → Option D}

theorem current_connection (s : Locking T D) (t : T) : (s.connection t).current = s.view t := by
  unfold connection Connection.current
  cases h : s.begun t with
  | true => rfl
  | false => exact (view_of_idle (pending_of_not_begun h)).symm

theorem connection_put (s : Locking T D) (t : T) (d : D) :
    (s.put t d).connection t = (s.connection t).put d := by
  cases h : s.begun t with
  | true =>
    obtain ⟨hcommitted, hpending, hbegun⟩ := put_of_begun h d
    unfold connection Connection.put
    rw [hcommitted, hbegun, h, view_of_pending hpending]
    rfl
  | false =>
    obtain ⟨hcommitted, hpending, hbegun⟩ := put_of_not_begun h d
    unfold connection Connection.put
    rw [hcommitted, hbegun, h]
    rfl

theorem connection_rollback (s : Locking T D) (t : T) :
    (s.rollback t).connection t = (s.connection t).rollback := by
  unfold connection Connection.rollback rollback
  rw [begun_ends_self]
  rfl

theorem connection_of_pending (h : s.pending t = some d) : s.connection t = ⟨s.committed, some d⟩ := by
  unfold connection
  rw [begun_of_pending h, view_of_pending h]
  rfl

theorem connection_of_not_begun (h : s.begun t = false) : s.connection t = ⟨s.committed, none⟩ := by
  unfold connection
  rw [h]
  rfl

theorem connection_commit (h : s.pending t = some d) (code : Code) :
    (s.commit t code).connection t = (Connection.commit code (s.connection t)).2 := by
  have hconnection := connection_of_pending h
  cases code with
  | ok =>
    rw [hconnection, commit, connection_of_not_begun (begun_ends_self _ _ _), view_of_pending h]
    rfl
  | error aborts =>
    cases aborts with
    | false =>
      rw [hconnection]
      exact hconnection
    | true =>
      rw [hconnection]
      exact (connection_rollback s t).trans (by rw [hconnection]; rfl)

/-- Where nobody else has the lock, a statement does what it does on a single connection. -/
theorem connection_execute (hfree : s.free t = true) (change : D → Option D) (code : Code) :
    Connection.execute change code (s.connection t) =
      ((s.execute t change code).1, (s.execute t change code).2.connection t) := by
  unfold Connection.execute execute write
  rw [current_connection, hfree, if_pos rfl]
  cases code with
  | error aborts =>
    refine Prod.ext rfl ?_
    cases aborts with
    | false => rfl
    | true => exact (connection_rollback s t).symm
  | ok =>
    cases hchange : change (s.view t) with
    | none => rfl
    | some d => exact Prod.ext rfl (connection_put s t d).symm

end Connection
end Locking
end BackupManager.Table
