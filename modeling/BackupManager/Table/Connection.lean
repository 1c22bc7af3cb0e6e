import Mathlib.Data.Option.Basic

/-! A connection to a transactional store of any content. Outside a transaction every statement is
committed by itself; a call may fail, and a failure may have rolled the transaction back. -/
namespace BackupManager.Table

inductive Code where
  | ok
  | error (aborts : Bool)
  deriving DecidableEq, Repr

structure Connection (D : Type) where
  committed : D
  /-- What the open transaction has made of it. -/
  pending : Option D
  deriving DecidableEq, Repr

variable {D : Type}

/-- A call on the connection: whether it succeeds, and the connection afterwards. -/
abbrev Call (D : Type) : Type := Connection D → Bool × Connection D

namespace Connection

def current (c : Connection D) : D := c.pending.getD c.committed

/-- Writes go to the transaction, if there is one. -/
def put (c : Connection D) (d : D) : Connection D :=
  match c.pending with
  | none => ⟨d, none⟩
  | some _ => ⟨c.committed, some d⟩

/-- `ROLLBACK`; also what closing the connection does. -/
def rollback (c : Connection D) : Connection D := ⟨c.committed, none⟩

def failed (aborts : Bool) (c : Connection D) : Connection D := if aborts then c.rollback else c

/-- A statement; `none` is a change that the store refuses. -/
def execute (change : D → Option D) (code : Code) : Call D := fun c =>
  match code with
  | .error aborts => (false, c.failed aborts)
  | .ok =>
    match change c.current with
    | none => (false, c)
    | some d => (true, c.put d)

/-- A call that reads or prepares. -/
def call (code : Code) : Call D := execute some code

/-- `BEGIN`; there are no nested transactions. -/
def begin (code : Code) : Call D := fun c =>
  match code, c.pending with
  | .ok, none => (true, ⟨c.committed, some c.committed⟩)
  | .ok, some _ => (false, c)
  | .error aborts, _ => (false, c.failed aborts)

/-- `COMMIT`; it fails where no transaction is open. -/
def commit (code : Code) : Call D := fun c =>
  match code, c.pending with
  | _, none => (false, c)
  | .ok, some d => (true, ⟨d, none⟩)
  | .error aborts, some _ => (false, c.failed aborts)

/-- The second call is made when the first one has succeeded. -/
def andThen (first second : Call D) : Call D := fun c =>
  let r := first c
  if r.1 then second r.2 else r

/-- What a sequence of calls leaves that has failed. -/
def Unwritten (c c' : Connection D) : Prop := c' = c ∨ c' = c.rollback

variable {c c' : Connection D} {change : D → Option D} {code : Code} {first second : Call D}

theorem put_current (c : Connection D) : c.put c.current = c := by
  obtain ⟨committed, pending⟩ := c
  cases pending <;> rfl

theorem put_put (c : Connection D) (d d' : D) : (c.put d).put d' = c.put d' := by
  obtain ⟨committed, pending⟩ := c
  cases pending <;> rfl

@[simp] theorem current_put (c : Connection D) (d : D) : (c.put d).current = d := by
  obtain ⟨committed, pending⟩ := c
  cases pending <;> rfl

theorem put_of_none (h : c.pending = none) (d : D) : c.put d = ⟨d, none⟩ := by
  unfold put
  rw [h]

theorem Unwritten.rollback (h : Unwritten c c') : c'.rollback = c.rollback := by
  rcases h with rfl | rfl <;> rfl

theorem unwritten_failed (aborts : Bool) (c : Connection D) : Unwritten c (c.failed aborts) := by
  cases aborts
  · exact Or.inl rfl
  · exact Or.inr rfl

theorem execute_ok {d : D} (h : change c.current = some d) :
    execute change .ok c = (true, c.put d) := by
  unfold execute
  rw [h]

/-- A change counts by what it does to the content. -/
theorem execute_congr {change' : D → Option D} (h : change c.current = change' c.current) :
    execute change code c = execute change' code c := by
  unfold execute
  rw [h]

theorem execute_refused (change : D → Option D) (code : Code)
    (h : code ≠ .ok ∨ change c.current = none) :
    ∃ c', execute change code c = (false, c') ∧ Unwritten c c' := by
  unfold execute
  cases code with
  | error aborts => exact ⟨_, rfl, unwritten_failed aborts c⟩
  | ok =>
    have hnone := h.resolve_left (fun hne => hne rfl)
    rw [hnone]
    exact ⟨c, rfl, Or.inl rfl⟩

theorem call_ok (c : Connection D) : call .ok c = (true, c) := by
  rw [call, execute_ok rfl, put_current]

theorem call_refused (h : code ≠ .ok) : ∃ c', call code c = (false, c') ∧ Unwritten c c' :=
  execute_refused some code (Or.inl h)

theorem andThen_of_true (h : first c = (true, c')) : andThen first second c = second c' := by
  unfold andThen
  rw [h]
  rfl

theorem andThen_of_false (h : first c = (false, c')) : andThen first second c = (false, c') := by
  unfold andThen
  rw [h]
  rfl

/-- What is written on a connection without an open transaction survives its closing. -/
theorem durable {d : D} (hpending : c.pending = none) (h : change c.current = some d) :
    (execute change .ok c).2.rollback.committed = d := by
  rw [execute_ok h, put_of_none hpending]
  rfl

end Connection
end BackupManager.Table
