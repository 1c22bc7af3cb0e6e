import Mathlib.Data.Nat.Notation
import BackupManager.Transition.Run

/-! Bounded queues that can be ended: the methods of an implementation, what its callers have put in and
taken out, and the queue of a list, which other implementations refine. -/
namespace BackupManager.Queue
open Transition

/-- A call of one of the methods. -/
inductive Call (α : Type) where
  | push (item : α)
  | pop
  | terminate
  deriving DecidableEq, Repr

/-- An implementation; `none` is a call that has to wait. A pop without an item is the end. -/
structure Methods (α Q : Type) where
  push : α → Q → Option Q
  pop : Q → Option (Option α × Q)
  terminate : Q → Q

/-- A queue, with all that has been pushed and popped. -/
structure History (α Q : Type) where
  queue : Q
  pushed : List α
  popped : List α

variable {α Q Q' T : Type}

/-- A call of some thread. -/
def Methods.step (m : Methods α Q) (h : History α Q) (call : T × Call α) : Option (History α Q) :=
  match call.2 with
  | .push item => (m.push item h.queue).map fun q => ⟨q, h.pushed ++ [item], h.popped⟩
  | .pop => (m.pop h.queue).map fun r => ⟨r.2, h.pushed, h.popped ++ r.1.toList⟩
  | .terminate => some { h with queue := m.terminate h.queue }

/-- Nothing has been pushed yet. -/
def History.begin (α : Type) (q : Q) : History α Q := ⟨q, [], []⟩

def History.map (abs : Q → Q') (h : History α Q) : History α Q' := ⟨abs h.queue, h.pushed, h.popped⟩

/-- Each method does to the abstraction what the other one does, and waits where that waits. -/
structure Refines (abs : Q → Q') (m : Methods α Q) (m' : Methods α Q') : Prop where
  push : ∀ item q, (m.push item q).map abs = m'.push item (abs q)
  pop : ∀ q, (m.pop q).map (Prod.map id abs) = m'.pop (abs q)
  terminate : ∀ q, abs (m.terminate q) = m'.terminate (abs q)

section Refinement

variable {abs : Q → Q'} {m : Methods α Q} {m' : Methods α Q'}

theorem Refines.step (hrefines : Refines abs m m') (h : History α Q) (call : T × Call α) :
    (m.step h call).map (History.map abs) = m'.step (h.map abs) call := by
  obtain ⟨t, call⟩ := call
  cases call with
  | push item =>
    simp only [Methods.step, History.map]
    rw [← hrefines.push, Option.map_map, Option.map_map]
    rfl
  | pop =>
    simp only [Methods.step, History.map]
    rw [← hrefines.pop, Option.map_map, Option.map_map]
    rfl
  | terminate =>
    simp only [Methods.step, History.map, Option.map_some]
    rw [hrefines.terminate]

/-- The runs of the two are the same. -/
theorem Refines.run (hrefines : Refines abs m m') (h : History α Q) (calls : List (T × Call α)) :
    (run m.step h calls).map (History.map abs) = run m'.step (h.map abs) calls := by
  induction calls generalizing h with
  | nil => rfl
  | cons call calls ih =>
    rw [Transition.run, Transition.run, ← hrefines.step h call]
    cases m.step h call with
    | none => rfl
    | some h' => exact ih h'

end Refinement

/-- The queue of a list. -/
structure Fifo (α : Type) where
  items : List α
  isEnded : Bool
  deriving DecidableEq, Repr

namespace Fifo

def empty : Fifo α := ⟨[], false⟩

def push (capacity : ℕ) (item : α) (q : Fifo α) : Option (Fifo α) :=
  if q.items.length < capacity then some { q with items := q.items ++ [item] } else none

def pop (q : Fifo α) : Option (Option α × Fifo α) :=
  match q.items with
  | item :: items => some (some item, { q with items := items })
  | [] => if q.isEnded then some (none, q) else none

def terminate (q : Fifo α) : Fifo α := { q with isEnded := true }

def methods (α : Type) (capacity : ℕ) : Methods α (Fifo α) := ⟨push capacity, pop, terminate⟩

/-- What is in the queue is what was pushed and has not been popped, in order. -/
structure Exact (capacity : ℕ) (h : History α (Fifo α)) : Prop where
  pushed : h.pushed = h.popped ++ h.queue.items
  bounded : h.queue.items.length ≤ capacity

variable {capacity : ℕ} {h h' : History α (Fifo α)}

theorem exact_begin : Exact capacity (.begin α empty) := ⟨rfl, Nat.zero_le _⟩

/-- What one call does. -/
inductive Stepped (capacity : ℕ) (h h' : History α (Fifo α)) : Call α → Prop where
  | push (item : α) (room : h.queue.items.length < capacity)
      (after : h' = ⟨{ h.queue with items := h.queue.items ++ [item] }, h.pushed ++ [item], h.popped⟩) :
      Stepped capacity h h' (.push item)
  | pop (item : α) (items : List α) (first : h.queue.items = item :: items)
      (after : h' = ⟨{ h.queue with items := items }, h.pushed, h.popped ++ [item]⟩) :
      Stepped capacity h h' .pop
  | ends (items : h.queue.items = []) (isEnded : h.queue.isEnded = true) (after : h' = h) :
      Stepped capacity h h' .pop
  | terminate (after : h' = { h with queue := h.queue.terminate }) : Stepped capacity h h' .terminate

theorem stepped {call : T × Call α} (hstep : (methods α capacity).step h call = some h') :
    Stepped capacity h h' call.2 := by
  obtain ⟨t, call⟩ := call
  cases call with
  | push item =>
    obtain ⟨q, hpush, rfl⟩ := Option.map_eq_some_iff.mp hstep
    have hpush : push capacity item h.queue = some q := hpush
    unfold push at hpush
    split at hpush
    · next hroom =>
      rw [← Option.some.inj hpush]
      exact .push item hroom rfl
    · cases hpush
  | pop =>
    obtain ⟨⟨item, q⟩, hpop, rfl⟩ := Option.map_eq_some_iff.mp hstep
    have hpop : h.queue.pop = some (item, q) := hpop
    unfold pop at hpop
    split at hpop
    · next first items hitems =>
      obtain ⟨rfl, rfl⟩ := Prod.mk.inj (Option.some.inj hpop)
      exact .pop first items hitems rfl
    · next hitems =>
      split at hpop
      · next hended =>
        obtain ⟨rfl, rfl⟩ := Prod.mk.inj (Option.some.inj hpop)
        exact .ends hitems hended (by simp)
      · cases hpop
  | terminate => exact .terminate (Option.some.inj hstep).symm

theorem exact_step {call : T × Call α} (hexact : Exact capacity h)
    (hstep : (methods α capacity).step h call = some h') : Exact capacity h' := by
  have hpushed := hexact.pushed
  have hbounded := hexact.bounded
  obtain ⟨t, call⟩ := call
  have hstepped : Stepped capacity h h' call := stepped hstep
  cases hstepped with
  | push item hroom hafter =>
    rw [hafter]
    refine ⟨?_, ?_⟩
    · rw [hpushed, List.append_assoc]
    · rw [List.length_append, List.length_singleton]
      omega
  | pop item items hfirst hafter =>
    rw [hafter]
    rw [hfirst] at hpushed hbounded
    refine ⟨?_, ?_⟩
    · rw [hpushed, List.append_assoc, List.singleton_append]
    · rw [List.length_cons] at hbounded
      dsimp only
      omega
  | ends hitems hended hafter => rwa [hafter]
  | terminate hafter =>
    rw [hafter]
    exact ⟨hpushed, hbounded⟩

/-- It is ended by a call of `terminate`, and by nothing else. -/
theorem isEnded_step {call : T × Call α} (hstep : (methods α capacity).step h call = some h') :
    h'.queue.isEnded = true ↔ h.queue.isEnded = true ∨ call.2 = .terminate := by
  obtain ⟨t, call⟩ := call
  have hstepped : Stepped capacity h h' call := stepped hstep
  cases hstepped with
  | push item hroom hafter => simp [hafter]
  | pop item items hfirst hafter => simp [hafter]
  | ends hitems hended hafter => simp [hafter]
  | terminate hafter => simp [hafter, terminate]

theorem exact_run {calls : List (T × Call α)}
    (hrun : run (methods α capacity).step (.begin α empty) calls = some h) : Exact capacity h :=
  run_keeps (fun _ _ _ hexact hstep => exact_step hexact hstep) exact_begin hrun

theorem isEnded_run {calls : List (T × Call α)} {q : History α (Fifo α)}
    (hrun : run (methods α capacity).step q calls = some h) :
    h.queue.isEnded = true ↔ q.queue.isEnded = true ∨ ∃ t, (t, Call.terminate) ∈ calls := by
  induction calls generalizing q with
  | nil =>
    rw [← Option.some.inj hrun]
    simp
  | cons call calls ih =>
    obtain ⟨h₁, hstep, hrest⟩ := run_cons_eq_some.mp hrun
    rw [ih hrest, isEnded_step hstep]
    obtain ⟨t, call⟩ := call
    constructor
    · rintro ((hended | rfl) | ⟨t', ht'⟩)
      · exact Or.inl hended
      · exact Or.inr ⟨t, List.mem_cons_self⟩
      · exact Or.inr ⟨t', List.mem_cons_of_mem _ ht'⟩
    · rintro (hended | ⟨t', ht'⟩)
      · exact Or.inl (Or.inl hended)
      · rcases List.mem_cons.mp ht' with heq | hrest
        · exact Or.inl (Or.inr (Prod.mk.inj heq).2.symm)
        · exact Or.inr ⟨t', hrest⟩

end Fifo
end BackupManager.Queue
