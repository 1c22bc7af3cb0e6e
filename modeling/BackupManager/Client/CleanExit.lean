import BackupManager.Client.BufferQueue
import BackupManager.Client.NeverWedged
import BackupManager.Client.SendAction

/-! What a constructor of `Client` that returns has done: all threads have ended without an exception,
everything that was queued is sent or passed over, the quit frame is the last one, and `finish` was
read. -/
namespace BackupManager.Client.Threads
open Transition

/-- What the threads do to the buffer and to the socket. -/
inductive Deed where
  | queued (action : Action)
  /-- `send_action` has returned. -/
  | sent (action : Action)
  /-- The quit frame is written. -/
  | quit
  /-- The response consumer has read `finish`. -/
  | finish
  deriving DecidableEq

def deeds (s : State) : Move → List Deed
  | .watcherPush => match s.watcher with
    | .pushing _ action => [.queued action]
    | _ => []
  | .inputPush => match s.input with
    | .pushing action => [.queued action]
    | _ => []
  | .send => match s.consumer with
    | .sending action => [.sent action]
    | _ => []
  | .sendQuit => match s.consumer with
    | .quitting => [.quit]
    | _ => []
  | .handle => match s.response with
    | .handling .finish => [.finish]
    | _ => []
  | _ => []

namespace Deed

def queuedOf (l : List Deed) : List Action := l.filterMap fun
  | .queued action => some action
  | _ => none

/-- The actions that the action consumer is through with, in order; `none` is the quit frame. -/
def sendsOf (l : List Deed) : List (Option Action) := l.filterMap fun
  | .sent action => some (some action)
  | .quit => some none
  | _ => none

/-- The frames that are written, where `disks` is what the calls of `send_action` find; an action that
is not written leaves none. -/
def framesOf (disks : ℕ → Disk) (l : List Deed) : List (Option Action) :=
  ((sendsOf l).zipIdx.filter fun x => x.1.all fun action => decide (IsWritten (disks x.2) action)).map
    Prod.fst

@[simp] theorem queuedOf_append (l l' : List Deed) : queuedOf (l ++ l') = queuedOf l ++ queuedOf l' :=
  List.filterMap_append

@[simp] theorem sendsOf_append (l l' : List Deed) : sendsOf (l ++ l') = sendsOf l ++ sendsOf l' :=
  List.filterMap_append

end Deed

open Deed

/-- What a move comes to: one thread goes on, fails or ends, or the main thread goes on. -/
inductive Went (s : State) : State → List Deed → Prop where
  | watcher (w : WatcherAt) (before : s.watcher.over = false) (after : w ≠ .ended true) :
      Went s { s with watcher := w } []
  | watcherPush (w : WatcherAt) {actions : Buffer Action} {action : Action}
      (before : s.watcher.over = false) (after : w.over = false)
      (push : s.actions.push action = some actions) :
      Went s { s with actions := actions, watcher := w } [.queued action]
  | input (i : InputAt) (before : s.input.over = false) (after : i ≠ .ended true) :
      Went s { s with input := i } []
  | inputPush {actions : Buffer Action} {action : Action} (before : s.input.over = false)
      (push : s.actions.push action = some actions) :
      Went s { s with actions := actions, input := .check } [.queued action]
  | pop {actions : Buffer Action} {action : Action} (popping : s.consumer = .popping)
      (pop : s.actions.pop = some (some action, actions)) :
      Went s { s with actions := actions, consumer := .sending action } []
  | last {actions : Buffer Action} (popping : s.consumer = .popping)
      (pop : s.actions.pop = some (none, actions)) :
      Went s { s with
        actions := actions
        consumer := if s.hasExceptionOccurred then .ended false else .quitting } []
  | send {action : Action} (sending : s.consumer = .sending action) :
      Went s { s with
        consumer := if s.hasExceptionOccurred then .ended false else .popping } [.sent action]
  | sendQuit (quitting : s.consumer = .quitting) : Went s { s with consumer := .ended false } [.quit]
  | response (pause : Bool) (r : ResponseAt) (inbox : List Signal) (before : s.response.over = false)
      (unchecked : s.response ≠ .check true) (after : r.over = false) (checked : r ≠ .check true) :
      Went s { s with pauseExecution := pause, response := r, inbox := inbox } []
  | finish (handling : s.response = .handling .finish) :
      Went s { s with response := .check true } [.finish]
  | stops (finish : Bool) (point : s.response = .check finish)
      (ends : finish = true ∨ s.hasExceptionOccurred = true) :
      Went s { s with response := .ended false } []
  /-- `has_exception_occurred` is set by the thread that ends. -/
  | watcherFails (before : s.watcher.over = false) :
      Went s { s with hasExceptionOccurred := true, watcher := .ended true } []
  | consumerFails (before : s.consumer.over = false) :
      Went s { s with hasExceptionOccurred := true, consumer := .ended true } []
  | responseFails (pause : Bool) (before : s.response.over = false) :
      Went s { s with pauseExecution := pause, hasExceptionOccurred := true, response := .ended true } []
  | inputFails (before : s.input.over = false) :
      Went s { s with hasExceptionOccurred := true, input := .ended true } []
  | serve (inbox : List Signal) : Went s { s with inbox := inbox } []
  | stop (point : s.main = .joinInput) (input : s.input = .ended false) :
      Went s { s with running := false, main := .joinWatcher } []
  | terminate (point : s.main = .joinWatcher) (watcher : s.watcher = .ended false) :
      Went s { s with actions := s.actions.terminate, main := .joinConsumer } []
  | joined (point : s.main = .joinConsumer) (consumer : s.consumer = .ended false) :
      Went s { s with main := .joinResponse } []
  /-- The main thread has thrown, or is through. -/
  | leaves (main : MainAt) (joining : main ≠ .joinInput ∧ main ≠ .joinWatcher ∧ main ≠ .joinConsumer ∧
      main ≠ .joinResponse) : Went s { s with main := main } []

section Moves

variable {s s' : State} {m : Move}

theorem went_stepWatcher (h : s.stepWatcher m = some s') : Went s s' (deeds s m) := by
  cases m with
  | find action =>
    simp only [State.stepWatcher] at h
    split at h
    next hw => exact Option.some.inj h ▸ .watcher _ (by rw [hw]; rfl) (by simp)
    next hw => exact Option.some.inj h ▸ .watcher _ (by rw [hw]; rfl) (by simp)
    next => cases h
  | watcherPush =>
    simp only [State.stepWatcher] at h
    split at h
    next scan action hw =>
      obtain ⟨actions, hpush, hafter⟩ := Option.map_eq_some_iff.mp h
      rw [deeds, hw, ← hafter]
      exact .watcherPush _ (by rw [hw]; rfl) (by cases scan <;> rfl) hpush
    next => cases h
  | pass =>
    simp only [State.stepWatcher] at h
    split at h
    next hw => exact Option.some.inj h ▸ .watcher _ (by rw [hw]; rfl) (by simp)
    next hw => exact Option.some.inj h ▸ .watcher _ (by rw [hw]; rfl) (by simp)
    next => cases h
  | wake =>
    simp only [State.stepWatcher] at h
    split at h
    next hw => exact Option.some.inj h ▸ .watcher _ (by rw [hw]; rfl) (by cases s.running <;> simp)
    next => cases h
  | resume =>
    simp only [State.stepWatcher] at h
    split at h
    next hw =>
      split at h
      next => cases h
      next => exact Option.some.inj h ▸ .watcher _ (by rw [hw]; rfl) (by simp)
    next => cases h
  | _ => cases h

theorem went_stepConsumer (h : s.stepConsumer m = some s') : Went s s' (deeds s m) := by
  cases m with
  | pop =>
    simp only [State.stepConsumer] at h
    split at h
    next hc =>
      obtain ⟨⟨item, actions⟩, hpop, hafter⟩ := Option.map_eq_some_iff.mp h
      rw [← hafter]
      cases item with
      | none => exact .last hc hpop
      | some action => exact .pop hc hpop
    next => cases h
  | send =>
    simp only [State.stepConsumer] at h
    split at h
    next action hc =>
      rw [deeds, hc, ← Option.some.inj h]
      exact .send hc
    next => cases h
  | sendQuit =>
    simp only [State.stepConsumer] at h
    split at h
    next hc =>
      rw [deeds, hc, ← Option.some.inj h]
      exact .sendQuit hc
    next => cases h
  | _ => cases h

theorem went_stepResponse (h : s.stepResponse m = some s') : Went s s' (deeds s m) := by
  cases m with
  | responseCheck =>
    simp only [State.stepResponse] at h
    split at h
    next finish hr =>
      rw [← Option.some.inj h]
      by_cases hends : (finish || s.hasExceptionOccurred) = true
      · rw [if_pos hends]
        exact .stops finish hr (by simpa using hends)
      · rw [if_neg hends]
        have hfinish : finish ≠ true := fun heq => hends (by rw [heq]; rfl)
        exact .response s.pauseExecution _ s.inbox (by rw [hr]; rfl)
          (by rw [hr]; exact fun heq => hfinish (ResponseAt.check.inj heq)) rfl (by simp)
    next => cases h
  | read =>
    simp only [State.stepResponse] at h
    split at h
    next hinbox hr =>
      exact Option.some.inj h ▸ .response s.pauseExecution _ _ (by rw [hr]; rfl)
        (by simp [hr]) rfl (by simp)
    next hinbox hr =>
      exact Option.some.inj h ▸ .response s.pauseExecution _ _ (by rw [hr]; rfl)
        (by simp [hr]) rfl (by simp)
    next hinbox hr =>
      exact Option.some.inj h ▸ .response s.pauseExecution _ _ (by rw [hr]; rfl)
        (by simp [hr]) rfl (by simp)
    next => cases h
  | handle =>
    simp only [State.stepResponse] at h
    split at h
    next hr =>
      rw [deeds, hr, ← Option.some.inj h]
      exact .response _ _ _ (by rw [hr]; rfl) (by simp [hr]) rfl (by simp)
    next hr =>
      rw [deeds, hr, ← Option.some.inj h]
      exact .finish hr
    next blocks hr =>
      rw [deeds, hr, ← Option.some.inj h]
      exact .response _ _ _ (by rw [hr]; rfl) (by simp [hr]) rfl (by simp)
    next hr =>
      rw [deeds, hr, ← Option.some.inj h]
      exact .response _ _ _ (by rw [hr]; rfl) (by simp [hr]) rfl (by simp)
    next => cases h
  | pause =>
    simp only [State.stepResponse] at h
    split at h
    next blocks hr =>
      split at h
      next => cases h
      next => exact Option.some.inj h ▸ .response _ _ _ (by rw [hr]; rfl) (by simp [hr]) rfl (by simp)
    next => cases h
  | restart =>
    simp only [State.stepResponse] at h
    split at h
    next hr =>
      split at h
      next => cases h
      next => exact Option.some.inj h ▸ .response _ _ _ (by rw [hr]; rfl) (by simp [hr]) rfl (by simp)
    next hr =>
      split at h
      next => cases h
      next => exact Option.some.inj h ▸ .responseFails _ (by rw [hr]; rfl)
    next => cases h
  | _ => cases h

theorem went_stepInput (h : s.stepInput m = some s') : Went s s' (deeds s m) := by
  cases m with
  | poll command =>
    simp only [State.stepInput] at h
    split at h
    next hi => exact Option.some.inj h ▸ .input _ (by rw [hi]; rfl) (by simp)
    next hi => exact Option.some.inj h ▸ .input _ (by rw [hi]; rfl) (by simp)
    next hi => exact Option.some.inj h ▸ .input _ (by rw [hi]; rfl) (by simp)
    next => cases h
  | answer action =>
    simp only [State.stepInput] at h
    split at h
    next hi => exact Option.some.inj h ▸ .input _ (by rw [hi]; rfl) (by simp)
    next hi => exact Option.some.inj h ▸ .input _ (by rw [hi]; rfl) (by simp)
    next => cases h
  | confirm quit =>
    simp only [State.stepInput] at h
    split at h
    next hi => exact Option.some.inj h ▸ .input _ (by rw [hi]; rfl) (by cases quit <;> simp)
    next => cases h
  | inputPush =>
    simp only [State.stepInput] at h
    split at h
    next action hi =>
      obtain ⟨actions, hpush, hafter⟩ := Option.map_eq_some_iff.mp h
      rw [deeds, hi, ← hafter]
      exact .inputPush (by rw [hi]; rfl) hpush
    next => cases h
  | inputCheck =>
    simp only [State.stepInput] at h
    split at h
    next hi =>
      exact Option.some.inj h ▸ .input _ (by rw [hi]; rfl) (by cases s.hasExceptionOccurred <;> simp)
    next => cases h
  | _ => cases h

theorem went_join (h : s.join = some s') : Went s s' [] := by
  unfold State.join at h
  split at h
  next hmain hinput => exact Option.some.inj h ▸ .stop hmain hinput
  next => exact Option.some.inj h ▸ .leaves _ (by simp)
  next hmain hwatcher => exact Option.some.inj h ▸ .terminate hmain hwatcher
  next => exact Option.some.inj h ▸ .leaves _ (by simp)
  next hmain hconsumer => exact Option.some.inj h ▸ .joined hmain hconsumer
  all_goals first
    | exact Option.some.inj h ▸ .leaves _ (by simp)
    | cases h

theorem went_throws {party : Party} (h : s.throws party = some s') : Went s s' [] := by
  cases party with
  | watcher =>
    simp only [State.throws] at h
    split at h
    next hw => exact Option.some.inj h ▸ .watcherFails (by rw [hw]; rfl)
    next hw => exact Option.some.inj h ▸ .watcherFails (by rw [hw]; rfl)
    next => cases h
  | consumer =>
    simp only [State.throws] at h
    split at h
    next hc => exact Option.some.inj h ▸ .consumerFails (by rw [hc]; rfl)
    next hc => exact Option.some.inj h ▸ .consumerFails (by rw [hc]; rfl)
    next => cases h
  | response =>
    simp only [State.throws] at h
    split at h
    next hr => exact Option.some.inj h ▸ .responseFails _ (by rw [hr]; rfl)
    next hr => exact Option.some.inj h ▸ .responseFails _ (by rw [hr]; rfl)
    next hr => exact Option.some.inj h ▸ .responseFails _ (by rw [hr]; rfl)
    next hr =>
      exact Option.some.inj h ▸ .response s.pauseExecution _ s.inbox (by rw [hr]; rfl)
        (by simp [hr]) rfl (by simp)
    next => cases h
  | input =>
    simp only [State.throws] at h
    split at h
    next hi => exact Option.some.inj h ▸ .inputFails (by rw [hi]; rfl)
    next hi => exact Option.some.inj h ▸ .inputFails (by rw [hi]; rfl)
    next hi => exact Option.some.inj h ▸ .inputFails (by rw [hi]; rfl)
    next => cases h

theorem went_of_step (h : step s m = some s') : Went s s' (deeds s m) := by
  cases m with
  | join => exact went_join h
  | serve signal =>
    simp only [step] at h
    split at h
    next => cases h
    next => exact Option.some.inj h ▸ .serve _
  | throws party => exact went_throws h
  | cleanupThrows =>
    simp only [step, State.cleanupThrows] at h
    split at h
    next hr => exact Option.some.inj h ▸ .responseFails _ (by rw [hr]; rfl)
    next => cases h
  | find | watcherPush | pass | wake | resume => exact went_stepWatcher h
  | pop | send | sendQuit => exact went_stepConsumer h
  | responseCheck | read | handle | pause | restart => exact went_stepResponse h
  | poll | answer | confirm | inputPush | inputCheck => exact went_stepInput h

end Moves

/-- Where the main thread joins, the threads that it has joined have ended without an exception. -/
structure Joins (s : State) : Prop where
  watcher : s.main = .joinWatcher → s.input = .ended false
  consumer : s.main = .joinConsumer → s.input = .ended false ∧ s.watcher = .ended false
  response : s.main = .joinResponse →
    s.input = .ended false ∧ s.watcher = .ended false ∧ s.consumer = .ended false
  /-- Nothing is queued in a buffer that is terminated. -/
  terminated : s.actions.isTerminated = true → s.input = .ended false ∧ s.watcher = .ended false
  /-- The flag is set by a thread that has failed. -/
  failed : s.hasExceptionOccurred = true → s.watcher = .ended true ∨ s.consumer = .ended true ∨
    s.response = .ended true ∨ s.input = .ended true

/-- What the action consumer and the response consumer have done, as long as no exception has occurred. -/
structure Tidy (s : State) (l : List Deed) : Prop where
  /-- What is queued is sent, in hand or in the buffer. -/
  conserves : s.consumer.isEnded = false → ∃ sent, sendsOf l = sent.map some ∧
    queuedOf l = sent ++ s.consumer.inHand ++ s.actions.contents
  drained : s.consumer = .quitting → s.actions.isTerminated = true ∧ s.actions.contents = []
  quits : s.consumer = .ended false → s.hasExceptionOccurred = false →
    s.actions.isTerminated = true ∧ sendsOf l = (queuedOf l).map some ++ [none]
  finished : s.response = .check true ∨ s.response = .ended false ∧ s.hasExceptionOccurred = false →
    .finish ∈ l

section Invariants

variable {s s' : State} {l d : List Deed}

theorem joins_start (default : Action) : Joins (start default) :=
  ⟨by simp [start], by simp [start], by simp [start], by simp [start, Buffer.empty], by simp [start]⟩

theorem tidy_start (default : Action) : Tidy (start default) [] := by
  refine ⟨fun _ => ⟨[], rfl, ?_⟩, by simp [start], by simp [start], fun h => ?_⟩
  · rw [start, Buffer.contents_empty]
    rfl
  · rcases h with h | ⟨h, -⟩ <;> cases h

theorem WatcherAt.ne_of_over {w : WatcherAt} (h : w.over = false) (failed : Bool) : w ≠ .ended failed :=
  ne_ended_of_over h failed

theorem InputAt.ne_of_over {i : InputAt} (h : i.over = false) (failed : Bool) : i ≠ .ended failed :=
  ne_ended_of_over_input h failed

theorem ConsumerAt.ne_of_over {c : ConsumerAt} (h : c.over = false) (failed : Bool) :
    c ≠ .ended failed := by
  rintro rfl
  cases h

theorem ResponseAt.ne_of_over {r : ResponseAt} (h : r.over = false) (failed : Bool) :
    r ≠ .ended failed := by
  rintro rfl
  cases h

/-- A thread that has not ended goes on: nothing is known of it yet. -/
theorem joins_went (h : Joins s) (hwent : Went s s' d) : Joins s' := by
  obtain ⟨hwatcher, hconsumer, hresponse, hterminated, hfailed⟩ := h
  cases hwent with
  | watcher w before after =>
    have hne := WatcherAt.ne_of_over before
    exact ⟨hwatcher, fun hm => absurd (hconsumer hm).2 (hne _), fun hm => absurd (hresponse hm).2.1 (hne _),
      fun ht => absurd (hterminated ht).2 (hne _), fun hf => by simpa [hne true, after] using hfailed hf⟩
  | watcherPush w before after push =>
    have hne := WatcherAt.ne_of_over before
    have hne' := WatcherAt.ne_of_over after
    refine ⟨hwatcher, fun hm => absurd (hconsumer hm).2 (hne _), fun hm => absurd (hresponse hm).2.1 (hne _),
      fun ht => ?_, fun hf => by simpa [hne true, hne' true] using hfailed hf⟩
    dsimp only at ht
    rw [Buffer.isTerminated_push push] at ht
    exact absurd (hterminated ht).2 (hne _)
  | input i before after =>
    have hne := InputAt.ne_of_over before
    exact ⟨fun hm => absurd (hwatcher hm) (hne _), fun hm => absurd (hconsumer hm).1 (hne _),
      fun hm => absurd (hresponse hm).1 (hne _), fun ht => absurd (hterminated ht).1 (hne _),
      fun hf => by simpa [hne true, after] using hfailed hf⟩
  | inputPush before push =>
    have hne := InputAt.ne_of_over before
    refine ⟨fun hm => absurd (hwatcher hm) (hne _), fun hm => absurd (hconsumer hm).1 (hne _),
      fun hm => absurd (hresponse hm).1 (hne _), fun ht => ?_,
      fun hf => by simpa [hne true] using hfailed hf⟩
    dsimp only at ht
    rw [Buffer.isTerminated_push push] at ht
    exact absurd (hterminated ht).1 (hne _)
  | pop popping pop =>
    refine ⟨hwatcher, hconsumer, fun hm => ?_, fun ht => ?_, fun hf => by simpa [popping] using hfailed hf⟩
    · have hended := (hresponse hm).2.2
      rw [popping] at hended
      cases hended
    · dsimp only at ht
      rw [(Buffer.pop_some pop).2] at ht
      exact hterminated ht
  | last popping pop =>
    obtain ⟨hsame, -, -⟩ := Buffer.pop_none pop
    rw [hsame]
    refine ⟨hwatcher, hconsumer, fun hm => ?_, hterminated, fun hf => ?_⟩
    · have hended := (hresponse hm).2.2
      rw [popping] at hended
      cases hended
    · have hf' : s.hasExceptionOccurred = true := hf
      simpa [popping, hf'] using hfailed hf
  | send sending =>
    refine ⟨hwatcher, hconsumer, fun hm => ?_, hterminated, fun hf => ?_⟩
    · have hended := (hresponse hm).2.2
      rw [sending] at hended
      cases hended
    · have hf' : s.hasExceptionOccurred = true := hf
      simpa [sending, hf'] using hfailed hf
  | sendQuit quitting =>
    refine ⟨hwatcher, hconsumer, fun hm => ?_, hterminated, fun hf => by simpa [quitting] using hfailed hf⟩
    have hended := (hresponse hm).2.2
    rw [quitting] at hended
    cases hended
  | response pause r inbox before unchecked after checked =>
    have hne := ResponseAt.ne_of_over before
    have hne' := ResponseAt.ne_of_over after
    exact ⟨hwatcher, hconsumer, hresponse, hterminated,
      fun hf => by simpa [hne true, hne' true] using hfailed hf⟩
  | finish handling =>
    exact ⟨hwatcher, hconsumer, hresponse, hterminated, fun hf => by simpa [handling] using hfailed hf⟩
  | stops finish point ends =>
    exact ⟨hwatcher, hconsumer, hresponse, hterminated, fun hf => by simpa [point] using hfailed hf⟩
  | watcherFails before =>
    have hne := WatcherAt.ne_of_over before
    exact ⟨hwatcher, fun hm => absurd (hconsumer hm).2 (hne _), fun hm => absurd (hresponse hm).2.1 (hne _),
      fun ht => absurd (hterminated ht).2 (hne _), fun _ => Or.inl rfl⟩
  | consumerFails before =>
    have hne := ConsumerAt.ne_of_over before
    exact ⟨hwatcher, hconsumer, fun hm => absurd (hresponse hm).2.2 (hne _), hterminated,
      fun _ => Or.inr (Or.inl rfl)⟩
  | responseFails pause before =>
    exact ⟨hwatcher, hconsumer, hresponse, hterminated, fun _ => Or.inr (Or.inr (Or.inl rfl))⟩
  | inputFails before =>
    have hne := InputAt.ne_of_over before
    exact ⟨fun hm => absurd (hwatcher hm) (hne _), fun hm => absurd (hconsumer hm).1 (hne _),
      fun hm => absurd (hresponse hm).1 (hne _), fun ht => absurd (hterminated ht).1 (hne _),
      fun _ => Or.inr (Or.inr (Or.inr rfl))⟩
  | serve inbox => exact ⟨hwatcher, hconsumer, hresponse, hterminated, hfailed⟩
  | stop point input => exact ⟨fun _ => input, by simp, by simp, hterminated, hfailed⟩
  | terminate point watcher =>
    have hboth : s.input = .ended false ∧ s.watcher = .ended false := ⟨hwatcher point, watcher⟩
    exact ⟨by simp, fun _ => hboth, by simp, fun _ => hboth, hfailed⟩
  | joined point consumer =>
    obtain ⟨hinput, hover⟩ := hconsumer point
    exact ⟨by simp, by simp, fun _ => ⟨hinput, hover, consumer⟩, hterminated, hfailed⟩
  | leaves main joining =>
    exact ⟨fun hm => absurd hm joining.2.1, fun hm => absurd hm joining.2.2.1,
      fun hm => absurd hm joining.2.2.2, hterminated, hfailed⟩

/-- The consumer and what it has done stay as they are; `finish` may have been read. -/
theorem Tidy.aside (h : Tidy s l) (hframes : sendsOf d = []) (hqueued : queuedOf d = [])
    (hconsumer : s'.consumer = s.consumer) (hcontents : s'.actions.contents = s.actions.contents)
    (hterminated : s.actions.isTerminated = true → s'.actions.isTerminated = true)
    (hflag : s'.hasExceptionOccurred = false → s.hasExceptionOccurred = false)
    (hfinished : s'.response = .check true ∨ s'.response = .ended false ∧
      s'.hasExceptionOccurred = false → .finish ∈ l ++ d) : Tidy s' (l ++ d) := by
  refine ⟨fun hended => ?_, fun hquit => ?_, fun hended hf => ?_, hfinished⟩
  · rw [sendsOf_append, queuedOf_append, hframes, hqueued, List.append_nil, List.append_nil, hconsumer,
      hcontents]
    rw [hconsumer] at hended
    exact h.conserves hended
  · rw [hconsumer] at hquit
    rw [hcontents]
    exact ⟨hterminated (h.drained hquit).1, (h.drained hquit).2⟩
  · rw [hconsumer] at hended
    obtain ⟨ht, hall⟩ := h.quits hended (hflag hf)
    rw [sendsOf_append, queuedOf_append, hframes, hqueued, List.append_nil, List.append_nil]
    exact ⟨hterminated ht, hall⟩

/-- An action is queued, by a thread that has not ended. -/
theorem Tidy.queue (h : Tidy s l) (hopen : s.actions.isTerminated = false) {action : Action}
    (hpush : s.actions.push action = some s'.actions) (hconsumer : s'.consumer = s.consumer)
    (hflag : s'.hasExceptionOccurred = s.hasExceptionOccurred) (hresponse : s'.response = s.response) :
    Tidy s' (l ++ [.queued action]) := by
  refine ⟨fun hended => ?_, fun hquit => ?_, fun hended hf => ?_, fun hfinish => ?_⟩
  · rw [hconsumer] at hended
    obtain ⟨sent, hframes, hqueued⟩ := h.conserves hended
    refine ⟨sent, by simpa [sendsOf] using hframes, ?_⟩
    rw [queuedOf_append, hqueued, hconsumer, Buffer.contents_push hpush]
    simp [queuedOf]
  · rw [hconsumer] at hquit
    rw [(h.drained hquit).1] at hopen
    cases hopen
  · rw [hconsumer] at hended
    rw [hflag] at hf
    rw [(h.quits hended hf).1] at hopen
    cases hopen
  · rw [hresponse, hflag] at hfinish
    exact List.mem_append_left _ (h.finished hfinish)

theorem tidy_went (hjoins : Joins s) (h : Tidy s l) (hwent : Went s s' d) : Tidy s' (l ++ d) := by
  have hkept : s.response = .check true ∨ s.response = .ended false ∧ s.hasExceptionOccurred = false →
      .finish ∈ l ++ [] := fun hfinish => by
    rw [List.append_nil]
    exact h.finished hfinish
  have hset : s.response = .check true ∨ s.response = .ended false ∧ true = false → .finish ∈ l ++ [] :=
    fun hfinish => hkept (hfinish.imp_right fun heq => absurd heq.2.symm Bool.false_ne_true)
  cases hwent with
  | watcher w before after => exact h.aside rfl rfl rfl rfl id id hkept
  | watcherPush w before after push =>
    refine h.queue ?_ push rfl rfl rfl
    rw [← Bool.not_eq_true]
    exact fun ht => WatcherAt.ne_of_over before _ (hjoins.terminated ht).2
  | input i before after => exact h.aside rfl rfl rfl rfl id id hkept
  | inputPush before push =>
    refine h.queue ?_ push rfl rfl rfl
    rw [← Bool.not_eq_true]
    exact fun ht => InputAt.ne_of_over before _ (hjoins.terminated ht).1
  | @pop actions action popping pop =>
    refine ⟨fun _ => ?_, by simp, by simp, hkept⟩
    obtain ⟨sent, hframes, hqueued⟩ := h.conserves (by rw [popping]; rfl)
    refine ⟨sent, by simpa using hframes, ?_⟩
    rw [List.append_nil, hqueued, popping, Buffer.contents_pop pop]
    simp [ConsumerAt.inHand]
  | @last actions popping pop =>
    obtain ⟨hsame, hempty, hterminated⟩ := Buffer.pop_none pop
    have hcontents : s.actions.contents = [] := Buffer.contents_of_length hempty
    obtain ⟨sent, hframes, hqueued⟩ := h.conserves (by rw [popping]; rfl)
    rw [hsame, List.append_nil]
    cases hflag : s.hasExceptionOccurred with
    | true =>
      exact ⟨by simp [ConsumerAt.isEnded], by simp, fun _ hf => absurd hf (by simp),
        fun hfinish => h.finished (hfinish.imp_right fun hended => absurd hended.2 (by simp))⟩
    | false =>
      refine ⟨fun _ => ⟨sent, hframes, ?_⟩, fun _ => ⟨hterminated, hcontents⟩, by simp,
        fun hfinish => h.finished (hfinish.imp_right fun hended => ⟨hended.1, hflag⟩)⟩
      rw [hqueued, popping]
      simp [ConsumerAt.inHand]
  | @send action sending =>
    obtain ⟨sent, hframes, hqueued⟩ := h.conserves (by rw [sending]; rfl)
    cases hflag : s.hasExceptionOccurred with
    | true =>
      refine ⟨by simp [ConsumerAt.isEnded], by simp, fun _ hf => absurd hf (by simp), fun hfinish => ?_⟩
      exact List.mem_append_left _
        (h.finished (hfinish.imp_right fun hended => absurd hended.2 (by simp)))
    | false =>
      refine ⟨fun _ => ⟨sent ++ [action], ?_, ?_⟩, by simp, by simp, fun hfinish => ?_⟩
      · rw [sendsOf_append, hframes, List.map_append]
        rfl
      · rw [queuedOf_append, hqueued, sending]
        simp [ConsumerAt.inHand, queuedOf]
      · exact List.mem_append_left _
          (h.finished (hfinish.imp_right fun hended => ⟨hended.1, hflag⟩))
  | sendQuit quitting =>
    obtain ⟨hterminated, hcontents⟩ := h.drained quitting
    obtain ⟨sent, hframes, hqueued⟩ := h.conserves (by rw [quitting]; rfl)
    refine ⟨by simp [ConsumerAt.isEnded], by simp, fun _ _ => ⟨hterminated, ?_⟩, fun hfinish => ?_⟩
    · rw [sendsOf_append, queuedOf_append, hframes, hqueued, quitting, hcontents]
      simp [ConsumerAt.inHand, queuedOf, sendsOf]
    · exact List.mem_append_left _ (h.finished hfinish)
  | response pause r inbox before unchecked after checked =>
    refine h.aside rfl rfl rfl rfl id id fun hfinish => ?_
    rcases hfinish with hcheck | ⟨hended, -⟩
    · exact absurd hcheck checked
    · exact absurd hended (ResponseAt.ne_of_over after _)
  | finish handling =>
    exact h.aside rfl rfl rfl rfl id id fun _ => List.mem_append_right _ List.mem_cons_self
  | stops finish point ends =>
    refine h.aside rfl rfl rfl rfl id id fun hfinish => ?_
    rcases hfinish with hcheck | ⟨-, hf⟩
    · cases hcheck
    · have hf' : s.hasExceptionOccurred = false := hf
      have hfinish : finish = true := ends.resolve_right (by simp [hf'])
      exact hkept (Or.inl (by rw [point, hfinish]))
  | watcherFails before => exact h.aside rfl rfl rfl rfl id (by simp) hset
  | consumerFails before => exact ⟨by simp [ConsumerAt.isEnded], by simp, by simp, hset⟩
  | responseFails pause before =>
    refine h.aside rfl rfl rfl rfl id (by simp) fun hfinish => ?_
    rcases hfinish with hcheck | ⟨hended, -⟩
    · cases hcheck
    · cases hended
  | inputFails before => exact h.aside rfl rfl rfl rfl id (by simp) hset
  | serve inbox => exact h.aside rfl rfl rfl rfl id id hkept
  | stop point input => exact h.aside rfl rfl rfl rfl id id hkept
  | terminate point watcher => exact h.aside rfl rfl rfl rfl (fun _ => rfl) id hkept
  | joined point consumer => exact h.aside rfl rfl rfl rfl id id hkept
  | leaves main joining => exact h.aside rfl rfl rfl rfl id id hkept

theorem tidy_run {default : Action} {moves : List Move}
    (hrun : run step (start default) moves = some s) :
    Joins s ∧ Tidy s (outputs step deeds (start default) moves) := by
  have hbegin : Joins (start default) ∧ Tidy (start default) [] := ⟨joins_start default, tidy_start default⟩
  refine run_outputs (I := fun s l => Joins s ∧ Tidy s l) (fun s m s' l h hstep => ?_) hbegin hrun
  have hwent := went_of_step hstep
  exact ⟨joins_went h.1 hwent, tidy_went h.1 h.2 hwent⟩

/-- Where all threads have ended without an exception, none has set the flag. -/
theorem Joins.unharmed (h : Joins s) (hmain : s.main = .joinResponse)
    (hresponse : s.response = .ended false) : s.hasExceptionOccurred = false := by
  obtain ⟨hinput, hwatcher, hconsumer⟩ := h.response hmain
  rw [← Bool.not_eq_true]
  intro hflag
  rcases h.failed hflag with hended | hended | hended | hended
  · cases hwatcher.symm.trans hended
  · cases hconsumer.symm.trans hended
  · cases hresponse.symm.trans hended
  · cases hinput.symm.trans hended

end Invariants

/-- The actions for which `send_action` writes a frame, where `disks` is what its calls find. -/
def written (disks : ℕ → Disk) (actions : List Action) : List Action :=
  (actions.zipIdx.filter fun x => decide (IsWritten (disks x.2) x.1)).map Prod.fst

theorem framesOf_eq {disks : ℕ → Disk} {l : List Deed} {actions : List Action}
    (hsends : sendsOf l = actions.map some ++ [none]) :
    framesOf disks l = (written disks actions).map some ++ [none] := by
  unfold framesOf written
  rw [hsends, List.zipIdx_append, List.filter_append, List.map_append, List.zipIdx_map,
    List.filter_map, List.map_map, List.map_map]
  rfl

/-- When the main thread has joined all threads without an exception, none has failed, the frames that
were written are those of the queued actions that are written, in order, and the quit frame, and
`finish` was read. -/
theorem clean_exit (default : Action) (moves : List Move) (s : State)
    (hrun : run step (start default) moves = some s) (hmain : s.main = .joinResponse)
    (hresponse : s.response = .ended false) :
    s.hasExceptionOccurred = false ∧
      (∀ disks, framesOf disks (outputs step deeds (start default) moves) =
        (written disks (queuedOf (outputs step deeds (start default) moves))).map some ++ [none]) ∧
      .finish ∈ outputs step deeds (start default) moves := by
  obtain ⟨hjoins, htidy⟩ := tidy_run hrun
  obtain ⟨-, -, hconsumer⟩ := hjoins.response hmain
  have hflag := hjoins.unharmed hmain hresponse
  have hsends := (htidy.quits hconsumer hflag).2
  exact ⟨hflag, fun disks => framesOf_eq hsends, htidy.finished (Or.inr ⟨hresponse, hflag⟩)⟩

/-- A restore and an ignored action are queued, and the user quits. -/
def quittingMoves : List Move :=
  [.responseCheck, .find (.ofRestore [] []), .watcherPush, .find (.ofStatus true [47] .modified .created),
    .watcherPush, .pass, .pop, .send, .pop, .send, .poll .quit, .confirm true, .join, .wake, .join,
    .pop, .sendQuit, .join, .serve .other, .serve .finish, .read, .read, .handle, .responseCheck]

theorem clean_exit_quitting : ∃ s, run step (start (.ofRestore [] [])) quittingMoves = some s ∧
    s.hasExceptionOccurred = false ∧
    (∀ disks, framesOf disks (outputs step deeds (start (.ofRestore [] [])) quittingMoves) =
      (written disks (queuedOf
        (outputs step deeds (start (.ofRestore [] [])) quittingMoves))).map some ++ [none]) ∧
    .finish ∈ outputs step deeds (start (.ofRestore [] [])) quittingMoves :=
  ⟨_, rfl, clean_exit (.ofRestore [] []) quittingMoves _ rfl rfl rfl⟩

end BackupManager.Client.Threads
