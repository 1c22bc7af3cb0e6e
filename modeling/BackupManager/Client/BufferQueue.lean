import BackupManager.Client.Threads
import BackupManager.Queue.Bounded

/-! The ring as a queue of `MAX_SIZE - 1` items, over any number of rounds, and what the action consumer
has sent when it writes the quit frame. -/
namespace BackupManager.Client
open Queue Transition

namespace Buffer

variable {α T : Type}

/-- The cell that is so many after the head. -/
def slot (b : Buffer α) (i : ℕ) : ℕ := (b.head + i) % maxSize

/-- What it holds, in the order in which it comes out. -/
def contents (b : Buffer α) : List α := (List.range b.length).map fun i => b.buf (b.slot i)

def toFifo (b : Buffer α) : Fifo α := ⟨b.contents, b.isTerminated⟩

def methods (α : Type) : Methods α (Buffer α) := ⟨push, pop, terminate⟩

variable {b b' : Buffer α} {item : α}

@[simp] theorem length_contents (b : Buffer α) : b.contents.length = b.length := by simp [contents]

theorem contents_of_length {b : Buffer α} (h : b.length = 0) : b.contents = [] := by
  rw [contents, h, List.range_zero, List.map_nil]

theorem contents_empty (default : α) : (empty default).contents = [] :=
  contents_of_length (length_eq_zero.mpr rfl)

/-- The next free cell comes after the last one that is used. -/
theorem slot_length (b : Buffer α) : b.slot b.length = b.curr := by
  have hhead := b.head_lt
  have hcurr := b.curr_lt
  unfold slot length
  unfold maxSize at *
  omega

/-- A cell that is used is not the next free one. -/
theorem slot_ne_curr {i : ℕ} (hi : i < b.length) : b.slot i ≠ b.curr := by
  have hhead := b.head_lt
  have hcurr := b.curr_lt
  unfold length at hi
  unfold slot
  unfold maxSize at *
  omega

theorem contents_push (h : b.push item = some b') : b'.contents = b.contents ++ [item] := by
  have hlength := length_push h
  unfold push at h
  split at h
  · exact absurd h (by simp)
  · have heq := Option.some.inj h
    have hbefore : ∀ i ∈ List.range b.length, b'.buf (b'.slot i) = b.buf (b.slot i) := by
      intro i hi
      rw [← heq]
      exact Function.update_of_ne (slot_ne_curr (List.mem_range.mp hi)) _ _
    have hlast : b'.buf (b'.slot b.length) = item := by
      have hslot : b'.slot b.length = b.curr := by
        rw [← heq]
        exact slot_length b
      rw [hslot, ← heq]
      exact Function.update_self _ _ _
    rw [contents, hlength, List.range_succ, List.map_append, List.map_singleton, hlast,
      List.map_congr_left hbefore]
    rfl

theorem contents_pop (h : b.pop = some (some item, b')) : b.contents = item :: b'.contents := by
  have hlength := (pop_some h).1
  have hhead := b.head_lt
  unfold pop at h
  split at h
  · split at h <;> simp at h
  · obtain ⟨hitem, heq⟩ := Prod.mk.inj (Option.some.inj h)
    have hfirst : b.buf (b.slot 0) = item := by
      rw [← Option.some.inj hitem, slot, Nat.add_zero, Nat.mod_eq_of_lt hhead]
    have hafter : ∀ i ∈ List.range b'.length, b.buf (b.slot (i + 1)) = b'.buf (b'.slot i) := by
      intro i _
      have hslot : b.slot (i + 1) = b'.slot i := by
        rw [← heq]
        unfold slot next maxSize
        dsimp only
        omega
      rw [hslot, ← heq]
    rw [contents, hlength, List.range_succ_eq_map, List.map_cons, List.map_map, hfirst]
    congr 1
    exact List.map_congr_left hafter

theorem push_isSome (b : Buffer α) (item : α) :
    (b.push item).isSome = true ↔ b.length < maxSize - 1 := by
  have hlt := b.length_lt
  rw [Option.isSome_iff_ne_none, ne_eq, push_eq_none]
  omega

/-- The ring refines the queue. -/
theorem refines_fifo : Refines toFifo (methods α) (Fifo.methods α (maxSize - 1)) where
  push item b := by
    show (b.push item).map toFifo = b.toFifo.push (maxSize - 1) item
    unfold Fifo.push
    rw [toFifo, length_contents]
    cases hpush : b.push item with
    | none =>
      rw [push_eq_none] at hpush
      rw [if_neg (by omega)]
      rfl
    | some b' =>
      have hroom : b.length < maxSize - 1 := by
        rw [← push_isSome b item, hpush]
        rfl
      rw [if_pos hroom, Option.map_some, toFifo, contents_push hpush, isTerminated_push hpush]
  pop b := by
    show b.pop.map (Prod.map id toFifo) = b.toFifo.pop
    unfold Fifo.pop
    cases hpop : b.pop with
    | none =>
      have hempty : b.length = 0 := by
        by_contra hne
        obtain ⟨item, b', hsome⟩ := exists_pop hne
        rw [hpop] at hsome
        cases hsome
      have hwaits : b.isTerminated = false := by
        rw [← Bool.not_eq_true]
        intro hterminated
        rw [pop_of_terminated hempty hterminated] at hpop
        cases hpop
      rw [toFifo, contents_of_length hempty, hwaits]
      rfl
    | some r =>
      obtain ⟨item, b'⟩ := r
      cases item with
      | none =>
        obtain ⟨rfl, hempty, hterminated⟩ := pop_none hpop
        rw [toFifo, contents_of_length hempty, hterminated]
        simp [toFifo, contents_of_length hempty, hterminated]
      | some item =>
        rw [toFifo, contents_pop hpop]
        simp [toFifo, (pop_some hpop).2]
  terminate b := rfl

end Buffer

namespace Threads

/-- What a thread does with an action. -/
inductive Mark where
  | queued (action : Action)
  /-- `send_action` has returned. -/
  | sent (action : Action)

def marks (s : State) : Move → List Mark
  | .watcherPush => match s.watcher with
    | .pushing _ action => [.queued action]
    | _ => []
  | .inputPush => match s.input with
    | .pushing action => [.queued action]
    | _ => []
  | .send => match s.consumer with
    | .sending action => [.sent action]
    | _ => []
  | _ => []

def queued (l : List Mark) : List Action := l.filterMap fun
  | .queued action => some action
  | .sent _ => none

def sent (l : List Mark) : List Action := l.filterMap fun
  | .queued _ => none
  | .sent action => some action

@[simp] theorem queued_append (l l' : List Mark) : queued (l ++ l') = queued l ++ queued l' :=
  List.filterMap_append

@[simp] theorem sent_append (l l' : List Mark) : sent (l ++ l') = sent l ++ sent l' :=
  List.filterMap_append

/-- The action between its pop and the return of `send_action`. -/
def ConsumerAt.inHand : ConsumerAt → List Action
  | .sending action => [action]
  | _ => []

def ConsumerAt.isEnded : ConsumerAt → Bool
  | .ended _ => true
  | _ => false

/-- What a move does to the buffer and to its consumer. -/
inductive Moved (s s' : State) : List Mark → Prop where
  | push (action : Action) (hpush : s.actions.push action = some s'.actions)
      (hconsumer : s'.consumer = s.consumer) : Moved s s' [.queued action]
  | pop (action : Action) (hpopping : s.consumer = .popping)
      (hpop : s.actions.pop = some (some action, s'.actions))
      (hconsumer : s'.consumer = .sending action) : Moved s s' []
  | last (hpopping : s.consumer = .popping) (hpop : s.actions.pop = some (none, s'.actions))
      (hconsumer : s'.consumer.inHand = []) : Moved s s' []
  | send (action : Action) (hsending : s.consumer = .sending action) (hactions : s'.actions = s.actions)
      (hconsumer : s'.consumer = .popping) : Moved s s' [.sent action]
  /-- It is over with the consumer. -/
  | ended (marks : List Mark) (hqueued : queued marks = []) (hended : s'.consumer.isEnded = true) :
      Moved s s' marks
  | terminate (hactions : s'.actions = s.actions.terminate) (hconsumer : s'.consumer = s.consumer) :
      Moved s s' []
  | other (hactions : s'.actions = s.actions) (hconsumer : s'.consumer = s.consumer) : Moved s s' []

section Steps

variable {s s' : State} {m : Move}

theorem moved_stepWatcher (h : s.stepWatcher m = some s') : Moved s s' (marks s m) := by
  cases m with
  | watcherPush =>
    simp only [State.stepWatcher] at h
    split at h
    · next scan action hwatcher =>
      obtain ⟨actions, hpush, rfl⟩ := Option.map_eq_some_iff.mp h
      have hmarks : marks s .watcherPush = [.queued action] := by
        rw [marks, hwatcher]
      rw [hmarks]
      exact .push action hpush rfl
    · cases h
  | find action =>
    simp only [State.stepWatcher] at h
    split at h <;> cases h <;> exact .other rfl rfl
  | pass =>
    simp only [State.stepWatcher] at h
    split at h <;> cases h <;> exact .other rfl rfl
  | wake =>
    simp only [State.stepWatcher] at h
    split at h <;> cases h
    exact .other rfl rfl
  | resume =>
    simp only [State.stepWatcher] at h
    split at h
    · split at h <;> cases h
      exact .other rfl rfl
    · cases h
  | _ => cases h

theorem moved_stepConsumer (h : s.stepConsumer m = some s') : Moved s s' (marks s m) := by
  cases m with
  | pop =>
    simp only [State.stepConsumer] at h
    split at h
    · next hpopping =>
      obtain ⟨⟨item, actions⟩, hpop, rfl⟩ := Option.map_eq_some_iff.mp h
      cases item with
      | none =>
        refine .last hpopping hpop ?_
        dsimp only
        split <;> rfl
      | some action => exact .pop action hpopping hpop rfl
    · cases h
  | send =>
    simp only [State.stepConsumer] at h
    split at h
    · next action hsending =>
      have hmarks : marks s .send = [.sent action] := by
        rw [marks, hsending]
      rw [hmarks]
      cases h
      by_cases hflag : s.hasExceptionOccurred = true
      · exact .ended _ rfl (by simp [hflag, ConsumerAt.isEnded])
      · exact .send action hsending rfl (by simp [hflag])
    · cases h
  | sendQuit =>
    simp only [State.stepConsumer] at h
    split at h
    · cases h
      exact .ended _ rfl rfl
    · cases h
  | _ => cases h

theorem moved_stepResponse (h : s.stepResponse m = some s') : Moved s s' (marks s m) := by
  cases m with
  | responseCheck =>
    simp only [State.stepResponse] at h
    split at h <;> cases h
    exact .other rfl rfl
  | read =>
    simp only [State.stepResponse] at h
    split at h <;> cases h <;> exact .other rfl rfl
  | handle =>
    simp only [State.stepResponse] at h
    split at h <;> cases h <;> exact .other rfl rfl
  | pause =>
    simp only [State.stepResponse] at h
    split at h
    · split at h <;> cases h
      exact .other rfl rfl
    · cases h
  | restart =>
    simp only [State.stepResponse] at h
    split at h
    · split at h <;> cases h
      exact .other rfl rfl
    · split at h <;> cases h
      exact .other rfl rfl
    · cases h
  | _ => cases h

theorem moved_stepInput (h : s.stepInput m = some s') : Moved s s' (marks s m) := by
  cases m with
  | inputPush =>
    simp only [State.stepInput] at h
    split at h
    · next action hinput =>
      obtain ⟨actions, hpush, rfl⟩ := Option.map_eq_some_iff.mp h
      have hmarks : marks s .inputPush = [.queued action] := by
        rw [marks, hinput]
      rw [hmarks]
      exact .push action hpush rfl
    · cases h
  | poll command =>
    simp only [State.stepInput] at h
    split at h <;> cases h <;> exact .other rfl rfl
  | answer action =>
    simp only [State.stepInput] at h
    split at h <;> cases h <;> exact .other rfl rfl
  | confirm quit =>
    simp only [State.stepInput] at h
    split at h <;> cases h
    exact .other rfl rfl
  | inputCheck =>
    simp only [State.stepInput] at h
    split at h <;> cases h
    exact .other rfl rfl
  | _ => cases h

theorem moved_join (h : s.join = some s') : Moved s s' [] := by
  unfold State.join at h
  split at h
  · cases h
    exact .other rfl rfl
  · cases h
    exact .other rfl rfl
  · cases h
    exact .terminate rfl rfl
  all_goals cases h <;> exact .other rfl rfl

theorem moved_throws {party : Party} (h : s.throws party = some s') : Moved s s' [] := by
  cases party with
  | consumer =>
    simp only [State.throws] at h
    split at h <;> cases h <;> exact .ended [] rfl rfl
  | watcher =>
    simp only [State.throws] at h
    split at h <;> cases h <;> exact .other rfl rfl
  | response =>
    simp only [State.throws] at h
    split at h <;> cases h <;> exact .other rfl rfl
  | input =>
    simp only [State.throws] at h
    split at h <;> cases h <;> exact .other rfl rfl

theorem step_moved (h : step s m = some s') : Moved s s' (marks s m) := by
  cases m with
  | join => exact moved_join h
  | serve signal =>
    simp only [step] at h
    split at h <;> cases h
    exact .other rfl rfl
  | throws party => exact moved_throws h
  | cleanupThrows =>
    simp only [step, State.cleanupThrows] at h
    split at h <;> cases h
    exact .other rfl rfl
  | find | watcherPush | pass | wake | resume => exact moved_stepWatcher h
  | pop | send | sendQuit => exact moved_stepConsumer h
  | responseCheck | read | handle | pause | restart => exact moved_stepResponse h
  | poll | answer | confirm | inputPush | inputCheck => exact moved_stepInput h

/-- While the consumer goes on, what has been queued is what it has sent, has in hand, or will still
pop; and once it is about to write the quit frame, it has sent what stands in `early`. -/
structure Drains (early : List Action) (s : State) (l : List Mark) : Prop where
  conserves : s.consumer.isEnded = false →
    queued l = sent l ++ s.consumer.inHand ++ s.actions.contents
  queued : early <+: queued l
  terminated : s.consumer = .quitting → s.actions.isTerminated = true
  quits : s.consumer = .quitting → early <+: sent l

variable {early : List Action} {l : List Mark}

theorem drains_start (default : Action) : Drains [] (start default) [] := by
  refine ⟨fun _ => ?_, List.nil_prefix, nofun, nofun⟩
  rw [start, Buffer.contents_empty]
  rfl

theorem drains_moved {marks : List Mark} (hl : Drains early s l) (h : Moved s s' marks) :
    Drains early s' (l ++ marks) := by
  have hearly : early <+: queued (l ++ marks) := by
    rw [queued_append]
    exact hl.queued.trans (List.prefix_append _ _)
  cases h with
  | push action hpush hconsumer =>
    refine ⟨fun hended => ?_, hearly, fun hquit => ?_, fun hquit => ?_⟩
    · rw [hconsumer] at hended
      rw [queued_append, sent_append, hl.conserves hended, hconsumer, Buffer.contents_push hpush]
      simp [queued, sent]
    · rw [Buffer.isTerminated_push hpush]
      exact hl.terminated (hconsumer ▸ hquit)
    · rw [sent_append]
      exact (hl.quits (hconsumer ▸ hquit)).trans (List.prefix_append _ _)
  | pop action hpopping hpop hconsumer =>
    refine ⟨fun _ => ?_, hearly, fun hquit => ?_, fun hquit => ?_⟩
    · rw [List.append_nil, hl.conserves (by rw [hpopping]; rfl), hpopping, hconsumer,
        Buffer.contents_pop hpop]
      simp [ConsumerAt.inHand]
    · rw [hconsumer] at hquit
      cases hquit
    · rw [hconsumer] at hquit
      cases hquit
  | last hpopping hpop hconsumer =>
    obtain ⟨hsame, hempty, hterminated⟩ := Buffer.pop_none hpop
    have hcontents : s.actions.contents = [] :=
      Buffer.contents_of_length hempty
    have hdrained := hl.conserves (by rw [hpopping]; rfl)
    have hhand : ConsumerAt.popping.inHand = [] := rfl
    rw [hpopping, hcontents, hhand, List.append_nil, List.append_nil] at hdrained
    refine ⟨fun _ => ?_, hearly, fun _ => by rw [hsame, hterminated], fun _ => ?_⟩
    · rw [List.append_nil, hdrained, hconsumer, hsame, hcontents, List.append_nil, List.append_nil]
    · rw [List.append_nil, ← hdrained]
      exact hl.queued
  | send action hsending hactions hconsumer =>
    refine ⟨fun _ => ?_, hearly, fun hquit => ?_, fun hquit => ?_⟩
    · rw [queued_append, sent_append, hl.conserves (by rw [hsending]; rfl), hsending, hconsumer,
        hactions]
      simp [queued, sent, ConsumerAt.inHand]
    · rw [hconsumer] at hquit
      cases hquit
    · rw [hconsumer] at hquit
      cases hquit
  | ended marks hqueued hended =>
    have hquitting : s'.consumer ≠ .quitting := by
      intro hquit
      rw [hquit] at hended
      cases hended
    refine ⟨fun hgoesOn => ?_, hearly, fun hquit => absurd hquit hquitting,
      fun hquit => absurd hquit hquitting⟩
    rw [hended] at hgoesOn
    cases hgoesOn
  | terminate hactions hconsumer =>
    rw [List.append_nil] at hearly ⊢
    refine ⟨fun hended => ?_, hearly, fun _ => by rw [hactions]; rfl, fun hquit => ?_⟩
    · rw [hconsumer] at hended
      rw [hl.conserves hended, hconsumer, hactions]
      rfl
    · exact hl.quits (hconsumer ▸ hquit)
  | other hactions hconsumer =>
    rw [List.append_nil] at hearly ⊢
    refine ⟨fun hended => ?_, hearly, fun hquit => ?_, fun hquit => ?_⟩
    · rw [hconsumer] at hended
      rw [hl.conserves hended, hconsumer, hactions]
    · rw [hactions]
      exact hl.terminated (hconsumer ▸ hquit)
    · exact hl.quits (hconsumer ▸ hquit)

theorem drains_run {moves : List Move} (hl : Drains early s l) (hrun : run step s moves = some s') :
    Drains early s' (l ++ outputs step marks s moves) :=
  run_outputs (fun _ _ _ _ hl hstep => drains_moved hl (step_moved hstep)) hl hrun

/-- What was queued while the buffer was not terminated has been sent when the quit frame is written. -/
theorem sent_of_quitting {default : Action} {before after : List Move} {s₁ s₂ : State}
    (hbefore : run step (start default) before = some s₁) (hopen : s₁.actions.isTerminated = false)
    (hafter : run step s₁ after = some s₂) (hquit : s₂.consumer = .quitting) :
    queued (outputs step marks (start default) before) <+:
      sent (outputs step marks (start default) (before ++ after)) := by
  have hdrains := drains_run (drains_start default) hbefore
  rw [List.nil_append] at hdrains
  have hgoesOn : s₁.consumer ≠ .quitting := by
    intro hconsumer
    rw [hdrains.terminated hconsumer] at hopen
    cases hopen
  have hearly : Drains (queued (outputs step marks (start default) before)) s₁
      (outputs step marks (start default) before) :=
    ⟨hdrains.conserves, List.prefix_refl _, hdrains.terminated, fun h => absurd h hgoesOn⟩
  rw [outputs_append marks hbefore]
  exact (drains_run hearly hafter).quits hquit

end Steps
end Threads

/-- After these calls of any threads the buffer is a queue of at most `MAX_SIZE - 1` items that has
popped the first of what was pushed, and that ends only when it is terminated and empty. -/
structure Buffer.Bounded {α T : Type} (calls : List (T × Call α)) (h : History α (Buffer α)) : Prop where
  head : h.queue.head < maxSize
  curr : h.queue.curr < maxSize
  conserves : h.pushed = h.popped ++ h.queue.contents
  popped : h.popped <+: h.pushed
  push : ∀ item, (h.queue.push item).isSome = true ↔ h.pushed.length - h.popped.length < maxSize - 1
  ends : ∀ b, h.queue.pop = some (none, b) → (∃ t, (t, .terminate) ∈ calls) ∧ h.popped = h.pushed

theorem Buffer.bounded_run {α T : Type} {default : α} {calls : List (T × Call α)}
    {h : History α (Buffer α)}
    (hrun : run (methods α).step (.begin α (empty default)) calls = some h) : Bounded calls h := by
  have hfifo := refines_fifo.run (.begin α (empty default)) calls
  have hbegin : (History.begin α (empty default)).map toFifo = .begin α Fifo.empty := by
    rw [History.map, History.begin, toFifo, contents_empty]
    rfl
  rw [hrun, Option.map_some, hbegin] at hfifo
  have hexact : Fifo.Exact (maxSize - 1) (h.map toFifo) := Fifo.exact_run hfifo.symm
  have hpushed : h.pushed = h.popped ++ h.queue.contents := hexact.pushed
  refine ⟨h.queue.head_lt, h.queue.curr_lt, hpushed, ?_, fun item => ?_, fun b hpop => ?_⟩
  · rw [hpushed]
    exact List.prefix_append _ _
  · rw [push_isSome, hpushed, List.length_append, length_contents, Nat.add_sub_cancel_left]
  · obtain ⟨-, hempty, hterminated⟩ := pop_none hpop
    have hended := (Fifo.isEnded_run hfifo.symm).mp hterminated
    refine ⟨hended.resolve_left (by simp [History.begin, Fifo.empty]), ?_⟩
    rw [hpushed, contents_of_length hempty, List.append_nil]

/-- Over any calls of any threads the ring is the queue of a list; and when the action consumer comes to
write the quit frame, it has sent, in order, all that was queued before the buffer was terminated. -/
theorem bounded_fifo {α T : Type} (default : α) (action : Action) :
    (∀ calls : List (T × Call α),
      (run (Buffer.methods α).step (.begin α (.empty default)) calls).map (.map Buffer.toFifo) =
        run (Fifo.methods α (maxSize - 1)).step (.begin α .empty) calls ∧
      ∀ h, run (Buffer.methods α).step (.begin α (.empty default)) calls = some h →
        Buffer.Bounded calls h) ∧
    ∀ before after s₁ s₂, run Threads.step (Threads.start action) before = some s₁ →
      s₁.actions.isTerminated = false → run Threads.step s₁ after = some s₂ →
      s₂.consumer = .quitting →
      Threads.queued (outputs Threads.step Threads.marks (Threads.start action) before) <+:
        Threads.sent (outputs Threads.step Threads.marks (Threads.start action) (before ++ after)) := by
  constructor
  · intro calls
    refine ⟨?_, fun h hrun => Buffer.bounded_run hrun⟩
    rw [Buffer.refines_fifo.run, History.map, History.begin, Buffer.toFifo, Buffer.contents_empty]
    rfl
  · intro before after s₁ s₂ hbefore hopen hafter hquit
    exact Threads.sent_of_quitting hbefore hopen hafter hquit

/-- The creation of the file at a path. -/
def creation (path : ByteStream.Bytes) : Action := .ofStatus false path .created .created

/-- Two files are found, and the first is sent. -/
def twoFound : List Threads.Move :=
  [.find (creation [97]), .watcherPush, .find (creation [98]), .pop, .send, .watcherPush]

/-- The user quits, and the second file is sent all the same. -/
def quitAfter : List Threads.Move :=
  [.pass, .poll .quit, .confirm true, .join, .wake, .join, .pop, .send, .pop]

theorem bounded_fifo_quit : ∃ s₁ s₂,
    run Threads.step (Threads.start (.ofRestore [] [])) twoFound = some s₁ ∧
    run Threads.step s₁ quitAfter = some s₂ ∧
    s₂.consumer = .quitting ∧
    [creation [97], creation [98]] <+: Threads.sent (outputs Threads.step Threads.marks
      (Threads.start (.ofRestore [] [])) (twoFound ++ quitAfter)) := by
  refine ⟨_, _, rfl, rfl, rfl, ?_⟩
  exact (bounded_fifo (T := Unit) () (.ofRestore [] [])).2 twoFound quitAfter _ _ rfl rfl rfl rfl

end BackupManager.Client
