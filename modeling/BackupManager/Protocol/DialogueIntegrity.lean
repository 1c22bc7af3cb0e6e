import BackupManager.Protocol.ReplyChannel
import BackupManager.Protocol.RequestChannel
import BackupManager.Transition.Run

/-! The dialogue of a restore, in every interleaving of the two writers of the client with the
server. -/
namespace BackupManager.Protocol
open ByteStream Client Server Table Transition

/-- What `FileWatcher` and `command_restore` put in the buffer. -/
inductive Pushed (mainPath : Bytes) : Action → Prop where
  | path {isDirectory : Bool} {path : Bytes} {fileStatus : FileStatus} (h : mainPath <+: path) :
    Pushed mainPath (.ofStatus isDirectory path fileStatus .created)
  | restore {date userPath : Bytes} (h : IsWord date) : Pushed mainPath (.ofRestore date userPath)

section Popping

variable {mainPath : Bytes} {responses : ResponseBuffer} {disk : Disk} {action : Action}
variable {default : Action}

/-- What a popped action leaves to be written, and what it does to the response buffer. -/
structure Popped (responses : ResponseBuffer) (message : Option Message) (sent : Sent)
    (prepared : Option Transaction) : Prop where
  prepares : Prepares (.sending message sent.writes (if sent.thrown = none then .loop else .throws))
    prepared
  message : message = none → sent.writes = []
  kept : ∀ y, (∀ j ∈ y.number, j ≠ responses.currentIndex) → Known responses y →
    Known sent.responses y
  lt : responses.currentIndex < sent.responses.currentIndex
  added : ∀ y ∈ prepared, Known sent.responses y ∧ y.number = some responses.currentIndex

theorem currentIndex_add (action : Action) (hmax : responses.currentIndex ≠ Istream.intMax) :
    (responses.add action).2.currentIndex = responses.currentIndex + 1 := if_neg hmax

theorem popped_nothing {sent : Sent} {message : Option Message} (hwrites : sent.writes = [])
    (hmax : responses.currentIndex ≠ Istream.intMax)
    (hresponses : sent.responses = (responses.add action).2 ∨
      sent.responses = (responses.add action).2.completed responses.currentIndex ∨
      sent.responses = (responses.add action).2.signalError default responses.currentIndex) :
    Popped responses message sent none := by
  have hindex : sent.responses.currentIndex = responses.currentIndex + 1 := by
    rcases hresponses with h | h | h <;> rw [h] <;> exact currentIndex_add action hmax
  refine ⟨?_, fun _ => hwrites, ?_, by omega, fun y hy => absurd hy (by simp)⟩
  · rw [hwrites]
    cases message <;> rfl
  · intro y hne hknown
    rcases hresponses with h | h | h
    · rw [h]
      exact hknown.add hne
    · rw [h]
      exact (hknown.add hne).completed hne
    · rw [h]
      exact (hknown.add hne).setStatus _

theorem popped_path (hpath : OnPath mainPath action) (hstart : 0 ≤ responses.currentIndex)
    (hmax : responses.currentIndex ≠ Istream.intMax)
    (hline : IsLine (action.path.drop mainPath.length)) :
    ∃ prepared, Popped responses (describe mainPath disk action responses.currentIndex).toOption
      (sendAction default mainPath responses disk action) prepared := by
  rcases sendAction_cases default mainPath responses disk action with h | h
  · exact ⟨none, popped_nothing h.1 hmax h.2.2⟩
  · obtain ⟨hwritten, hresponses, message, hmessage, hwrites⟩ := h
    have hm := describe_onPath hpath hmessage hwritten.1
    have hupload := isUpload_uploadOf hpath hwritten responses.inInt
    have hvalid : (Transaction.upload (uploadOf mainPath disk action responses.currentIndex)).Valid :=
      ⟨hupload, fits_of_nonneg responses.inInt hstart, hline⟩
    have hkind : (uploadOf mainPath disk action responses.currentIndex).message.actionType =
        action.actionType := rfl
    have hindex := currentIndex_add action hmax
    refine ⟨some (.upload (uploadOf mainPath disk action responses.currentIndex)), ?_, ?_, ?_, ?_, ?_⟩
    · rw [hmessage]
      rcases hwrites with h | h | h
      · obtain ⟨hread, hwrites, hthrown⟩ := h
        rw [hwrites, if_pos hthrown]
        exact ⟨_, rfl, hvalid, hm.symm, rfl, Or.inl (if_neg hread).symm, fun h => absurd rfl h⟩
      · obtain ⟨hread, content, hcontent, hwrites, hthrown⟩ := h
        have htail : (uploadOf mainPath disk action responses.currentIndex).tail =
            field intMaxNDigit content.length ++ content := by
          have hdata : (uploadOf mainPath disk action responses.currentIndex).content =
              content := by
            rw [uploadOf, if_pos hread, hcontent]
            rfl
          rw [Upload.tail, hkind, if_pos hread, hdata]
        rw [hwrites, if_pos hthrown]
        refine ⟨_, rfl, hvalid, hm.symm, rfl, Or.inl ?_, fun h => absurd rfl h⟩
        rw [sendFile, List.flatten_cons, flatten_pieces maxMsgSize_pos]
        exact htail.symm
      · obtain ⟨-, hwrites, hthrown⟩ := h
        rw [hwrites, if_neg hthrown]
        exact ⟨_, rfl, hvalid, hm.symm, rfl, Or.inr ⟨rfl, rfl⟩, fun h => absurd rfl h⟩
    · intro hnone
      rw [hmessage] at hnone
      exact absurd hnone (by simp [Except.toOption])
    · intro y hne hknown
      rw [hresponses]
      exact hknown.add hne
    · rw [hresponses]
      omega
    · intro y hy
      rw [← Option.mem_some_iff.mp hy, hresponses]
      exact ⟨known_added rfl hpath.2.1, rfl⟩

theorem popped_restore {date userPath : Bytes} (hdate : IsWord date)
    (hstart : 0 ≤ responses.currentIndex) (hmax : responses.currentIndex ≠ Istream.intMax) :
    ∃ prepared, Popped responses
      (describe mainPath disk (.ofRestore date userPath) responses.currentIndex).toOption
      (sendAction default mainPath responses disk (.ofRestore date userPath)) prepared := by
  have hvalid : (Transaction.restore responses.currentIndex date).Valid :=
    ⟨responses.inInt, fits_of_nonneg responses.inInt hstart, hdate⟩
  have hindex := currentIndex_add (.ofRestore date userPath) hmax
  refine ⟨some (.restore responses.currentIndex date), ?_, ?_, ?_, ?_, ?_⟩
  · exact ⟨_, rfl, hvalid, rfl, rfl, Or.inl rfl, fun _ => rfl⟩
  · intro hnone
    exact absurd hnone (by simp [describe, Except.toOption, Action.ofRestore, pure, Except.pure])
  · intro y hne hknown
    exact hknown.add hne
  · show _ < (responses.add _).2.currentIndex
    omega
  · intro y hy
    rw [← Option.mem_some_iff.mp hy]
    exact ⟨known_added rfl ⟨rfl, rfl⟩, rfl⟩

end Popping

/-- What the threads have written and not read, as transactions and replies. -/
structure Dialogue where
  /-- Parsed by the server and not executed. -/
  current : Option Transaction
  /-- On the channel to the server, the last perhaps in part. -/
  queue : List Transaction
  /-- Popped by the action consumer, its frame not written. -/
  prepared : Option Transaction
  /-- The restore whose frame is written and whose date is not. -/
  awaiting : Option (ℤ × Bytes)
  /-- What is still to be written for the last frame. -/
  due : Bytes
  replies : List Reply

variable {φ : Type}

namespace Connection

/-- The client is in step with the replies. -/
structure Synced (s : Connection φ) (t : Dialogue) : Prop where
  valid : ∀ r ∈ t.replies, r.Valid
  numbered : Numbered s.responses t.current (t.queue ++ t.prepared.toList) t.replies
  phase : Phase s.client s.responder s.index s.actionStatus t.current t.awaiting t.replies

structure Consistent (u : Setup φ) (s : Connection φ) (t : Dialogue) : Prop where
  actions : ∀ a ∈ s.actions, Pushed u.mainPath a
  start : 0 ≤ s.responses.currentIndex
  receiving : Receiving s.server s.serving t.current t.queue t.due
  owes : Owes s.consumer t.awaiting t.due
  prepares : Prepares s.consumer t.prepared
  pending : Pending t.current t.queue t.awaiting
  recorded : Recorded s.server.world s.frames s.dates t.current t.queue t.awaiting
  synced : Sound s.server.world → s.Synced t

/-- The steps that leave a dialogue whole: the action consumer writes nothing while a dialogue is
open, the index of an action does not overflow and its path is a line, and a date is written only
while every restore so far was answered with a map that passes through the stream. -/
def Harmless (u : Setup φ) (s : Connection φ) : Event → Prop
  | .pop _ => ∀ a ∈ s.actions.head?, s.responses.currentIndex ≠ Istream.intMax ∧
      IsLine (a.path.drop u.mainPath.length)
  | .write => s.openDialogues = []
  | .writeDate => Sound s.server.world
  | _ => True

instance (u : Setup φ) (s : Connection φ) : DecidablePred (Harmless u s)
  | .pop _ => inferInstanceAs (Decidable (∀ a ∈ s.actions.head?, _ ∧ _))
  | .write => inferInstanceAs (Decidable (s.openDialogues = []))
  | .writeDate => inferInstanceAs (Decidable (Sound s.server.world))
  | .pushPath _ _ _ => .isTrue trivial
  | .pushRestore _ _ => .isTrue trivial
  | .terminate => .isTrue trivial
  | .fail => .isTrue trivial
  | .loop => .isTrue trivial
  | .respond _ => .isTrue trivial
  | .restore => .isTrue trivial
  | .readFrame => .isTrue trivial
  | .serve => .isTrue trivial

section Steps

variable {u : Setup φ} {s s' : Connection φ} {t : Dialogue}

theorem consistent_push {a : Action} (h : s.Consistent u t) (ha : Pushed u.mainPath a)
    (hstep : s.push a = some s') : s'.Consistent u t := by
  unfold push at hstep
  split at hstep
  · rw [← Option.some.inj hstep]
    refine ⟨?_, h.start, h.receiving, h.owes, h.prepares, h.pending, h.recorded, ?_⟩
    · intro b hb
      rcases List.mem_append.mp hb with hold | hnew
      · exact h.actions b hold
      · rwa [List.mem_singleton.mp hnew]
    · intro hsound
      have hsync := h.synced hsound
      exact ⟨hsync.valid, hsync.numbered, hsync.phase⟩
  · exact absurd hstep (by simp)

theorem consistent_pop {disk : Disk} (h : s.Consistent u t) (hharmless : s.Harmless u (.pop disk))
    (hstep : s.pop u disk = some s') : ∃ t', s'.Consistent u t' := by
  cases hconsumer : s.consumer with
  | popping =>
    have howes := h.owes
    rw [hconsumer] at howes
    have hbetween : ∀ message writes after, (message = none → writes = []) →
        Owes (.sending message writes after) t.awaiting t.due := by
      intro message writes after hnone
      cases hawaiting : t.awaiting with
      | some w =>
        rw [hawaiting] at howes
        refine ⟨howes.1, ?_⟩
        cases message with
        | none => exact hnone rfl
        | some m => trivial
      | none =>
        rw [hawaiting] at howes
        have hdue : t.due = [] := howes
        cases message with
        | none =>
          rw [hnone rfl]
          exact Or.inl hdue
        | some m => exact hdue
    have hprepared : t.prepared = none := by
      have hprepares := h.prepares
      rwa [hconsumer] at hprepares
    unfold pop at hstep
    rw [hconsumer] at hstep
    cases hactions : s.actions with
    | nil =>
      rw [hactions] at hstep
      dsimp only at hstep
      split at hstep
      · exact absurd hstep (by simp)
      · split at hstep
        · rw [← Option.some.inj hstep]
          refine ⟨t, fun a ha => absurd ha (by simp), h.start, h.receiving, ?_, hprepared, h.pending, h.recorded,
            fun hsound => ?_⟩
          · show Owes .stopped t.awaiting t.due
            cases hawaiting : t.awaiting with
            | some w =>
              rw [hawaiting] at howes
              exact ⟨howes.1, trivial⟩
            | none => trivial
          · have hsync := h.synced hsound
            exact ⟨hsync.valid, hsync.numbered, hsync.phase⟩
        · rw [← Option.some.inj hstep]
          refine ⟨{ t with prepared := some .quit }, fun a ha => absurd ha (by simp), h.start,
            h.receiving, hbetween _ _ _ (by simp), ?_, h.pending, h.recorded, fun hsound => ?_⟩
          · exact ⟨_, rfl, trivial, rfl, rfl, Or.inl rfl, fun h => absurd rfl h⟩
          · have hsync := h.synced hsound
            refine ⟨hsync.valid, ?_, hsync.phase⟩
            have hold := hsync.numbered
            rw [hprepared, Option.toList_none, List.append_nil] at hold
            show Numbered s.responses t.current (t.queue ++ (some Transaction.quit).toList) t.replies
            refine hold.add (fun _ _ h => h) le_rfl fun y hy => ?_
            rw [← Option.mem_some_iff.mp hy]
            exact ⟨fun _ hi => absurd hi (by simp [Transaction.number]),
              fun _ hi => absurd hi (by simp [Transaction.number])⟩
    | cons a rest =>
      rw [hactions] at hstep
      have hhead : a ∈ s.actions.head? := by
        rw [hactions]
        rfl
      have hmem : a ∈ s.actions := by
        rw [hactions]
        exact List.mem_cons_self
      obtain ⟨hmax, hline⟩ := hharmless a hhead
      obtain ⟨prepared, hpopped⟩ : ∃ prepared, Popped s.responses
          (describe u.mainPath disk a s.responses.currentIndex).toOption
          (sendAction u.default u.mainPath s.responses disk a) prepared := by
        cases h.actions a hmem with
        | path hpath => exact popped_path (onPath_ofStatus hpath) h.start hmax hline
        | restore hdate => exact popped_restore hdate h.start hmax
      rw [← Option.some.inj hstep]
      refine ⟨{ t with prepared := prepared }, ?_, ?_, h.receiving,
        hbetween _ _ _ hpopped.message, hpopped.prepares, h.pending, h.recorded, fun hsound => ?_⟩
      · intro b hb
        refine h.actions b ?_
        rw [hactions]
        exact List.mem_cons_of_mem a hb
      · exact h.start.trans hpopped.lt.le
      · have hsync := h.synced hsound
        refine ⟨hsync.valid, ?_, hsync.phase⟩
        have hold := hsync.numbered
        rw [hprepared, Option.toList_none, List.append_nil] at hold
        refine hold.add hpopped.kept hpopped.lt.le fun y hy => ?_
        obtain ⟨hknown, hnumber⟩ := hpopped.added y hy
        refine ⟨hknown, fun i hi => ⟨?_, hpopped.lt⟩⟩
        rw [hnumber] at hi
        exact (Option.mem_some_iff.mp hi).symm
  | sending message writes after =>
    unfold pop at hstep
    rw [hconsumer] at hstep
    exact absurd hstep (by simp)
  | stopped =>
    unfold pop at hstep
    rw [hconsumer] at hstep
    exact absurd hstep (by simp)

theorem consistent_write (h : s.Consistent u t) (hharmless : s.Harmless u .write)
    (hstep : s.write = some s') : ∃ t', s'.Consistent u t' := by
  have hawaiting : t.awaiting = none := h.recorded.drop_eq_nil hharmless
  have howes := h.owes
  have hprepares := h.prepares
  have hpending := h.pending
  have hrecorded := h.recorded
  rw [hawaiting] at howes hpending hrecorded
  unfold write at hstep
  split at hstep
  · next message bytes writes after hconsumer =>
    rw [hconsumer] at howes hprepares
    rw [← Option.some.inj hstep]
    cases message with
    | none =>
      have hdue : t.due = bytes ++ writes.flatten := by
        rcases howes with hdue | hcut
        · rw [hdue, List.flatten_cons]
        · exact absurd hcut.2 (by simp)
      have hreceiving := h.receiving
      rw [hdue] at hreceiving
      refine ⟨{ t with due := writes.flatten }, h.actions, h.start, hreceiving.extend, ?_,
        hprepares, h.pending, ?_, fun hsound => ?_⟩
      · show Owes (.sending none writes after) t.awaiting writes.flatten
        rw [hawaiting]
        exact Or.inl rfl
      · show Recorded s.server.world (s.frames ++ []) s.dates _ _ _
        rw [List.append_nil]
        exact h.recorded
      · have hsync := h.synced hsound
        exact ⟨hsync.valid, hsync.numbered, hsync.phase⟩
    | some message =>
      have hdue : t.due = [] := howes
      obtain ⟨x, hprepared, hvalid, rfl, rfl, hwrites, hdate⟩ := hprepares
      have hreceiving := h.receiving
      rw [hdue] at hreceiving
      refine ⟨{ t with
          queue := t.queue ++ [x], prepared := none, awaiting := x.date?, due := x.tail },
        h.actions, h.start, hreceiving.enqueue, ?_, rfl, hpending.enqueue hvalid,
        hrecorded.enqueue hvalid, fun hsound => ?_⟩
      · show Owes (.sending none writes after) x.date? x.tail
        cases x with
        | upload u =>
          rcases hwrites with hown | hcut
          · exact Or.inl hown.symm
          · exact Or.inr hcut
        | restore index date => exact ⟨rfl, hdate (by simp [Transaction.date?])⟩
        | quit =>
          rcases hwrites with hown | hcut
          · exact Or.inl hown.symm
          · exact Or.inr hcut
      · have hsync := h.synced hsound
        refine ⟨hsync.valid, ?_, ?_⟩
        · have hnumbered := hsync.numbered
          rw [hprepared] at hnumbered
          show Numbered s.responses t.current (t.queue ++ [x] ++ []) t.replies
          rw [List.append_nil]
          exact hnumbered
        · have hphase := hsync.phase
          rw [hawaiting] at hphase
          show Phase s.client s.responder s.index s.actionStatus t.current x.date? t.replies
          unfold Phase at hphase ⊢
          cases hresponder : s.responder with
          | reading =>
            rw [hresponder] at hphase
            exact ⟨hphase.1, hphase.2.enqueue⟩
          | opening date userPath =>
            rw [hresponder] at hphase
            exact absurd hphase.2.2.2.2 (by simp)
          | restoring date userPath =>
            rw [hresponder] at hphase
            refine ⟨hphase.1, hphase.2.imp_right fun hm => ?_⟩
            obtain ⟨m, hm, hlistening, hquiet⟩ := hm
            exact ⟨m, hm, hlistening, hquiet.enqueue⟩
          | stopped => trivial
  · exact absurd hstep (by simp)

theorem consistent_loop (h : s.Consistent u t) (hstep : s.loop = some s') :
    s'.Consistent u t := by
  have hsynced : ∀ consumer exception, Sound s.server.world →
      { s with consumer := consumer, hasExceptionOccurred := exception }.Synced t := by
    intro consumer exception hsound
    have hsync := h.synced hsound
    exact ⟨hsync.valid, hsync.numbered, hsync.phase⟩
  have howes := h.owes
  have hprepares := h.prepares
  have hstopped : ∀ message after, s.consumer = .sending message [] after →
      Owes .stopped t.awaiting t.due := by
    intro message after hconsumer
    rw [hconsumer] at howes
    cases hawaiting : t.awaiting with
    | some w =>
      rw [hawaiting] at howes
      exact ⟨howes.1, trivial⟩
    | none => trivial
  have hnone : ∀ message after, s.consumer = .sending message [] after → t.prepared = none := by
    intro message after hconsumer
    rw [hconsumer] at hprepares
    cases message <;> exact hprepares
  unfold loop at hstep
  split at hstep
  · next message hconsumer =>
    rw [← Option.some.inj hstep]
    refine ⟨h.actions, h.start, h.receiving, ?_, ?_, h.pending, h.recorded, hsynced _ _⟩
    · dsimp only
      split
      · exact hstopped message .loop hconsumer
      · rw [hconsumer] at howes
        cases hawaiting : t.awaiting with
        | some w =>
          rw [hawaiting] at howes
          exact ⟨howes.1, trivial⟩
        | none =>
          rw [hawaiting] at howes
          cases message with
          | none => exact howes.elim id fun hcut => absurd hcut.1 (by simp)
          | some m => exact howes
    · dsimp only
      split <;> exact hnone message .loop hconsumer
  · next message hconsumer =>
    rw [← Option.some.inj hstep]
    exact ⟨h.actions, h.start, h.receiving, hstopped message .throws hconsumer,
      hnone message .throws hconsumer, h.pending, h.recorded, hsynced _ _⟩
  · next message hconsumer =>
    rw [← Option.some.inj hstep]
    exact ⟨h.actions, h.start, h.receiving, hstopped message .ends hconsumer,
      hnone message .ends hconsumer, h.pending, h.recorded, hsynced _ _⟩
  · exact absurd hstep (by simp)

/-- A restore whose date is awaited is the last transaction. -/
theorem Consistent.queue_nil (h : s.Consistent u t) (hsync : s.Synced t) {i : ℤ} {date : Bytes}
    (hcurrent : t.current = some (.restore i date)) (hawaiting : t.awaiting = some (i, date)) :
    t.queue = [] := by
  obtain ⟨before, hbefore⟩ := h.pending.last _ hawaiting
  rw [hcurrent] at hbefore
  have hcons : .restore i date :: t.queue = before ++ [.restore i date] := hbefore
  have hnumbered := hsync.numbered
  rw [hcurrent] at hnumbered
  have hnot := hnumbered.not_mem_coming rfl
  cases before with
  | nil => exact (List.cons.inj hcons).2
  | cons y before =>
    refine absurd ?_ hnot
    rw [(List.cons.inj hcons).2]
    exact List.mem_append_left _ (List.mem_append_right _ List.mem_cons_self)

/-- A restore is not executed before its date is written. -/
theorem Consistent.not_served (h : s.Consistent u t) {i : ℤ} {date : Bytes}
    (hcurrent : t.current = some (.restore i date)) (hawaiting : t.awaiting = some (i, date))
    (hqueue : t.queue = []) :
    (dispatch u.backend (frameOf (Transaction.restore i date).message) s.server).1 = .waits := by
  have howes := h.owes
  rw [hawaiting] at howes
  have hreceiving := h.receiving
  rw [hcurrent, hqueue, howes.1] at hreceiving
  rw [dispatch_restore_waits u.backend hreceiving.wire_nil hreceiving.closed]

theorem consistent_writeDate (h : s.Consistent u t) (hharmless : s.Harmless u .writeDate)
    (hstep : s.writeDate = some s') : ∃ t', s'.Consistent u t' := by
  unfold writeDate at hstep
  split at hstep
  · next date userPath hresponder =>
    have hsync := h.synced hharmless
    have hphase := hsync.phase
    unfold Phase at hphase
    rw [hresponder] at hphase
    obtain ⟨hlistening, hreplies, hreceived, hcurrent, hawaiting⟩ := hphase
    have hqueue := h.queue_nil hsync hcurrent hawaiting
    have howes := h.owes
    have hpending := h.pending
    have hrecorded := h.recorded
    have hreceiving := h.receiving
    rw [hawaiting] at howes hrecorded
    rw [hqueue] at hpending
    rw [howes.1, ← List.append_nil (dateBlock _)] at hreceiving
    rw [← Option.some.inj hstep]
    refine ⟨{ t with awaiting := none, due := [] }, h.actions, h.start, hreceiving.extend, ?_,
      h.prepares, ?_, hrecorded.answer, fun hsound => ?_⟩
    · show Owes s.consumer none []
      have hbetween := howes.2
      unfold Owes
      cases hconsumer : s.consumer with
      | popping => rfl
      | sending message writes after =>
        rw [hconsumer] at hbetween
        cases message with
        | none =>
          have hnil : writes = [] := hbetween
          rw [hnil]
          exact Or.inl rfl
        | some m => rfl
      | stopped => trivial
    · show Pending t.current t.queue none
      rw [hqueue]
      exact hpending.answer
    · exact ⟨hsync.valid, hsync.numbered, hreceived, Or.inl ⟨hlistening, hreplies, hcurrent⟩⟩
  · exact absurd hstep (by simp)

/-- The response that the response consumer takes for the start of a restore is that of the restore
whose date is awaited. -/
theorem Synced.opening (hsync : s.Synced t) {r : Reply} {rest : List Reply}
    (hreplies : t.replies = r :: rest) (hquiet : Quiet t.current t.awaiting (r :: rest))
    {isDirectory : Bytes → Bool} {a : Action}
    (hget : s.responses.getAction isDirectory r.index = some a) (hrestore : a.actionType = .restore)
    (hreceived : r.status = .received) :
    rest = [] ∧ t.current = some (.restore r.index a.restoreDate) ∧
      t.awaiting = some (r.index, a.restoreDate) := by
  have hvalid := hsync.valid r (by rw [hreplies]; exact List.mem_cons_self)
  cases r with
  | final i st =>
    have hst : st = .received := hreceived
    rw [hst] at hvalid
    exact absurd rfl (hvalid.2.2 i)
  | ack x =>
    have hmem : x ∈ unacknowledged (t.queue ++ t.prepared.toList) t.replies := by
      rw [hreplies]
      exact List.mem_append_left _ List.mem_cons_self
    have hknown := hsync.numbered.known x hmem
    cases x with
    | upload v =>
      obtain ⟨a₀, hfind, ha₀⟩ := hknown v.message.index rfl
      obtain ⟨a', hget', hiff, -⟩ := getAction_of_find? isDirectory hfind
      have heq : some a' = some a := hget'.symm.trans hget
      rw [Option.some.inj heq] at hiff
      exact absurd (hiff.mp hrestore) ha₀
    | restore i date =>
      obtain ⟨a₀, hfind, ha₀, hdate⟩ := hknown i rfl
      obtain ⟨a', hget', -, hdates⟩ := getAction_of_find? isDirectory hfind
      have heq : some a' = some a := hget'.symm.trans hget
      rw [← Option.some.inj heq, hdates ha₀, hdate]
      exact hquiet.head
    | quit => exact absurd hreceived (by simp [Reply.status])

theorem consistent_respond {isDirectory : Bytes → Bool} (h : s.Consistent u t)
    (hstep : s.respond u isDirectory = some s') : ∃ t', s'.Consistent u t' := by
  unfold respond at hstep
  split at hstep
  · next hresponder =>
    cases hrun : readResponse s.index s.actionStatus s.client with
    | mk o client =>
      rw [hrun] at hstep
      have hread : o ≠ .waits → Sound s.server.world → ∃ r rest, t.replies = r :: rest ∧
          o = .returns (r.index, (r.status.code : ℤ)) ∧
          Listening client (rest.flatMap Reply.bytes) ∧
          Quiet t.current t.awaiting (r :: rest) := by
        intro ho hsound
        have hphase := (h.synced hsound).phase
        unfold Phase at hphase
        rw [hresponder] at hphase
        obtain ⟨r, rest, hreplies, ho', hlistening⟩ :=
          hphase.1.respond (h.synced hsound).valid hrun ho
        refine ⟨r, rest, hreplies, ho', hlistening, ?_⟩
        rw [← hreplies]
        exact hphase.2
      cases o with
      | waits => exact absurd hstep (by simp)
      | throws what =>
        rw [← Option.some.inj hstep]
        refine ⟨t, h.actions, h.start, h.receiving, h.owes, h.prepares, h.pending, h.recorded,
          fun hsound => ?_⟩
        obtain ⟨r, rest, -, ho, -⟩ := hread (by simp) hsound
        exact absurd ho (by simp)
      | returns v =>
        have hsettle : some ({ s with client := client, index := v.1, actionStatus := v.2 }.settle u)
            = some s' → ∃ t', s'.Consistent u t' := by
          intro hstep
          rw [← Option.some.inj hstep]
          refine ⟨{ t with replies := t.replies.tail }, h.actions, ?_, h.receiving, h.owes,
            h.prepares, h.pending, h.recorded, fun hsound => ?_⟩
          · show 0 ≤ (signalled u.default s.responses v.1 v.2).currentIndex
            rw [signalled_currentIndex]
            exact h.start
          · have hsync := h.synced hsound
            obtain ⟨r, rest, hreplies, ho, hlistening, hquiet⟩ := hread (by simp) hsound
            have hv := Outcome.returns.inj ho
            have hvalid := hsync.valid
            have hnumbered := hsync.numbered
            rw [hreplies] at hvalid hnumbered
            rw [hreplies, List.tail_cons]
            refine ⟨fun y hy => hvalid y (List.mem_cons_of_mem r hy), ?_, ?_⟩
            · refine hnumbered.read fun hcompleted => ?_
              have hstatus : (r.status.code : ℤ) = ActionStatus.completed.code := by
                rw [← hcompleted]
                exact (congrArg Prod.snd hv).symm
              rw [Reply.key_of_completed hstatus, congrArg Prod.fst hv]
            · show Phase client (if v.2 = ActionStatus.finish.code ∨ s.hasExceptionOccurred then
                .stopped else .reading) v.1 v.2 t.current t.awaiting rest
              split
              · trivial
              · exact ⟨hlistening, hquiet.tail⟩
        dsimp only at hstep
        split at hstep
        · next a hget =>
          split at hstep
          · next hopening =>
            rw [← Option.some.inj hstep]
            refine ⟨{ t with replies := t.replies.tail }, h.actions, h.start, h.receiving, h.owes,
              h.prepares, h.pending, h.recorded, fun hsound => ?_⟩
            have hsync := h.synced hsound
            obtain ⟨r, rest, hreplies, ho, hlistening, hquiet⟩ := hread (by simp) hsound
            have hv := Outcome.returns.inj ho
            subst hv
            have hreceived : r.status = .received :=
              ActionStatus.code_injective (Int.ofNat_inj.mp hopening.2)
            obtain ⟨rfl, hcurrent, hawaiting⟩ :=
              hsync.opening hreplies hquiet hget hopening.1 hreceived
            have hnumbered := hsync.numbered
            rw [hreplies] at hnumbered
            rw [hreplies, List.tail_cons]
            exact ⟨fun y hy => absurd hy (by simp), hnumbered.tail, hlistening, rfl, hopening.2,
              hcurrent, hawaiting⟩
          · exact hsettle hstep
        · exact hsettle hstep
  · exact absurd hstep (by simp)

theorem consistent_restore (h : s.Consistent u t) (hstep : s.restore u = some s') :
    ∃ t', s'.Consistent u t' := by
  unfold restore at hstep
  split at hstep
  · next date userPath hresponder =>
    cases hrun : Client.actionRestore u.files u.locals u.pathNumber date userPath s.client with
    | mk o client =>
      rw [hrun] at hstep
      cases o with
      | waits => exact absurd hstep (by simp)
      | throws what =>
        rw [← Option.some.inj hstep]
        refine ⟨t, h.actions, h.start, h.receiving, h.owes, h.prepares, h.pending, h.recorded,
          fun hsound => ?_⟩
        have hsync := h.synced hsound
        exact ⟨hsync.valid, hsync.numbered, trivial⟩
      | returns v =>
        rw [← Option.some.inj hstep]
        refine ⟨t, h.actions, ?_, h.receiving, h.owes, h.prepares, h.pending, h.recorded,
          fun hsound => ?_⟩
        · show 0 ≤ (signalled u.default s.responses s.index s.actionStatus).currentIndex
          rw [signalled_currentIndex]
          exact h.start
        · have hsync := h.synced hsound
          have hphase := hsync.phase
          unfold Phase at hphase
          rw [hresponder] at hphase
          obtain ⟨hreceived, hempty | ⟨m, hm, hlistening, hquiet⟩⟩ := hphase
          · have hwaits := actionRestore_waits hempty.1.wire hempty.1.closed u.files u.locals
              u.pathNumber date userPath
            rw [hrun] at hwaits
            exact absurd hwaits (by simp)
          · refine ⟨hsync.valid, hsync.numbered.signalled fun hcompleted => ?_, ?_⟩
            · have heq : s.actionStatus = ActionStatus.completed.code := hcompleted
              rw [hreceived] at heq
              exact absurd heq (by decide)
            · show Phase client (if s.actionStatus = ActionStatus.finish.code ∨
                s.hasExceptionOccurred then .stopped else .reading) s.index s.actionStatus t.current
                t.awaiting t.replies
              split
              · trivial
              · exact ⟨hlistening.restore hm hrun, hquiet⟩
  · exact absurd hstep (by simp)

theorem consistent_readFrame (h : s.Consistent u t) (hstep : s.readFrame u = some s') :
    ∃ t', s'.Consistent u t' := by
  unfold readFrame at hstep
  split at hstep
  · next hserving =>
    cases hrun : receiveFrame u.backend s.server with
    | mk o server =>
      rw [hrun] at hstep
      have hread : o ≠ .waits → ∃ x rest, t.current = none ∧ t.queue = x :: rest ∧
          o = .returns (frameOf x.message) ∧
          server.world = acknowledged s.server.world (frameOf x.message) ∧
          Receiving server (.serving (frameOf x.message)) (some x) rest t.due := by
        intro ho
        have hreceiving := h.receiving
        rw [hserving] at hreceiving
        exact hreceiving.receive hrun ho h.pending.valid
      cases o with
      | waits => exact absurd hstep (by simp)
      | throws what =>
        obtain ⟨x, rest, -, -, ho, -⟩ := hread (by simp)
        exact absurd ho (by simp)
      | returns f =>
        obtain ⟨x, rest, hcurrent, hqueue, ho, hworld, hreceiving⟩ := hread (by simp)
        have hf := Outcome.returns.inj ho
        subst hf
        have hpending := h.pending
        have hrecorded := h.recorded
        rw [hcurrent, hqueue] at hpending hrecorded
        have hvalid : x.Valid := hpending.valid x List.mem_cons_self
        rw [← Option.some.inj hstep]
        refine ⟨{ t with current := some x, queue := rest, replies := t.replies ++ [.ack x] },
          h.actions, h.start, hreceiving, h.owes, h.prepares, hpending.parse, ?_, fun hsound => ?_⟩
        · show Recorded server.world s.frames s.dates (some x) rest t.awaiting
          rw [hworld]
          exact hrecorded.parse
        · have hold : Sound s.server.world := by
            have hnew : Sound server.world := hsound
            rw [hworld] at hnew
            exact hnew.of_prefix (List.prefix_append _ _)
          have hsync := h.synced hold
          have hnumbered := hsync.numbered
          rw [hcurrent, hqueue] at hnumbered
          have hbytes : (server.world.drop s.server.world.length).flatMap Effect.bytes =
              (Reply.ack x).bytes := by
            rw [hworld]
            exact bytes_acknowledged _ hvalid
          have hparse : Quiet t.current t.awaiting t.replies →
              Quiet (some x) t.awaiting (t.replies ++ [.ack x]) := by
            rw [hcurrent]
            intro hquiet
            refine hquiet.parse fun i date hx => hpending.asked i date ?_
            rw [hx]
            exact List.mem_cons_self
          refine ⟨?_, hnumbered.parse, ?_⟩
          · intro r hr
            rcases List.mem_append.mp hr with hr | hr
            · exact hsync.valid r hr
            · rw [List.mem_singleton.mp hr]
              exact hvalid.ack
          · have hphase := hsync.phase
            show Phase (s.client.extend _) s.responder s.index s.actionStatus (some x) t.awaiting
              (t.replies ++ [.ack x])
            rw [hbytes]
            have hextended := hphase.extend (by simp [hcurrent]) [.ack x] hparse
            rwa [List.flatMap_singleton] at hextended
  · exact absurd hstep (by simp)

/-- The replies after a transaction has been executed: its last response, except for the quit. -/
theorem Synced.serve (hsync : s.Synced t) {x : Transaction} (hcurrent : t.current = some x)
    (hvalid : x.Valid)
    (hwaits : ∀ i date, x = .restore i date → t.awaiting ≠ some (i, date))
    (hparsed : .parsed (frameOf x.message) ∈ s.server.world)
    (hsound : Sound (s.server.world ++ served u.backend s.server.world x)) :
    ∃ replies, (∀ r ∈ replies, r.Valid) ∧
      Numbered s.responses none (t.queue ++ t.prepared.toList) replies ∧
      Phase (s.client.extend ((served u.backend s.server.world x).flatMap Effect.bytes)) s.responder
        s.index s.actionStatus none t.awaiting replies := by
  have hnumbered := hsync.numbered
  have hphase := hsync.phase
  rw [hcurrent] at hnumbered hphase
  have hfinal : ∀ st, st ≠ .received →
      ∀ r ∈ t.replies ++ [.final x.message.index st], r.Valid := by
    intro st hst r hr
    rcases List.mem_append.mp hr with hr | hr
    · exact hsync.valid r hr
    · rw [List.mem_singleton.mp hr]
      exact hvalid.final hst
  cases x with
  | upload v =>
    obtain ⟨st, hst, hbytes⟩ := bytes_served_upload u.backend s.server.world v
    refine ⟨t.replies ++ [.final v.message.index st], hfinal st hst, hnumbered.execute rfl st, ?_⟩
    have hextended := hphase.extend (by simp) [.final v.message.index st]
      fun hquiet => hquiet.execute (by simp) (by simp)
    rwa [List.flatMap_singleton, ← hbytes] at hextended
  | restore i date =>
    have hframe : ∃ f, .parsed f ∈ s.server.world ∧ f.actionType = ActionType.restore.code ∧
        f.index = i := ⟨_, hparsed, rfl, rfl⟩
    obtain ⟨m, hm, hbytes⟩ := bytes_served_restore u.backend s.server.world hframe hsound
    refine ⟨t.replies ++ [.final i .completed], hfinal _ (by simp), hnumbered.execute rfl _, ?_⟩
    rw [hbytes]
    unfold Phase at hphase ⊢
    cases hresponder : s.responder with
    | reading =>
      rw [hresponder] at hphase
      exact absurd (hphase.2.awaited i date rfl) (hwaits i date rfl)
    | opening date' userPath =>
      rw [hresponder] at hphase
      obtain ⟨-, -, -, heq, hawaiting⟩ := hphase
      have hrestore := Transaction.restore.inj (Option.some.inj heq)
      rw [← hrestore.1, ← hrestore.2] at hawaiting
      exact absurd hawaiting (hwaits i date rfl)
    | restoring date' userPath =>
      rw [hresponder] at hphase
      refine ⟨hphase.1, Or.inr ⟨m, hm, ?_⟩⟩
      rcases hphase.2 with hempty | hm
      · obtain ⟨hlistening, hnil, -⟩ := hempty
        rw [hnil, List.nil_append, List.flatMap_singleton]
        exact ⟨hlistening.extend _, .of_no_restore (by simp) (by simp)⟩
      · obtain ⟨-, -, -, hold⟩ := hm
        exact absurd (hold.awaited i date rfl) (hwaits i date rfl)
    | stopped => trivial
  | quit =>
    refine ⟨t.replies, hsync.valid, hnumbered.quit, ?_⟩
    have hextended := hphase.extend (by simp) [] fun hquiet => hquiet.execute (by simp) (by simp)
    rwa [List.append_nil] at hextended

theorem consistent_serve (h : s.Consistent u t) (hstep : s.serve u = some s') :
    ∃ t', s'.Consistent u t' := by
  unfold serve at hstep
  split at hstep
  · next f hserving =>
    cases hrun : dispatch u.backend f s.server with
    | mk o server =>
      rw [hrun] at hstep
      have hserve : o ≠ .waits → ∃ x, t.current = some x ∧ f = frameOf x.message ∧
          o = .returns (x ≠ .quit) ∧
          server.world = s.server.world ++ served u.backend s.server.world x ∧
          Receiving server (if x ≠ .quit then .reading else .stopped) none t.queue t.due := by
        intro ho
        have hreceiving := h.receiving
        rw [hserving] at hreceiving
        exact hreceiving.served hrun ho h.pending.valid
      cases o with
      | waits => exact absurd hstep (by simp)
      | throws what =>
        obtain ⟨x, -, -, ho, -⟩ := hserve (by simp)
        exact absurd ho (by simp)
      | returns more =>
        obtain ⟨x, hcurrent, rfl, ho, hworld, hreceiving⟩ := hserve (by simp)
        have hmore := Outcome.returns.inj ho
        obtain ⟨hparsed, hindex⟩ := h.receiving.parsed x hcurrent
        have hpending := h.pending
        have hrecorded := h.recorded
        rw [hcurrent] at hpending hrecorded
        -- a restore whose date is awaited would still be waiting
        have hwaits : ∀ i date, x = .restore i date → t.awaiting = some (i, date) →
            t.queue ≠ [] := by
          intro i date hx hawaiting hqueue
          rw [hx] at hcurrent hrun
          have hnot := h.not_served hcurrent hawaiting hqueue
          rw [hrun] at hnot
          exact absurd hnot (by simp)
        have hqueue : t.awaiting ≠ none → t.queue ≠ [] := by
          intro hne hnil
          obtain ⟨w, hw⟩ := Option.ne_none_iff_exists'.mp hne
          obtain ⟨before, hbefore⟩ := hpending.last w hw
          rw [hnil] at hbefore
          have hx : [x] = before ++ [.restore w.1 w.2] := hbefore
          rw [List.singleton_eq_append_iff] at hx
          rcases hx with hx | hx
          · exact hwaits w.1 w.2 (List.cons.inj hx.2).1.symm hw hnil
          · exact absurd hx.2 (by simp)
        have hnew : Receiving server (if more then .reading else .stopped) none t.queue t.due := by
          rw [hmore]
          by_cases hquit : x = .quit
          · rw [if_neg (not_not.mpr hquit)] at hreceiving
            simpa [hquit] using hreceiving
          · rw [if_pos hquit] at hreceiving
            simpa [hquit] using hreceiving
        have hrecorded' := hrecorded.execute u.backend hindex
        rw [← hworld] at hrecorded'
        rw [← Option.some.inj hstep]
        by_cases hsound : Sound server.world
        · have hold : Sound s.server.world := by
            rw [hworld] at hsound
            exact hsound.of_prefix (List.prefix_append _ _)
          have hsync := h.synced hold
          have hnot : ∀ i date, x = .restore i date → t.awaiting ≠ some (i, date) := by
            intro i date hx hawaiting
            refine hwaits i date hx hawaiting (h.queue_nil hsync ?_ hawaiting)
            rw [hcurrent, hx]
          have hserved : Sound (s.server.world ++ served u.backend s.server.world x) := by
            rwa [← hworld]
          obtain ⟨replies, hvalid, hnumbered, hphase⟩ := hsync.serve hcurrent
            (hpending.valid x List.mem_cons_self) hnot hparsed hserved
          refine ⟨{ t with current := none, replies := replies }, h.actions, h.start, hnew, h.owes,
            h.prepares, hpending.execute hqueue, hrecorded', fun _ => ⟨hvalid, hnumbered, ?_⟩⟩
          have hdrop : server.world.drop s.server.world.length =
              served u.backend s.server.world x := by
            rw [hworld, List.drop_left]
          show Phase (s.client.extend ((server.world.drop s.server.world.length).flatMap
            Effect.bytes)) s.responder s.index s.actionStatus none t.awaiting replies
          rw [hdrop]
          exact hphase
        · exact ⟨{ t with current := none }, h.actions, h.start, hnew, h.owes, h.prepares,
            hpending.execute hqueue, hrecorded', fun h => absurd h hsound⟩
  · exact absurd hstep (by simp)

/-- A harmless step keeps what is written and what is read consistent. -/
theorem consistent_step {e : Event} (h : ∃ t, s.Consistent u t) (hharmless : s.Harmless u e)
    (hstep : s.step u e = some s') : ∃ t', s'.Consistent u t' := by
  obtain ⟨t, h⟩ := h
  cases e with
  | pushPath isDirectory path fileStatus =>
    unfold step at hstep
    dsimp only at hstep
    split at hstep
    · next hpath => exact ⟨t, consistent_push h (.path (List.isPrefixOf_iff_prefix.mp hpath)) hstep⟩
    · exact absurd hstep (by simp)
  | pushRestore date userPath =>
    unfold step at hstep
    dsimp only at hstep
    split at hstep
    · next hdate => exact ⟨t, consistent_push h (.restore hdate) hstep⟩
    · exact absurd hstep (by simp)
  | terminate =>
    rw [← Option.some.inj hstep]
    refine ⟨t, h.actions, h.start, h.receiving, h.owes, h.prepares, h.pending, h.recorded,
      fun hsound => ?_⟩
    exact ⟨(h.synced hsound).valid, (h.synced hsound).numbered, (h.synced hsound).phase⟩
  | fail =>
    rw [← Option.some.inj hstep]
    refine ⟨t, h.actions, h.start, h.receiving, h.owes, h.prepares, h.pending, h.recorded,
      fun hsound => ?_⟩
    exact ⟨(h.synced hsound).valid, (h.synced hsound).numbered, (h.synced hsound).phase⟩
  | pop disk => exact consistent_pop h hharmless hstep
  | write => exact consistent_write h hharmless hstep
  | loop => exact ⟨t, consistent_loop h hstep⟩
  | respond isDirectory => exact consistent_respond h hstep
  | writeDate => exact consistent_writeDate h hharmless hstep
  | restore => exact consistent_restore h hstep
  | readFrame => exact consistent_readFrame h hstep
  | serve => exact consistent_serve h hstep

theorem consistent_of_starts (h : s.Starts) : ∃ t, s.Consistent u t := by
  obtain ⟨hwire, hclosed, hstream⟩ := h.client
  obtain ⟨hwire', hclosed', hworld, residue, hblank, hstream'⟩ := h.server
  refine ⟨⟨none, [], none, none, [], []⟩, ?_, ?_, ?_, ?_, ?_, ?_, ?_, fun _ => ?_⟩
  · rw [h.actions]
    simp
  · rw [h.responses]
    exact le_rfl
  · refine ⟨hclosed', ?_, ⟨residue, hblank, hstream', fun hne => absurd rfl hne⟩, Or.inr h.serving,
      by simp⟩
    rw [hwire']
    rfl
  · rw [h.consumer]
    rfl
  · rw [h.consumer]
    rfl
  · exact ⟨by simp [pending], by simp, by simp⟩
  · rw [hworld, h.frames, h.dates]
    exact ⟨rfl, rfl, rfl⟩
  · refine ⟨by simp, ⟨by simp [unacknowledged], List.Pairwise.nil, by simp [keys]⟩, ?_⟩
    unfold Phase
    rw [h.responder]
    exact ⟨⟨hclosed, hwire, hstream⟩, .of_no_restore (by simp) (by simp)⟩

end Steps
end Connection

/-- In every run whose steps are harmless the server reads the frames and the dates that were
written. -/
theorem dialogue_integrity {u : Setup φ} {s s' : Connection φ} {events : List Event}
    (hstart : s.Starts) (hharmless : Meets (Connection.step u) (Connection.Harmless u) s events)
    (hrun : run (Connection.step u) s events = some s') : s'.Integral := by
  obtain ⟨t, h⟩ : ∃ t, s'.Consistent u t :=
    run_invariant (fun _ _ _ h => Connection.consistent_step h)
      (Connection.consistent_of_starts hstart) hharmless hrun
  exact ⟨h.recorded.prefix_frames, h.recorded.prefix_dates h.pending⟩

/-- A client whose main path is `/`, and a server without any file. -/
def emptySetup : Setup Unit where
  default := .ofRestore [] []
  mainPath := [47]
  files := willingOps
  locals := zeroLocals
  pathNumber := 0
  backend := fixedBackend (some .empty)

/-- The threads at their start. -/
def started : Connection Unit where
  actions := []
  isTerminated := false
  responses := .empty
  hasExceptionOccurred := false
  consumer := .popping
  responder := .reading
  index := 0
  actionStatus := -1
  client := ⟨[], false, .fresh [], ⟨[], (), []⟩⟩
  serving := .reading
  server := ⟨[], false, .fresh [], []⟩
  frames := []
  dates := []

theorem starts_started : started.Starts where
  actions := rfl
  responses := rfl
  consumer := rfl
  responder := rfl
  client := ⟨rfl, rfl, [], Blank.nil, rfl⟩
  serving := rfl
  server := ⟨rfl, rfl, rfl, [], Blank.nil, rfl⟩
  frames := rfl
  dates := rfl

/-- A disk without any file. -/
def emptyDisk : Disk where
  lastWriteTime _ := none
  permissions _ := none
  fileSize _ := none
  content _ := none
  time _ _ h := absurd h (by simp)
  mode _ _ h := absurd h (by simp)
  sized _ _ h := absurd h (by simp)

/-- A restore, and the user quits once the date is written. -/
def patientQuit : List Event :=
  [.pushRestore sampleDate [47], .pop emptyDisk, .write, .loop, .readFrame, .respond fun _ => false,
    .writeDate, .terminate, .pop emptyDisk, .write, .serve, .restore, .readFrame, .serve]

/-- A restore, and the user quits at once. -/
def earlyQuit : List Event :=
  [.pushRestore sampleDate [47], .pop emptyDisk, .write, .loop, .terminate, .pop emptyDisk, .write,
    .readFrame, .serve]

/-- The server reads the ten characters of the date. -/
theorem dialogue_integrity_patient :
    ∃ s, run (Connection.step emptySetup) started patientQuit = some s ∧
      parsedDates 0 s.server.world = [(0, 10, sampleDate)] ∧ s.Integral := by
  have hharmless : Meets (Connection.step emptySetup) (Connection.Harmless emptySetup) started
      patientQuit := by decide +kernel
  have hdates : (run (Connection.step emptySetup) started patientQuit).map
      (fun s => parsedDates 0 s.server.world) = some [(0, 10, sampleDate)] := by decide +kernel
  obtain ⟨s, hrun, hs⟩ := Option.map_eq_some_iff.mp hdates
  exact ⟨s, hrun, hs, dialogue_integrity starts_started hharmless hrun⟩

/-- The server takes the first characters of the quit frame for the length and the text of a date that
was never written. -/
theorem dialogue_integrity_early :
    ∃ s, started.Starts ∧ run (Connection.step emptySetup) started earlyQuit = some s ∧
      ¬s.Integral := by
  have hdates : (run (Connection.step emptySetup) started earlyQuit).map
      (fun s => (parsedDates 0 s.server.world, s.dates)) =
        some ([(0, 4, [48, 48, 48, 48, 48])], []) := by decide +kernel
  obtain ⟨s, hrun, hs⟩ := Option.map_eq_some_iff.mp hdates
  obtain ⟨hread, hwritten⟩ := Prod.mk.inj hs
  refine ⟨s, starts_started, hrun, fun h => ?_⟩
  have hprefix := h.dates
  rw [hread, hwritten] at hprefix
  exact absurd (List.prefix_nil.mp hprefix) (by simp)

end BackupManager.Protocol
