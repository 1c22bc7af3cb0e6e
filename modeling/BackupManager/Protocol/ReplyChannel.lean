import BackupManager.Protocol.Transaction

/-! The channel to the client as a queue of replies, and the response buffer by which the response
consumer tells the restores among them. -/
namespace BackupManager.Protocol
open ByteStream Client Server Table

/-- A map that the client takes as it was sent. -/
def Passes (m : RestoreMap) : Prop :=
  (m.entries.length : ℤ) ≤ Istream.intMax ∧ ∀ f ∈ filesOf m, WellSized f ∧ Sendable f

instance : DecidablePred Passes := fun _ => inferInstanceAs (Decidable (_ ∧ _))

/-- A restore is not answered with an error, and a map that is sent passes through the stream. -/
def SoundIn (trace : List Effect) : Effect → Prop
  | .parsed f => f.actionType = ActionType.restore.code → .response f.index .error ∉ trace
  | .entries m => Passes m
  | _ => True

instance (trace : List Effect) : DecidablePred (SoundIn trace)
  | .parsed f => inferInstanceAs (Decidable (f.actionType = ActionType.restore.code → _))
  | .entries m => inferInstanceAs (Decidable (Passes m))
  | .response _ _ => .isTrue trivial
  | .addAction _ => .isTrue trivial
  | .parsedDate _ _ => .isTrue trivial
  | .getRestoreEntries _ => .isTrue trivial

/-- Every restore so far was answered with a map, and every map passes through the stream. -/
def Sound (trace : List Effect) : Prop := ∀ e ∈ trace, SoundIn trace e

instance : DecidablePred Sound := fun _ => inferInstanceAs (Decidable (∀ e ∈ _, _))

theorem Sound.of_prefix {trace later : List Effect} (h : Sound later) (hp : trace <+: later) :
    Sound trace := by
  intro e he
  have hlater := h e (hp.subset he)
  cases e with
  | parsed f => exact fun hkind herror => hlater hkind (hp.subset herror)
  | entries m => exact hlater
  | _ => trivial

/-- The item of the response buffer that belongs to the transaction. -/
def Transaction.Describes : Transaction → Action → Prop
  | .upload _, a => a.actionType ≠ .restore
  | .restore _ date, a => a.actionType = .restore ∧ a.restoreDate = date
  | .quit, _ => True

/-- The response buffer holds the action of the transaction. -/
def Known (responses : ResponseBuffer) (x : Transaction) : Prop :=
  ∀ i ∈ x.number, ∃ a, responses.responseMap.find? i = some a ∧ x.Describes a

section Known

variable {responses : ResponseBuffer} {x : Transaction} {default action a : Action} {i : ℤ}

theorem Transaction.Describes.withStatus (h : x.Describes a) (st : ActionStatus) :
    x.Describes { a with st := st } := by
  cases x with
  | upload u => exact h
  | restore index date => exact h
  | quit => trivial

theorem Known.setStatus (h : Known responses x) (st : ActionStatus) :
    Known (responses.setStatus default i st) x := by
  intro j hj
  obtain ⟨a, hfind, ha⟩ := h j hj
  by_cases hji : j = i
  · subst hji
    refine ⟨{ a with st := st }, ?_, ha.withStatus st⟩
    have hmap : (responses.setStatus default j st).responseMap =
        responses.responseMap.assign j { a with st := st } := by
      unfold ResponseBuffer.setStatus
      rw [hfind]
      rfl
    rw [hmap, SortedMap.find?_assign_self]
  · exact ⟨a, (SortedMap.find?_assign_of_ne hji).trans hfind, ha⟩

theorem Known.completed (h : Known responses x) (hne : ∀ j ∈ x.number, j ≠ i) :
    Known (responses.completed i) x := by
  intro j hj
  obtain ⟨a, hfind, ha⟩ := h j hj
  exact ⟨a, (SortedMap.find?_erase_of_ne (hne j hj)).trans hfind, ha⟩

theorem Known.add (h : Known responses x) (hne : ∀ j ∈ x.number, j ≠ responses.currentIndex) :
    Known (responses.add action).2 x := by
  intro j hj
  obtain ⟨a, hfind, ha⟩ := h j hj
  exact ⟨a, (SortedMap.find?_assign_of_ne (hne j hj)).trans hfind, ha⟩

theorem known_added (hnumber : x.number = some responses.currentIndex) (h : x.Describes action) :
    Known (responses.add action).2 x := by
  intro j hj
  rw [hnumber, Option.mem_some_iff] at hj
  subst hj
  exact ⟨_, SortedMap.find?_assign_self _ _ _, h.withStatus .sent⟩

theorem signalled_currentIndex (default : Action) (responses : ResponseBuffer)
    (index actionStatus : ℤ) :
    (signalled default responses index actionStatus).currentIndex = responses.currentIndex := by
  unfold signalled
  split
  · rfl
  · split
    · rfl
    · split <;> rfl

/-- A response touches the item of its index only, and removes it only when it is completed. -/
theorem Known.signalled {actionStatus : ℤ} (h : Known responses x)
    (hne : actionStatus = ActionStatus.completed.code → ∀ j ∈ x.number, j ≠ i) :
    Known (signalled default responses i actionStatus) x := by
  unfold Protocol.signalled
  split
  · next hcompleted => exact h.completed (hne hcompleted)
  · split
    · exact h.setStatus _
    · split
      · exact h.setStatus _
      · exact h

/-- What `get_action` rebuilds is a restore exactly when the item is one. -/
theorem getAction_of_find? (isDirectory : Bytes → Bool)
    (h : responses.responseMap.find? i = some a) :
    ∃ a', responses.getAction isDirectory i = some a' ∧
      (a'.actionType = .restore ↔ a.actionType = .restore) ∧
      (a.actionType = .restore → a'.restoreDate = a.restoreDate) := by
  unfold ResponseBuffer.getAction
  rw [h, Option.map_some]
  by_cases hrestore : a.actionType = .restore
  · rw [if_pos hrestore]
    exact ⟨_, rfl, ⟨fun _ => hrestore, fun _ => rfl⟩, fun _ => rfl⟩
  · rw [if_neg hrestore]
    refine ⟨_, rfl, ⟨fun h => ?_, fun h => absurd h hrestore⟩, fun h => absurd h hrestore⟩
    exact absurd h (actionTypeOf_ne_restore _ _)

end Known

/-- The numbers under which replies, transactions and the response buffer refer to each other; the
flag marks the numbers that are still to be looked up. -/
def Reply.key : Reply → Option (ℤ × Bool)
  | .ack x => x.number.map (·, true)
  | .final index _ => some (index, false)

def Reply.acked : Reply → Option Transaction
  | .ack x => some x
  | .final _ _ => none

def keys (current : Option Transaction) (coming : List Transaction) (replies : List Reply) :
    List (ℤ × Bool) :=
  replies.filterMap Reply.key ++ ((current.bind Transaction.number).toList.map (·, false) ++
    coming.filterMap fun x => x.number.map (·, true))

/-- The transactions whose first response has not been read. -/
def unacknowledged (coming : List Transaction) (replies : List Reply) : List Transaction :=
  replies.filterMap Reply.acked ++ coming

/-- The numbers grow, so that nothing is removed from the buffer before it is looked up. -/
structure Numbered (responses : ResponseBuffer) (current : Option Transaction)
    (coming : List Transaction) (replies : List Reply) : Prop where
  known : ∀ x ∈ unacknowledged coming replies, Known responses x
  ordered : (keys current coming replies).Pairwise fun k l => l.2 = true → k.1 < l.1
  bounded : ∀ k ∈ keys current coming replies, k.1 < responses.currentIndex

section Numbered

variable {responses responses' : ResponseBuffer} {current : Option Transaction}
variable {coming : List Transaction} {replies : List Reply} {r : Reply} {x : Transaction}
variable {default : Action} {index : ℤ} {actionStatus : ℤ}

theorem mem_keys_of_unacknowledged {i : ℤ} (hx : x ∈ unacknowledged coming replies)
    (hi : x.number = some i) : (i, true) ∈ keys current coming replies := by
  rcases List.mem_append.mp hx with hreply | hcoming
  · obtain ⟨r, hr, hacked⟩ := List.mem_filterMap.mp hreply
    refine List.mem_append_left _ (List.mem_filterMap.mpr ⟨r, hr, ?_⟩)
    cases r with
    | ack y =>
      rw [← Option.some.inj hacked] at hi
      simp [Reply.key, hi]
    | final i st => exact absurd hacked (by simp [Reply.acked])
  · refine List.mem_append_right _ (List.mem_append_right _ (List.mem_filterMap.mpr ⟨x, hcoming, ?_⟩))
    simp [hi]

theorem keys_sublist :
    (keys current coming replies).Sublist (keys current coming (r :: replies)) :=
  ((List.sublist_cons_self r replies).filterMap _).append_right _

/-- A reply is read. -/
theorem Numbered.tail (h : Numbered responses current coming (r :: replies)) :
    Numbered responses current coming replies where
  known x hx := by
    refine h.known x ?_
    rcases List.mem_append.mp hx with hreply | hcoming
    · exact List.mem_append_left _ (((List.sublist_cons_self r replies).filterMap _).subset hreply)
    · exact List.mem_append_right _ hcoming
  ordered := h.ordered.sublist keys_sublist
  bounded k hk := h.bounded k (keys_sublist.subset hk)

/-- A response is acted on; one that removes an item must not remove what is still looked up. -/
theorem Numbered.signalled (h : Numbered responses current coming replies)
    (hne : actionStatus = ActionStatus.completed.code →
      ∀ x ∈ unacknowledged coming replies, ∀ j ∈ x.number, j ≠ index) :
    Numbered (signalled default responses index actionStatus) current coming replies where
  known x hx := (h.known x hx).signalled fun hcompleted j hj => hne hcompleted x hx j hj
  ordered := h.ordered
  bounded k hk := by
    rw [signalled_currentIndex]
    exact h.bounded k hk

/-- The response consumer acts on the reply that it has read. -/
theorem Numbered.read (h : Numbered responses current coming (r :: replies))
    (hfinal : actionStatus = ActionStatus.completed.code → r.key = some (index, false)) :
    Numbered (Protocol.signalled default responses index actionStatus) current coming replies := by
  refine h.tail.signalled fun hcompleted x hx j hj => ?_
  have hkeys : keys current coming (r :: replies) =
      (index, false) :: keys current coming replies := by
    rw [keys, List.filterMap_cons_some (hfinal hcompleted)]
    rfl
  have hordered := h.ordered
  rw [hkeys, List.pairwise_cons] at hordered
  exact (hordered.1 _ (mem_keys_of_unacknowledged hx hj) rfl).ne'

/-- The server parses the next frame. -/
theorem Numbered.parse (h : Numbered responses none (x :: coming) replies) :
    Numbered responses (some x) coming (replies ++ [.ack x]) := by
  have hknown : unacknowledged coming (replies ++ [.ack x]) =
      unacknowledged (x :: coming) replies := by
    rw [unacknowledged, List.filterMap_append, List.append_assoc]
    rfl
  cases hx : x.number with
  | none =>
    have hkeys : keys (some x) coming (replies ++ [.ack x]) = keys none (x :: coming) replies := by
      simp [keys, Reply.key, hx]
    exact ⟨by rw [hknown]; exact h.known, by rw [hkeys]; exact h.ordered,
      by rw [hkeys]; exact h.bounded⟩
  | some i =>
    have hold : keys none (x :: coming) replies = replies.filterMap Reply.key ++
        (i, true) :: coming.filterMap fun x => x.number.map (·, true) := by
      simp [keys, hx]
    have hnew : keys (some x) coming (replies ++ [.ack x]) = replies.filterMap Reply.key ++
        (i, true) :: (i, false) :: coming.filterMap fun x => x.number.map (·, true) := by
      simp [keys, Reply.key, hx]
    have hordered := h.ordered
    have hbounded := h.bounded
    rw [hold] at hordered hbounded
    rw [List.pairwise_append, List.pairwise_cons] at hordered
    obtain ⟨hbefore, ⟨hhead, hafter⟩, hacross⟩ := hordered
    refine ⟨by rw [hknown]; exact h.known, ?_, ?_⟩
    · rw [hnew, List.pairwise_append, List.pairwise_cons, List.pairwise_cons]
      refine ⟨hbefore, ⟨?_, hhead, hafter⟩, ?_⟩
      · intro l hl hflag
        rcases List.mem_cons.mp hl with rfl | hl
        · exact absurd hflag (by simp)
        · exact hhead l hl hflag
      · intro k hk l hl hflag
        rcases List.mem_cons.mp hl with rfl | hl
        · exact hacross k hk _ List.mem_cons_self hflag
        · rcases List.mem_cons.mp hl with rfl | hl
          · exact absurd hflag (by simp)
          · exact hacross k hk l (List.mem_cons_of_mem _ hl) hflag
    · rw [hnew]
      intro k hk
      rcases List.mem_append.mp hk with hk | hk
      · exact hbounded k (List.mem_append_left _ hk)
      · rcases List.mem_cons.mp hk with rfl | hk
        · exact hbounded _ (List.mem_append_right _ List.mem_cons_self)
        · rcases List.mem_cons.mp hk with rfl | hk
          · exact hbounded (i, true) (List.mem_append_right _ List.mem_cons_self)
          · exact hbounded k (List.mem_append_right _ (List.mem_cons_of_mem _ hk))

/-- The server answers a transaction for the last time. -/
theorem Numbered.execute (h : Numbered responses (some x) coming replies)
    (hx : x.number = some x.message.index) (st : ActionStatus) :
    Numbered responses none coming (replies ++ [.final x.message.index st]) := by
  have hknown : unacknowledged coming (replies ++ [.final x.message.index st]) =
      unacknowledged coming replies := by
    rw [unacknowledged, List.filterMap_append]
    simp [unacknowledged, Reply.acked]
  have hkeys : keys none coming (replies ++ [.final x.message.index st]) =
      keys (some x) coming replies := by
    simp [keys, Reply.key, hx]
  exact ⟨by rw [hknown]; exact h.known, by rw [hkeys]; exact h.ordered,
    by rw [hkeys]; exact h.bounded⟩

/-- The server executes a quit, which has no number. -/
theorem Numbered.quit (h : Numbered responses (some .quit) coming replies) :
    Numbered responses none coming replies :=
  ⟨h.known, h.ordered, h.bounded⟩

/-- The action consumer adds an action to the buffer. -/
theorem Numbered.add (h : Numbered responses current coming replies)
    (hknown : ∀ y, (∀ j ∈ y.number, j ≠ responses.currentIndex) → Known responses y →
      Known responses' y)
    (hle : responses.currentIndex ≤ responses'.currentIndex) {prepared : Option Transaction}
    (hprepared : ∀ y ∈ prepared, Known responses' y ∧ ∀ i ∈ y.number,
      i = responses.currentIndex ∧ responses.currentIndex < responses'.currentIndex) :
    Numbered responses' current (coming ++ prepared.toList) replies := by
  have hnew : ∀ y ∈ prepared.toList, y ∈ prepared := fun y hy => Option.mem_toList.mp hy
  have hkeys : keys current (coming ++ prepared.toList) replies = keys current coming replies ++
      prepared.toList.filterMap fun x => x.number.map (·, true) := by
    simp [keys]
  have hlast : ∀ l ∈ prepared.toList.filterMap (fun x => x.number.map (·, true)),
      l.1 = responses.currentIndex ∧ responses.currentIndex < responses'.currentIndex := by
    intro l hl
    obtain ⟨y, hy, hmap⟩ := List.mem_filterMap.mp hl
    obtain ⟨i, hi, rfl⟩ := Option.map_eq_some_iff.mp hmap
    exact (hprepared y (hnew y hy)).2 i hi
  refine ⟨?_, ?_, ?_⟩
  · intro y hy
    rw [unacknowledged, ← List.append_assoc] at hy
    rcases List.mem_append.mp hy with hold | hy
    · refine hknown y (fun j hj => ?_) (h.known y hold)
      exact (h.bounded _ (mem_keys_of_unacknowledged hold hj)).ne
    · exact (hprepared y (hnew y hy)).1
  · rw [hkeys, List.pairwise_append]
    refine ⟨h.ordered, ?_, ?_⟩
    · cases prepared with
      | none => exact List.Pairwise.nil
      | some y =>
        rw [Option.toList_some]
        cases hy : y.number <;> simp [hy]
    · intro k hk l hl _
      rw [(hlast l hl).1]
      exact h.bounded k hk
  · intro k hk
    rw [hkeys] at hk
    rcases List.mem_append.mp hk with hk | hk
    · exact (h.bounded k hk).trans_le hle
    · obtain ⟨hi, hlt⟩ := hlast k hk
      rw [hi]
      exact hlt

/-- No two transactions have the same number. -/
theorem Numbered.not_mem_coming (h : Numbered responses (some x) coming replies) {i : ℤ}
    (hx : x.number = some i) : x ∉ coming := by
  intro hmem
  have hordered := h.ordered
  have hkeys : keys (some x) coming replies = replies.filterMap Reply.key ++
      (i, false) :: coming.filterMap fun x => x.number.map (·, true) := by
    simp [keys, hx]
  rw [hkeys, List.pairwise_append, List.pairwise_cons] at hordered
  have hlt := hordered.2.1.1 (i, true) (List.mem_filterMap.mpr ⟨x, hmem, by simp [hx]⟩) rfl
  exact absurd hlt (lt_irrefl i)

end Numbered

theorem ActionStatus.code_injective : Function.Injective ActionStatus.code := by
  intro a b h
  cases a <;> cases b <;> first | rfl | cases h

/-- Only the last reply to a transaction reports that it is completed. -/
theorem Reply.key_of_completed {r : Reply} (h : (r.status.code : ℤ) = ActionStatus.completed.code) :
    r.key = some (r.index, false) := by
  have hstatus : r.status = .completed := ActionStatus.code_injective (Int.ofNat_inj.mp h)
  cases r with
  | ack x => cases x <;> exact absurd hstatus (by simp [Reply.status])
  | final i st => rfl

/-- The reply passes through the channel unchanged; the last reply to a transaction is not taken
for the first. -/
def Reply.Valid (r : Reply) : Prop :=
  InInt r.index ∧ Fits intMaxNDigit r.index ∧ ∀ i, r ≠ .final i .received

theorem Transaction.Valid.ack {x : Transaction} (h : x.Valid) : (Reply.ack x).Valid :=
  ⟨h.wellFormed.index, h.transmissible.index, fun _ => by simp⟩

theorem Transaction.Valid.final {x : Transaction} (h : x.Valid) {st : ActionStatus}
    (hst : st ≠ .received) : (Reply.final x.message.index st).Valid :=
  ⟨h.wellFormed.index, h.transmissible.index, fun _ heq => hst (Reply.final.inj heq).2⟩

/-- A restore is acknowledged last, and its date is awaited until the client has read that. -/
structure Quiet (current : Option Transaction) (awaiting : Option (ℤ × Bytes))
    (replies : List Reply) : Prop where
  alone : ∀ i date before after, replies = before ++ .ack (.restore i date) :: after →
    after = [] ∧ current = some (.restore i date)
  awaited : ∀ i date, current = some (.restore i date) → awaiting = some (i, date)

section Quiet

variable {current : Option Transaction} {awaiting awaiting' : Option (ℤ × Bytes)}
variable {replies : List Reply} {r : Reply} {x : Transaction} {index : ℤ}

theorem Quiet.tail (h : Quiet current awaiting (r :: replies)) : Quiet current awaiting replies where
  alone i date before after hsplit := h.alone i date (r :: before) after (by rw [hsplit]; rfl)
  awaited := h.awaited

theorem Quiet.head {date : Bytes} (h : Quiet current awaiting (.ack (.restore index date) :: replies)) :
    replies = [] ∧ current = some (.restore index date) ∧ awaiting = some (index, date) := by
  obtain ⟨hnil, hcurrent⟩ := h.alone index date [] replies rfl
  exact ⟨hnil, hcurrent, h.awaited index date hcurrent⟩

/-- While no restore is executed none is acknowledged. -/
theorem Quiet.no_restore (h : Quiet current awaiting replies)
    (hcurrent : ∀ i date, current ≠ some (.restore i date)) (i : ℤ) (date : Bytes) :
    Reply.ack (.restore i date) ∉ replies := by
  intro hmem
  obtain ⟨before, after, hsplit⟩ := List.append_of_mem hmem
  exact hcurrent i date (h.alone i date before after hsplit).2

theorem Quiet.of_no_restore (hcurrent : ∀ i date, current ≠ some (.restore i date))
    (h : ∀ i date, Reply.ack (.restore i date) ∉ replies) : Quiet current awaiting replies where
  alone i date before after hsplit := by
    refine absurd ?_ (h i date)
    rw [hsplit]
    exact List.mem_append_right _ List.mem_cons_self
  awaited i date hi := absurd hi (hcurrent i date)

/-- While no date is awaited, the next one may be. -/
theorem Quiet.enqueue (h : Quiet current none replies) : Quiet current awaiting replies := by
  have hcurrent : ∀ i date, current ≠ some (.restore i date) :=
    fun i date hi => absurd (h.awaited i date hi) (by simp)
  exact .of_no_restore hcurrent (h.no_restore hcurrent)

theorem Quiet.parse (h : Quiet none awaiting replies)
    (hx : ∀ i date, x = .restore i date → awaiting = some (i, date)) :
    Quiet (some x) awaiting (replies ++ [.ack x]) where
  alone i date before after hsplit := by
    have hnone := h.no_restore (by simp) i date
    rcases List.eq_nil_or_concat after with rfl | ⟨later, last, rfl⟩
    · have hlast := (List.append_inj' hsplit rfl).2
      rw [List.cons.injEq, Reply.ack.injEq] at hlast
      exact ⟨rfl, congrArg some hlast.1⟩
    · refine absurd ?_ hnone
      rw [List.concat_eq_append, ← List.cons_append, ← List.append_assoc] at hsplit
      rw [(List.append_inj' hsplit rfl).1]
      exact List.mem_append_right _ List.mem_cons_self
  awaited i date hi := hx i date (Option.some.inj hi)

theorem Quiet.execute (h : Quiet (some x) awaiting replies) (hx : ∀ i date, x ≠ .restore i date)
    {later : List Reply} (hlater : ∀ i date, Reply.ack (.restore i date) ∉ later) :
    Quiet none awaiting (replies ++ later) := by
  have hnone := h.no_restore fun i date heq => hx i date (Option.some.inj heq)
  refine .of_no_restore (by simp) fun i date hmem => ?_
  rcases List.mem_append.mp hmem with hold | hnew
  · exact hnone i date hold
  · exact hlater i date hnew

end Quiet

section Client

variable {φ : Type}

/-- What the client has not read, in a stream that holds nothing but blanks. -/
structure Listening (client : Session (Restoring φ)) (wire : Bytes) : Prop where
  closed : client.closed = false
  wire : client.wire = wire
  stream : ∃ residue, Blank residue ∧ client.stream = .fresh residue

variable {client client' : Session (Restoring φ)} {wire : Bytes}

theorem Listening.extend (h : Listening client wire) (more : Bytes) :
    Listening (client.extend more) (wire ++ more) where
  closed := h.closed
  wire := by rw [Session.extend_wire, h.wire]
  stream := h.stream

theorem Listening.eq (h : Listening client wire) :
    ∃ residue, Blank residue ∧ client = ⟨wire, false, .fresh residue, client.world⟩ := by
  obtain ⟨residue, hblank, hstream⟩ := h.stream
  refine ⟨residue, hblank, ?_⟩
  rw [← h.closed, ← h.wire, ← hstream]

/-- What the response consumer reads is the first reply. -/
theorem Listening.respond {replies : List Reply} {index actionStatus : ℤ} {o : Outcome (ℤ × ℤ)}
    (h : Listening client (replies.flatMap Reply.bytes)) (hvalid : ∀ r ∈ replies, r.Valid)
    (hrun : readResponse index actionStatus client = (o, client')) (ho : o ≠ .waits) :
    ∃ r rest, replies = r :: rest ∧ o = .returns (r.index, (r.status.code : ℤ)) ∧
      Listening client' (rest.flatMap Reply.bytes) := by
  cases replies with
  | nil =>
    rw [readResponse_waits h.wire h.closed, Prod.mk.injEq] at hrun
    exact absurd hrun.1.symm ho
  | cons r rest =>
    obtain ⟨residue, hblank, hclient⟩ := h.eq
    obtain ⟨hint, hfits, -⟩ := hvalid r List.mem_cons_self
    rw [List.flatMap_cons, Reply.bytes] at hclient
    rw [hclient, readResponse_bytes hint hfits r.status hblank, Prod.mk.injEq] at hrun
    rw [← hrun.2]
    exact ⟨r, rest, rfl, hrun.1.symm, rfl, rfl, [newline], Blank.newline, rfl⟩

/-- A restore that returns leaves the replies behind its entries. -/
theorem Listening.restore {m : RestoreMap} {ops : FileOps φ} {v : Locals} {pathNumber : ℤ}
    {date userPath : Bytes} (h : Listening client (restoreBytes m ++ wire)) (hm : Passes m)
    (hrun : Client.actionRestore ops v pathNumber date userPath client = (.returns (), client')) :
    Listening client' wire := by
  obtain ⟨residue, hblank, hclient⟩ := h.eq
  rw [hclient] at hrun
  have hends : Prog.Ends (Client.actionRestore ops v pathNumber date userPath)
      ⟨restoreBytes m ++ wire, false, .fresh residue, client.world⟩
      (fun _ s' => Arrived wire false (client.world.received ++ expected m) s')
      (fun s' => ¬ops.Succeeds ∧ s'.world.received <+: client.world.received ++ expected m) :=
    ends_actionRestore (fun f hf => (hm.2 f hf).1) hblank v pathNumber date userPath hm.1
      fun f hf => (hm.2 f hf).2
  obtain ⟨residue', world, hblank', rfl, -⟩ := hends.returns hrun
  exact ⟨rfl, rfl, residue', hblank', rfl⟩

/-- Where the response consumer stands among the replies. -/
def Phase (client : Session (Restoring φ)) (responder : Responder) (index actionStatus : ℤ)
    (current : Option Transaction) (awaiting : Option (ℤ × Bytes)) (replies : List Reply) : Prop :=
  match responder with
  | .reading => Listening client (replies.flatMap Reply.bytes) ∧ Quiet current awaiting replies
  | .opening date _ =>
    Listening client [] ∧ replies = [] ∧ actionStatus = ActionStatus.received.code ∧
      current = some (.restore index date) ∧ awaiting = some (index, date)
  | .restoring date _ =>
    actionStatus = ActionStatus.received.code ∧
      ((Listening client [] ∧ replies = [] ∧ current = some (.restore index date)) ∨
        ∃ m, Passes m ∧ Listening client (restoreBytes m ++ replies.flatMap Reply.bytes) ∧
          Quiet current awaiting replies)
  | .stopped => True

/-- More replies, outside a restore. -/
theorem Phase.extend {responder : Responder} {index actionStatus : ℤ}
    {current current' : Option Transaction} {awaiting : Option (ℤ × Bytes)} {replies : List Reply}
    (h : Phase client responder index actionStatus current awaiting replies)
    (hcurrent : ∀ i date, current ≠ some (.restore i date)) (later : List Reply)
    (hquiet : Quiet current awaiting replies → Quiet current' awaiting (replies ++ later)) :
    Phase (client.extend (later.flatMap Reply.bytes)) responder index actionStatus current' awaiting
      (replies ++ later) := by
  unfold Phase at h ⊢
  rw [List.flatMap_append]
  cases responder with
  | reading => exact ⟨h.1.extend _, hquiet h.2⟩
  | opening date userPath => exact absurd h.2.2.2.1 (hcurrent _ _)
  | restoring date userPath =>
    refine ⟨h.1, Or.inr ?_⟩
    rcases h.2 with hempty | hm
    · exact absurd hempty.2.2 (hcurrent _ _)
    · obtain ⟨m, hm, hlistening, hold⟩ := hm
      refine ⟨m, hm, ?_, hquiet hold⟩
      rw [← List.append_assoc]
      exact hlistening.extend _
  | stopped => trivial

end Client

section Effects

variable (b : Backend) (trace : List Effect) {x : Transaction}

theorem bytes_acknowledged (hx : x.Valid) :
    ((acknowledged trace (frameOf x.message)).drop trace.length).flatMap Effect.bytes =
      (Reply.ack x).bytes := by
  unfold acknowledged
  rw [List.drop_left]
  by_cases hquit : x = .quit
  · subst hquit
    rfl
  · have hcode : (frameOf x.message).actionType ≠ ActionType.quit.code :=
      fun h => hquit (hx.quit_iff.mp h)
    rw [if_neg hcode]
    have hstatus : (Reply.ack x).status = .received := by
      cases x with
      | upload u => rfl
      | restore index date => rfl
      | quit => exact absurd rfl hquit
    rw [Reply.bytes, hstatus]
    exact List.append_nil _

/-- The reply to an upload is its last response. -/
theorem bytes_served_upload (u : Upload) :
    ∃ st, st ≠ .received ∧ (served b trace (.upload u)).flatMap Effect.bytes =
      (Reply.final u.message.index st).bytes := by
  refine ⟨if b.addAction trace (u.call b.hash (b.localDay trace)) then .completed else .error,
    ?_, List.append_nil _⟩
  split <;> simp

/-- A restore that leaves the trace sound was answered with a map that passes. -/
theorem bytes_served_restore {index : ℤ} {date : Bytes} (hparsed : ∃ f, .parsed f ∈ trace ∧
      f.actionType = ActionType.restore.code ∧ f.index = index)
    (h : Sound (trace ++ served b trace (.restore index date))) :
    ∃ m, Passes m ∧ (served b trace (.restore index date)).flatMap Effect.bytes =
      restoreBytes m ++ (Reply.final index .completed).bytes := by
  dsimp only [served] at h ⊢
  rw [bytes_restoreEffects]
  cases hm : b.getRestoreEntries (trace ++ [.parsedDate date.length date]) date with
  | none =>
    obtain ⟨f, hf, hkind, rfl⟩ := hparsed
    rw [hm] at h
    refine absurd ?_ (h (.parsed f) (List.mem_append_left _ hf) hkind)
    exact List.mem_append_right _ (by simp [restoreEffects])
  | some m =>
    rw [hm] at h
    exact ⟨m, h (.entries m) (List.mem_append_right _ (by simp [restoreEffects])), rfl⟩

end Effects
end BackupManager.Protocol
