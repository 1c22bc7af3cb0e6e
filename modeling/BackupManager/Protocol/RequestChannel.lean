import BackupManager.Protocol.Transaction

/-! The channel to the server as a queue of transactions: what holds of its two writers and of its
reader as long as nothing comes between a frame and what belongs to it. -/
namespace BackupManager.Protocol
open ByteStream Client Server

/-- The transactions that the server has not executed: the one whose frame it has parsed, and
those behind it. -/
def pending (current : Option Transaction) (queue : List Transaction) : List Transaction :=
  current.toList ++ queue

/-- The index of the last frame of a trace. -/
def lastIndex : ℤ → List Effect → ℤ
  | index, [] => index
  | _, .parsed f :: rest => lastIndex f.index rest
  | index, _ :: rest => lastIndex index rest

def servingOf : Option Transaction → Serving
  | none => .reading
  | some x => .serving (frameOf x.message)

/-- The server reads a queue of transactions; `due` is what is still to be written of the last. -/
structure Receiving (server : Session (List Effect)) (serving : Serving)
    (current : Option Transaction) (queue : List Transaction) (due : Bytes) : Prop where
  closed : server.closed = false
  wire : server.wire ++ due =
    current.toList.flatMap Transaction.tail ++ queue.flatMap Transaction.bytes
  stream : ∃ residue, Blank residue ∧ server.stream = .fresh residue ∧
    (current ≠ none → residue = [])
  serving : serving = .stopped ∨ serving = servingOf current
  parsed : ∀ x ∈ current, .parsed (frameOf x.message) ∈ server.world ∧
    lastIndex 0 server.world = x.message.index

/-- The action consumer is not in the middle of a file. -/
def Consumer.Between : Consumer → Prop
  | .sending none writes _ => writes = []
  | _ => True

/-- What is still to be written for the last frame: the date that is awaited, or else what is left
of a file; a consumer that has stopped may never write it. -/
def Owes (consumer : Consumer) (awaiting : Option (ℤ × Bytes)) (due : Bytes) : Prop :=
  match awaiting with
  | some w => due = dateBlock w.2 ∧ consumer.Between
  | none => match consumer with
    | .sending none writes after => due = writes.flatten ∨ after = .throws ∧ writes = []
    | .stopped => True
    | _ => due = []

/-- The writes that the action consumer is about to make are those of a transaction; after an
exception only its frame. -/
def Prepares : Consumer → Option Transaction → Prop
  | .sending (some message) (bytes :: writes) after, prepared =>
    ∃ x, prepared = some x ∧ x.Valid ∧ x.message = message ∧ bytes = message.bytes ∧
      (writes.flatten = x.own ∨ after = .throws ∧ writes = []) ∧ (x.date? ≠ none → writes = [])
  | _, prepared => prepared = none

/-- An awaited date belongs to the last transaction. -/
structure Pending (current : Option Transaction) (queue : List Transaction)
    (awaiting : Option (ℤ × Bytes)) : Prop where
  valid : ∀ x ∈ pending current queue, x.Valid
  last : ∀ w ∈ awaiting, ∃ before, pending current queue = before ++ [.restore w.1 w.2]
  asked : ∀ index date, .restore index date ∈ queue → awaiting = some (index, date)

/-- What has been read and what is pending is what has been written. -/
structure Recorded (trace : List Effect) (frames : List Message) (dates : List (ℤ × Bytes))
    (current : Option Transaction) (queue : List Transaction) (awaiting : Option (ℤ × Bytes)) :
    Prop where
  parsedFrames : parsedFrames trace ++ queue.map (fun x => frameOf x.message) = frames.map frameOf
  parsedDates : parsedDates 0 trace ++
    ((pending current queue).filterMap Transaction.date?).map dateRead =
      (dates ++ awaiting.toList).map dateRead
  restores : (frames.filter fun m => m.actionType = .restore).length =
    dates.length + awaiting.toList.length

section Traces

theorem parsedFrames_append (trace later : List Effect) :
    parsedFrames (trace ++ later) = parsedFrames trace ++ parsedFrames later :=
  List.filterMap_append

theorem parsedDates_append (index : ℤ) (trace later : List Effect) :
    parsedDates index (trace ++ later) =
      parsedDates index trace ++ parsedDates (lastIndex index trace) later := by
  induction trace generalizing index with
  | nil => rfl
  | cons e trace ih =>
    cases e with
    | parsedDate length date =>
      rw [List.cons_append, parsedDates, ih, parsedDates, List.cons_append]
      rfl
    | _ => exact ih _

theorem lastIndex_append (index : ℤ) (trace later : List Effect) :
    lastIndex index (trace ++ later) = lastIndex (lastIndex index trace) later := by
  induction trace generalizing index with
  | nil => rfl
  | cons e trace ih => cases e <;> exact ih _

theorem parsedFrames_acknowledged (trace : List Effect) (f : Frame) :
    parsedFrames (acknowledged trace f) = parsedFrames trace ++ [f] := by
  unfold acknowledged
  rw [parsedFrames_append]
  split <;> rfl

theorem parsedDates_acknowledged (trace : List Effect) (f : Frame) :
    parsedDates 0 (acknowledged trace f) = parsedDates 0 trace := by
  unfold acknowledged
  rw [parsedDates_append]
  split <;> exact List.append_nil _

theorem lastIndex_acknowledged (trace : List Effect) (f : Frame) :
    lastIndex 0 (acknowledged trace f) = f.index := by
  unfold acknowledged
  rw [lastIndex_append]
  split <;> rfl

variable (b : Backend) (trace : List Effect) (x : Transaction)

theorem parsedFrames_served : parsedFrames (trace ++ served b trace x) = parsedFrames trace := by
  have hnone : parsedFrames (served b trace x) = [] := by
    cases x with
    | upload u => rfl
    | restore index date =>
      dsimp only [served, restoreEffects]
      cases b.getRestoreEntries (trace ++ [.parsedDate date.length date]) date <;> rfl
    | quit => rfl
  rw [parsedFrames_append, hnone, List.append_nil]

theorem parsedDates_served (h : lastIndex 0 trace = x.message.index) :
    parsedDates 0 (trace ++ served b trace x) =
      parsedDates 0 trace ++ x.date?.toList.map dateRead := by
  rw [parsedDates_append, h]
  cases x with
  | upload u => rfl
  | restore index date =>
    dsimp only [served, restoreEffects]
    cases b.getRestoreEntries (trace ++ [.parsedDate date.length date]) date <;> rfl
  | quit => rfl

end Traces

section Reader

variable {b : Backend} {server server' : Session (List Effect)} {serving : Serving}
variable {current : Option Transaction} {queue : List Transaction} {due : Bytes}
variable {awaiting : Option (ℤ × Bytes)} {frames : List Message} {dates : List (ℤ × Bytes)}

/-- What `read_action` parses is the first frame of the queue. -/
theorem Receiving.receive {o : Outcome Frame} (h : Receiving server .reading current queue due)
    (hrun : receiveFrame b server = (o, server')) (ho : o ≠ .waits)
    (hvalid : ∀ x ∈ pending current queue, x.Valid) :
    ∃ x rest, current = none ∧ queue = x :: rest ∧ o = .returns (frameOf x.message) ∧
      server'.world = acknowledged server.world (frameOf x.message) ∧
      Receiving server' (.serving (frameOf x.message)) (some x) rest due := by
  have hcurrent : current = none := by
    rcases h.serving with hstopped | hserving
    · exact absurd hstopped (by simp)
    · cases current with
      | none => rfl
      | some x => exact absurd hserving (by simp [servingOf])
  subst hcurrent
  obtain ⟨residue, hblank, hstream, -⟩ := h.stream
  have hwire : server.wire ++ due = queue.flatMap Transaction.bytes := h.wire
  cases queue with
  | nil =>
    have hempty : server.wire = [] := (List.append_eq_nil_iff.mp hwire).1
    rw [receiveFrame_waits b hempty h.closed, Prod.mk.injEq] at hrun
    exact absurd hrun.1.symm ho
  | cons x rest =>
    have hx : x.Valid := hvalid x List.mem_cons_self
    have hall : receiveFrame b (server.extend due) = (.returns (frameOf x.message),
        ⟨x.tail ++ rest.flatMap Transaction.bytes, false, .fresh [],
          acknowledged server.world (frameOf x.message)⟩) := by
      have hsession : server.extend due = ⟨x.message.bytes ++
          (x.tail ++ rest.flatMap Transaction.bytes), false, .fresh residue, server.world⟩ := by
        rw [← List.append_assoc, ← hstream, ← h.closed]
        show (⟨server.wire ++ due, _, _, _⟩ : Session (List Effect)) = _
        rw [hwire, List.flatMap_cons]
        rfl
      rw [hsession]
      exact receiveFrame_bytes b hx hblank
    obtain ⟨ho', hs'⟩ := (extends_receiveFrame b).compare h.closed hrun ho hall
    have hwire' : server'.wire ++ due = _ := congrArg Session.wire hs'
    have hclosed' : server'.closed = false := congrArg Session.closed hs'
    have hstream' : server'.stream = .fresh [] := congrArg Session.stream hs'
    have hworld' : server'.world = acknowledged server.world (frameOf x.message) :=
      congrArg Session.world hs'
    refine ⟨x, rest, rfl, rfl, ho', hworld', hclosed', ?_, ⟨[], Blank.nil, hstream', fun _ => rfl⟩,
      Or.inr rfl, ?_⟩
    · rw [hwire']
      simp
    · intro y hy
      rw [← Option.mem_some_iff.mp hy, hworld', lastIndex_acknowledged]
      exact ⟨List.mem_append_right _ List.mem_cons_self, rfl⟩

/-- While the date is awaited that the server is to read, nothing of it has been written. -/
theorem Receiving.wire_nil {date : Bytes} {index : ℤ}
    (h : Receiving server serving (some (.restore index date)) [] (dateBlock date)) :
    server.wire = [] := by
  have hwire : server.wire ++ dateBlock date = dateBlock date := by
    rw [h.wire]
    simp [Transaction.tail]
  simpa using hwire

/-- What the server executes is the transaction whose frame it has parsed. -/
theorem Receiving.served {f : Frame} {o : Outcome Bool}
    (h : Receiving server (.serving f) current queue due)
    (hrun : dispatch b f server = (o, server')) (ho : o ≠ .waits)
    (hvalid : ∀ x ∈ pending current queue, x.Valid) :
    ∃ x, current = some x ∧ f = frameOf x.message ∧ o = .returns (x ≠ .quit) ∧
      server'.world = server.world ++ Protocol.served b server.world x ∧
      Receiving server' (if x ≠ .quit then .reading else .stopped) none queue due := by
  obtain ⟨x, rfl, hf⟩ : ∃ x, current = some x ∧ f = frameOf x.message := by
    rcases h.serving with hstopped | hserving
    · exact absurd hstopped (by simp)
    · cases current with
      | none => exact absurd hserving (by simp [servingOf])
      | some x => exact ⟨x, rfl, Serving.serving.inj hserving⟩
  subst hf
  obtain ⟨residue, -, hstream, hresidue⟩ := h.stream
  rw [hresidue (by simp)] at hstream
  have hsession : server.extend due =
      ⟨x.tail ++ queue.flatMap Transaction.bytes, false, .fresh [], server.world⟩ := by
    rw [← hstream, ← h.closed]
    show (⟨server.wire ++ due, _, _, _⟩ : Session (List Effect)) = _
    rw [h.wire]
    simp
  obtain ⟨residue', hblank', hall⟩ : ∃ residue, Blank residue ∧
      dispatch b (frameOf x.message) (server.extend due) = (.returns (x ≠ .quit),
        ⟨queue.flatMap Transaction.bytes, false, .fresh residue,
          server.world ++ Protocol.served b server.world x⟩) := by
    rw [hsession]
    exact dispatch_transaction b (hvalid x List.mem_cons_self)
  obtain ⟨ho', hs'⟩ := (extends_dispatch b _).compare h.closed hrun ho hall
  have hwire' : server'.wire ++ due = _ := congrArg Session.wire hs'
  have hclosed' : server'.closed = false := congrArg Session.closed hs'
  have hstream' : server'.stream = .fresh residue' := congrArg Session.stream hs'
  refine ⟨x, rfl, rfl, ho', congrArg Session.world hs', hclosed', ?_,
    ⟨residue', hblank', hstream', fun hnone => absurd rfl hnone⟩, ?_, ?_⟩
  · rw [hwire']
    rfl
  · by_cases hquit : x = .quit
    · exact Or.inl (if_neg fun hne => hne hquit)
    · exact Or.inr (if_pos hquit)
  · intro y hy
    exact absurd hy (by simp)

end Reader

section Writers

variable {server : Session (List Effect)} {serving : Serving} {trace : List Effect}
variable {current : Option Transaction} {queue : List Transaction} {x : Transaction}
variable {awaiting : Option (ℤ × Bytes)} {frames : List Message} {dates : List (ℤ × Bytes)}

/-- A part of what is due is written. -/
theorem Receiving.extend {bytes due : Bytes}
    (h : Receiving server serving current queue (bytes ++ due)) :
    Receiving (server.extend bytes) serving current queue due where
  closed := h.closed
  wire := by
    rw [Session.extend_wire, List.append_assoc]
    exact h.wire
  stream := h.stream
  serving := h.serving
  parsed := h.parsed

/-- The frame of another transaction is written. -/
theorem Receiving.enqueue (h : Receiving server serving current queue []) :
    Receiving (server.extend x.message.bytes) serving current (queue ++ [x]) x.tail where
  closed := h.closed
  wire := by
    have hwire := h.wire
    rw [List.append_nil] at hwire
    rw [Session.extend_wire, hwire, List.flatMap_append, List.flatMap_singleton,
      Transaction.bytes]
    simp only [List.append_assoc]
  stream := h.stream
  serving := h.serving
  parsed := h.parsed

theorem Pending.parse {rest : List Transaction} (h : Pending none (x :: rest) awaiting) :
    Pending (some x) rest awaiting where
  valid := h.valid
  last := h.last
  asked index date hmem := h.asked index date (List.mem_cons_of_mem x hmem)

theorem Pending.execute (h : Pending (some x) queue awaiting) (hqueue : awaiting ≠ none → queue ≠ []) :
    Pending none queue awaiting where
  valid y hy := h.valid y (List.mem_cons_of_mem x hy)
  last w hw := by
    obtain ⟨before, hbefore⟩ := h.last w hw
    have hcons : x :: queue = before ++ [.restore w.1 w.2] := hbefore
    cases before with
    | nil =>
      have hnil : queue = [] := (List.cons.inj hcons).2
      exact absurd hnil (hqueue (by simp [Option.mem_def.mp hw]))
    | cons y before => exact ⟨before, (List.cons.inj hcons).2⟩
  asked := h.asked

theorem Pending.enqueue (h : Pending current queue none) (hx : x.Valid) :
    Pending current (queue ++ [x]) x.date? where
  valid y hy := by
    unfold pending at hy
    rw [← List.append_assoc] at hy
    rcases List.mem_append.mp hy with hold | hnew
    · exact h.valid y hold
    · rwa [List.mem_singleton.mp hnew]
  last w hw := by
    refine ⟨pending current queue, ?_⟩
    have hrestore : x = .restore w.1 w.2 := by
      cases x with
      | upload u => exact absurd hw (by simp [Transaction.date?])
      | restore index date => rw [← Option.mem_some_iff.mp hw]
      | quit => exact absurd hw (by simp [Transaction.date?])
    rw [← hrestore]
    exact (List.append_assoc _ _ _).symm
  asked index date hmem := by
    rcases List.mem_append.mp hmem with hold | hnew
    · exact absurd (h.asked index date hold) (by simp)
    · rw [← List.mem_singleton.mp hnew]
      rfl

theorem Pending.answer (h : Pending current [] awaiting) : Pending current [] none where
  valid := h.valid
  last w hw := absurd hw (by simp)
  asked index date hmem := absurd hmem (by simp)

theorem Recorded.parse {rest : List Transaction}
    (h : Recorded trace frames dates none (x :: rest) awaiting) :
    Recorded (acknowledged trace (frameOf x.message)) frames dates (some x) rest awaiting where
  parsedFrames := by
    rw [parsedFrames_acknowledged, List.append_assoc]
    exact h.parsedFrames
  parsedDates := by
    rw [parsedDates_acknowledged]
    exact h.parsedDates
  restores := h.restores

theorem Recorded.execute (b : Backend) (h : Recorded trace frames dates (some x) queue awaiting)
    (hindex : lastIndex 0 trace = x.message.index) :
    Recorded (trace ++ served b trace x) frames dates none queue awaiting where
  parsedFrames := by
    rw [parsedFrames_served]
    exact h.parsedFrames
  parsedDates := by
    have hdate : (pending (some x) queue).filterMap Transaction.date? =
        x.date?.toList ++ (pending none queue).filterMap Transaction.date? := by
      unfold pending
      rw [Option.toList_some, Option.toList_none, List.singleton_append, List.nil_append,
        List.filterMap_cons]
      cases x.date? <;> rfl
    rw [parsedDates_served b trace x hindex, List.append_assoc, ← List.map_append, ← hdate]
    exact h.parsedDates
  restores := h.restores

theorem Transaction.Valid.restore_iff (h : x.Valid) :
    x.message.actionType = .restore ↔ x.date? ≠ none := by
  cases x with
  | upload u =>
    have hne : u.message.actionType ≠ .restore := by
      rcases h.1.stores with ht | ht | ht <;> simp [ht]
    simp [Transaction.message, Transaction.date?, hne]
  | restore index date => simp [Transaction.message, Transaction.date?]
  | quit => simp [Transaction.message, Transaction.date?, quitMessage]

theorem Recorded.enqueue (h : Recorded trace frames dates current queue none) (hx : x.Valid) :
    Recorded trace (frames ++ [x.message]) dates current (queue ++ [x]) x.date? where
  parsedFrames := by
    rw [List.map_append, ← List.append_assoc, h.parsedFrames, List.map_append]
    rfl
  parsedDates := by
    have hdate : (pending current (queue ++ [x])).filterMap Transaction.date? =
        (pending current queue).filterMap Transaction.date? ++ x.date?.toList := by
      unfold pending
      rw [← List.append_assoc, List.filterMap_append]
      cases hd : x.date? <;> simp [hd]
    have hold := h.parsedDates
    rw [Option.toList_none, List.append_nil] at hold
    rw [hdate, List.map_append, ← List.append_assoc, hold, List.map_append]
  restores := by
    have hold := h.restores
    rw [List.filter_append, List.length_append, hold]
    by_cases hrestore : x.message.actionType = .restore
    · obtain ⟨d, hd⟩ := Option.ne_none_iff_exists'.mp (hx.restore_iff.mp hrestore)
      simp [hrestore, hd]
    · have hd : x.date? = none := by
        by_contra hne
        exact hrestore (hx.restore_iff.mpr hne)
      simp [hrestore, hd]

theorem Recorded.answer {w : ℤ × Bytes}
    (h : Recorded trace frames dates current queue (some w)) :
    Recorded trace frames (dates ++ [w]) current queue none where
  parsedFrames := h.parsedFrames
  parsedDates := by
    rw [h.parsedDates, Option.toList_some, Option.toList_none, List.append_nil]
  restores := by
    rw [h.restores, List.length_append]
    rfl

/-- No dialogue is open exactly when no date is awaited. -/
theorem Recorded.drop_eq_nil (h : Recorded trace frames dates current queue awaiting)
    (hnil : (frames.filter fun m => m.actionType = .restore).drop dates.length = []) :
    awaiting = none := by
  have hlength := h.restores
  have hdrop := List.drop_eq_nil_iff.mp hnil
  cases awaiting with
  | none => rfl
  | some w =>
    rw [Option.toList_some, List.length_singleton] at hlength
    omega

theorem Recorded.prefix_frames (h : Recorded trace frames dates current queue awaiting) :
    Protocol.parsedFrames trace <+: frames.map frameOf := by
  rw [← h.parsedFrames]
  exact List.prefix_append _ _

/-- A date that has not been written has not been read. -/
theorem Recorded.prefix_dates (h : Recorded trace frames dates current queue awaiting)
    (hp : Pending current queue awaiting) :
    Protocol.parsedDates 0 trace <+: dates.map dateRead := by
  have hdates := h.parsedDates
  cases awaiting with
  | none =>
    rw [Option.toList_none, List.append_nil] at hdates
    rw [← hdates]
    exact List.prefix_append _ _
  | some w =>
    obtain ⟨before, hbefore⟩ := hp.last w rfl
    rw [hbefore, List.filterMap_append, List.map_append, ← List.append_assoc, List.map_append]
      at hdates
    have hw : (([Transaction.restore w.1 w.2].filterMap Transaction.date?).map dateRead) =
        (some w).toList.map dateRead := rfl
    rw [hw] at hdates
    rw [← List.append_cancel_right hdates]
    exact List.prefix_append _ _

end Writers
end BackupManager.Protocol
