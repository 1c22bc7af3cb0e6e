import BackupManager.ByteStream.Ifstream
import BackupManager.Client.SendAction

/-! `send_action` and `send_file` for a file that others write to meanwhile. -/
namespace BackupManager.Client.ChangingFile
open ByteStream Protocol

/-- The moments at which the file is looked at. -/
inductive Moment where
  /-- `file_size` in `send_action`. -/
  | check
  /-- The stream is opened at the end of the file, where `tellg` finds it. -/
  | opening
  /-- What the read number `k` finds is what reaches the buffer of the stream. -/
  | read (k : ℕ)
  deriving DecidableEq, Repr

/-- What the calls meet: the content of the file at each moment, or a failure, and which of the writes
to the socket go through. -/
structure Surroundings where
  file : Moment → Option Bytes
  accepts : ℕ → Bool

/-- What has been written by a call that is over. -/
structure Written where
  writes : List Bytes
  thrown : Option String
  deriving DecidableEq, Repr

def Written.after (write : Bytes) (later : Written) : Written :=
  { later with writes := write :: later.writes }

/-- The loop of `send_file` from its round `k` on; `none` means that it goes on after so many rounds. -/
def sendContent (w : Surroundings) : ℕ → ℕ → Ifstream → Option Written
  | 0, _, _ => none
  | rounds + 1, k, source =>
    if source.eof = false then
      match w.file (.read k) with
      -- `exceptions(badbit)`
      | none => some ⟨[], some "basic_filebuf::underflow error reading the file"⟩
      | some content =>
        let buf := source.got maxMsgSize content
        let source := source.read maxMsgSize content
        if source.gcount < 0 then some ⟨[], some "connection_aborted"⟩
        else if source.gcount = 0 then some ⟨[], none⟩
        else if w.accepts (k + 2) then (sendContent w rounds (k + 1) source).map (.after buf)
        else some ⟨[], some "send error"⟩
    else some ⟨[], none⟩

def sendFile (w : Surroundings) (rounds : ℕ) : Option Written :=
  match w.file .opening with
  | none => some ⟨[], some "connection_aborted"⟩
  | some content =>
    if w.accepts 1 then
      (sendContent w rounds 0 .opened).map (.after (field intMaxNDigit content.length))
    else some ⟨[], some "write error"⟩

/-- `send_action` for a `read_file` action, once its fields are known. -/
def sendAction (default : Action) (responses : ResponseBuffer) (index : ℤ) (message : Message)
    (w : Surroundings) (rounds : ℕ) : Option Sent :=
  match w.file .check with
  | none => some ⟨[], responses, some "cannot get file size"⟩
  | some content =>
    if maxFileSize < content.length then some ⟨[], responses.signalError default index, none⟩
    else if w.accepts 0 then
      (sendFile w rounds).map fun sent => ⟨message.bytes :: sent.writes, responses, sent.thrown⟩
    else some ⟨[], responses, some "write error"⟩

/-- The read number `k` fills the buffer, and what it got is sent. -/
def Full (w : Surroundings) (k : ℕ) : Prop :=
  ∃ content ∈ w.file (.read k), maxMsgSize * (k + 1) ≤ content.length ∧ w.accepts (k + 2) = true

/-- The read number `k` fails, or the write of what it got. -/
def Fails (w : Surroundings) (k : ℕ) : Prop :=
  ∀ content ∈ w.file (.read k), maxMsgSize * k < content.length ∧ w.accepts (k + 2) = false

/-- The read number `k` comes to the end of the file, with so many bytes sent by then. -/
def Ends (w : Surroundings) (k total : ℕ) : Prop :=
  ∃ content ∈ w.file (.read k), content.length < maxMsgSize * (k + 1) ∧
    (maxMsgSize * k < content.length → w.accepts (k + 2) = true) ∧
    total = max (maxMsgSize * k) content.length

/-- The stream before the read number `k`, when those before it were full. -/
def reached (k : ℕ) : Ifstream := ⟨maxMsgSize * k, if k = 0 then 0 else maxMsgSize, false⟩

section Loop

variable {w : Surroundings} {k rounds total : ℕ}

theorem read_cases (w : Surroundings) (k : ℕ) : Full w k ∨ Fails w k ∨ ∃ total, Ends w k total := by
  cases hfile : w.file (.read k) with
  | none =>
    refine Or.inr (Or.inl fun content hcontent => ?_)
    rw [hfile] at hcontent
    cases hcontent
  | some content =>
    by_cases hfull : maxMsgSize * (k + 1) ≤ content.length
    · cases haccepts : w.accepts (k + 2) with
      | true => exact Or.inl ⟨content, hfile, hfull, haccepts⟩
      | false =>
        refine Or.inr (Or.inl fun found hfound => ⟨?_, haccepts⟩)
        rw [hfile] at hfound
        rw [← Option.some.inj hfound]
        rw [Nat.mul_succ] at hfull
        have hpos := maxMsgSize_pos
        omega
    · by_cases hfails : maxMsgSize * k < content.length ∧ w.accepts (k + 2) = false
      · refine Or.inr (Or.inl fun found hfound => ?_)
        rw [hfile] at hfound
        rwa [← Option.some.inj hfound]
      · refine Or.inr (Or.inr ⟨_, content, hfile, not_le.mp hfull, fun hsome => ?_, rfl⟩)
        simpa [hsome] using hfails

theorem length_got_reached (k : ℕ) (content : Bytes) :
    ((reached k).got maxMsgSize content).length = min maxMsgSize (content.length - maxMsgSize * k) :=
  Ifstream.length_got

theorem got_reached_eq_nil {content : Bytes} :
    (reached k).got maxMsgSize content = [] ↔ content.length ≤ maxMsgSize * k := by
  have hpos := maxMsgSize_pos
  rw [← List.length_eq_zero_iff, length_got_reached]
  omega

theorem sendContent_eof {source : Ifstream} (heof : source.eof = true) (rounds : ℕ) :
    sendContent w (rounds + 1) k source = some ⟨[], none⟩ := by
  rw [sendContent, heof, if_neg (by decide)]

/-- One round: what is read is sent, and nothing read is the end. -/
theorem sendContent_read {content : Bytes} (hfile : w.file (.read k) = some content) (rounds : ℕ) :
    sendContent w (rounds + 1) k (reached k) =
      if (reached k).got maxMsgSize content = [] then some ⟨[], none⟩
      else if w.accepts (k + 2) then
        (sendContent w rounds (k + 1) ((reached k).read maxMsgSize content)).map
          (.after ((reached k).got maxMsgSize content))
      else some ⟨[], some "send error"⟩ := by
  have hgood : (reached k).eof = false := rfl
  have hcount : ((reached k).read maxMsgSize content).gcount =
    ((reached k).got maxMsgSize content).length := rfl
  have hnonneg : ¬((((reached k).got maxMsgSize content).length : ℤ) < 0) := by omega
  rw [sendContent, if_pos hgood, hfile]
  dsimp only
  rw [hcount, if_neg hnonneg]
  simp only [Int.natCast_eq_zero, List.length_eq_zero_iff]

/-- A full round. -/
theorem sendContent_full (h : Full w k) : ∃ buf : Bytes, buf.length = maxMsgSize ∧ ∀ rounds,
    sendContent w (rounds + 1) k (reached k) =
      (sendContent w rounds (k + 1) (reached (k + 1))).map (.after buf) := by
  obtain ⟨content, hfile, hlength, haccepts⟩ := h
  have hread : (reached k).read maxMsgSize content = reached (k + 1) :=
    Ifstream.read_full hlength
  have hgot : ((reached k).got maxMsgSize content).length = maxMsgSize := by
    rw [Nat.mul_succ] at hlength
    rw [length_got_reached]
    omega
  have hsome : (reached k).got maxMsgSize content ≠ [] := by
    intro hnil
    rw [hnil] at hgot
    exact absurd hgot (by decide)
  refine ⟨_, hgot, fun rounds => ?_⟩
  rw [sendContent_read hfile, if_neg hsome, if_pos haccepts, hread]

theorem sendContent_fails (h : Fails w k) : ∃ what, ∀ rounds,
    sendContent w (rounds + 1) k (reached k) = some ⟨[], some what⟩ := by
  cases hfile : w.file (.read k) with
  | none =>
    refine ⟨"basic_filebuf::underflow error reading the file", fun rounds => ?_⟩
    have hgood : (reached k).eof = false := rfl
    rw [sendContent, if_pos hgood, hfile]
  | some content =>
    obtain ⟨hlength, haccepts⟩ := h content hfile
    have hsome : (reached k).got maxMsgSize content ≠ [] :=
      fun hnil => absurd (got_reached_eq_nil.mp hnil) (not_le.mpr hlength)
    refine ⟨"send error", fun rounds => ?_⟩
    rw [sendContent_read hfile, if_neg hsome, haccepts, if_neg Bool.false_ne_true]

/-- The last round, or the last but one where its read is not empty. -/
theorem sendContent_ends (h : Ends w k total) : ∃ writes : List Bytes,
    maxMsgSize * k + writes.flatten.length = total ∧ ∀ rounds,
      sendContent w (rounds + 2) k (reached k) = some ⟨writes, none⟩ := by
  obtain ⟨content, hfile, hlength, haccepts, htotal⟩ := h
  have hgot := length_got_reached k content
  by_cases hsome : maxMsgSize * k < content.length
  · have heof : ((reached k).read maxMsgSize content).eof = true :=
      Ifstream.eof_read maxMsgSize_pos hlength
    have hne : (reached k).got maxMsgSize content ≠ [] :=
      fun hnil => absurd (got_reached_eq_nil.mp hnil) (not_le.mpr hsome)
    refine ⟨[(reached k).got maxMsgSize content], ?_, fun rounds => ?_⟩
    · rw [Nat.mul_succ] at hlength
      rw [List.flatten_singleton, hgot]
      omega
    · rw [sendContent_read hfile, if_neg hne, if_pos (haccepts hsome), sendContent_eof heof]
      rfl
  · have hnil : (reached k).got maxMsgSize content = [] := got_reached_eq_nil.mpr (not_lt.mp hsome)
    refine ⟨[], ?_, fun rounds => ?_⟩
    · rw [List.flatten_nil, List.length_nil]
      omega
    · rw [sendContent_read hfile, if_pos hnil]

/-- More rounds change nothing once the loop is over. -/
theorem sendContent_mono {written : Written} {more : ℕ} {source : Ifstream} (hle : rounds ≤ more)
    (h : sendContent w rounds k source = some written) : sendContent w more k source = some written := by
  induction rounds generalizing more k source written with
  | zero => cases h
  | succ rounds ih =>
    obtain ⟨more, rfl⟩ : ∃ n, more = n + 1 := ⟨more - 1, by omega⟩
    cases heof : source.eof with
    | true =>
      rw [sendContent, heof, if_neg (by decide)] at h ⊢
      exact h
    | false =>
      rw [sendContent, if_pos heof] at h ⊢
      cases hfile : w.file (.read k) with
      | none =>
        rw [hfile] at h
        exact h
      | some content =>
        rw [hfile] at h
        dsimp only at h ⊢
        by_cases hnegative : (source.read maxMsgSize content).gcount < 0
        · rw [if_pos hnegative] at h ⊢
          exact h
        rw [if_neg hnegative] at h ⊢
        by_cases hzero : (source.read maxMsgSize content).gcount = 0
        · rw [if_pos hzero] at h ⊢
          exact h
        rw [if_neg hzero] at h ⊢
        cases haccepts : w.accepts (k + 2) with
        | false =>
          rw [haccepts, if_neg Bool.false_ne_true] at h
          rw [if_neg Bool.false_ne_true]
          exact h
        | true =>
          rw [haccepts, if_pos rfl] at h
          rw [if_pos rfl]
          rw [Option.map_eq_some_iff] at h ⊢
          obtain ⟨later, hlater, heq⟩ := h
          exact ⟨later, ih (by omega) hlater, heq⟩

theorem written_unique {written written' : Written} {rounds' : ℕ} {source : Ifstream}
    (h : sendContent w rounds k source = some written)
    (h' : sendContent w rounds' k source = some written') : written = written' := by
  have hmore := sendContent_mono (le_max_left rounds rounds') h
  rw [sendContent_mono (le_max_right rounds rounds') h'] at hmore
  exact (Option.some.inj hmore).symm

/-- So many full rounds. -/
theorem sendContent_run (hfull : ∀ j < k, Full w j) : ∃ writes : List Bytes,
    writes.flatten.length = maxMsgSize * k ∧ ∀ rounds, sendContent w (rounds + k) 0 .opened =
      (sendContent w rounds k (reached k)).map fun later =>
        ⟨writes ++ later.writes, later.thrown⟩ := by
  induction k with
  | zero => exact ⟨[], rfl, fun rounds => (congrFun Option.map_id _).symm⟩
  | succ k ih =>
    obtain ⟨writes, hlength, hrun⟩ := ih fun j hj => hfull j (by omega)
    obtain ⟨buf, hbuf, hround⟩ := sendContent_full (hfull k (Nat.lt_succ_self k))
    refine ⟨writes ++ [buf], ?_, fun rounds => ?_⟩
    · rw [List.flatten_append, List.length_append, hlength, List.flatten_singleton, hbuf, Nat.mul_succ]
    · have hcount : rounds + (k + 1) = rounds + 1 + k := by omega
      rw [hcount, hrun, hround, Option.map_map]
      congr 1
      funext later
      simp [Written.after]

theorem sendContent_breaks (hfull : ∀ j < k, Full w j) (hfails : Fails w k) :
    ∃ writes what, sendContent w (1 + k) 0 .opened = some ⟨writes, some what⟩ := by
  obtain ⟨writes, -, hrun⟩ := sendContent_run hfull
  obtain ⟨what, hround⟩ := sendContent_fails hfails
  refine ⟨writes, what, ?_⟩
  rw [hrun, hround 0, Option.map_some, List.append_nil]

theorem sendContent_returns (hfull : ∀ j < k, Full w j) (hends : Ends w k total) :
    ∃ writes : List Bytes, writes.flatten.length = total ∧
      sendContent w (2 + k) 0 .opened = some ⟨writes, none⟩ := by
  obtain ⟨writes, hlength, hrun⟩ := sendContent_run hfull
  obtain ⟨last, htotal, hround⟩ := sendContent_ends hends
  refine ⟨writes ++ last, ?_, ?_⟩
  · rw [List.flatten_append, List.length_append, hlength, htotal]
  · rw [hrun, hround 0, Option.map_some]

/-- A loop that is over has come to a read that was not full. -/
theorem exists_not_full {written : Written}
    (h : sendContent w rounds 0 .opened = some written) : ∃ k, ¬Full w k ∧ ∀ j < k, Full w j := by
  have hsome : ∃ k, ¬Full w k := by
    by_contra hall
    rw [not_exists_not] at hall
    obtain ⟨writes, -, hrun⟩ := sendContent_run fun j (_ : j < rounds) => hall j
    have hnone := hrun 0
    rw [Nat.zero_add, h] at hnone
    cases hnone
  classical
  exact ⟨Nat.find hsome, Nat.find_spec hsome, fun j hj => not_not.mp (Nat.find_min hsome hj)⟩

/-- A loop that returns has sent all up to the first end of file it met. -/
theorem ends_of_returns {writes : List Bytes}
    (h : sendContent w rounds 0 .opened = some ⟨writes, none⟩) :
    ∃ k, (∀ j < k, Full w j) ∧ Ends w k writes.flatten.length := by
  obtain ⟨k, hnot, hfull⟩ := exists_not_full h
  refine ⟨k, hfull, ?_⟩
  obtain hk | hfails | ⟨total, hends⟩ := read_cases w k
  · exact absurd hk hnot
  · obtain ⟨sent, what, hthrown⟩ := sendContent_breaks hfull hfails
    cases written_unique h hthrown
  · obtain ⟨sent, hlength, hreturns⟩ := sendContent_returns hfull hends
    have heq := written_unique h hreturns
    rw [Written.mk.injEq] at heq
    rw [heq.1, hlength]
    exact hends

/-- One that throws has come to a failing call. -/
theorem fails_of_throws {writes : List Bytes} {what : String}
    (h : sendContent w rounds 0 .opened = some ⟨writes, some what⟩) :
    ∃ k, (∀ j < k, Full w j) ∧ Fails w k := by
  obtain ⟨k, hnot, hfull⟩ := exists_not_full h
  refine ⟨k, hfull, ?_⟩
  obtain hk | hfails | ⟨total, hends⟩ := read_cases w k
  · exact absurd hk hnot
  · exact hfails
  · obtain ⟨sent, -, hreturns⟩ := sendContent_returns hfull hends
    cases written_unique h hreturns

theorem Ends.div (h : Ends w k total) : total / maxMsgSize = k := by
  obtain ⟨content, -, hlength, -, htotal⟩ := h
  rw [Nat.mul_succ] at hlength
  have hpos := maxMsgSize_pos
  rw [Nat.div_eq_iff hpos, Nat.mul_comm]
  omega

end Loop

/-- Nobody else writes to the file, and no call fails. -/
def fixed (content : Bytes) : Surroundings := ⟨fun _ => some content, fun _ => true⟩

section Fixed

variable {content : Bytes} {k : ℕ}

theorem pieces_nil (max : ℕ) : pieces max [] = [] := by
  rw [pieces, dif_neg fun h => h.1 rfl]

theorem pieces_of_ne_nil (hne : content ≠ []) :
    pieces maxMsgSize content =
      content.take maxMsgSize :: pieces maxMsgSize (content.drop maxMsgSize) := by
  rw [pieces, dif_pos ⟨hne, maxMsgSize_pos⟩]

/-- What is left of the file is sent in pieces; its end is found one read late where the last piece is
full. -/
theorem sendContent_fixed {more : ℕ} (hmore : content.length < maxMsgSize * (k + more)) :
    sendContent (fixed content) (more + 1) k (reached k) =
      some ⟨pieces maxMsgSize (content.drop (maxMsgSize * k)), none⟩ := by
  have hgot : (reached k).got maxMsgSize content = (content.drop (maxMsgSize * k)).take maxMsgSize := rfl
  have haccepts : (fixed content).accepts (k + 2) = true := rfl
  induction more generalizing k with
  | zero =>
    have hnil : content.drop (maxMsgSize * k) = [] := List.drop_of_length_le (Nat.le_of_lt hmore)
    rw [sendContent_read rfl, hgot, hnil, List.take_nil, if_pos rfl, pieces_nil]
  | succ more ih =>
    rw [sendContent_read rfl, if_pos haccepts, hgot]
    by_cases hnil : content.drop (maxMsgSize * k) = []
    · rw [hnil, List.take_nil, if_pos rfl, pieces_nil]
    have hne : (content.drop (maxMsgSize * k)).take maxMsgSize ≠ [] := by
      intro htake
      have hle : content.length ≤ maxMsgSize * k := got_reached_eq_nil.mp htake
      exact hnil (List.drop_of_length_le hle)
    rw [if_neg hne, pieces_of_ne_nil hnil, List.drop_drop]
    by_cases hfull : maxMsgSize * k + maxMsgSize ≤ content.length
    · have hread : (reached k).read maxMsgSize content = reached (k + 1) := Ifstream.read_full hfull
      have hnext : content.length < maxMsgSize * (k + 1 + more) := by
        rwa [Nat.add_right_comm, Nat.add_assoc]
      rw [hread, ih hnext rfl rfl]
      rfl
    · have heof : ((reached k).read maxMsgSize content).eof = true :=
        Ifstream.eof_read maxMsgSize_pos (not_le.mp hfull)
      have hlast : content.drop (maxMsgSize * k + maxMsgSize) = [] :=
        List.drop_of_length_le (Nat.le_of_lt (not_le.mp hfull))
      rw [sendContent_eof heof, hlast, pieces_nil]
      rfl

/-- On such a file the loop writes what the model of a whole transfer says. -/
theorem sendFile_fixed (content : Bytes) :
    ∃ rounds, sendFile (fixed content) rounds = some ⟨Client.sendFile content, none⟩ := by
  have hmore : content.length < maxMsgSize * (0 + (content.length + 1)) := by
    have hpos := maxMsgSize_pos
    have hle := Nat.le_mul_of_pos_left (content.length + 1) hpos
    rw [Nat.zero_add]
    omega
  have hloop : sendContent (fixed content) (content.length + 1 + 1) 0 .opened =
      some ⟨pieces maxMsgSize content, none⟩ := sendContent_fixed hmore
  refine ⟨content.length + 1 + 1, ?_⟩
  have hopened : (fixed content).file .opening = some content := rfl
  have haccepts : (fixed content).accepts 1 = true := rfl
  rw [sendFile, hopened]
  dsimp only
  rw [if_pos haccepts, hloop]
  rfl

end Fixed

/-- The file is refused, or a call fails before the loop. -/
inductive Early (w : Surroundings) : Prop where
  | refused (h : ∀ content ∈ w.file .check, maxFileSize < content.length)
  | unsent (h : w.accepts 0 = false)
  | unopened (h : w.file .opening = none)
  | unannounced (h : w.accepts 1 = false)

/-- The size is kept, or does not matter. -/
inductive Steady (w : Surroundings) : Prop where
  | early (h : Early w)
  | broken (k : ℕ) (full : ∀ j < k, Full w j) (fails : Fails w k)
  /-- The file is as long as it was when it was opened until the last read has met its end. -/
  | kept (opened : Bytes) (found : w.file .opening = some opened) (small : opened.length ≤ maxFileSize)
    (full : ∀ j < opened.length / maxMsgSize, Full w j)
    (ends : Ends w (opened.length / maxMsgSize) opened.length)

section Calls

variable (default : Action) (responses : ResponseBuffer) (index : ℤ) (message : Message)
  (w : Surroundings)

/-- The calls are over without the loop, and have thrown or refused the file. -/
def Stops : Prop :=
  ∃ sent, sendAction default responses index message w 0 = some sent ∧
    (sent.thrown ≠ none ∨ sent.writes = [])

variable {default responses index message w}

theorem stops_of_unchecked (h : w.file .check = none) : Stops default responses index message w := by
  refine ⟨⟨[], responses, some "cannot get file size"⟩, ?_, Or.inr rfl⟩
  rw [sendAction, h]

theorem stops_of_large {content : Bytes} (h : w.file .check = some content)
    (hlarge : maxFileSize < content.length) : Stops default responses index message w := by
  refine ⟨⟨[], responses.signalError default index, none⟩, ?_, Or.inr rfl⟩
  rw [sendAction, h]
  exact if_pos hlarge

section Checked

variable {content : Bytes} (hcheck : w.file .check = some content)
  (hsmall : ¬maxFileSize < content.length)

include hcheck hsmall

theorem stops_of_unsent (h : w.accepts 0 = false) : Stops default responses index message w := by
  refine ⟨⟨[], responses, some "write error"⟩, ?_, Or.inr rfl⟩
  rw [sendAction, hcheck]
  dsimp only
  rw [if_neg hsmall, h, if_neg Bool.false_ne_true]

variable (hmessage : w.accepts 0 = true)

include hmessage

theorem sendAction_sent (rounds : ℕ) : sendAction default responses index message w rounds =
    (sendFile w rounds).map fun sent =>
      ⟨message.bytes :: sent.writes, responses, sent.thrown⟩ := by
  rw [sendAction, hcheck]
  dsimp only
  rw [if_neg hsmall, if_pos hmessage]

theorem stops_of_unopened (h : w.file .opening = none) : Stops default responses index message w := by
  refine ⟨⟨[message.bytes], responses, some "connection_aborted"⟩, ?_, Or.inl (Option.some_ne_none _)⟩
  rw [sendAction_sent hcheck hsmall hmessage, sendFile, h, Option.map_some]

variable {opened : Bytes} (hopened : w.file .opening = some opened)

include hopened

theorem stops_of_unannounced (h : w.accepts 1 = false) : Stops default responses index message w := by
  refine ⟨⟨[message.bytes], responses, some "write error"⟩, ?_, Or.inl (Option.some_ne_none _)⟩
  rw [sendAction_sent hcheck hsmall hmessage, sendFile, hopened]
  dsimp only
  rw [h, if_neg Bool.false_ne_true, Option.map_some]

theorem sendAction_announced (h : w.accepts 1 = true) (rounds : ℕ) :
    sendAction default responses index message w rounds =
      (sendContent w rounds 0 .opened).map fun later =>
        ⟨message.bytes :: field intMaxNDigit opened.length :: later.writes, responses,
          later.thrown⟩ := by
  rw [sendAction_sent hcheck hsmall hmessage, sendFile, hopened]
  dsimp only
  rw [if_pos h, Option.map_map]
  rfl

end Checked

variable (default responses index message w)

/-- The calls are over before the loop, or come to it. -/
theorem stops_or_loops : (Early w ∧ Stops default responses index message w) ∨
    ¬Early w ∧ ∃ opened, w.file .opening = some opened ∧ ∀ rounds,
      sendAction default responses index message w rounds =
        (sendContent w rounds 0 .opened).map fun later =>
          ⟨message.bytes :: field intMaxNDigit opened.length :: later.writes, responses,
            later.thrown⟩ := by
  cases hcheck : w.file .check with
  | none =>
    refine Or.inl ⟨.refused fun content hcontent => ?_, stops_of_unchecked hcheck⟩
    rw [hcheck] at hcontent
    cases hcontent
  | some content =>
    by_cases hlarge : maxFileSize < content.length
    · refine Or.inl ⟨.refused fun found hfound => ?_, stops_of_large hcheck hlarge⟩
      rw [hcheck] at hfound
      rwa [← Option.some.inj hfound]
    cases hmessage : w.accepts 0 with
    | false => exact Or.inl ⟨.unsent hmessage, stops_of_unsent hcheck hlarge hmessage⟩
    | true =>
      cases hopened : w.file .opening with
      | none => exact Or.inl ⟨.unopened hopened, stops_of_unopened hcheck hlarge hmessage hopened⟩
      | some opened =>
        cases hline : w.accepts 1 with
        | false =>
          exact Or.inl ⟨.unannounced hline,
            stops_of_unannounced hcheck hlarge hmessage hopened hline⟩
        | true =>
          refine Or.inr ⟨fun hearly => ?_, opened, rfl,
            sendAction_announced hcheck hlarge hmessage hopened hline⟩
          cases hearly with
          | refused h => exact hlarge (h content hcheck)
          | unsent h => exact Bool.false_ne_true (h.symm.trans hmessage)
          | unopened h => exact Option.some_ne_none _ (hopened.symm.trans h)
          | unannounced h => exact Bool.false_ne_true (h.symm.trans hline)

end Calls

/-- On a file that nobody else writes to the calls do what the model of `send_action` says. -/
theorem sendAction_fixed {default action : Action} {mainPath content : Bytes}
    {responses : ResponseBuffer} {disk : Disk} {message : Message}
    (htype : action.actionType = .readFile)
    (hmessage : describe mainPath disk action (responses.add action).1 = .ok message)
    (hcontent : disk.content action.path = some content) :
    ∃ rounds, sendAction default (responses.add action).2 (responses.add action).1 message
      (fixed content) rounds = some (Client.sendAction default mainPath responses disk action) := by
  obtain ⟨rounds, hsent⟩ := sendFile_fixed content
  have hsize : disk.fileSize action.path = some content.length := disk.sized _ _ hcontent
  have hknown : ¬action.actionType = .ignore := by
    rw [htype]
    decide
  have hcheck : (fixed content).file .check = some content := rfl
  refine ⟨rounds, ?_⟩
  rw [Client.sendAction, if_neg hknown, hmessage]
  dsimp only
  rw [if_pos htype, hsize]
  dsimp only
  by_cases hlarge : maxFileSize < content.length
  · rw [sendAction, hcheck, if_pos hlarge]
    exact if_pos hlarge
  · rw [sendAction_sent hcheck hlarge rfl, hsent, if_neg hlarge, hcontent]
    rfl

end BackupManager.Client.ChangingFile
