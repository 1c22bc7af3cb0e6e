import BackupManager.ByteStream.Ends
import BackupManager.Client.SendAction
import BackupManager.Server.ClientHandler

/-! One request: the fields that `send_action` streams, read by `read_action`. -/
namespace BackupManager.Protocol
open ByteStream Client Server

/-- A message in the variables of `read_action`. -/
def frameOf (m : Message) : Frame :=
  ⟨m.actionType.code, m.index, m.cleanedPath, m.lastWriteTime, m.filePermissions⟩

/-- A text without line break, whose length has a field. -/
def IsLine (text : Bytes) : Prop := newline ∉ text ∧ text.length < 10 ^ intMaxNDigit

instance : DecidablePred IsLine := fun _ => inferInstanceAs (Decidable (_ ∧ _))

theorem lineCount_of_lt {n : ℕ} (h : n < 10 ^ intMaxNDigit) : lineCount n = n + 1 := by
  unfold lineCount
  have hlt : n < 10 ^ 10 := h
  omega

theorem size_lt {n : ℕ} (h : n < 10 ^ intMaxNDigit) : n < 2 ^ 64 := by
  have hlt : n < 10 ^ 10 := h
  omega

section Frames

variable {b : Backend} {m : Message} {residue wire line : Bytes} {closed : Bool}
variable {world : List Effect}

theorem readSizedLine_lineField (h : IsLine line) (hr : Blank residue) :
    readSizedLine ⟨lineField line ++ wire, closed, .fresh residue, world⟩ =
      (.returns line, ⟨wire, closed, .fresh [], world⟩) := by
  have hfit : Fits intMaxNDigit (line.length : ℤ) := (fits_natCast (by decide)).mpr h.2
  rw [readSizedLine, lineField, List.append_assoc, List.append_assoc, List.singleton_append,
    Prog.bind_of_returns (Prog.recvSize_field hfit (size_lt h.2) hr 0),
    Prog.recvLine_field (lineCount_of_lt h.2) h.1]

theorem readSizedLine_of_bad {s s' : Session (List Effect)} {v : Bytes}
    (hb : s.stream.good = false) (h : readSizedLine s = (.returns v, s')) :
    v = [] ∧ s'.stream.good = false := by
  obtain ⟨size, s₁, hsize, hline⟩ := Prog.bind_returns h
  exact Prog.recvLine_of_bad (Prog.recvSize_of_bad hb hsize).2 hline

/-- The converse: a text that is no line arrives changed, or breaks the stream. -/
theorem readSizedLine_inexact {v : Bytes} {s' : Session (List Effect)} (hr : Blank residue)
    (h : readSizedLine ⟨lineField line ++ wire, closed, .fresh residue, world⟩ =
      (.returns v, s')) :
    v ≠ line ∨ s'.stream.good = false ∨ IsLine line := by
  rw [lineField, List.append_assoc, List.append_assoc, List.singleton_append] at h
  rcases Nat.lt_or_ge line.length (10 ^ intMaxNDigit) with hlen | hlen
  · have hfit : Fits intMaxNDigit (line.length : ℤ) := (fits_natCast (by decide)).mpr hlen
    rw [readSizedLine, Prog.bind_of_returns (Prog.recvSize_field hfit (size_lt hlen) hr 0)] at h
    by_cases hl : newline ∈ line
    · left
      rw [Prog.recvLine_cut (lineCount_of_lt hlen) h]
      intro heq
      rw [← heq] at hl
      simpa using List.all_eq_true.mp List.all_takeWhile newline hl
    · exact Or.inr (Or.inr ⟨hl, hlen⟩)
  · right; left
    obtain ⟨size, s₁, hsize, hline⟩ := Prog.bind_returns h
    exact (Prog.recvLine_of_bad (Prog.recvSize_overlong (by decide) hlen hr hsize) hline).2

/-- The fields of the message reach the server as they are. -/
structure Transmissible (m : Message) : Prop where
  index : Fits intMaxNDigit m.index
  cleanedPath : IsLine m.cleanedPath

/-- What holds of the fields of every message that is written. -/
structure WellFormed (m : Message) : Prop where
  index : InInt m.index
  lastWriteTime : IsLine m.lastWriteTime
  lastWriteTime_ne : m.lastWriteTime ≠ []
  filePermissions : IsLine m.filePermissions

/-- The text fields of the message are lines, and its index fits. -/
structure Readable (m : Message) : Prop where
  inInt : InInt m.index
  index : Fits intMaxNDigit m.index
  cleanedPath : IsLine m.cleanedPath
  lastWriteTime : IsLine m.lastWriteTime
  filePermissions : IsLine m.filePermissions

theorem WellFormed.readable (hw : WellFormed m) (ht : Transmissible m) : Readable m :=
  ⟨hw.index, ht.index, ht.cleanedPath, hw.lastWriteTime, hw.filePermissions⟩

theorem recvSize_actionType (t : ActionType) (hr : Blank residue) :
    Prog.recvSize intMaxNDigit 0 ⟨field intMaxNDigit t.code ++ wire, closed, .fresh residue, world⟩ =
      (.returns t.code, ⟨wire, closed, .fresh [newline], world⟩) := by
  have hlt := t.code_lt
  have hfit : Fits intMaxNDigit (t.code : ℤ) :=
    (fits_natCast (by decide)).mpr (hlt.trans (by decide))
  exact Prog.recvSize_field hfit (hlt.trans (by decide)) hr 0

theorem readFrame_bytes (hm : Readable m) (hr : Blank residue) :
    readFrame b ⟨m.bytes ++ wire, closed, .fresh residue, world⟩ =
      (.returns (frameOf m), ⟨wire, closed, .fresh [], world⟩) := by
  simp only [Message.bytes, List.append_assoc]
  rw [readFrame, Prog.bind_of_returns (recvSize_actionType m.actionType hr),
    Prog.bind_of_returns (Prog.recvInt_field hm.index hm.inInt Blank.newline b.uninit),
    Prog.bind_of_returns (readSizedLine_lineField hm.cleanedPath Blank.newline),
    Prog.bind_of_returns (readSizedLine_lineField hm.lastWriteTime Blank.nil),
    Prog.bind_of_returns (readSizedLine_lineField hm.filePermissions Blank.nil)]
  rfl

/-- Only a transmissible message is read as it was written. -/
theorem transmissible_of_readFrame {s' : Session (List Effect)} (hw : WellFormed m)
    (hr : Blank residue)
    (h : readFrame b ⟨m.bytes ++ wire, closed, .fresh residue, world⟩ =
      (.returns (frameOf m), s')) : Transmissible m := by
  simp only [Message.bytes, List.append_assoc] at h
  rw [readFrame, Prog.bind_of_returns (recvSize_actionType m.actionType hr)] at h
  obtain ⟨index, s₁, hindex, h⟩ := Prog.bind_returns h
  obtain ⟨path, s₂, hpath, h⟩ := Prog.bind_returns h
  obtain ⟨time, s₃, htime, h⟩ := Prog.bind_returns h
  obtain ⟨permissions, s₄, hpermissions, h⟩ := Prog.bind_returns h
  rw [Prog.pure_apply, Prod.mk.injEq, Outcome.returns.injEq, frameOf, Frame.mk.injEq] at h
  obtain ⟨⟨-, rfl, rfl, rfl, -⟩, -⟩ := h
  have hgood : s₂.stream.good ≠ false :=
    fun hb => hw.lastWriteTime_ne (readSizedLine_of_bad hb htime).1
  rcases Prog.recvInt_inexact Blank.newline hindex with hne | hb | hfits
  · exact absurd rfl hne
  · exact absurd (readSizedLine_of_bad hb hpath).2 hgood
  · rw [Prog.recvInt_field hfits.1 hfits.2 Blank.newline, Prod.mk.injEq] at hindex
    rw [← hindex.2] at hpath
    rcases readSizedLine_inexact Blank.newline hpath with hne | hb | hline
    · exact absurd rfl hne
    · exact absurd hb hgood
    · exact ⟨hfits.1, hline⟩

end Frames
end BackupManager.Protocol
