import BackupManager.Client.ChangingFile
import BackupManager.Protocol.RequestStream

/-! The size that `send_file` announces, and the bytes that it sends for it. -/
namespace BackupManager.Protocol
open ByteStream Client Server

namespace ChangingFile
open Client.ChangingFile

/-- A size line, no larger than allowed, and as many bytes as it says. -/
def Exact (writes : List Bytes) : Prop :=
  ∃ (n : ℕ) (pieces : List Bytes), writes = field intMaxNDigit n :: pieces ∧
    pieces.flatten.length = n ∧ n ≤ maxFileSize

/-- `action_read_file` takes these bytes, and nothing of the next frame. -/
def Taken (bytes : Bytes) : Prop :=
  ∀ b path index time lastWriteTime permissions next closed trace,
    ∃ outcome trace', actionReadFile b path index time lastWriteTime permissions
      ⟨bytes ++ next, closed, .fresh [], trace⟩ = (outcome, ⟨next, closed, .fresh [], trace'⟩)

/-- `send_action` is over: it throws or refuses the file, or the size it announces is the size it sends. -/
def SizeKept (default : Action) (responses : ResponseBuffer) (index : ℤ) (message : Message)
    (w : Surroundings) : Prop :=
  ∃ rounds sent, sendAction default responses index message w rounds = some sent ∧
    (sent.thrown ≠ none ∨ sent.writes = [] ∨
      ∃ writes, sent.writes = message.bytes :: writes ∧ Exact writes ∧ Taken writes.flatten)

theorem field_injective {m n : ℕ} (h : field intMaxNDigit m = field intMaxNDigit n) : m = n := by
  have hfill := List.append_cancel_right h
  rw [showInt_natCast, showInt_natCast] at hfill
  have hvalue := congrArg evalDigits hfill
  simpa [fillLeft] using hvalue

/-- `action_read_file` takes as many bytes as were announced, whatever they are. -/
theorem takes_announced {n : ℕ} (hsmall : n ≤ maxFileSize) {wire : Bytes} (henough : n ≤ wire.length)
    (b : Backend) (path : Bytes) (index : ℤ) (time lastWriteTime permissions : Bytes) (closed : Bool)
    (trace : List Effect) :
    ∃ outcome trace', actionReadFile b path index time lastWriteTime permissions
      ⟨field intMaxNDigit n ++ wire, closed, .fresh [], trace⟩ =
        (outcome, ⟨wire.drop n, closed, .fresh [], trace'⟩) := by
  have hlength : (wire.take n).length = n := by
    rw [List.length_take]
    omega
  have hlt : (wire.take n).length < 2147483647 := by
    rw [hlength]
    exact lt_of_le_of_lt hsmall (by decide)
  obtain ⟨outcome, later, hread⟩ := @actionReadFile_stores b (wire.drop n) closed trace path index time
    lastWriteTime permissions (wire.take n) hlt
  rw [hlength, List.append_assoc, List.take_append_drop] at hread
  exact ⟨outcome, _, hread⟩

/-- The server stays in frame exactly where the announced size is the size sent. -/
theorem taken_iff {n : ℕ} (hsmall : n ≤ maxFileSize) (bytes : Bytes) :
    Taken (field intMaxNDigit n ++ bytes) ↔ bytes.length = n := by
  constructor
  · intro htaken
    have henough : n ≤ (bytes ++ List.replicate n 0).length := by
      rw [List.length_append, List.length_replicate]
      omega
    obtain ⟨_, _, htakes⟩ := takes_announced hsmall henough sampleBackend [] 0 [] [] [] true []
    obtain ⟨_, _, hnext⟩ := htaken sampleBackend [] 0 [] [] [] (List.replicate n 0) true []
    rw [List.append_assoc, htakes, Prod.mk.injEq, Session.mk.injEq] at hnext
    have hlength := congrArg List.length hnext.2.1
    rw [List.length_drop, List.length_append, List.length_replicate] at hlength
    omega
  · rintro rfl b path index time lastWriteTime permissions next closed trace
    have henough : bytes.length ≤ (bytes ++ next).length := by
      rw [List.length_append]
      omega
    have htakes := takes_announced hsmall henough b path index time lastWriteTime permissions closed trace
    rwa [List.drop_left, ← List.append_assoc] at htakes

section Sizes

variable {default : Action} {responses : ResponseBuffer} {index : ℤ} {message : Message}
variable {w : Surroundings}

theorem sizeKept_of_steady (h : Steady w) : SizeKept default responses index message w := by
  obtain ⟨-, sent, hsent, hover⟩ | ⟨hloops, opened, hopened, hrun⟩ :=
    stops_or_loops default responses index message w
  · exact ⟨0, sent, hsent, hover.imp_right Or.inl⟩
  cases h with
  | early hearly => exact absurd hearly hloops
  | broken k hfull hfails =>
    obtain ⟨writes, what, hloop⟩ := sendContent_breaks hfull hfails
    have hsent := hrun (1 + k)
    rw [hloop, Option.map_some] at hsent
    exact ⟨1 + k, _, hsent, Or.inl (Option.some_ne_none what)⟩
  | kept found hfound hsmall hfull hends =>
    rw [hopened, Option.some.injEq] at hfound
    rw [← hfound] at hsmall hfull hends
    obtain ⟨pieces, hlength, hloop⟩ := sendContent_returns hfull hends
    have hsent := hrun (2 + opened.length / maxMsgSize)
    rw [hloop, Option.map_some] at hsent
    refine ⟨2 + opened.length / maxMsgSize, _, hsent, Or.inr (Or.inr ⟨_, rfl, ?_, ?_⟩)⟩
    · exact ⟨opened.length, pieces, rfl, hlength, hsmall⟩
    · rw [List.flatten_cons]
      exact (taken_iff hsmall _).mpr hlength

theorem steady_of_sizeKept (h : SizeKept default responses index message w) : Steady w := by
  obtain ⟨hearly, -⟩ | ⟨-, opened, hopened, hrun⟩ := stops_or_loops default responses index message w
  · exact .early hearly
  obtain ⟨rounds, sent, hsent, hkept⟩ := h
  rw [hrun, Option.map_eq_some_iff] at hsent
  obtain ⟨⟨pieces, thrown⟩, hloop, rfl⟩ := hsent
  cases thrown with
  | some what =>
    obtain ⟨k, hfull, hfails⟩ := fails_of_throws hloop
    exact .broken k hfull hfails
  | none =>
    obtain ⟨k, hfull, hends⟩ := ends_of_returns hloop
    obtain hthrown | hnothing | ⟨writes, heq, ⟨n, sent, hwrites, hlength, hsmall⟩, -⟩ := hkept
    · exact absurd rfl hthrown
    · cases hnothing
    rw [hwrites, List.cons.injEq, List.cons.injEq] at heq
    obtain ⟨-, hfield, rfl⟩ := heq
    obtain rfl := field_injective hfield
    rw [hlength] at hends
    rw [← hends.div] at hfull hends
    exact .kept opened hopened hsmall hfull hends

end Sizes

/-- The size that is announced is the size that is sent exactly where the file is as long at the reads
as it was when it was opened, or nothing comes of the call. -/
theorem announced_size (default : Action) (responses : ResponseBuffer) (index : ℤ) (message : Message)
    (w : Surroundings) : SizeKept default responses index message w ↔ Steady w :=
  ⟨steady_of_sizeKept, sizeKept_of_steady⟩

/-- An empty file that grows by a byte once it is opened. -/
def grown : Surroundings where
  file
    | .read _ => some [65]
    | _ => some []
  accepts _ := true

theorem announced_size_grown :
    ¬SizeKept (.ofRestore [] []) .empty 0 ⟨.readFile, 0, [47, 97], [53], [54]⟩ grown := by
  intro hkept
  cases steady_of_sizeKept hkept with
  | early hearly =>
    cases hearly with
    | refused h => exact absurd (h [] rfl) (Nat.not_lt_zero _)
    | unsent h => cases h
    | unopened h => cases h
    | unannounced h => cases h
  | broken k hfull hfails => cases (hfails [65] rfl).2
  | kept opened hopened hsmall hfull hends =>
    obtain rfl := Option.some.inj hopened
    obtain ⟨content, hcontent, -, -, htotal⟩ := hends
    obtain rfl := Option.some.inj hcontent
    exact absurd htotal (by decide)

end ChangingFile
end BackupManager.Protocol
