import BackupManager.ByteStream.Istream

/-! The buffer of an output stream: a chunk waits in it, or goes through to the file behind what waits
there. `keeps` says which, from the sizes of what waits already and of the chunk. -/
namespace BackupManager.ByteStream.OutputBuffer

variable (keeps : ℕ → ℕ → Bool)

/-- What waits once the chunks are written. -/
def waiting : Bytes → List Bytes → Bytes
  | pending, [] => pending
  | pending, chunk :: chunks =>
    if keeps pending.length chunk.length then waiting (pending ++ chunk) chunks else waiting [] chunks

/-- What has gone through to the file by then. -/
def through : Bytes → List Bytes → Bytes
  | _, [] => []
  | pending, chunk :: chunks =>
    if keeps pending.length chunk.length then through (pending ++ chunk) chunks
    else pending ++ chunk ++ through [] chunks

/-- How often it had to go through. -/
def passes : Bytes → List Bytes → ℕ
  | _, [] => 0
  | pending, chunk :: chunks =>
    if keeps pending.length chunk.length then passes (pending ++ chunk) chunks
    else passes [] chunks + 1

variable {keeps} {pending chunk : Bytes} {chunks : List Bytes}

theorem through_append_waiting :
    through keeps pending chunks ++ waiting keeps pending chunks = pending ++ chunks.flatten := by
  induction chunks generalizing pending with
  | nil => simp [through, waiting]
  | cons chunk chunks ih =>
    rw [through, waiting, List.flatten_cons]
    split
    · rw [ih, List.append_assoc]
    · rw [List.append_assoc, ih, List.nil_append, List.append_assoc]

end BackupManager.ByteStream.OutputBuffer
