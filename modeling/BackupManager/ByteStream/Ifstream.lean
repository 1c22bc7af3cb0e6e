import BackupManager.ByteStream.Decimal

/-! A file opened for reading that others may write to: each read finds a content of its own. -/
namespace BackupManager.ByteStream

/-- `std::ifstream`: its position, what the last read got, and whether it met the end of the file. -/
structure Ifstream where
  position : ℕ
  gcount : ℤ
  eof : Bool
  deriving DecidableEq, Repr

namespace Ifstream

def opened : Ifstream := ⟨0, 0, false⟩

/-- What `read(buf, n)` gets where it finds this content. -/
def got (n : ℕ) (content : Bytes) (s : Ifstream) : Bytes := (content.drop s.position).take n

/-- `read(buf, n)` on a good stream: a count that is short sets `eof`. -/
def read (n : ℕ) (content : Bytes) (s : Ifstream) : Ifstream :=
  ⟨s.position + (s.got n content).length, (s.got n content).length,
    decide ((s.got n content).length < n)⟩

variable {n : ℕ} {content : Bytes} {s : Ifstream}

theorem length_got : (s.got n content).length = min n (content.length - s.position) := by
  rw [got, List.length_take, List.length_drop]

theorem read_full (h : s.position + n ≤ content.length) :
    s.read n content = ⟨s.position + n, n, false⟩ := by
  have hlength : (s.got n content).length = n := by
    rw [length_got]
    omega
  rw [read, hlength, decide_eq_false (Nat.lt_irrefl n)]

/-- What is left of the file is got, and nothing more. -/
theorem got_short (h : content.length ≤ s.position + n) : s.got n content = content.drop s.position := by
  refine List.take_of_length_le ?_
  rw [List.length_drop]
  omega

theorem eof_read (hn : 0 < n) (h : content.length < s.position + n) :
    (s.read n content).eof = true := by
  rw [read, length_got, decide_eq_true_iff]
  omega

/-- How many reads of one byte there can still be. -/
def remaining (content : Bytes) (s : Ifstream) : ℕ :=
  if s.eof then 0 else content.length - s.position + 1

/-- A loop that reads until the end of the file comes to it. -/
theorem remaining_read (hn : 0 < n) (hgood : ¬s.eof = true) :
    (s.read n content).remaining content < s.remaining content := by
  by_cases hfull : s.position + n ≤ content.length
  · rw [read_full hfull, remaining, remaining, if_neg hgood]
    dsimp only
    rw [if_neg Bool.false_ne_true]
    omega
  · rw [remaining, remaining, if_pos (eof_read hn (not_le.mp hfull)), if_neg hgood]
    omega

end Ifstream
end BackupManager.ByteStream
