import Mathlib.Data.List.Lex
import Mathlib.Order.Basic
import Mathlib.Tactic.IntervalCases

/-! Decimal text over bytes: what `operator<<` and `std::to_string` print, and the value of
the digit runs that the extraction operators and `strtol` read back. -/
namespace BackupManager.ByteStream

abbrev Byte := UInt8
abbrev Bytes := List Byte

def newline : Byte := 10
def zeroDigit : Byte := 48
def minusSign : Byte := 45
def plusSign : Byte := 43

/-- Bytes compare as unsigned numbers, the order of `memcmp` and of `std::string`. -/
instance : LinearOrder Byte where
  le_refl a := UInt8.le_refl a
  le_trans _ _ _ := UInt8.le_trans
  le_antisymm _ _ := UInt8.le_antisymm
  le_total := UInt8.le_total
  lt_iff_le_not_ge a b := by
    simp only [UInt8.lt_iff_toNat_lt, UInt8.le_iff_toNat_le]
    omega
  toDecidableLE := inferInstance
  toDecidableLT := inferInstance
  toDecidableEq := inferInstance

/-- What holds of every byte of a text is decided along the text. -/
instance (text : Bytes) (p : Byte → Prop) [DecidablePred p] : Decidable (∀ b ∈ text, p b) :=
  List.decidableBAll p text

def isDigit (b : Byte) : Bool := 48 ≤ b && b ≤ 57

def digitValue (b : Byte) : ℕ := b.toNat - 48

/-- The text of a natural number, most significant digit first, without leading zeros. -/
def decimal (n : ℕ) : Bytes := (Nat.toDigits 10 n).map Char.toUInt8

/-- `std::to_string` and an unpadded `operator<<` of a signed integer. -/
def showInt (z : ℤ) : Bytes :=
  if z < 0 then minusSign :: decimal z.natAbs else decimal z.natAbs

/-- `std::setw(w) << std::setfill('0')` with the default adjustment: the fill comes first,
also before a sign. -/
def fillLeft (w : ℕ) (s : Bytes) : Bytes := List.replicate (w - s.length) zeroDigit ++ s

/-- The number a run of digits denotes. -/
def evalDigits (s : Bytes) : ℕ := s.foldl (fun a b => 10 * a + digitValue b) 0

def digitByte (d : ℕ) : Byte := (Nat.digitChar d).toUInt8

theorem decimal_of_lt {n : ℕ} (h : n < 10) : decimal n = [digitByte n] := by
  simp [decimal, Nat.toDigits_of_lt_base h, digitByte]

theorem decimal_of_ge {n : ℕ} (h : 10 ≤ n) : decimal n = decimal (n / 10) ++ [digitByte (n % 10)] := by
  simp [decimal, Nat.toDigits_of_base_le (by omega : 1 < 10) h, digitByte]

theorem isDigit_digitByte {d : ℕ} (h : d < 10) : isDigit (digitByte d) = true := by
  interval_cases d <;> decide

theorem digitValue_digitByte {d : ℕ} (h : d < 10) : digitValue (digitByte d) = d := by
  interval_cases d <;> decide

theorem isDigit_of_mem_decimal (n : ℕ) : ∀ b ∈ decimal n, isDigit b = true := by
  induction n using Nat.strong_induction_on with
  | _ n ih =>
    intro b hb
    rcases Nat.lt_or_ge n 10 with h | h
    · rw [decimal_of_lt h, List.mem_singleton] at hb
      rw [hb]
      exact isDigit_digitByte h
    · rw [decimal_of_ge h, List.mem_append, List.mem_singleton] at hb
      rcases hb with hb | rfl
      · exact ih (n / 10) (by omega) b hb
      · exact isDigit_digitByte (Nat.mod_lt _ (by omega))

theorem decimal_ne_nil (n : ℕ) : decimal n ≠ [] := by
  simp [decimal, Nat.toDigits_ne_nil]

theorem length_decimal_le_iff {n k : ℕ} (hk : 0 < k) : (decimal n).length ≤ k ↔ n < 10 ^ k := by
  simpa [decimal] using Nat.length_toDigits_le_iff (by omega : 1 < 10) hk

/-- The first digits of a number are the text of a number. -/
theorem take_decimal {k : ℕ} (hk : 0 < k) (n : ℕ) : ∃ m, (decimal n).take k = decimal m := by
  induction n using Nat.strong_induction_on with
  | _ n ih =>
    by_cases hlen : (decimal n).length ≤ k
    · exact ⟨n, List.take_of_length_le hlen⟩
    · have hn : 10 ≤ n := by
        by_contra hsmall
        rw [decimal_of_lt (by omega), List.length_singleton] at hlen
        omega
      rw [decimal_of_ge hn, List.length_append, List.length_singleton] at hlen
      obtain ⟨m, hm⟩ := ih (n / 10) (by omega)
      refine ⟨m, ?_⟩
      rw [decimal_of_ge hn, List.take_append_of_le_length (by omega), hm]

theorem evalDigits_append_singleton (s : Bytes) (b : Byte) :
    evalDigits (s ++ [b]) = 10 * evalDigits s + digitValue b := by
  simp [evalDigits]

@[simp] theorem evalDigits_decimal (n : ℕ) : evalDigits (decimal n) = n := by
  induction n using Nat.strong_induction_on with
  | _ n ih =>
    rcases Nat.lt_or_ge n 10 with h | h
    · rw [decimal_of_lt h]
      simpa [evalDigits] using digitValue_digitByte h
    · rw [decimal_of_ge h, evalDigits_append_singleton, ih (n / 10) (by omega),
        digitValue_digitByte (Nat.mod_lt _ (by omega))]
      omega

@[simp] theorem evalDigits_zeros_append (k : ℕ) (s : Bytes) :
    evalDigits (List.replicate k zeroDigit ++ s) = evalDigits s := by
  induction k with
  | zero => rfl
  | succ k ih => rw [← ih]; rfl

theorem isDigit_of_mem_zeros {k : ℕ} : ∀ b ∈ List.replicate k zeroDigit, isDigit b = true := by
  intro b hb
  rw [(List.mem_replicate.mp hb).2]
  rfl

theorem length_fillLeft (w : ℕ) (s : Bytes) : (fillLeft w s).length = max w s.length := by
  simp only [fillLeft, List.length_append, List.length_replicate]
  omega

end BackupManager.ByteStream
