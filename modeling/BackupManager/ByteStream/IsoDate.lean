import BackupManager.ByteStream.Decimal
import Mathlib.Data.Prod.Lex
import Mathlib.Order.Hom.Basic

/-! Dates and their extended ISO texts, as `to_iso_extended_string` writes them. The numbers in them are
padded, so that the texts are in the order of the calendar. -/
namespace BackupManager.ByteStream

/-- A number in so many digits. -/
def padded (w n : ℕ) : Bytes := fillLeft w (decimal n)

section Padded

theorem padded_one {n : ℕ} (h : n < 10) : padded 1 n = [digitByte n] := by
  rw [padded, decimal_of_lt h]
  rfl

/-- The last digit stands at the end. -/
theorem padded_succ {w : ℕ} (hw : 0 < w) (n : ℕ) :
    padded (w + 1) n = padded w (n / 10) ++ [digitByte (n % 10)] := by
  rcases Nat.lt_or_ge n 10 with hlt | hge
  · obtain ⟨w, rfl⟩ := Nat.exists_eq_add_one.mpr hw
    have hzero : digitByte 0 = zeroDigit := rfl
    rw [padded, padded, Nat.div_eq_of_lt hlt, Nat.mod_eq_of_lt hlt, decimal_of_lt hlt,
      decimal_of_lt (by decide), fillLeft, fillLeft, hzero]
    simp only [List.length_singleton, Nat.add_sub_cancel]
    rw [List.replicate_succ']
  · rw [padded, padded, decimal_of_ge hge, fillLeft, fillLeft, List.length_append,
      List.length_singleton, Nat.add_sub_add_right, List.append_assoc]

theorem length_padded {w n : ℕ} (hw : 0 < w) (h : n < 10 ^ w) : (padded w n).length = w := by
  rw [padded, length_fillLeft]
  exact max_eq_left ((length_decimal_le_iff hw).mpr h)

theorem digitByte_lt_iff {a b : ℕ} (ha : a < 10) (hb : b < 10) :
    digitByte a < digitByte b ↔ a < b := by
  interval_cases a <;> interval_cases b <;> decide

/-- Texts that begin with parts of the same length. -/
theorem append_lt_append_iff {a b : Bytes} (h : a.length = b.length) (x y : Bytes) :
    a ++ x < b ++ y ↔ a < b ∨ a = b ∧ x < y := by
  induction a generalizing b with
  | nil =>
    obtain rfl := List.length_eq_zero_iff.mp h.symm
    simp
  | cons c a ih =>
    cases b with
    | nil => exact absurd h (by simp)
    | cons c' b =>
      rw [List.cons_append, List.cons_append, List.cons_lt_cons_iff, List.cons_lt_cons_iff,
        ih (Nat.succ.inj h), List.cons.injEq]
      tauto

/-- Padded numbers compare as numbers. -/
theorem padded_lt_iff {w m n : ℕ} (hw : 0 < w) (hm : m < 10 ^ w) (hn : n < 10 ^ w) :
    padded w m < padded w n ↔ m < n := by
  induction w, hw using Nat.le_induction generalizing m n with
  | base =>
    rw [padded_one hm, padded_one hn, List.cons_lt_cons_iff]
    simp [digitByte_lt_iff hm hn]
  | succ w hw ih =>
    have hm' : m / 10 < 10 ^ w := by omega
    have hn' : n / 10 < 10 ^ w := by omega
    have heq : padded w (m / 10) = padded w (n / 10) ↔ m / 10 = n / 10 := by
      refine ⟨fun h => ?_, fun h => by rw [h]⟩
      have hlt := (ih hm' hn').not.mp (h ▸ lt_irrefl _)
      have hgt := (ih hn' hm').not.mp (h ▸ lt_irrefl _)
      omega
    rw [padded_succ hw, padded_succ hw,
      append_lt_append_iff ((length_padded hw hm').trans (length_padded hw hn').symm), ih hm' hn', heq,
      List.cons_lt_cons_iff, digitByte_lt_iff (Nat.mod_lt m (by decide)) (Nat.mod_lt n (by decide))]
    simp only [List.lt_irrefl, and_false, or_false]
    omega

theorem padded_inj {w m n : ℕ} (hw : 0 < w) (hm : m < 10 ^ w) (hn : n < 10 ^ w) :
    padded w m = padded w n ↔ m = n := by
  refine ⟨fun h => ?_, fun h => by rw [h]⟩
  have hlt := (padded_lt_iff hw hm hn).not.mp (h ▸ lt_irrefl _)
  have hgt := (padded_lt_iff hw hn hm).not.mp (h ▸ lt_irrefl _)
  omega

end Padded

def isLeapYear (year : ℕ) : Bool := year % 4 = 0 && (year % 100 ≠ 0 || year % 400 = 0)

def endOfMonthDay (year month : ℕ) : ℕ :=
  if month = 2 then if isLeapYear year then 29 else 28
  else if month = 4 ∨ month = 6 ∨ month = 9 ∨ month = 11 then 30
  else 31

/-- A day of the Gregorian calendar, in the years that have four digits and are admitted. -/
@[ext]
structure Date where
  year : ℕ
  month : ℕ
  day : ℕ
  years : 1400 ≤ year ∧ year ≤ 9999
  months : 1 ≤ month ∧ month ≤ 12
  days : 1 ≤ day ∧ day ≤ endOfMonthDay year month

namespace Date

def hyphen : Byte := 45

/-- `YYYY-MM-DD`. -/
def iso (d : Date) : Bytes :=
  padded 4 d.year ++ (hyphen :: (padded 2 d.month ++ (hyphen :: padded 2 d.day)))

/-- Later years first, then later months. -/
def key (d : Date) : ℕ ×ₗ ℕ ×ₗ ℕ := toLex (d.year, toLex (d.month, d.day))

theorem key_injective : Function.Injective key := by
  intro a b h
  have hfields : a.year = b.year ∧ a.month = b.month ∧ a.day = b.day := by
    simpa only [key, EmbeddingLike.apply_eq_iff_eq, Prod.mk.injEq] using h
  exact Date.ext hfields.1 hfields.2.1 hfields.2.2

/-- The order of the calendar. -/
instance : LinearOrder Date := LinearOrder.lift' key key_injective

theorem lt_iff {a b : Date} : a < b ↔ a.year < b.year ∨ a.year = b.year ∧
    (a.month < b.month ∨ a.month = b.month ∧ a.day < b.day) := by
  change key a < key b ↔ _
  simp only [key, Prod.Lex.toLex_lt_toLex]

theorem day_lt (d : Date) : d.day < 100 := by
  have hend : endOfMonthDay d.year d.month ≤ 31 := by
    unfold endOfMonthDay
    split_ifs <;> decide
  have hday := d.days.2
  omega

/-- The texts are in the order of the calendar. -/
theorem iso_lt_iso {a b : Date} : a.iso < b.iso ↔ a < b := by
  have hyear : ∀ d : Date, d.year < 10 ^ 4 := fun d => Nat.lt_succ_of_le d.years.2
  have hmonth : ∀ d : Date, d.month < 10 ^ 2 := fun d => lt_of_le_of_lt d.months.2 (by decide)
  have hhyphen : ∀ x y : Bytes, hyphen :: x < hyphen :: y ↔ x < y := by
    intro x y
    rw [List.cons_lt_cons_iff]
    simp
  have hlength : ∀ {w m n : ℕ}, 0 < w → m < 10 ^ w → n < 10 ^ w →
      (padded w m).length = (padded w n).length :=
    fun hw hm hn => (length_padded hw hm).trans (length_padded hw hn).symm
  rw [iso, iso, append_lt_append_iff (hlength (by decide) (hyear a) (hyear b)), hhyphen,
    append_lt_append_iff (hlength (by decide) (hmonth a) (hmonth b)), hhyphen,
    padded_lt_iff (by decide) (hyear a) (hyear b), padded_inj (by decide) (hyear a) (hyear b),
    padded_lt_iff (by decide) (hmonth a) (hmonth b), padded_inj (by decide) (hmonth a) (hmonth b),
    padded_lt_iff (by decide) a.day_lt b.day_lt, lt_iff]

theorem iso_le_iso {a b : Date} : a.iso ≤ b.iso ↔ a ≤ b := by
  rw [← not_lt, iso_lt_iso, not_lt]

theorem iso_injective : Function.Injective iso := by
  intro a b h
  exact le_antisymm (iso_le_iso.mp h.le) (iso_le_iso.mp h.ge)

end Date
end BackupManager.ByteStream
