import BackupManager.ByteStream.Utf8
import Mathlib.Data.List.TakeWhile
import BackupManager.Server.Database

/-! The conversions that the columns of a row go through. -/
namespace BackupManager.Server
open ByteStream

theorem skip_false (text : Bytes) : sqliteLength.skip false text = sqliteLength text := by
  cases text <;> simp [sqliteLength.skip, sqliteLength]

theorem skip_le_length (multi : Bool) (text : Bytes) :
    sqliteLength.skip multi text ≤ text.length := by
  induction text generalizing multi with
  | nil => simp [sqliteLength.skip]
  | cons b rest ih =>
    unfold sqliteLength.skip
    split
    · exact (ih true).trans (by simp)
    · split
      · simp
      · have := ih (decide (192 ≤ b))
        simp only [List.length_cons]
        omega

/-- After the continuation bytes of a character the count goes on as from the start. -/
theorem skip_true_of_utf8 {text : Bytes} {n : ℕ} (h : Utf8 text n) :
    sqliteLength.skip true text = sqliteLength text := by
  cases text with
  | nil => rfl
  | cons b rest =>
    have hb := h.head_not_continuation b (by simp)
    have hcont : (true && (decide (128 ≤ b) && decide (b < 192))) = false := by
      simpa [IsContinuation] using hb
    rw [sqliteLength.skip, hcont, sqliteLength]
    simp

theorem skip_true_continuation {b : Byte} (hb : IsContinuation b) (rest : Bytes) :
    sqliteLength.skip true (b :: rest) = sqliteLength.skip true rest := by
  simp [sqliteLength.skip, hb.1, hb.2]

theorem sqliteLength_lead {a : Byte} (ha : 192 ≤ a) (rest : Bytes) :
    sqliteLength (a :: rest) = 1 + sqliteLength.skip true rest := by
  have hne : a ≠ 0 := by
    intro h
    rw [h] at ha
    exact absurd ha (by decide)
  simp [sqliteLength, hne, ha]

theorem sqliteLength_single {a : Byte} (ha : a < 128) (hne : a ≠ 0) (rest : Bytes) :
    sqliteLength (a :: rest) = 1 + sqliteLength rest := by
  have hlt : ¬192 ≤ a := not_le.mpr (lt_trans ha (by decide))
  rw [sqliteLength, if_neg hne, decide_eq_false hlt, skip_false]

/-- `length(X)` counts characters, as documented. -/
theorem sqliteLength_utf8 {text : Bytes} {n : ℕ} (h : Utf8 text n) (h0 : 0 ∉ text) :
    sqliteLength text = n := by
  induction h with
  | nil => rfl
  | one ha _ ih =>
    rw [List.mem_cons, not_or] at h0
    rw [sqliteLength_single ha (Ne.symm h0.1), ih h0.2, Nat.add_comm]
  | two ha _ hb hrest ih =>
    rw [sqliteLength_lead (le_trans (by decide) ha), skip_true_continuation hb,
      skip_true_of_utf8 hrest, ih (fun h => h0 (by simp [h])), Nat.add_comm]
  | three ha _ hb hc _ _ hrest ih =>
    rw [sqliteLength_lead (le_trans (by decide) ha), skip_true_continuation hb,
      skip_true_continuation hc, skip_true_of_utf8 hrest, ih (fun h => h0 (by simp [h])),
      Nat.add_comm]
  | four ha _ hb hc hd _ _ hrest ih =>
    rw [sqliteLength_lead (le_trans (by decide) ha), skip_true_continuation hb,
      skip_true_continuation hc, skip_true_continuation hd, skip_true_of_utf8 hrest,
      ih (fun h => h0 (by simp [h])), Nat.add_comm]

theorem sqliteLength_of_plain {text : Bytes} (h : PlainAscii text) :
    sqliteLength text = text.length := by
  induction text with
  | nil => rfl
  | cons b rest ih =>
    rw [plainAscii_cons] at h
    rw [sqliteLength_single h.1.2 (ne_of_gt h.1.1), ih h.2, List.length_cons, Nat.add_comm]

/-- A character of several bytes, or a NUL, makes the count fall short of the bytes. -/
theorem plain_of_length_le {text : Bytes} {n : ℕ} (h : Utf8 text n)
    (hlen : text.length ≤ sqliteLength text) : PlainAscii text := by
  have hlead : ∀ {a b : Byte} {rest : Bytes}, 192 ≤ a → IsContinuation b →
      ¬(a :: b :: rest).length ≤ sqliteLength (a :: b :: rest) := by
    intro a b rest ha hb
    have hskip := skip_le_length true rest
    rw [sqliteLength_lead ha, skip_true_continuation hb]
    simp only [List.length_cons]
    omega
  cases h with
  | nil => simp [PlainAscii]
  | one ha hrest =>
    rename_i a rest n
    by_cases hne : a = 0
    · simp [sqliteLength, hne] at hlen
    · rw [sqliteLength_single ha hne, List.length_cons] at hlen
      exact plainAscii_cons.mpr ⟨⟨UInt8.pos_iff_ne_zero.mpr hne, ha⟩,
        plain_of_length_le hrest (by omega)⟩
  | two ha _ hb _ => exact absurd hlen (hlead (le_trans (by decide) ha) hb)
  | three ha _ hb _ _ _ _ => exact absurd hlen (hlead (le_trans (by decide) ha) hb)
  | four ha _ hb _ _ _ _ _ => exact absurd hlen (hlead (le_trans (by decide) ha) hb)

theorem scanNumber_showInt (z : ℤ) :
    Istream.scanNumber (showInt z) = ⟨decide (z < 0), decimal z.natAbs, []⟩ := by
  cases z with
  | ofNat n =>
    have hscan := Istream.scanNumber_digits (isDigit_of_mem_decimal n) (decimal_ne_nil n)
      Istream.head_not_isDigit_nil
    rw [List.append_nil] at hscan
    rw [Int.ofNat_eq_natCast, showInt_natCast, hscan]
    simp
  | negSucc m =>
    have hscan := Istream.scanNumber_minus (isDigit_of_mem_decimal (m + 1)) Istream.head_not_isDigit_nil
    rw [List.append_nil] at hscan
    rw [showInt_negSucc, hscan]
    simp

theorem mem_showInt {z : ℤ} {b : Byte} (h : b ∈ showInt z) : b = minusSign ∨ isDigit b = true := by
  unfold showInt at h
  split at h
  · rcases List.mem_cons.mp h with h | h
    · exact Or.inl h
    · exact Or.inr (isDigit_of_mem_decimal _ b h)
  · exact Or.inr (isDigit_of_mem_decimal _ b h)

theorem cString_of_not_mem {text : Bytes} (h : (0 : Byte) ∉ text) : cString text = text := by
  have hall : ∀ b ∈ text, decide (b ≠ 0) = true :=
    fun b hb => decide_eq_true (ne_of_mem_of_not_mem hb h)
  exact List.takeWhile_eq_self_iff.mpr hall

theorem cString_showInt (z : ℤ) : cString (showInt z) = showInt z := by
  refine cString_of_not_mem fun h => ?_
  rcases mem_showInt h with h | h
  · exact absurd h (by decide)
  · exact absurd h (by decide)

theorem dropWhile_isSpace_showInt (z : ℤ) : (showInt z).dropWhile isSpace = showInt z := by
  cases hs : showInt z with
  | nil => rfl
  | cons b rest =>
    have hb : isSpace b = false := by
      rcases mem_showInt (z := z) (b := b) (by simp [hs]) with h | h
      · rw [h]
        exact not_isSpace_minusSign
      · exact Istream.isSpace_of_isDigit h
    rw [List.dropWhile_cons_of_neg (by simp [hb])]

theorem signed_natAbs (z : ℤ) : signed (decide (z < 0)) z.natAbs = z := by
  unfold signed
  split
  · next h => rw [decide_eq_true_eq] at h; omega
  · next h => rw [decide_eq_true_eq] at h; omega

/-- `stoi` undoes `to_string` on the range of an `int`, and throws outside it. -/
theorem stoi_showInt (z : ℤ) : stoi (showInt z) = if InInt z then some z else none := by
  have hscan : Istream.scanNumber ((cString (showInt z)).dropWhile isSpace) =
      ⟨decide (z < 0), decimal z.natAbs, []⟩ := by
    rw [cString_showInt, dropWhile_isSpace_showInt, scanNumber_showInt]
  unfold stoi
  simp only [hscan, evalDigits_decimal]
  by_cases hz : InInt z
  · have hv := toInt_of_inInt (decide (z < 0)) z.natAbs
      (by rwa [signed_natAbs])
    rw [hv, signed_natAbs, if_pos hz]
    simp [decimal_ne_nil]
  · have hv := toInt_of_not_inInt (decide (z < 0)) z.natAbs
      (by rwa [signed_natAbs])
    simp [hv, hz]

end BackupManager.Server
