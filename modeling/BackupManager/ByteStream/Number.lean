import Mathlib.Data.List.Induction
import BackupManager.ByteStream.Field

/-! Numbers as an extraction accepts them: blanks, a sign, digits. A field with such a number and
nothing else is read to its line break. -/
namespace BackupManager.ByteStream

structure Number where
  blanks : Bytes
  sign : Bytes
  digits : Bytes
  blank : Blank blanks
  isSign : sign = [] ∨ sign = [plusSign] ∨ sign = [minusSign]
  digit : ∀ b ∈ digits, isDigit b = true
  nonempty : digits ≠ []

namespace Number

def text (x : Number) : Bytes := x.blanks ++ x.sign ++ x.digits

def negative (x : Number) : Bool := decide (x.sign = [minusSign])

def value (x : Number) : ℤ := signed x.negative (evalDigits x.digits)

/-- The number as a field: its text and a line break. -/
def bytes (x : Number) : Bytes := x.text ++ [newline]

theorem length_bytes (x : Number) : x.bytes.length = x.text.length + 1 := List.length_append

variable {α : Type} {x : Number} {residue : Bytes}

theorem scanNumber_bytes (x : Number) :
    Istream.scanNumber (x.sign ++ (x.digits ++ [newline])) =
      ⟨x.negative, x.digits, [newline]⟩ := by
  have hrest := head_not_isDigit_newline []
  unfold negative
  rcases x.isSign with hsign | hsign | hsign
  · rw [hsign, List.nil_append, Istream.scanNumber_digits x.digit x.nonempty hrest]
    rfl
  · rw [hsign]
    exact Istream.scanDigits_append false x.digit hrest
  · rw [hsign, List.singleton_append, Istream.scanNumber_minus x.digit hrest]
    rfl

theorem head_bytes (x : Number) :
    ∀ b ∈ (x.sign ++ (x.digits ++ [newline])).head?, isSpace b = false := by
  rcases x.isSign with hsign | hsign | hsign
  · obtain ⟨d, rest, hdigits⟩ := List.exists_cons_of_ne_nil x.nonempty
    have hd := x.digit d (by rw [hdigits]; exact List.mem_cons_self)
    rw [hsign, hdigits]
    simpa using Istream.isSpace_of_isDigit hd
  · rw [hsign]
    simp
    decide
  · rw [hsign]
    simp [not_isSpace_minusSign]

/-- The extraction of a number stops at its line break. -/
theorem getNumber_bytes (convert : Bool → ℕ → α × Bool) (old : α) (hr : Blank residue) :
    Istream.getNumber convert old (.fresh (residue ++ x.bytes)) =
      ((convert x.negative (evalDigits x.digits)).1,
        ⟨[newline], false, !(convert x.negative (evalDigits x.digits)).2⟩) := by
  have hblank : Blank (residue ++ x.blanks) := by
    intro b hb
    rcases List.mem_append.mp hb with hb | hb
    · exact hr b hb
    · exact x.blank b hb
  have hbytes : residue ++ x.bytes = (residue ++ x.blanks) ++ (x.sign ++ (x.digits ++ [newline])) := by
    simp only [bytes, text, List.append_assoc]
  rw [hbytes, Istream.getNumber_fresh convert old hblank x.head_bytes x.scanNumber_bytes x.nonempty]
  rfl

theorem toSizeT_value (hnonneg : 0 ≤ x.value) (hlt : x.value < 2 ^ 64) :
    Istream.toSizeT x.negative (evalDigits x.digits) = (x.value.toNat, true) := by
  unfold value signed at *
  cases hsign : x.negative with
  | false =>
    rw [hsign] at hlt
    simp only [Bool.false_eq_true, if_false] at hlt ⊢
    rw [toSizeT_of_lt (by omega), Int.toNat_natCast]
  | true =>
    rw [hsign] at hnonneg
    simp only [if_true] at hnonneg ⊢
    have hzero : evalDigits x.digits = 0 := by omega
    rw [hzero]
    rfl

end Number

theorem evalDigits_lt {digits : Bytes} (hd : ∀ b ∈ digits, isDigit b = true) :
    evalDigits digits < 10 ^ digits.length := by
  induction digits using List.reverseRecOn with
  | nil => simp [evalDigits]
  | append_singleton digits b ih =>
    have hrest := ih fun c hc => hd c (List.mem_append_left _ hc)
    have hb : digitValue b < 10 := by
      have hdigit := hd b (by simp)
      simp only [isDigit, Bool.and_eq_true, decide_eq_true_eq, UInt8.le_iff_toNat_le] at hdigit
      simp only [UInt8.reduceToNat] at hdigit
      unfold digitValue
      omega
    rw [evalDigits_append_singleton, List.length_append, List.length_singleton, pow_succ]
    omega

namespace Number

/-- A number is less than its width allows. -/
theorem evalDigits_lt_width (x : Number) : evalDigits x.digits < 10 ^ x.text.length := by
  have hlt := evalDigits_lt x.digit
  have hle : 10 ^ x.digits.length ≤ 10 ^ x.text.length := by
    apply Nat.pow_le_pow_right (by decide)
    rw [text, List.length_append]
    omega
  omega

theorem value_lt (x : Number) : x.value < (10 ^ x.text.length : ℕ) := by
  have hlt := x.evalDigits_lt_width
  unfold value signed
  split
  · omega
  · omega

/-- A number that is not too wide is converted, a negative one to what it wraps around to. -/
theorem toSizeT_fits (x : Number) (h : 10 ^ x.text.length ≤ 2 ^ 64) :
    (Istream.toSizeT x.negative (evalDigits x.digits)).2 = true := by
  have hlt := x.evalDigits_lt_width
  unfold Istream.toSizeT
  rw [if_neg (by omega)]
  split <;> rfl

end Number

namespace Prog

variable {σ : Type} {w : ℕ} {residue wire : Bytes} {closed : Bool} {world : σ} {x : Number}

theorem recvInt_number (hwidth : x.text.length = w) (hint : InInt x.value) (hr : Blank residue)
    (old : ℤ) :
    recvInt w old ⟨x.bytes ++ wire, closed, .fresh residue, world⟩ =
      (.returns x.value, ⟨wire, closed, .fresh [newline], world⟩) := by
  have hread := read_append x.bytes wire closed (.fresh residue) world
  rw [x.length_bytes, hwidth] at hread
  rw [recvInt, bind_of_returns hread, getInt_apply, Istream.receive_fresh, Number.getNumber_bytes _ _ hr,
    toInt_of_inInt _ _ hint]
  rfl

theorem recvSize_number (hwidth : x.text.length = w) (hw : 10 ^ w ≤ 2 ^ 64) (hr : Blank residue)
    (old : ℕ) :
    recvSize w old ⟨x.bytes ++ wire, closed, .fresh residue, world⟩ =
      (.returns (Istream.toSizeT x.negative (evalDigits x.digits)).1,
        ⟨wire, closed, .fresh [newline], world⟩) := by
  have hread := read_append x.bytes wire closed (.fresh residue) world
  rw [x.length_bytes, hwidth] at hread
  have hfits : (Istream.toSizeT x.negative (evalDigits x.digits)).2 = true := by
    apply x.toSizeT_fits
    rwa [hwidth]
  rw [recvSize, bind_of_returns hread, getSize_apply, Istream.receive_fresh,
    Number.getNumber_bytes _ _ hr, hfits]
  rfl

end Prog
end BackupManager.ByteStream
