import BackupManager.ByteStream.Decimal

/-! A `std::istream` over a stream buffer that is filled by hand: the unread bytes, the two
state flags that end of input and failed extractions set, and the extraction operations of the
C locale. A flag that is set stays set. -/
namespace BackupManager.ByteStream

/-- `std::isspace` in the C locale. -/
def isSpace (b : Byte) : Bool := b == 32 || (9 ≤ b && b ≤ 13)

structure Istream where
  buf : Bytes
  eofbit : Bool
  failbit : Bool
  deriving DecidableEq, Repr

namespace Istream

/-- A stream in which nothing has gone wrong yet. -/
def fresh (buf : Bytes) : Istream := ⟨buf, false, false⟩

def good (s : Istream) : Bool := !s.eofbit && !s.failbit

/-- The guard of every extraction: it refuses a stream that is not good, and skips blanks
for the formatted operators. -/
def sentry (skipws : Bool) (s : Istream) : Bool × Istream :=
  if s.good then
    if skipws then
      match s.buf.dropWhile isSpace with
      | [] => (false, ⟨[], true, true⟩)
      | b :: rest => (true, fresh (b :: rest))
    else (true, s)
  else (false, { s with failbit := true })

/-- A number as it stands in the text: sign, digits, and what follows. -/
structure Scan where
  negative : Bool
  digits : Bytes
  rest : Bytes

def scanDigits (negative : Bool) (s : Bytes) : Scan :=
  ⟨negative, s.takeWhile isDigit, s.dropWhile isDigit⟩

def scanNumber : Bytes → Scan
  | [] => scanDigits false []
  | b :: rest =>
    if b = minusSign then scanDigits true rest
    else if b = plusSign then scanDigits false rest
    else scanDigits false (b :: rest)

/-- The largest and smallest `int`. -/
def intMax : ℤ := 2147483647
def intMin : ℤ := -2147483648

/-- Conversion to `int`: the value stored, and whether it was in range. -/
def toInt (negative : Bool) (m : ℕ) : ℤ × Bool :=
  if negative then
    if -(m : ℤ) < intMin then (intMin, false) else (-(m : ℤ), true)
  else if intMax < (m : ℤ) then (intMax, false) else ((m : ℤ), true)

/-- Conversion to `size_t`: a negative number in range wraps around. -/
def toSizeT (negative : Bool) (m : ℕ) : ℕ × Bool :=
  if 2 ^ 64 ≤ m then (2 ^ 64 - 1, false)
  else if negative then ((2 ^ 64 - m) % 2 ^ 64, true) else (m, true)

/-- `operator>>` into a number. `old` is what the variable held: it keeps it when the guard
refuses, and holds zero when there is no number to read. -/
def getNumber {α : Type} (convert : Bool → ℕ → α × Bool) (old : α) (s : Istream) : α × Istream :=
  match sentry true s with
  | (false, s) => (old, s)
  | (true, s) =>
    let n := scanNumber s.buf
    if n.digits = [] then ((convert false 0).1, ⟨n.rest, n.rest.isEmpty, true⟩)
    else
      let v := convert n.negative (evalDigits n.digits)
      (v.1, ⟨n.rest, n.rest.isEmpty, !v.2⟩)

/-- `ignore()`: drop one byte. -/
def ignore (s : Istream) : Istream :=
  match sentry false s with
  | (false, s) => s
  | (true, s) =>
    match s.buf with
    | [] => { s with eofbit := true }
    | _ :: rest => { s with buf := rest }

/-- `std::getline`: the line break is consumed and not stored. -/
def getline (old : Bytes) (s : Istream) : Bytes × Istream :=
  match sentry false s with
  | (false, s) => (old, s)
  | (true, s) =>
    let line := s.buf.takeWhile (· ≠ newline)
    match s.buf.dropWhile (· ≠ newline) with
    | [] => (line, ⟨[], true, line.isEmpty⟩)
    | _ :: rest => (line, { s with buf := rest })

/-- `operator>>` into a string: one word, and the blank after it stays. -/
def getWord (old : Bytes) (s : Istream) : Bytes × Istream :=
  match sentry true s with
  | (false, s) => (old, s)
  | (true, s) =>
    let rest := s.buf.dropWhile (fun b => !isSpace b)
    (s.buf.takeWhile (fun b => !isSpace b), ⟨rest, rest.isEmpty, false⟩)

/-- `read(array, n)` into an array of zeros. -/
def readArray (n : ℕ) (s : Istream) : Bytes × Istream :=
  match sentry false s with
  | (false, s) => (List.replicate n 0, s)
  | (true, s) =>
    let got := s.buf.take n
    (got ++ List.replicate (n - got.length) 0,
      ⟨s.buf.drop n, decide (got.length < n), decide (got.length < n)⟩)

/-- Bytes that arrive are appended to the buffer, whatever the flags say. -/
def receive (bytes : Bytes) (s : Istream) : Istream := { s with buf := s.buf ++ bytes }

@[simp] theorem good_fresh (buf : Bytes) : (fresh buf).good = true := rfl
@[simp] theorem buf_fresh (buf : Bytes) : (fresh buf).buf = buf := rfl
@[simp] theorem receive_fresh (bytes buf : Bytes) : (fresh buf).receive bytes = fresh (buf ++ bytes) := rfl
@[simp] theorem good_receive (bytes : Bytes) (s : Istream) : (s.receive bytes).good = s.good := rfl
@[simp] theorem buf_receive (bytes : Bytes) (s : Istream) : (s.receive bytes).buf = s.buf ++ bytes := rfl

theorem eq_fresh_of_good {s : Istream} (h : s.good = true) : s = fresh s.buf := by
  obtain ⟨buf, e, f⟩ := s
  cases e <;> cases f <;> simp_all [good, fresh]

@[simp] theorem sentry_false_fresh (buf : Bytes) : sentry false (fresh buf) = (true, fresh buf) := rfl

theorem sentry_of_bad {s : Istream} (skipws : Bool) (h : s.good = false) :
    sentry skipws s = (false, { s with failbit := true }) := by
  simp [sentry, h]

/-- Once a stream is not good, no extraction changes a variable or repairs the stream. -/
theorem getNumber_of_bad {α : Type} (convert : Bool → ℕ → α × Bool) (old : α) {s : Istream}
    (h : s.good = false) : getNumber convert old s = (old, { s with failbit := true }) := by
  simp [getNumber, sentry_of_bad, h]

theorem getline_of_bad (old : Bytes) {s : Istream} (h : s.good = false) :
    getline old s = (old, { s with failbit := true }) := by
  simp [getline, sentry_of_bad, h]

theorem getWord_of_bad (old : Bytes) {s : Istream} (h : s.good = false) :
    getWord old s = (old, { s with failbit := true }) := by
  simp [getWord, sentry_of_bad, h]

theorem ignore_of_bad {s : Istream} (h : s.good = false) :
    ignore s = { s with failbit := true } := by
  simp [ignore, sentry_of_bad, h]

theorem readArray_of_bad (n : ℕ) {s : Istream} (h : s.good = false) :
    readArray n s = (List.replicate n 0, { s with failbit := true }) := by
  simp [readArray, sentry_of_bad, h]

@[simp] theorem ignore_fresh_cons (b : Byte) (rest : Bytes) :
    ignore (fresh (b :: rest)) = fresh rest := rfl

theorem getline_fresh {line rest : Bytes} (h : newline ∉ line) (old : Bytes) :
    getline old (fresh (line ++ newline :: rest)) = (line, fresh rest) := by
  have ht : (line ++ newline :: rest).takeWhile (· ≠ newline) = line := by
    rw [List.takeWhile_append_of_pos (by simpa using fun b hb => ne_of_mem_of_not_mem hb h)]
    simp
  have hd : (line ++ newline :: rest).dropWhile (· ≠ newline) = newline :: rest := by
    rw [List.dropWhile_append_of_pos (by simpa using fun b hb => ne_of_mem_of_not_mem hb h)]
    simp
  simp only [getline, sentry_false_fresh, buf_fresh, ht, hd]
  rfl

/-- A line that holds a line break is cut there. -/
theorem getline_fresh_fst (buf old : Bytes) :
    (getline old (fresh buf)).1 = buf.takeWhile (· ≠ newline) := by
  simp only [getline, sentry_false_fresh, buf_fresh]
  split <;> rfl

theorem readArray_fresh (bytes rest : Bytes) :
    readArray bytes.length (fresh (bytes ++ rest)) = (bytes, fresh rest) := by
  simp only [readArray, sentry_false_fresh, buf_fresh]
  simp [fresh]

/-- A line that has been taken has no line break. -/
theorem getline_oneLine {old : Bytes} (hold : newline ∉ old) (s : Istream) :
    newline ∉ (getline old s).1 := by
  have hline : ∀ buf : Bytes, newline ∉ buf.takeWhile (· ≠ newline) := by
    intro buf hmem
    simpa using List.all_eq_true.mp List.all_takeWhile newline hmem
  unfold getline
  split
  · exact hold
  · split
    · exact hline _
    · exact hline _

theorem length_readArray (n : ℕ) (s : Istream) : (readArray n s).1.length = n := by
  unfold readArray
  split
  · exact List.length_replicate
  · rw [List.length_append, List.length_replicate, List.length_take]
    omega

theorem getWord_fresh {word rest : Bytes} (hne : word ≠ []) (hw : ∀ b ∈ word, isSpace b = false)
    (residue : Bytes) (hr : ∀ b ∈ residue, isSpace b = true) (old : Bytes) :
    getWord old (fresh (residue ++ word ++ newline :: rest)) = (word, fresh (newline :: rest)) := by
  obtain ⟨b, word, rfl⟩ := List.exists_cons_of_ne_nil hne
  have hb := hw b List.mem_cons_self
  have hskip : (residue ++ (b :: word) ++ newline :: rest).dropWhile isSpace =
      b :: (word ++ newline :: rest) := by
    rw [List.append_assoc, List.dropWhile_append_of_pos hr]
    simp [hb]
  have hall : ∀ c ∈ b :: word, (!isSpace c) = true := by simpa using hw
  have ht : (b :: word ++ newline :: rest).takeWhile (fun b => !isSpace b) = b :: word := by
    rw [List.takeWhile_append_of_pos hall]
    simp [isSpace, newline]
  have hd : (b :: word ++ newline :: rest).dropWhile (fun b => !isSpace b) = newline :: rest := by
    rw [List.dropWhile_append_of_pos hall]
    simp [isSpace, newline]
  simp only [getWord, sentry, good_fresh, buf_fresh, hskip, if_true]
  rw [← List.cons_append, ht, hd]
  rfl

theorem isSpace_of_isDigit {b : Byte} (h : isDigit b = true) : isSpace b = false := by
  simp only [isDigit, Bool.and_eq_true, decide_eq_true_eq, UInt8.le_iff_toNat_le] at h
  simp only [isSpace, Bool.or_eq_false_iff, Bool.and_eq_false_iff, beq_eq_false_iff_ne,
    decide_eq_false_iff_not, UInt8.le_iff_toNat_le, ne_eq, ← UInt8.toNat_inj]
  simp only [UInt8.reduceToNat] at h ⊢
  omega

theorem scanDigits_append (negative : Bool) {digits rest : Bytes}
    (hd : ∀ b ∈ digits, isDigit b = true) (hrest : ∀ b ∈ rest.head?, isDigit b = false) :
    scanDigits negative (digits ++ rest) = ⟨negative, digits, rest⟩ := by
  rw [scanDigits, List.takeWhile_append_of_pos hd, List.dropWhile_append_of_pos hd]
  cases rest with
  | nil => simp
  | cons b rest => simp [hrest b rfl]

/-- Without a sign the number starts at its first digit. -/
theorem head_not_isDigit_nil : ∀ b ∈ ([] : Bytes).head?, isDigit b = false := by simp

theorem scanNumber_digits {digits rest : Bytes} (hd : ∀ b ∈ digits, isDigit b = true)
    (hne : digits ≠ []) (hrest : ∀ b ∈ rest.head?, isDigit b = false) :
    scanNumber (digits ++ rest) = ⟨false, digits, rest⟩ := by
  obtain ⟨b, digits, rfl⟩ := List.exists_cons_of_ne_nil hne
  have hb := hd b List.mem_cons_self
  have hm : b ≠ minusSign := by rintro rfl; exact absurd hb (by decide)
  have hp : b ≠ plusSign := by rintro rfl; exact absurd hb (by decide)
  rw [← scanDigits_append false hd hrest]
  simp [scanNumber, hm, hp]

theorem scanNumber_minus {digits rest : Bytes} (hd : ∀ b ∈ digits, isDigit b = true)
    (hrest : ∀ b ∈ rest.head?, isDigit b = false) :
    scanNumber (minusSign :: (digits ++ rest)) = ⟨true, digits, rest⟩ := by
  rw [← scanDigits_append true hd hrest]
  rfl

/-- What a number extraction does on a good stream, once the blanks are skipped. -/
theorem getNumber_fresh {α : Type} (convert : Bool → ℕ → α × Bool) (old : α)
    {residue text : Bytes} {n : Scan} (hr : ∀ b ∈ residue, isSpace b = true)
    (ht : ∀ b ∈ text.head?, isSpace b = false) (hn : scanNumber text = n) (hne : n.digits ≠ []) :
    getNumber convert old (fresh (residue ++ text)) =
      ((convert n.negative (evalDigits n.digits)).1,
        ⟨n.rest, n.rest.isEmpty, !(convert n.negative (evalDigits n.digits)).2⟩) := by
  cases text with
  | nil => rw [← hn] at hne; exact absurd rfl hne
  | cons b text =>
    have hskip : (residue ++ b :: text).dropWhile isSpace = b :: text := by
      rw [List.dropWhile_append_of_pos hr]
      simp [ht b rfl]
    simp only [getNumber, sentry, good_fresh, buf_fresh, hskip, if_true, hn, hne, if_false]

end Istream
end BackupManager.ByteStream
