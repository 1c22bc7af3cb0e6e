import BackupManager.ByteStream.Decimal

/-! UTF-8 as a predicate on byte strings. -/
namespace BackupManager.ByteStream

def IsContinuation (b : Byte) : Prop := 128 ≤ b ∧ b < 192

instance : DecidablePred IsContinuation :=
  fun b => inferInstanceAs (Decidable (128 ≤ b ∧ b < 192))

/-- Valid UTF-8, with the number of its characters: no overlong form, no surrogate, nothing
above U+10FFFF. -/
inductive Utf8 : Bytes → ℕ → Prop where
  | nil : Utf8 [] 0
  | one {a : Byte} {rest : Bytes} {n : ℕ} : a < 128 → Utf8 rest n → Utf8 (a :: rest) (n + 1)
  | two {a b : Byte} {rest : Bytes} {n : ℕ} : 194 ≤ a → a < 224 → IsContinuation b →
      Utf8 rest n → Utf8 (a :: b :: rest) (n + 1)
  | three {a b c : Byte} {rest : Bytes} {n : ℕ} : 224 ≤ a → a < 240 → IsContinuation b →
      IsContinuation c → (a = 224 → 160 ≤ b) → (a = 237 → b < 160) →
      Utf8 rest n → Utf8 (a :: b :: c :: rest) (n + 1)
  | four {a b c d : Byte} {rest : Bytes} {n : ℕ} : 240 ≤ a → a < 245 → IsContinuation b →
      IsContinuation c → IsContinuation d → (a = 240 → 144 ≤ b) → (a = 244 → b < 144) →
      Utf8 rest n → Utf8 (a :: b :: c :: d :: rest) (n + 1)

/-- ASCII text without NUL. -/
def PlainAscii (text : Bytes) : Prop := ∀ b ∈ text, 0 < b ∧ b < 128

instance : DecidablePred PlainAscii :=
  fun text => inferInstanceAs (Decidable (∀ b ∈ text, 0 < b ∧ b < 128))

theorem plainAscii_cons {b : Byte} {text : Bytes} :
    PlainAscii (b :: text) ↔ (0 < b ∧ b < 128) ∧ PlainAscii text := by
  simp [PlainAscii]

/-- Valid UTF-8 never starts with a continuation byte. -/
theorem Utf8.head_not_continuation {text : Bytes} {n : ℕ} (h : Utf8 text n) :
    ∀ b ∈ text.head?, ¬IsContinuation b := by
  intro b hb hc
  obtain ⟨hlo, hhi⟩ := hc
  cases h with
  | nil => simp at hb
  | one ha _ =>
    simp only [List.head?_cons, Option.mem_def, Option.some.injEq] at hb
    rw [hb] at ha
    exact absurd (lt_of_lt_of_le ha hlo) (lt_irrefl _)
  | two ha _ _ _ =>
    simp only [List.head?_cons, Option.mem_def, Option.some.injEq] at hb
    rw [hb] at ha
    exact absurd (lt_of_le_of_lt ha hhi) (by decide)
  | three ha _ _ _ _ _ _ =>
    simp only [List.head?_cons, Option.mem_def, Option.some.injEq] at hb
    rw [hb] at ha
    exact absurd (lt_of_le_of_lt ha hhi) (by decide)
  | four ha _ _ _ _ _ _ _ =>
    simp only [List.head?_cons, Option.mem_def, Option.some.injEq] at hb
    rw [hb] at ha
    exact absurd (lt_of_le_of_lt ha hhi) (by decide)

end BackupManager.ByteStream
