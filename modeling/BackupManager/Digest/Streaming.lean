import BackupManager.ByteStream.Ifstream

/-! Digests that are fed in pieces, from memory or from a file, and their text in hexadecimal. -/
namespace BackupManager.Digest
open ByteStream

/-- The calls that compute a digest; `none` is a failure. -/
structure Evp (Ctx : Type) where
  new : Option Ctx
  init : Ctx → Option Ctx
  digestInit : Ctx → Option Ctx
  digestUpdate : Ctx → Bytes → Option Ctx
  digestFinal : Ctx → Option Bytes

variable {Ctx α : Type}

/-- An update with two parts in turn is one with the whole. -/
def Evp.Compositional (evp : Evp Ctx) : Prop :=
  ∀ ctx a b, (evp.digestUpdate ctx a).bind (evp.digestUpdate · b) = evp.digestUpdate ctx (a ++ b)

/-- A failed call throws. -/
def orThrow (what : String) : Option α → Except String α
  | some a => .ok a
  | none => .error what

@[simp] theorem orThrow_bind {β : Type} (what : String) (r : Option α) (f : α → Option β) :
    (orThrow what r >>= fun a => orThrow what (f a)) = orThrow what (r.bind f) := by
  cases r <;> rfl

/-- `std::hex << std::setfill('0') << std::setw(2)` of a byte. -/
def hexByte (b : Byte) : Bytes := fillLeft 2 ((Nat.toDigits 16 b.toNat).map Char.toUInt8)

def hexText (digest : Bytes) : Bytes := digest.flatMap hexByte

theorem hexByte_eq (b : Byte) : hexByte b = [digitByte (b.toNat / 16), digitByte (b.toNat % 16)] := by
  have hlt : b.toNat < 256 := b.toNat_lt
  rcases Nat.lt_or_ge b.toNat 16 with hsmall | hlarge
  · rw [hexByte, Nat.toDigits_of_lt_base hsmall, Nat.div_eq_of_lt hsmall, Nat.mod_eq_of_lt hsmall]
    rfl
  · have hhigh : b.toNat / 16 < 16 := by omega
    rw [hexByte, Nat.toDigits_of_base_le (by omega) hlarge, Nat.toDigits_of_lt_base hhigh]
    rfl

theorem digitByte_injective : ∀ m < 16, ∀ n < 16, digitByte m = digitByte n → m = n := by
  decide

theorem hexByte_injective {a b : Byte} (h : hexByte a = hexByte b) : a = b := by
  have ha : a.toNat < 256 := a.toNat_lt
  have hb : b.toNat < 256 := b.toNat_lt
  rw [hexByte_eq, hexByte_eq, List.cons.injEq, List.cons.injEq] at h
  have hhigh := digitByte_injective _ (by omega) _ (by omega) h.1
  have hlow := digitByte_injective _ (by omega) _ (by omega) h.2.1
  apply UInt8.toNat_inj.mp
  omega

theorem hexText_injective {digest digest' : Bytes} (h : hexText digest = hexText digest') :
    digest = digest' := by
  induction digest generalizing digest' with
  | nil =>
    cases digest' with
    | nil => rfl
    | cons b digest' =>
      rw [hexText, hexText, List.flatMap_cons, hexByte_eq] at h
      cases h
  | cons a digest ih =>
    cases digest' with
    | nil =>
      rw [hexText, hexText, List.flatMap_cons, hexByte_eq] at h
      cases h
    | cons b digest' =>
      rw [hexText, hexText, List.flatMap_cons, List.flatMap_cons] at h
      have hlength : (hexByte a).length = (hexByte b).length := by
        rw [hexByte_eq, hexByte_eq]
        rfl
      obtain ⟨hbyte, hrest⟩ := List.append_inj h hlength
      rw [hexByte_injective hbyte, ih hrest]

/-- Only lower case digits. -/
theorem of_mem_hexText {digest : Bytes} {c : Byte} (h : c ∈ hexText digest) :
    isDigit c = true ∨ 97 ≤ c ∧ c ≤ 102 := by
  have hdigit : ∀ n < 16, isDigit (digitByte n) = true ∨ 97 ≤ digitByte n ∧ digitByte n ≤ 102 := by
    decide
  rw [hexText, List.mem_flatMap] at h
  obtain ⟨b, -, hc⟩ := h
  have hlt : b.toNat < 256 := b.toNat_lt
  rw [hexByte_eq, List.mem_cons, List.mem_singleton] at hc
  obtain rfl | rfl := hc
  · exact hdigit _ (by omega)
  · exact hdigit _ (by omega)

theorem length_hexText (digest : Bytes) : (hexText digest).length = 2 * digest.length := by
  induction digest with
  | nil => rfl
  | cons b digest ih =>
    rw [hexText, List.flatMap_cons, List.length_append, hexByte_eq]
    rw [hexText] at ih
    rw [ih, List.length_cons, List.length_cons, List.length_cons, List.length_nil]
    omega

/-- The SHA-256 digests of the texts `hi` and `ho`. -/
def shortDigests : List (Bytes × Bytes) :=
  [([104, 105],
    [0x8f, 0x43, 0x43, 0x46, 0x64, 0x8f, 0x6b, 0x96, 0xdf, 0x89, 0xdd, 0xa9, 0x01, 0xc5, 0x17, 0x6b,
      0x10, 0xa6, 0xd8, 0x39, 0x61, 0xdd, 0x3c, 0x1a, 0xc8, 0x8b, 0x59, 0xb2, 0xdc, 0x32, 0x7a, 0xa4]),
    ([104, 111],
    [0xa8, 0x21, 0xc6, 0x2e, 0x81, 0x04, 0xf8, 0x51, 0x9d, 0x63, 0x9b, 0x4c, 0x09, 0x48, 0xae, 0xce,
      0x64, 0x1b, 0x14, 0x3f, 0x66, 0x01, 0xfa, 0x14, 0x59, 0x93, 0xbb, 0x2e, 0x2c, 0x72, 0x99, 0xd4])]

/-- The text of a digest, for contents with an entry in `shortDigests`. -/
def shortDigest (content : Bytes) : Bytes :=
  hexText ((shortDigests.lookup content).getD (List.replicate 32 0))

theorem length_shortDigest (content : Bytes) : (shortDigest content).length = 64 := by
  have hlengths : ∀ e ∈ shortDigests, e.2.length = 32 := by decide
  rw [shortDigest, length_hexText]
  cases hfind : shortDigests.lookup content with
  | none => rfl
  | some digest =>
    obtain ⟨before, after, hsplit, -⟩ := List.lookup_eq_some_iff.mp hfind
    have hmem : (content, digest) ∈ shortDigests := by simp [hsplit]
    rw [Option.getD_some, hlengths _ hmem]

end BackupManager.Digest
