import BackupManager.ByteStream.Program

/-! Fields of a text protocol: numbers padded to a fixed width and ended by a line break, and
lines whose length was announced before. The reader takes the fixed width of a number and the
announced length of a line, so the line break of one field is still unread when the next is
read; `residue` is what stands in the buffer at that point. -/
namespace BackupManager.ByteStream

/-- `os << std::setw(w) << std::setfill('0') << z << "\n"`. -/
def field (w : ℕ) (z : ℤ) : Bytes := fillLeft w (showInt z) ++ [newline]

/-- The number takes the width exactly, and no fill stands before a minus sign. -/
def Fits (w : ℕ) (z : ℤ) : Prop := (showInt z).length ≤ w ∧ (0 ≤ z ∨ (showInt z).length = w)

instance (w : ℕ) (z : ℤ) : Decidable (Fits w z) := inferInstanceAs (Decidable (_ ∧ _))

def InInt (z : ℤ) : Prop := Istream.intMin ≤ z ∧ z ≤ Istream.intMax

instance (z : ℤ) : Decidable (InInt z) := inferInstanceAs (Decidable (_ ∧ _))

def Blank (residue : Bytes) : Prop := ∀ b ∈ residue, isSpace b = true

theorem Blank.nil : Blank [] := by simp [Blank]

theorem Blank.newline : Blank [newline] := by simp [Blank, isSpace, ByteStream.newline]

theorem length_field (w : ℕ) (z : ℤ) : (field w z).length = max w (showInt z).length + 1 := by
  simp [field, length_fillLeft]

theorem showInt_natCast (n : ℕ) : showInt (n : ℤ) = decimal n := by
  simp [showInt]

theorem fits_natCast {w n : ℕ} (hw : 0 < w) : Fits w n ↔ n < 10 ^ w := by
  simp [Fits, showInt_natCast, length_decimal_le_iff hw]

theorem not_isDigit_newline : isDigit newline = false := by decide

theorem not_isSpace_minusSign : isSpace minusSign = false := by decide

theorem head_not_isDigit_newline (rest : Bytes) :
    ∀ b ∈ (newline :: rest).head?, isDigit b = false := by
  simp [not_isDigit_newline]

section Numbers

variable {α : Type} {w : ℕ} {residue : Bytes}

theorem showInt_negSucc (m : ℕ) : showInt (Int.negSucc m) = minusSign :: decimal (m + 1) := by
  simp [showInt]

/-- A padded number without a sign. -/
theorem getNumber_field_natCast (convert : Bool → ℕ → α × Bool) (old : α) (n : ℕ)
    (hr : Blank residue) :
    Istream.getNumber convert old (.fresh (residue ++ field w n)) =
      ((convert false n).1, ⟨[newline], false, !(convert false n).2⟩) := by
  have hd : ∀ b ∈ fillLeft w (decimal n), isDigit b = true := by
    intro b hb
    rcases List.mem_append.mp hb with hb | hb
    · exact isDigit_of_mem_zeros b hb
    · exact isDigit_of_mem_decimal n b hb
  have hne : fillLeft w (decimal n) ≠ [] := by simp [fillLeft, decimal_ne_nil]
  have hscan := Istream.scanNumber_digits hd hne (head_not_isDigit_newline [])
  have hhead : ∀ b ∈ (fillLeft w (decimal n) ++ [newline]).head?, isSpace b = false := by
    obtain ⟨b, t, ht⟩ := List.exists_cons_of_ne_nil hne
    rw [ht] at hd ⊢
    simpa using Istream.isSpace_of_isDigit (hd b List.mem_cons_self)
  rw [field, showInt_natCast, Istream.getNumber_fresh convert old hr hhead hscan hne]
  simp [fillLeft]

/-- A negative number that fills its width. -/
theorem getNumber_field_negSucc (convert : Bool → ℕ → α × Bool) (old : α) (m : ℕ)
    (hr : Blank residue) (hw : (showInt (Int.negSucc m)).length = w) :
    Istream.getNumber convert old (.fresh (residue ++ field w (Int.negSucc m))) =
      ((convert true (m + 1)).1, ⟨[newline], false, !(convert true (m + 1)).2⟩) := by
  have htext : field w (Int.negSucc m) = minusSign :: (decimal (m + 1) ++ [newline]) := by
    rw [field, fillLeft, hw, Nat.sub_self, showInt_negSucc]
    rfl
  have hscan := Istream.scanNumber_minus (isDigit_of_mem_decimal (m + 1))
    (head_not_isDigit_newline [])
  rw [htext, Istream.getNumber_fresh convert old hr (by simp [not_isSpace_minusSign]) hscan
    (decimal_ne_nil _)]
  simp

/-- A negative number that was padded reads as the zeros before its sign. -/
theorem getNumber_field_padded (convert : Bool → ℕ → α × Bool) (old : α) (m : ℕ)
    (hr : Blank residue) (hw : (showInt (Int.negSucc m)).length < w) :
    (Istream.getNumber convert old (.fresh (residue ++ field w (Int.negSucc m)))).1 =
      (convert false 0).1 := by
  obtain ⟨k, hk⟩ : ∃ k, w - (showInt (Int.negSucc m)).length = k + 1 :=
    ⟨_, (Nat.succ_pred_eq_of_pos (by omega)).symm⟩
  have htext : field w (Int.negSucc m) = List.replicate (k + 1) zeroDigit ++
      (minusSign :: (decimal (m + 1) ++ [newline])) := by
    rw [field, fillLeft, hk, showInt_negSucc]
    simp
  have hminus : ∀ b ∈ (minusSign :: (decimal (m + 1) ++ [newline])).head?, isDigit b = false := by
    simp
    decide
  have hscan := Istream.scanNumber_digits (isDigit_of_mem_zeros (k := k + 1)) (by simp) hminus
  have heval : evalDigits (List.replicate (k + 1) zeroDigit) = 0 := by
    simpa [evalDigits] using evalDigits_zeros_append (k + 1) []
  rw [htext, Istream.getNumber_fresh convert old hr (by simp [List.replicate_succ]; decide) hscan
    (by simp)]
  simp only [heval]

/-- A number longer than its width is cut, and the extraction runs into the end of the buffer. -/
theorem getNumber_overlong (convert : Bool → ℕ → α × Bool) (old : α) {z : ℤ}
    (hr : Blank residue) (hw : w < (showInt z).length) :
    (Istream.getNumber convert old (.fresh (residue ++ (showInt z).take (w + 1)))).2.good = false := by
  cases z with
  | ofNat n =>
    have hd : ∀ b ∈ (showInt (Int.ofNat n)).take (w + 1), isDigit b = true := by
      intro b hb
      rw [Int.ofNat_eq_natCast, showInt_natCast] at hb
      exact isDigit_of_mem_decimal n b (List.mem_of_mem_take hb)
    have hne : (showInt (Int.ofNat n)).take (w + 1) ≠ [] := by
      intro h
      rw [List.take_eq_nil_iff] at h
      rcases h with h | h
      · omega
      · rw [h] at hw; simp at hw
    have hscan := Istream.scanNumber_digits hd hne Istream.head_not_isDigit_nil
    rw [List.append_nil] at hscan
    have hhead : ∀ b ∈ ((showInt (Int.ofNat n)).take (w + 1)).head?, isSpace b = false := by
      intro b hb
      exact Istream.isSpace_of_isDigit (hd b (List.mem_of_mem_head? hb))
    rw [Istream.getNumber_fresh convert old hr hhead hscan hne]
    simp [Istream.good]
  | negSucc m =>
    have hd : ∀ b ∈ (decimal (m + 1)).take w, isDigit b = true :=
      fun b hb => isDigit_of_mem_decimal (m + 1) b (List.mem_of_mem_take hb)
    have hscan := Istream.scanNumber_minus hd Istream.head_not_isDigit_nil
    rw [List.append_nil] at hscan
    rw [showInt_negSucc, List.take_succ_cons]
    by_cases hne : (decimal (m + 1)).take w = []
    · have hskip : (residue ++ [minusSign]).dropWhile isSpace = [minusSign] := by
        rw [List.dropWhile_append_of_pos hr]
        simp [not_isSpace_minusSign]
      rw [hne]
      simp only [Istream.getNumber, Istream.sentry, Istream.good_fresh, Istream.buf_fresh, hskip]
      rfl
    · rw [Istream.getNumber_fresh convert old hr (by simp [not_isSpace_minusSign]) hscan hne]
      simp [Istream.good]

/-- The number a sign and a magnitude denote. -/
def signed (negative : Bool) (m : ℕ) : ℤ := if negative then -(m : ℤ) else m

theorem toInt_of_inInt (negative : Bool) (m : ℕ) (h : InInt (signed negative m)) :
    Istream.toInt negative m = (signed negative m, true) := by
  cases negative
  · simp [Istream.toInt, signed, not_lt.mpr (by simpa [signed] using h.2)]
  · simp [Istream.toInt, signed, not_lt.mpr (by simpa [signed] using h.1)]

theorem toInt_of_not_inInt (negative : Bool) (m : ℕ) (h : ¬InInt (signed negative m)) :
    (Istream.toInt negative m).2 = false := by
  cases negative
  · have hm : Istream.intMax < (m : ℤ) := by
      simp only [InInt, signed, Istream.intMin, Istream.intMax] at h ⊢
      simp only [Bool.false_eq_true, if_false] at h
      omega
    simp [Istream.toInt, hm]
  · have hm : -(m : ℤ) < Istream.intMin := by
      simp only [InInt, signed, Istream.intMin, Istream.intMax] at h ⊢
      simp only [if_true] at h
      omega
    simp [Istream.toInt, hm]

/-- What is stored is an `int`, also when the number was out of range. -/
theorem inInt_toInt (negative : Bool) (m : ℕ) : InInt (Istream.toInt negative m).1 := by
  unfold Istream.toInt InInt Istream.intMin Istream.intMax
  split
  · split
    · exact ⟨le_refl _, by decide⟩
    · dsimp only
      omega
  · split
    · exact ⟨by decide, le_refl _⟩
    · dsimp only
      omega

theorem toSizeT_of_lt {m : ℕ} (h : m < 2 ^ 64) : Istream.toSizeT false m = (m, true) := by
  simp only [Istream.toSizeT, not_le.mpr h, if_false, Bool.false_eq_true]

end Numbers

namespace Prog

variable {σ : Type}

/-- Read a fixed-width number and its line break, then extract the number. -/
def recvInt (w : ℕ) (old : ℤ) : Prog σ ℤ := do
  read (w + 1)
  getInt old

def recvSize (w : ℕ) (old : ℕ) : Prog σ ℕ := do
  read (w + 1)
  getSize old

/-- Read `count` bytes, a line and its line break, then drop the line break left by the field
before and take the line. -/
def recvLine (count : ℕ) (old : Bytes) : Prog σ Bytes := do
  read count
  ignore
  getLine old

/-- Read `n` bytes in pieces of at most `max` and hand each piece on. -/
def recvChunks (max : ℕ) (each : Bytes → Prog σ Unit) (n : ℕ) : Prog σ Bytes :=
  if _h : 0 < min n max then do
    read (min n max)
    let chunk ← readArray (min n max)
    each chunk
    let rest ← recvChunks max each (n - min n max)
    pure (chunk ++ rest)
  else pure []
termination_by n
decreasing_by omega

section Reading

variable {w : ℕ} {residue wire : Bytes} {closed : Bool} {world : σ}

theorem length_field_of_le {z : ℤ} (h : (showInt z).length ≤ w) : (field w z).length = w + 1 := by
  rw [length_field]
  omega

theorem recvInt_returns {old v : ℤ} {s s' : Session σ} (h : recvInt w old s = (.returns v, s')) :
    w + 1 ≤ s.wire.length ∧
      s' = { s with
        wire := s.wire.drop (w + 1)
        stream := ((s.stream.receive (s.wire.take (w + 1))).getNumber Istream.toInt old).2 } ∧
      v = ((s.stream.receive (s.wire.take (w + 1))).getNumber Istream.toInt old).1 := by
  obtain ⟨u, s₁, hread, hget⟩ := bind_returns h
  obtain ⟨hlen, rfl⟩ := read_returns hread
  rw [getInt_apply, Prod.mk.injEq, Outcome.returns.injEq] at hget
  exact ⟨hlen, hget.2.symm, hget.1.symm⟩

/-- A number is taken as soon as its width has arrived. -/
theorem recvInt_of_le {s : Session σ} (h : w + 1 ≤ s.wire.length) (old : ℤ) :
    ∃ v s', recvInt w old s = (.returns v, s') := by
  have hread : read (w + 1) s = (.returns (), { s with
      wire := s.wire.drop (w + 1), stream := s.stream.receive (s.wire.take (w + 1)) }) := by
    rw [read, if_pos h]
  exact ⟨_, _, bind_of_returns hread _⟩

/-- The round trip of a number: what `recvInt` stores, and the state it leaves. -/
theorem recvInt_field {z : ℤ} (hf : Fits w z) (hi : InInt z) (hr : Blank residue) (old : ℤ) :
    recvInt w old ⟨field w z ++ wire, closed, .fresh residue, world⟩ =
      (.returns z, ⟨wire, closed, .fresh [newline], world⟩) := by
  have hread := read_append (field w z) wire closed (.fresh residue) world
  rw [length_field_of_le hf.1] at hread
  rw [recvInt, bind_of_returns hread, getInt_apply, Istream.receive_fresh]
  cases z with
  | ofNat n =>
    have hv := toInt_of_inInt false n hi
    rw [Int.ofNat_eq_natCast, getNumber_field_natCast _ _ _ hr, hv]
    rfl
  | negSucc m =>
    have hw : (showInt (Int.negSucc m)).length = w := hf.2.resolve_left (by omega)
    have hneg : signed true (m + 1) = Int.negSucc m := by simp [signed, Int.negSucc_eq]
    have hv := toInt_of_inInt true (m + 1) (by rwa [hneg])
    rw [getNumber_field_negSucc _ _ _ hr hw, hv, hneg]
    rfl

/-- The converse: a number that does not fit is read as another number, or breaks the stream. -/
theorem recvInt_inexact {z old v : ℤ} {s' : Session σ} (hr : Blank residue)
    (h : recvInt w old ⟨field w z ++ wire, closed, .fresh residue, world⟩ = (.returns v, s')) :
    v ≠ z ∨ s'.stream.good = false ∨ Fits w z ∧ InInt z := by
  obtain ⟨-, rfl, rfl⟩ := recvInt_returns h
  dsimp only
  rcases Nat.lt_or_ge w (showInt z).length with hlong | hshort
  · have htake : (field w z ++ wire).take (w + 1) = (showInt z).take (w + 1) := by
      rw [field, fillLeft, Nat.sub_eq_zero_of_le hlong.le, List.replicate_zero, List.nil_append,
        List.append_assoc, List.take_append_of_le_length hlong]
    rw [htake, Istream.receive_fresh]
    exact Or.inr (Or.inl (getNumber_overlong _ _ hr hlong))
  · have htake : (field w z ++ wire).take (w + 1) = field w z := by
      rw [List.take_append_of_le_length (length_field_of_le hshort).ge,
        List.take_of_length_le (length_field_of_le hshort).le]
    rw [htake, Istream.receive_fresh]
    by_cases hi : InInt z
    · cases z with
      | ofNat n => exact Or.inr (Or.inr ⟨⟨hshort, Or.inl (by simp)⟩, hi⟩)
      | negSucc m =>
        rcases hshort.lt_or_eq with hlt | heq
        · left
          rw [getNumber_field_padded _ _ _ hr hlt]
          simp [Istream.toInt, Istream.intMax]
        · exact Or.inr (Or.inr ⟨⟨hshort, Or.inr heq⟩, hi⟩)
    · cases z with
      | ofNat n =>
        right; left
        rw [Int.ofNat_eq_natCast, getNumber_field_natCast _ _ _ hr,
          toInt_of_not_inInt false n (by simpa [signed] using hi)]
        rfl
      | negSucc m =>
        have hneg : signed true (m + 1) = Int.negSucc m := by simp [signed, Int.negSucc_eq]
        rcases hshort.lt_or_eq with hlt | heq
        · left
          rw [getNumber_field_padded _ _ _ hr hlt]
          simp [Istream.toInt, Istream.intMax]
        · right; left
          rw [getNumber_field_negSucc _ _ _ hr heq, toInt_of_not_inInt true (m + 1) (by rwa [hneg])]
          rfl

/-- A count too large for the width or for an `int` is read as the largest `int`. -/
theorem recvInt_count {n : ℕ} {old v : ℤ} {s' : Session σ} (hw : Istream.intMax < 10 ^ w)
    (hr : Blank residue)
    (h : recvInt w old ⟨field w n ++ wire, closed, .fresh residue, world⟩ = (.returns v, s')) :
    v = min (n : ℤ) Istream.intMax := by
  obtain ⟨-, -, rfl⟩ := recvInt_returns h
  have htoInt : ∀ m : ℕ, (Istream.toInt false m).1 = min (m : ℤ) Istream.intMax := by
    intro m
    simp only [Istream.toInt, Bool.false_eq_true, if_false]
    split
    · exact (min_eq_right (by omega)).symm
    · exact (min_eq_left (by omega)).symm
  dsimp only
  rcases Nat.lt_or_ge w (showInt n).length with hlong | hshort
  · have htake : (field w n ++ wire).take (w + 1) = (showInt n).take (w + 1) := by
      rw [field, fillLeft, Nat.sub_eq_zero_of_le hlong.le, List.replicate_zero, List.nil_append,
        List.append_assoc, List.take_append_of_le_length hlong]
    rw [htake, Istream.receive_fresh]
    rw [showInt_natCast] at hlong ⊢
    obtain ⟨m, hm⟩ := take_decimal (Nat.succ_pos w) n
    have hscan := Istream.scanNumber_digits (isDigit_of_mem_decimal m) (decimal_ne_nil m)
      Istream.head_not_isDigit_nil
    rw [List.append_nil] at hscan
    have hhead : ∀ b ∈ (decimal m).head?, isSpace b = false := by
      intro b hb
      exact Istream.isSpace_of_isDigit (isDigit_of_mem_decimal m b (List.mem_of_mem_head? hb))
    have hwpos : 0 < w := by
      by_contra hzero
      rw [Nat.eq_zero_of_not_pos hzero, pow_zero] at hw
      exact absurd hw (by decide)
    have hlarge : 10 ^ w ≤ n := by
      by_contra hlt
      exact absurd ((length_decimal_le_iff hwpos).mpr (not_le.mp hlt)) (by omega)
    have hmlarge : 10 ^ w ≤ m := by
      by_contra hlt
      have hle := (length_decimal_le_iff hwpos).mpr (not_le.mp hlt)
      rw [← hm, List.length_take] at hle
      omega
    have hm' : Istream.intMax ≤ (m : ℤ) := by
      have : ((10 ^ w : ℕ) : ℤ) ≤ m := by exact_mod_cast hmlarge
      push_cast at this
      omega
    have hn' : Istream.intMax ≤ (n : ℤ) := by
      have : ((10 ^ w : ℕ) : ℤ) ≤ n := by exact_mod_cast hlarge
      push_cast at this
      omega
    rw [hm, Istream.getNumber_fresh _ _ hr hhead hscan (decimal_ne_nil m)]
    simp only [evalDigits_decimal, htoInt]
    rw [min_eq_right hm', min_eq_right hn']
  · have htake : (field w n ++ wire).take (w + 1) = field w n := by
      rw [List.take_append_of_le_length (length_field_of_le hshort).ge,
        List.take_of_length_le (length_field_of_le hshort).le]
    rw [htake, Istream.receive_fresh, getNumber_field_natCast _ _ _ hr]
    exact htoInt n

theorem recvSize_returns {old v : ℕ} {s s' : Session σ} (h : recvSize w old s = (.returns v, s')) :
    w + 1 ≤ s.wire.length ∧
      s' = { s with
        wire := s.wire.drop (w + 1)
        stream := ((s.stream.receive (s.wire.take (w + 1))).getNumber Istream.toSizeT old).2 } ∧
      v = ((s.stream.receive (s.wire.take (w + 1))).getNumber Istream.toSizeT old).1 := by
  obtain ⟨u, s₁, hread, hget⟩ := bind_returns h
  obtain ⟨hlen, rfl⟩ := read_returns hread
  rw [getSize_apply, Prod.mk.injEq, Outcome.returns.injEq] at hget
  exact ⟨hlen, hget.2.symm, hget.1.symm⟩

theorem recvSize_field {n : ℕ} (hf : Fits w n) (hn : n < 2 ^ 64) (hr : Blank residue) (old : ℕ) :
    recvSize w old ⟨field w n ++ wire, closed, .fresh residue, world⟩ =
      (.returns n, ⟨wire, closed, .fresh [newline], world⟩) := by
  have hread := read_append (field w n) wire closed (.fresh residue) world
  rw [length_field_of_le hf.1] at hread
  rw [recvSize, bind_of_returns hread, getSize_apply, Istream.receive_fresh,
    getNumber_field_natCast _ _ _ hr, toSizeT_of_lt hn]
  rfl

/-- A count of more digits than the width holds breaks the stream. -/
theorem recvSize_overlong {n old v : ℕ} {s' : Session σ} (hw : 0 < w) (hn : 10 ^ w ≤ n)
    (hr : Blank residue)
    (h : recvSize w old ⟨field w n ++ wire, closed, .fresh residue, world⟩ = (.returns v, s')) :
    s'.stream.good = false := by
  obtain ⟨-, rfl, -⟩ := recvSize_returns h
  have hlong : w < (showInt n).length := by
    by_contra hle
    rw [showInt_natCast, not_lt, length_decimal_le_iff hw] at hle
    omega
  have htake : (field w n ++ wire).take (w + 1) = (showInt n).take (w + 1) := by
    rw [field, fillLeft, Nat.sub_eq_zero_of_le hlong.le, List.replicate_zero, List.nil_append,
      List.append_assoc, List.take_append_of_le_length hlong]
  dsimp only
  rw [htake, Istream.receive_fresh]
  exact getNumber_overlong _ _ hr hlong

theorem recvSize_of_bad {old v : ℕ} {s s' : Session σ} (hb : s.stream.good = false)
    (h : recvSize w old s = (.returns v, s')) : v = old ∧ s'.stream.good = false := by
  obtain ⟨-, rfl, rfl⟩ := recvSize_returns h
  have hb' : (s.stream.receive (s.wire.take (w + 1))).good = false := by simpa using hb
  rw [Istream.getNumber_of_bad _ _ hb']
  exact ⟨rfl, by simp [Istream.good]⟩

theorem recvLine_returns {count : ℕ} {old v : Bytes} {s s' : Session σ}
    (h : recvLine count old s = (.returns v, s')) :
    count ≤ s.wire.length ∧
      s' = { s with
        wire := s.wire.drop count
        stream := ((s.stream.receive (s.wire.take count)).ignore.getline old).2 } ∧
      v = ((s.stream.receive (s.wire.take count)).ignore.getline old).1 := by
  obtain ⟨u, s₁, hread, h⟩ := bind_returns h
  obtain ⟨hlen, rfl⟩ := read_returns hread
  rw [bind_of_returns (ignore_apply _), getLine_apply, Prod.mk.injEq, Outcome.returns.injEq] at h
  exact ⟨hlen, h.2.symm, h.1.symm⟩

theorem recvLine_field {line : Bytes} {count : ℕ} (hc : count = line.length + 1)
    (hl : newline ∉ line) (old : Bytes) :
    recvLine count old ⟨line ++ newline :: wire, closed, .fresh [newline], world⟩ =
      (.returns line, ⟨wire, closed, .fresh [], world⟩) := by
  have hread := read_append (line ++ [newline]) wire closed (.fresh [newline]) world
  rw [List.length_append, List.length_singleton, List.append_assoc, List.singleton_append,
    ← hc] at hread
  rw [recvLine, bind_of_returns hread, bind_of_returns (ignore_apply _), getLine_apply]
  simp only [Istream.receive_fresh, List.singleton_append, Istream.ignore_fresh_cons]
  rw [Istream.getline_fresh hl]

private theorem takeWhile_append_newline (line : Bytes) :
    (line ++ [newline]).takeWhile (· ≠ newline) = line.takeWhile (· ≠ newline) := by
  induction line with
  | nil => simp
  | cons b line ih =>
    rw [List.cons_append, List.takeWhile_cons, List.takeWhile_cons, ih]

/-- A line that holds a line break arrives cut. -/
theorem recvLine_cut {line old v : Bytes} {count : ℕ} {s' : Session σ}
    (hc : count = line.length + 1)
    (h : recvLine count old ⟨line ++ newline :: wire, closed, .fresh [newline], world⟩ =
      (.returns v, s')) : v = line.takeWhile (· ≠ newline) := by
  obtain ⟨-, -, rfl⟩ := recvLine_returns h
  have htake : (line ++ newline :: wire).take count = line ++ [newline] := by
    rw [← List.singleton_append, ← List.append_assoc, List.take_left' (by simp [hc])]
  rw [htake, Istream.receive_fresh, List.singleton_append, Istream.ignore_fresh_cons,
    Istream.getline_fresh_fst, takeWhile_append_newline]

theorem recvLine_of_bad {count : ℕ} {old v : Bytes} {s s' : Session σ}
    (hb : s.stream.good = false) (h : recvLine count old s = (.returns v, s')) :
    v = old ∧ s'.stream.good = false := by
  obtain ⟨-, rfl, rfl⟩ := recvLine_returns h
  have hb' : (s.stream.receive (s.wire.take count)).good = false := by simpa using hb
  have hb'' : ((s.stream.receive (s.wire.take count)).ignore).good = false := by
    rw [Istream.ignore_of_bad hb']
    simp [Istream.good]
  rw [Istream.getline_of_bad _ hb'']
  exact ⟨rfl, by simp [Istream.good]⟩

end Reading

section Chunks

variable {max : ℕ} {each : Bytes → Prog σ Unit}

theorem recvChunks_zero (max : ℕ) (each : Bytes → Prog σ Unit) : recvChunks max each 0 = pure [] := by
  rw [recvChunks]
  simp

/-- What the parts of the loop have, and is kept by their composition, the loop has. -/
theorem recvChunks_rule {P : ∀ {β : Type}, Prog σ β → Prop}
    (hpure : ∀ {β : Type} (b : β), P (pure b : Prog σ β))
    (hbind : ∀ {β γ : Type} {p : Prog σ β} {f : β → Prog σ γ}, P p → (∀ b, P (f b)) → P (p >>= f))
    (hread : ∀ n, P (read n : Prog σ Unit)) (harray : ∀ n, P (readArray n : Prog σ Bytes))
    (h : ∀ chunk, P (each chunk)) (n : ℕ) : P (recvChunks max each n) := by
  induction n using Nat.strong_induction_on with
  | _ n ih =>
    unfold Prog.recvChunks
    split
    · next hpos =>
      refine hbind (hread _) fun _ => hbind (harray _) fun chunk => hbind (h chunk) fun _ => ?_
      exact hbind (ih _ (by omega)) fun _ => hpure _
    · exact hpure _

end Chunks

section Steps

variable {R : σ → σ → Prop} [Std.Refl R] [IsTrans σ R]

theorem Steps.recvInt (w : ℕ) (old : ℤ) : Steps R (recvInt w old : Prog σ ℤ) :=
  .bind (.read _) fun _ => .extract _

theorem Steps.recvSize (w old : ℕ) : Steps R (recvSize w old : Prog σ ℕ) :=
  .bind (.read _) fun _ => .extract _

theorem Steps.recvLine (count : ℕ) (old : Bytes) : Steps R (recvLine count old : Prog σ Bytes) :=
  .bind (.read _) fun _ => .bind (.extract _) fun _ => .extract _

theorem Steps.recvChunks {max : ℕ} {each : Bytes → Prog σ Unit} (h : ∀ chunk, Steps R (each chunk))
    (n : ℕ) : Steps R (recvChunks max each n) :=
  recvChunks_rule (P := Steps R) .pure .bind .read (fun _ => .extract _) h n

end Steps
end Prog
end BackupManager.ByteStream
