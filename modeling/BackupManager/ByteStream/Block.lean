import BackupManager.ByteStream.Lapse

/-! Blocks: a count of bytes, and one extraction from what they add to the stream. On a good stream a
block comes short, is read and leaves a good stream, or fails. -/
namespace BackupManager.ByteStream

variable {σ α β : Type}

/-- The bytes `text`, read with `residue` before them, give a value and leave `left`. -/
structure Reads (n : ℕ) (f : Istream → α × Istream) (residue text : Bytes) (a : α) (left : Bytes) :
    Prop where
  width : text.length = n
  value : f (.fresh (residue ++ text)) = (a, .fresh left)

/-- The extraction fails, or runs into the end of the bytes. -/
structure Fails (n : ℕ) (f : Istream → α × Istream) (residue text : Bytes) (a : α) : Prop where
  width : text.length = n
  value : (f (.fresh (residue ++ text))).1 = a
  bad : (f (.fresh (residue ++ text))).2.good = false

namespace Istream

def lineAfterBreak (s : Istream) : Bytes × Istream := getline [] (ignore s)

def numberAndBreak (s : Istream) : ℤ × Istream :=
  ((getNumber toInt 0 s).1, (getNumber toInt 0 s).2.ignore)

end Istream

namespace Prog

def recvBlock (n : ℕ) (f : Istream → α × Istream) : Prog σ α := do
  read n
  extract f

theorem recvLine_eq (count : ℕ) :
    (recvLine count [] : Prog σ Bytes) = recvBlock count Istream.lineAfterBreak := rfl

variable {n : ℕ} {f : Istream → α × Istream} {residue text wire : Bytes} {closed : Bool} {world : σ}
  {a : α} {left : Bytes}

theorem recvBlock_append (hwidth : text.length = n) :
    recvBlock n f ⟨text ++ wire, closed, .fresh residue, world⟩ =
      (.returns (f (.fresh (residue ++ text))).1,
        ⟨wire, closed, (f (.fresh (residue ++ text))).2, world⟩) := by
  have hread := read_append text wire closed (.fresh residue) world
  rw [hwidth, Istream.receive_fresh] at hread
  rw [recvBlock, bind_of_returns hread]
  rfl

theorem recvBlock_reads (h : Reads n f residue text a left) :
    recvBlock n f ⟨text ++ wire, closed, .fresh residue, world⟩ =
      (.returns a, ⟨wire, closed, .fresh left, world⟩) := by
  rw [recvBlock_append h.width, h.value]

theorem recvBlock_fails (h : Fails n f residue text a) (wire : Bytes) (closed : Bool) (world : σ) :
    ∃ stream : Istream, stream.good = false ∧
      recvBlock n f ⟨text ++ wire, closed, .fresh residue, world⟩ =
        (.returns a, ⟨wire, closed, stream, world⟩) := by
  refine ⟨_, h.bad, ?_⟩
  rw [recvBlock_append h.width, h.value]

theorem spoils_recvBlock (h : Fails n f residue text a) :
    Spoils (recvBlock n f) ⟨text ++ wire, closed, .fresh residue, world⟩ text.length a := by
  constructor
  · intro _
    obtain ⟨stream, hbad, hrun⟩ := recvBlock_fails h wire closed world
    exact ⟨stream, hbad, by rw [hrun, List.drop_left]⟩
  · intro hlacking
    rw [List.length_append] at hlacking
    omega

/-- The stream ends within what the program takes. -/
def Short (p : Prog σ α) (residue wire : Bytes) : Prop :=
  ∀ closed world, Starved ⟨wire, closed, .fresh residue, world⟩ (p ⟨wire, closed, .fresh residue, world⟩)

theorem Short.bind {p : Prog σ α} (h : Short p residue wire) (g : α → Prog σ β) :
    Short (p >>= g) residue wire :=
  fun closed world => Starved.bind (h closed world) g

/-- After bytes that were read. -/
theorem Short.after {p : Prog σ α} {g : α → Prog σ β}
    (hp : ∀ closed world, p ⟨text ++ wire, closed, .fresh residue, world⟩ =
      (.returns a, ⟨wire, closed, .fresh left, world⟩))
    (h : Short (g a) left wire) : Short (p >>= g) residue (text ++ wire) :=
  fun closed world => Starved.of_returns (hp closed world) rfl (h closed world)

theorem short_recvBlock (h : wire.length < n) :
    Short (recvBlock n f : Prog σ α) residue wire :=
  fun _ _ => Starved.bind (starved_read h) _

/-- The stream ends within a block, or the block fails, or it is read. -/
theorem recvBlock_cases (n : ℕ) (f : Istream → α × Istream) (residue wire : Bytes) :
    wire.length < n ∨
      (∃ text more a, wire = text ++ more ∧ Fails n f residue text a) ∨
        ∃ text more a left, wire = text ++ more ∧ Reads n f residue text a left := by
  by_cases henough : n ≤ wire.length
  · have hwire : wire = wire.take n ++ wire.drop n := (List.take_append_drop n wire).symm
    have hwidth : (wire.take n).length = n := by
      rw [List.length_take]
      omega
    cases hgood : (f (.fresh (residue ++ wire.take n))).2.good with
    | false => exact Or.inr (Or.inl ⟨_, _, _, hwire, hwidth, rfl, hgood⟩)
    | true =>
      have hfresh := Istream.eq_fresh_of_good hgood
      exact Or.inr (Or.inr ⟨_, _, _, _, hwire, hwidth, Prod.ext rfl hfresh⟩)
  · exact Or.inl (not_le.mp henough)

end Prog
end BackupManager.ByteStream
