import BackupManager.ByteStream.Extension

/-! What a program has not used yet: the bytes in its stream and those still on the wire. Programs take
from the front of them, so that a line they extract is one that was sent. -/
namespace BackupManager.ByteStream

variable {σ α β : Type}

namespace Istream

theorem sentry_suffix (skipws : Bool) (s : Istream) : (sentry skipws s).2.buf <:+ s.buf := by
  unfold sentry
  split
  · split
    · split
      · exact List.nil_suffix
      · next b rest hrest => exact hrest ▸ List.dropWhile_suffix isSpace
    · exact List.suffix_refl _
  · exact List.suffix_refl _

theorem scanNumber_suffix (text : Bytes) : (scanNumber text).rest <:+ text := by
  have hdigits : ∀ negative s, (scanDigits negative s).rest <:+ s := fun _ _ =>
    List.dropWhile_suffix _
  cases text with
  | nil => exact hdigits false []
  | cons b rest =>
    rw [scanNumber]
    split_ifs
    · exact (hdigits true rest).trans (List.suffix_cons b rest)
    · exact (hdigits false rest).trans (List.suffix_cons b rest)
    · exact hdigits false (b :: rest)

theorem getNumber_suffix (convert : Bool → ℕ → α × Bool) (old : α) (s : Istream) :
    (getNumber convert old s).2.buf <:+ s.buf := by
  have hsentry := sentry_suffix true s
  unfold getNumber
  split
  · next s' heq =>
    rw [heq] at hsentry
    exact hsentry
  · next s' heq =>
    rw [heq] at hsentry
    dsimp only
    split
    · exact (scanNumber_suffix s'.buf).trans hsentry
    · exact (scanNumber_suffix s'.buf).trans hsentry

theorem ignore_suffix (s : Istream) : s.ignore.buf <:+ s.buf := by
  have hsentry := sentry_suffix false s
  unfold ignore
  split
  · next s' heq =>
    rw [heq] at hsentry
    exact hsentry
  · next s' heq =>
    rw [heq] at hsentry
    split
    · exact hsentry
    · next b rest hbuf => exact (hbuf ▸ List.suffix_cons b rest).trans hsentry

theorem getline_suffix (old : Bytes) (s : Istream) : (getline old s).2.buf <:+ s.buf := by
  have hsentry := sentry_suffix false s
  unfold getline
  split
  · next s' heq =>
    rw [heq] at hsentry
    exact hsentry
  · next s' heq =>
    rw [heq] at hsentry
    dsimp only
    split
    · exact List.nil_suffix
    · next b rest hrest =>
      have hdrop : b :: rest <:+ s'.buf := hrest ▸ List.dropWhile_suffix _
      exact ((List.suffix_cons b rest).trans hdrop).trans hsentry

theorem getWord_suffix (old : Bytes) (s : Istream) : (getWord old s).2.buf <:+ s.buf := by
  have hsentry := sentry_suffix true s
  unfold getWord
  split
  · next s' heq =>
    rw [heq] at hsentry
    exact hsentry
  · next s' heq =>
    rw [heq] at hsentry
    exact (List.dropWhile_suffix _).trans hsentry

/-- A line is taken from the buffer, or it is what the variable held. -/
theorem getline_within (old : Bytes) (s : Istream) :
    (getline old s).1 = old ∨ (getline old s).1 <:+: s.buf := by
  have hsentry := sentry_suffix false s
  unfold getline
  split
  · exact Or.inl rfl
  · next s' heq =>
    rw [heq] at hsentry
    have hline : s'.buf.takeWhile (· ≠ newline) <:+: s.buf :=
      (List.takeWhile_prefix _).isInfix.trans hsentry.isInfix
    dsimp only
    split
    · exact Or.inr hline
    · exact Or.inr hline

end Istream

/-- The bytes that have not been extracted. -/
def Session.unread (s : Session σ) : Bytes := s.stream.buf ++ s.wire

namespace Prog

/-- The program takes from the front of what is unread. -/
def Draws (p : Prog σ α) : Prop := ∀ s, (p s).2.unread <:+ s.unread

theorem Draws.returns {p : Prog σ α} {s s' : Session σ} {a : α} (hp : Draws p)
    (h : p s = (.returns a, s')) : s'.unread <:+ s.unread := by
  have hend := hp s
  rwa [h] at hend

theorem Draws.pure (a : α) : Draws (Pure.pure a : Prog σ α) := fun _ => List.suffix_refl _

theorem Draws.throw (what : String) : Draws (throw what : Prog σ α) := fun _ => List.suffix_refl _

theorem Draws.getWorld : Draws (getWorld : Prog σ σ) := fun _ => List.suffix_refl _

theorem Draws.act (what : String) (f : σ → Bool × σ) : Draws (act what f) := fun _ =>
  List.suffix_refl _

theorem Draws.bind {p : Prog σ α} {f : α → Prog σ β} (hp : Draws p) (hf : ∀ a, Draws (f a)) :
    Draws (p >>= f) := by
  intro s
  have h := hp s
  rw [bind_apply]
  cases hs : p s with
  | mk o s' =>
    rw [hs] at h
    cases o with
    | returns a => exact (hf a s').trans h
    | throws what => exact h
    | waits => exact h

theorem Draws.extract {f : Istream → α × Istream} (hf : ∀ s, (f s).2.buf <:+ s.buf) :
    Draws (extract f : Prog σ α) := by
  intro s
  obtain ⟨head, hhead⟩ := hf s.stream
  refine ⟨head, ?_⟩
  show head ++ ((f s.stream).2.buf ++ s.wire) = s.stream.buf ++ s.wire
  rw [← List.append_assoc, hhead]

/-- Reading moves bytes from the wire into the stream. -/
theorem Draws.read (n : ℕ) : Draws (read n : Prog σ Unit) := by
  intro s
  unfold Prog.read
  split
  · have hmoved : s.stream.buf ++ s.wire.take n ++ s.wire.drop n = s.stream.buf ++ s.wire := by
      rw [List.append_assoc, List.take_append_drop]
    exact ⟨[], hmoved⟩
  · split
    · exact ⟨[], List.append_nil _⟩
    · exact List.suffix_refl _

theorem Draws.recvInt (w : ℕ) (old : ℤ) : Draws (recvInt w old : Prog σ ℤ) :=
  .bind (.read _) fun _ => .extract fun s => s.getNumber_suffix Istream.toInt old

theorem Draws.recvLine (count : ℕ) (old : Bytes) : Draws (recvLine count old : Prog σ Bytes) :=
  .bind (.read _) fun _ => .bind (.extract Istream.ignore_suffix) fun _ =>
    .extract (Istream.getline_suffix old)

/-- A line that was received is part of what was unread, or it is what the variable held. -/
theorem recvLine_within {count : ℕ} {old line : Bytes} {s s' : Session σ}
    (h : recvLine count old s = (.returns line, s')) : line = old ∨ line <:+: s.unread := by
  obtain ⟨_, s₁, hread, h⟩ := bind_returns h
  obtain ⟨_, s₂, hignore, h⟩ := bind_returns h
  have h₁ : s₁.unread <:+ s.unread := (Draws.read count).returns hread
  have h₂ : s₂.unread <:+ s₁.unread := (Draws.extract Istream.ignore_suffix).returns hignore
  rw [getLine_apply] at h
  obtain ⟨hline, -⟩ := Prod.mk.inj h
  rcases Istream.getline_within old s₂.stream with hold | hpart
  · exact Or.inl ((Outcome.returns.inj hline).symm.trans hold)
  · rw [Outcome.returns.inj hline] at hpart
    have hbuf : s₂.stream.buf <:+: s₂.unread := (List.prefix_append _ _).isInfix
    exact Or.inr (hpart.trans (hbuf.trans (h₂.trans h₁).isInfix))

end Prog
end BackupManager.ByteStream
