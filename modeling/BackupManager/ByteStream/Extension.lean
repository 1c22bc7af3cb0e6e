import BackupManager.ByteStream.Field

/-! Programs that look only at the bytes they take: on an open channel, what arrives later does not
change a run that did not wait for it; on a closed one, no run waits. -/
namespace BackupManager.ByteStream

variable {σ α β : Type}

/-- The session once the peer has sent more. -/
def Session.extend (s : Session σ) (more : Bytes) : Session σ := { s with wire := s.wire ++ more }

@[simp] theorem Session.extend_wire (s : Session σ) (more : Bytes) :
    (s.extend more).wire = s.wire ++ more := rfl

@[simp] theorem Session.extend_closed (s : Session σ) (more : Bytes) :
    (s.extend more).closed = s.closed := rfl

@[simp] theorem Session.extend_stream (s : Session σ) (more : Bytes) :
    (s.extend more).stream = s.stream := rfl

@[simp] theorem Session.extend_world (s : Session σ) (more : Bytes) :
    (s.extend more).world = s.world := rfl

namespace Prog

/-- On an open channel a run that does not wait ends in the same way when more is sent, and
leaves what was added. -/
def Extends (p : Prog σ α) : Prop :=
  ∀ s, s.closed = false → (p s).2.closed = false ∧
    ((p s).1 ≠ .waits → ∀ more, p (s.extend more) = ((p s).1, (p s).2.extend more))

theorem Extends.pure (a : α) : Extends (Pure.pure a : Prog σ α) := fun _ h => ⟨h, fun _ _ => rfl⟩

theorem Extends.throw (what : String) : Extends (throw what : Prog σ α) :=
  fun _ h => ⟨h, fun _ _ => rfl⟩

theorem Extends.extract (f : Istream → α × Istream) : Extends (extract f : Prog σ α) :=
  fun _ h => ⟨h, fun _ _ => rfl⟩

theorem Extends.modifyWorld (f : σ → σ) : Extends (modifyWorld f) := fun _ h => ⟨h, fun _ _ => rfl⟩

theorem Extends.getWorld : Extends (getWorld : Prog σ σ) := fun _ h => ⟨h, fun _ _ => rfl⟩

theorem Extends.read (n : ℕ) : Extends (read n : Prog σ Unit) := by
  intro s hs
  unfold Prog.read
  by_cases h : n ≤ s.wire.length
  · rw [if_pos h]
    refine ⟨hs, fun _ more => ?_⟩
    have hmore : n ≤ (s.extend more).wire.length := by
      rw [Session.extend_wire, List.length_append]
      omega
    rw [if_pos hmore, Session.extend_wire, List.take_append_of_le_length h,
      List.drop_append_of_le_length h]
    rfl
  · have hopen : ¬s.closed = true := by simp [hs]
    rw [if_neg h, if_neg hopen]
    exact ⟨hs, fun hwaits => absurd rfl hwaits⟩

theorem Extends.bind {p : Prog σ α} {f : α → Prog σ β} (hp : Extends p) (hf : ∀ a, Extends (f a)) :
    Extends (p >>= f) := by
  intro s hs
  obtain ⟨hclosed, hmore⟩ := hp s hs
  rw [bind_apply]
  cases hps : p s with
  | mk o s' =>
    rw [hps] at hclosed hmore
    cases o with
    | returns a =>
      obtain ⟨hclosed', hmore'⟩ := hf a s' hclosed
      refine ⟨hclosed', fun hwaits more => ?_⟩
      rw [bind_of_returns (hmore (by simp) more)]
      exact hmore' hwaits more
    | throws what =>
      refine ⟨hclosed, fun _ more => ?_⟩
      rw [bind_of_throws (hmore (by simp) more)]
    | waits => exact ⟨hclosed, fun hwaits => absurd rfl hwaits⟩

theorem Extends.tryCatch {p : Prog σ α} {handler : String → Prog σ α} (hp : Extends p)
    (hh : ∀ what, Extends (handler what)) : Extends (tryCatch p handler) := by
  intro s hs
  obtain ⟨hclosed, hmore⟩ := hp s hs
  unfold Prog.tryCatch
  cases hps : p s with
  | mk o s' =>
    rw [hps] at hclosed hmore
    cases o with
    | returns a =>
      refine ⟨hclosed, fun _ more => ?_⟩
      rw [hmore (by simp) more]
    | throws what =>
      obtain ⟨hclosed', hmore'⟩ := hh what s' hclosed
      refine ⟨hclosed', fun hwaits more => ?_⟩
      rw [hmore (by simp) more]
      exact hmore' hwaits more
    | waits => exact ⟨hclosed, fun hwaits => absurd rfl hwaits⟩

theorem Extends.recvInt (w : ℕ) (old : ℤ) : Extends (recvInt w old : Prog σ ℤ) :=
  .bind (.read _) fun _ => .extract _

theorem Extends.recvSize (w old : ℕ) : Extends (recvSize w old : Prog σ ℕ) :=
  .bind (.read _) fun _ => .extract _

theorem Extends.recvLine (count : ℕ) (old : Bytes) : Extends (recvLine count old : Prog σ Bytes) :=
  .bind (.read _) fun _ => .bind (.extract _) fun _ => .extract _

theorem Extends.recvChunks {max : ℕ} {each : Bytes → Prog σ Unit}
    (h : ∀ chunk, Extends (each chunk)) (n : ℕ) : Extends (recvChunks max each n) :=
  recvChunks_rule (P := Extends) .pure .bind .read (fun _ => .extract _) h n

/-- A run that did not wait, compared with the run on everything that is going to be sent. -/
theorem Extends.compare {p : Prog σ α} (hp : Extends p) {s s' s'' : Session σ} {o o' : Outcome α}
    {more : Bytes} (hs : s.closed = false) (hrun : p s = (o, s')) (ho : o ≠ .waits)
    (hall : p (s.extend more) = (o', s'')) : o = o' ∧ s'.extend more = s'' := by
  have hmore := (hp s hs).2 (by rwa [hrun]) more
  rw [hall, hrun, Prod.mk.injEq] at hmore
  exact ⟨hmore.1.symm, hmore.2.symm⟩

/-- On a closed channel the run comes to an end. -/
def Halts (p : Prog σ α) : Prop :=
  ∀ s, s.closed = true → (p s).2.closed = true ∧ (p s).1 ≠ .waits

theorem Halts.pure (a : α) : Halts (Pure.pure a : Prog σ α) := fun _ h => ⟨h, by simp⟩

theorem Halts.throw (what : String) : Halts (throw what : Prog σ α) :=
  fun _ h => ⟨h, by simp [Prog.throw]⟩

theorem Halts.extract (f : Istream → α × Istream) : Halts (extract f : Prog σ α) :=
  fun _ h => ⟨h, by simp [Prog.extract]⟩

theorem Halts.modifyWorld (f : σ → σ) : Halts (modifyWorld f) := fun _ h => ⟨h, by simp⟩

theorem Halts.read (n : ℕ) : Halts (read n : Prog σ Unit) := by
  intro s hs
  unfold Prog.read
  by_cases h : n ≤ s.wire.length
  · rw [if_pos h]
    exact ⟨hs, by simp⟩
  · rw [if_neg h, if_pos hs]
    exact ⟨hs, by simp⟩

theorem Halts.bind {p : Prog σ α} {f : α → Prog σ β} (hp : Halts p) (hf : ∀ a, Halts (f a)) :
    Halts (p >>= f) := by
  intro s hs
  have h := hp s hs
  rw [bind_apply]
  cases hps : p s with
  | mk o s' =>
    rw [hps] at h
    cases o with
    | returns a => exact hf a s' h.1
    | throws what => exact ⟨h.1, by simp⟩
    | waits => exact absurd rfl h.2

theorem Halts.withDestructor {p : Prog σ α} (hp : Halts p) (f : σ → σ) :
    Halts (withDestructor p f) := by
  intro s hs
  have h := hp s hs
  unfold Prog.withDestructor
  cases hps : p s with
  | mk o s' =>
    rw [hps] at h
    cases o with
    | returns a => exact ⟨h.1, by simp⟩
    | throws what => exact ⟨h.1, by simp⟩
    | waits => exact absurd rfl h.2

theorem Halts.recvInt (w : ℕ) (old : ℤ) : Halts (recvInt w old : Prog σ ℤ) :=
  .bind (.read _) fun _ => .extract _

theorem Halts.recvLine (count : ℕ) (old : Bytes) : Halts (recvLine count old : Prog σ Bytes) :=
  .bind (.read _) fun _ => .bind (.extract _) fun _ => .extract _

theorem Halts.recvChunks {max : ℕ} {each : Bytes → Prog σ Unit}
    (h : ∀ chunk, Halts (each chunk)) (n : ℕ) : Halts (recvChunks max each n) :=
  recvChunks_rule (P := Halts) .pure .bind .read (fun _ => .extract _) h n

/-- A number is waited for while its width has not arrived. -/
theorem recvInt_waits {w : ℕ} {s : Session σ} (h : s.wire.length < w + 1) (hs : s.closed = false)
    (old : ℤ) : recvInt w old s = (.waits, s) := by
  have hread : Prog.read (w + 1) s = (.waits, s) := by
    have hopen : ¬s.closed = true := by simp [hs]
    rw [Prog.read, if_neg (not_le.mpr h), if_neg hopen]
  exact bind_of_waits hread _

theorem recvSize_waits {w : ℕ} {s : Session σ} (h : s.wire.length < w + 1) (hs : s.closed = false)
    (old : ℕ) : recvSize w old s = (.waits, s) := by
  have hread : Prog.read (w + 1) s = (.waits, s) := by
    have hopen : ¬s.closed = true := by simp [hs]
    rw [Prog.read, if_neg (not_le.mpr h), if_neg hopen]
  exact bind_of_waits hread _

end Prog
end BackupManager.ByteStream
