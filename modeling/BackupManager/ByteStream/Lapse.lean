import BackupManager.ByteStream.Ends

/-! Programs whose stream is no longer good: nothing is extracted any more, while the counts of bytes
are read as before. What decides about the rest is how many bytes there are. -/
namespace BackupManager.ByteStream

variable {σ α β : Type}

namespace Prog

/-- A read came short: the program waits, or has thrown with nothing left to read. -/
def Starved (s : Session σ) (r : Outcome α × Session σ) : Prop :=
  r.2.world = s.world ∧ (r.1 = .waits ∨ (∃ what, r.1 = .throws what) ∧ r.2.wire = [])

/-- The program takes `n` bytes and returns, with a stream that is not good; with fewer bytes a read
comes short. -/
structure Spoils (p : Prog σ α) (s : Session σ) (n : ℕ) (a : α) : Prop where
  enough : n ≤ s.wire.length → ∃ stream : Istream, stream.good = false ∧
    p s = (.returns a, ⟨s.wire.drop n, s.closed, stream, s.world⟩)
  lacking : s.wire.length < n → Starved s (p s)

section Starved

variable {p : Prog σ α} {f : α → Prog σ β} {s s' : Session σ} {a : α}

theorem Starved.not_returns {r : Outcome α × Session σ} (h : Starved s r) (a : α) :
    r.1 ≠ .returns a := by
  intro hr
  rcases h.2 with hwaits | ⟨⟨what, hthrows⟩, -⟩
  · rw [hr] at hwaits
    exact Outcome.noConfusion rfl (heq_of_eq hwaits)
  · rw [hr] at hthrows
    exact Outcome.noConfusion rfl (heq_of_eq hthrows)

theorem starved_read {n : ℕ} (h : s.wire.length < n) : Starved s (read n s) := by
  unfold Prog.read
  rw [if_neg (not_le.mpr h)]
  split
  · exact ⟨rfl, Or.inr ⟨⟨_, rfl⟩, rfl⟩⟩
  · exact ⟨rfl, Or.inl rfl⟩

theorem Starved.bind (h : Starved s (p s)) (f : α → Prog σ β) : Starved s ((p >>= f) s) := by
  rw [bind_apply]
  cases hp : p s with
  | mk o s' =>
    rw [hp] at h
    cases o with
    | returns a => exact absurd rfl (Starved.not_returns h a)
    | throws what => exact ⟨h.1, Or.inr ⟨⟨what, rfl⟩, (h.2.resolve_left (by simp)).2⟩⟩
    | waits => exact ⟨h.1, Or.inl rfl⟩

theorem Starved.of_returns (h : p s = (.returns a, s')) (hworld : s'.world = s.world)
    (hrest : Starved s' (f a s')) : Starved s ((p >>= f) s) := by
  rw [bind_of_returns h]
  exact ⟨hrest.1.trans hworld, hrest.2⟩

end Starved

section Spoils

variable {p : Prog σ α} {f : α → Prog σ β} {s s' : Session σ} {a : α} {c : β} {n m w : ℕ}

theorem spoils_pure (hs : Broken s) (a : α) : Spoils (pure a : Prog σ α) s 0 a :=
  ⟨fun _ => ⟨s.stream, hs, rfl⟩, fun h => absurd h (Nat.not_lt_zero _)⟩

theorem Spoils.count (h : Spoils p s n a) (hm : n = m) : Spoils p s m a := by
  rwa [← hm]

theorem Spoils.bind (h : Spoils p s n a) (hf : ∀ s', Broken s' → Spoils (f a) s' m c) :
    Spoils (p >>= f) s (n + m) c := by
  constructor
  · intro hlength
    obtain ⟨stream, hbad, hp⟩ := h.enough (by omega)
    obtain ⟨stream', hbad', hrest⟩ := (hf ⟨s.wire.drop n, s.closed, stream, s.world⟩ hbad).enough (by
      rw [List.length_drop]
      omega)
    refine ⟨stream', hbad', ?_⟩
    rw [bind_of_returns hp, hrest, List.drop_drop]
  · intro hlength
    by_cases hn : s.wire.length < n
    · exact Starved.bind (h.lacking hn) f
    · obtain ⟨stream, hbad, hp⟩ := h.enough (by omega)
      apply Starved.of_returns hp rfl
      apply (hf ⟨s.wire.drop n, s.closed, stream, s.world⟩ hbad).lacking
      rw [List.length_drop]
      omega

/-- After bytes that were read well. -/
theorem Spoils.of_returns {head : Bytes} (hwire : s.wire = head ++ s'.wire)
    (hp : p s = (.returns a, s')) (hclosed : s'.closed = s.closed) (hworld : s'.world = s.world)
    (h : Spoils (f a) s' m c) : Spoils (p >>= f) s (head.length + m) c := by
  have hlength : s.wire.length = head.length + s'.wire.length := by
    rw [hwire, List.length_append]
  constructor
  · intro henough
    obtain ⟨stream, hbad, hrest⟩ := h.enough (by omega)
    refine ⟨stream, hbad, ?_⟩
    rw [bind_of_returns hp, hrest, hwire, ← List.drop_drop, List.drop_left, hclosed, hworld]
  · intro hlacking
    exact Starved.of_returns hp hworld (h.lacking (by omega))

theorem spoils_read (hs : Broken s) (n : ℕ) : Spoils (read n : Prog σ Unit) s n () := by
  constructor
  · intro h
    refine ⟨s.stream.receive (s.wire.take n), hs, ?_⟩
    unfold Prog.read
    rw [if_pos h]
  · exact starved_read

theorem spoils_extract (f : Istream → α × Istream) (hf : (f s.stream).2.good = false) :
    Spoils (extract f : Prog σ α) s 0 (f s.stream).1 :=
  ⟨fun _ => ⟨_, hf, rfl⟩, fun h => absurd h (Nat.not_lt_zero _)⟩

theorem spoils_getInt (hs : Broken s) (old : ℤ) : Spoils (getInt old : Prog σ ℤ) s 0 old := by
  have hbad := Istream.getNumber_of_bad Istream.toInt old hs
  have h := spoils_extract (s := s) (Istream.getNumber Istream.toInt old)
    (by rw [hbad]; exact broken_failed _)
  rwa [hbad] at h

theorem spoils_getSize (hs : Broken s) (old : ℕ) : Spoils (getSize old : Prog σ ℕ) s 0 old := by
  have hbad := Istream.getNumber_of_bad Istream.toSizeT old hs
  have h := spoils_extract (s := s) (Istream.getNumber Istream.toSizeT old)
    (by rw [hbad]; exact broken_failed _)
  rwa [hbad] at h

theorem spoils_recvInt (hs : Broken s) (w : ℕ) (old : ℤ) :
    Spoils (recvInt w old : Prog σ ℤ) s (w + 1) old :=
  Spoils.bind (f := fun _ => getInt old) (m := 0) (spoils_read hs (w + 1)) fun _ h =>
    spoils_getInt h old

theorem spoils_recvSize (hs : Broken s) (w old : ℕ) :
    Spoils (recvSize w old : Prog σ ℕ) s (w + 1) old :=
  Spoils.bind (f := fun _ => getSize old) (m := 0) (spoils_read hs (w + 1)) fun _ h =>
    spoils_getSize h old

theorem spoils_ignore (hs : Broken s) : Spoils (ignore : Prog σ Unit) s 0 () :=
  spoils_extract _ (Keeps.ignore s hs)

theorem spoils_getLine (hs : Broken s) (old : Bytes) : Spoils (getLine old : Prog σ Bytes) s 0 old := by
  have hbad := Istream.getline_of_bad old hs
  have h := spoils_extract (s := s) (Istream.getline old) (by rw [hbad]; exact broken_failed _)
  rwa [hbad] at h

theorem spoils_getWord (hs : Broken s) (old : Bytes) : Spoils (getWord old : Prog σ Bytes) s 0 old := by
  have hbad := Istream.getWord_of_bad old hs
  have h := spoils_extract (s := s) (Istream.getWord old) (by rw [hbad]; exact broken_failed _)
  rwa [hbad] at h

theorem spoils_recvLine (hs : Broken s) (count : ℕ) (old : Bytes) :
    Spoils (recvLine count old : Prog σ Bytes) s count old := by
  have hline : ∀ s' : Session σ, Broken s' → Spoils (ignore >>= fun _ => getLine old) s' 0 old :=
    fun s' h => Spoils.bind (m := 0) (spoils_ignore h) fun _ h' => spoils_getLine h' old
  exact Spoils.bind (f := fun _ => ignore >>= fun _ => getLine old) (m := 0) (spoils_read hs count)
    fun s' h => hline s' h

/-- Chunks that have arrived are taken, whatever is extracted. -/
theorem recvChunks_enough {max n : ℕ} (hmax : 0 < max) (h : n ≤ s.wire.length) :
    ∃ file stream, (recvChunks max (fun _ => pure ()) n : Prog σ Bytes) s =
      (.returns file, ⟨s.wire.drop n, s.closed, stream, s.world⟩) := by
  induction n using Nat.strong_induction_on generalizing s with
  | _ n ih =>
    rw [recvChunks]
    by_cases hpos : 0 < min n max
    · have hread : read (min n max) s = (.returns (), { s with
          wire := s.wire.drop (min n max)
          stream := s.stream.receive (s.wire.take (min n max)) }) := by
        unfold Prog.read
        rw [if_pos (by omega)]
      rw [dif_pos hpos, bind_of_returns hread, bind_of_returns (readArray_apply _ _),
        bind_of_returns (pure_apply () _)]
      obtain ⟨rest, stream, hrest⟩ := ih (n - min n max) (by omega)
        (s := { s with
          wire := s.wire.drop (min n max)
          stream := ((s.stream.receive (s.wire.take (min n max))).readArray (min n max)).2 })
        (by rw [List.length_drop]; omega)
      have hcount : min n max + (n - min n max) = n := by omega
      rw [List.drop_drop, hcount] at hrest
      exact ⟨_, stream, bind_of_returns hrest _⟩
    · have hzero : n = 0 := by omega
      rw [dif_neg hpos, hzero, List.drop_zero]
      exact ⟨[], s.stream, rfl⟩

/-- Chunks that do not arrive. -/
theorem starved_recvChunks {max n : ℕ} (hmax : 0 < max) (h : s.wire.length < n) :
    Starved s ((recvChunks max (fun _ => pure ()) n : Prog σ Bytes) s) := by
  induction n using Nat.strong_induction_on generalizing s with
  | _ n ih =>
    rw [recvChunks, dif_pos (by omega)]
    by_cases hfirst : s.wire.length < min n max
    · exact Starved.bind (starved_read hfirst) _
    · have hread : read (min n max) s = (.returns (), { s with
          wire := s.wire.drop (min n max)
          stream := s.stream.receive (s.wire.take (min n max)) }) := by
        unfold Prog.read
        rw [if_pos (not_lt.mp hfirst)]
      apply Starved.of_returns hread rfl
      apply Starved.of_returns (readArray_apply _ _) rfl
      apply Starved.of_returns (pure_apply () _) rfl
      apply Starved.bind
      apply ih _ (by omega)
      dsimp only
      rw [List.length_drop]
      omega

end Spoils
end Prog
end BackupManager.ByteStream
