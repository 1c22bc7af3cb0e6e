import BackupManager.ByteStream.Field

/-! Rules for whole runs of programs: postconditions for returning and for throwing, and
invariants of the session that hold however the run ends. -/
namespace BackupManager.ByteStream
namespace Prog

variable {σ α β : Type}

/-- The run does not wait; it returns as `Q` says or throws as `E` says. Unification must not
unfold this: it would run the program. -/
@[irreducible] def Ends (p : Prog σ α) (s : Session σ) (Q : α → Session σ → Prop) (E : Session σ → Prop) : Prop :=
  match p s with
  | (.returns a, s') => Q a s'
  | (.throws _, s') => E s'
  | (.waits, _) => False

section Ends

variable {p : Prog σ α} {f : α → Prog σ β} {s s' : Session σ} {a : α}
variable {Q : α → Session σ → Prop} {E : Session σ → Prop} {P : β → Session σ → Prop}

theorem Ends.of_returns (h : p s = (.returns a, s')) (hQ : Q a s') : Ends p s Q E := by
  unfold Ends
  rw [h]
  exact hQ

theorem Ends.returns (h : Ends p s Q E) (hp : p s = (.returns a, s')) : Q a s' := by
  unfold Ends at h
  rw [hp] at h
  exact h

theorem Ends.pure (h : Q a s) : Ends (Pure.pure a : Prog σ α) s Q E := .of_returns rfl h

theorem Ends.throw {what : String} (h : E s) : Ends (throw what : Prog σ α) s Q E := by
  unfold Ends
  exact h

theorem Ends.bind (h : Ends p s (fun a s' => Ends (f a) s' P E) E) : Ends (p >>= f) s P E := by
  unfold Ends at h ⊢
  rw [bind_apply]
  cases hp : p s with
  | mk o s' =>
    rw [hp] at h
    cases o with
    | returns a => exact h
    | throws what => exact h
    | waits => exact h

theorem Ends.bind_of_returns (h : p s = (.returns a, s')) (hf : Ends (f a) s' P E) :
    Ends (p >>= f) s P E := .bind (.of_returns h hf)

theorem Ends.tryCatch {handler : String → Prog σ α}
    (h : Ends p s Q (fun s' => ∀ what, Ends (handler what) s' Q E)) :
    Ends (tryCatch p handler) s Q E := by
  unfold Ends at h ⊢
  unfold Prog.tryCatch
  cases hp : p s with
  | mk o s' =>
    rw [hp] at h
    cases o with
    | returns a => exact h
    | throws what => exact h what
    | waits => exact h

theorem Ends.withDestructor {f : σ → σ}
    (h : Ends p s (fun a s' => Q a { s' with world := f s'.world })
      (fun s' => E { s' with world := f s'.world })) :
    Ends (withDestructor p f) s Q E := by
  unfold Ends at h ⊢
  unfold Prog.withDestructor
  cases hp : p s with
  | mk o s' =>
    rw [hp] at h
    cases o with
    | returns a => exact h
    | throws what => exact h
    | waits => exact h

theorem Ends.mono {Q' : α → Session σ → Prop} {E' : Session σ → Prop} (h : Ends p s Q E)
    (hQ : ∀ a s', Q a s' → Q' a s') (hE : ∀ s', E s' → E' s') : Ends p s Q' E' := by
  unfold Ends at h ⊢
  cases hp : p s with
  | mk o s' =>
    rw [hp] at h
    cases o with
    | returns a => exact hQ a s' h
    | throws what => exact hE s' h
    | waits => exact h

/-- What both ends of a run imply holds of the session that is left. -/
theorem Ends.state {I : Session σ → Prop} (h : Ends p s Q E) (hQ : ∀ a s', Q a s' → I s')
    (hE : ∀ s', E s' → I s') : I (p s).2 := by
  unfold Ends at h
  cases hp : p s with
  | mk o s' =>
    rw [hp] at h
    cases o with
    | returns a => exact hQ a s' h
    | throws what => exact hE s' h
    | waits => exact h.elim

theorem Ends.exists_returns (h : Ends p s Q (fun _ => False)) :
    ∃ a s', p s = (.returns a, s') ∧ Q a s' := by
  unfold Ends at h
  cases hp : p s with
  | mk o s' =>
    rw [hp] at h
    cases o with
    | returns a => exact ⟨a, s', rfl, h⟩
    | throws what => exact h.elim
    | waits => exact h.elim

/-- Bytes announced by their count arrive as they were sent, in whatever pieces they are handed
on. -/
theorem Ends.recvChunks {max : ℕ} {each : Bytes → Prog σ Unit} {I : σ → Prop} (hmax : 0 < max)
    (heach : ∀ chunk s, I s.world →
      Ends (each chunk) s (fun _ s' => s' = { s with world := s'.world } ∧ I s'.world) E) :
    ∀ (bytes wire : Bytes) (closed : Bool) (world : σ), I world →
      Ends (recvChunks max each bytes.length) ⟨bytes ++ wire, closed, .fresh [], world⟩
        (fun v s' => v = bytes ∧ s' = ⟨wire, closed, .fresh [], s'.world⟩ ∧ I s'.world) E := by
  intro bytes
  induction hn : bytes.length using Nat.strong_induction_on generalizing bytes with
  | _ n ih =>
    intro wire closed world hI
    rcases Nat.eq_zero_or_pos n with rfl | hpos
    · have hb : bytes = [] := List.length_eq_zero_iff.mp hn
      rw [recvChunks_zero, hb]
      exact .pure ⟨rfl, rfl, hI⟩
    · have hk : 0 < min n max := lt_min hpos hmax
      have hlen : (bytes.take (min n max)).length = min n max := by
        rw [List.length_take]
        omega
      have hread := read_append (bytes.take (min n max)) (bytes.drop (min n max) ++ wire) closed
        (.fresh []) world
      rw [hlen, ← List.append_assoc, List.take_append_drop] at hread
      have harr := Istream.readArray_fresh (bytes.take (min n max)) []
      rw [hlen, List.append_nil] at harr
      rw [Prog.recvChunks, dif_pos hk]
      refine .bind_of_returns hread (.bind_of_returns (readArray_apply _ _) ?_)
      simp only [Istream.receive_fresh, List.nil_append, harr]
      refine .bind ((heach _ _ hI).mono ?_ fun _ h => h)
      intro _ s₁ h₁
      rw [h₁.1]
      refine .bind ((ih (n - min n max) (by omega) (bytes.drop (min n max))
        (by rw [List.length_drop]; omega) wire closed s₁.world h₁.2).mono ?_ fun _ h => h)
      intro v s₂ h₂
      refine .pure ⟨?_, h₂.2⟩
      rw [h₂.1, List.take_append_drop]

end Ends

/-- What holds of the session before a run holds after it, however it ends. -/
def Keeps (I : Session σ → Prop) (p : Prog σ α) : Prop := ∀ s, I s → I (p s).2

section Keeps

variable {I : Session σ → Prop}

theorem Keeps.returns {p : Prog σ α} {s s' : Session σ} {a : α} (hp : Keeps I p)
    (h : p s = (.returns a, s')) (hs : I s) : I s' := by
  have hend := hp s hs
  rwa [h] at hend

theorem Keeps.pure (a : α) : Keeps I (Pure.pure a : Prog σ α) := fun _ h => h

theorem Keeps.throw (what : String) : Keeps I (throw what : Prog σ α) := fun _ h => h

theorem Keeps.bind {p : Prog σ α} {f : α → Prog σ β} (hp : Keeps I p) (hf : ∀ a, Keeps I (f a)) :
    Keeps I (p >>= f) := by
  intro s hs
  have h := hp s hs
  rw [bind_apply]
  cases hps : p s with
  | mk o s' =>
    rw [hps] at h
    cases o with
    | returns a => exact hf a s' h
    | throws what => exact h
    | waits => exact h

end Keeps

/-- A stream that is not good: no extraction from it succeeds any more. -/
def Broken (s : Session σ) : Prop := s.stream.good = false

/-- A stream that is good after a run was good before it. -/
theorem Keeps.good {p : Prog σ α} {s s' : Session σ} {a : α} (hp : Keeps Broken p)
    (h : p s = (.returns a, s')) (hgood : s'.stream.good = true) : s.stream.good = true := by
  by_contra hs
  have hbroken : Broken s' := hp.returns h (eq_false_of_ne_true hs)
  rw [Broken, hgood] at hbroken
  exact absurd hbroken (by simp)

theorem Keeps.modifyWorld (f : σ → σ) : Keeps Broken (modifyWorld f) := fun _ h => h

theorem Keeps.withDestructor {p : Prog σ α} (hp : Keeps Broken p) (f : σ → σ) :
    Keeps Broken (withDestructor p f) := by
  intro s hs
  have h := hp s hs
  unfold Prog.withDestructor
  cases hps : p s with
  | mk o s' =>
    rw [hps] at h
    cases o with
    | returns a => exact h
    | throws what => exact h
    | waits => exact h

theorem Keeps.read (n : ℕ) : Keeps Broken (read n : Prog σ Unit) := by
  intro s h
  unfold Prog.read
  split
  · exact (Istream.good_receive _ _).trans h
  · split
    · exact (Istream.good_receive _ _).trans h
    · exact h

theorem broken_failed (s : Istream) : ({ s with failbit := true } : Istream).good = false := by
  simp [Istream.good]

theorem Keeps.ignore : Keeps Broken (ignore : Prog σ Unit) := by
  intro s h
  have hstream : s.stream.ignore.good = false := by
    rw [Istream.ignore_of_bad h]
    exact broken_failed _
  exact hstream

theorem Keeps.readArray (n : ℕ) : Keeps Broken (readArray n : Prog σ Bytes) := by
  intro s h
  have hstream : (s.stream.readArray n).2.good = false := by
    rw [Istream.readArray_of_bad n h]
    exact broken_failed _
  exact hstream

theorem Keeps.getLine (old : Bytes) : Keeps Broken (getLine old : Prog σ Bytes) := by
  intro s h
  have hstream : (s.stream.getline old).2.good = false := by
    rw [Istream.getline_of_bad old h]
    exact broken_failed _
  exact hstream

theorem Keeps.recvInt (w : ℕ) (old : ℤ) : Keeps Broken (recvInt w old : Prog σ ℤ) := by
  refine .bind (.read _) fun _ s h => ?_
  have hstream : (s.stream.getNumber Istream.toInt old).2.good = false := by
    rw [Istream.getNumber_of_bad _ old h]
    exact broken_failed _
  exact hstream

theorem Keeps.recvLine (count : ℕ) (old : Bytes) :
    Keeps Broken (recvLine count old : Prog σ Bytes) :=
  .bind (.read _) fun _ => .bind .ignore fun _ => .getLine old

theorem Keeps.recvChunks {max : ℕ} {each : Bytes → Prog σ Unit}
    (h : ∀ chunk, Keeps Broken (each chunk)) (n : ℕ) : Keeps Broken (recvChunks max each n) :=
  recvChunks_rule (P := Keeps Broken) .pure .bind .read .readArray h n

/-- The program neither looks at the world nor changes it. -/
def Worldless (p : Prog σ α) : Prop :=
  ∀ s w, p { s with world := w } = ((p s).1, { (p s).2 with world := w })

section Worldless

variable {p : Prog σ α}

theorem Worldless.world (hp : Worldless p) (s : Session σ) : (p s).2.world = s.world :=
  congrArg (fun r : Outcome α × Session σ => r.2.world) (hp s s.world)

theorem Worldless.returns (hp : Worldless p) {s s' : Session σ} {a : α}
    (h : p s = (.returns a, s')) (w : σ) :
    p { s with world := w } = (.returns a, { s' with world := w }) := by
  rw [hp s w, h]

theorem Worldless.pure (a : α) : Worldless (Pure.pure a : Prog σ α) := fun _ _ => rfl

theorem Worldless.extract (f : Istream → α × Istream) : Worldless (extract f : Prog σ α) :=
  fun _ _ => rfl

theorem Worldless.read (n : ℕ) : Worldless (read n : Prog σ Unit) := by
  intro s w
  unfold Prog.read
  show (if n ≤ s.wire.length then _ else if s.closed = true then _ else _) = _
  split
  · rfl
  · split <;> rfl

theorem Worldless.bind {f : α → Prog σ β} (hp : Worldless p) (hf : ∀ a, Worldless (f a)) :
    Worldless (p >>= f) := by
  intro s w
  rw [bind_apply, bind_apply, hp s w]
  cases hs : p s with
  | mk o s' =>
    cases o with
    | returns a => exact hf a s' w
    | throws what => rfl
    | waits => rfl

theorem Worldless.recvInt (w : ℕ) (old : ℤ) : Worldless (recvInt w old : Prog σ ℤ) :=
  .bind (.read _) fun _ => .extract _

theorem Worldless.recvLine (count : ℕ) (old : Bytes) :
    Worldless (recvLine count old : Prog σ Bytes) :=
  .bind (.read _) fun _ => .bind (.extract _) fun _ => .extract _

theorem Worldless.recvChunks {max : ℕ} {each : Bytes → Prog σ Unit}
    (h : ∀ chunk, Worldless (each chunk)) (n : ℕ) : Worldless (recvChunks max each n) :=
  recvChunks_rule (P := Worldless) .pure .bind .read (fun _ => .extract _) h n

end Worldless
end Prog
end BackupManager.ByteStream
