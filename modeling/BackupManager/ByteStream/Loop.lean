import BackupManager.ByteStream.Extension

/-! Loops that take something from the channel in every round: they are their own unfolding, and what
every round keeps, the loop keeps. Programs on a part of a larger world. -/
namespace BackupManager.ByteStream

variable {σ τ α β : Type}

namespace Prog

/-- A property of programs that holds of the basic ones and is kept by their composition. -/
structure Compositional (P : (α : Type) → Prog σ α → Prop) : Prop where
  pure : ∀ {α : Type} (a : α), P α (Pure.pure a)
  throw : ∀ {α : Type} (what : String), P α (throw what)
  bind : ∀ {α β : Type} {p : Prog σ α} {f : α → Prog σ β}, P α p → (∀ a, P β (f a)) → P β (p >>= f)
  tryCatch : ∀ {α : Type} {p : Prog σ α} {handler : String → Prog σ α}, P α p →
    (∀ what, P α (handler what)) → P α (tryCatch p handler)
  read : ∀ n, P Unit (read n)
  extract : ∀ {α : Type} (f : Istream → α × Istream), P α (extract f)
  modifyWorld : ∀ f, P Unit (modifyWorld f)
  getWorld : P σ getWorld
  act : ∀ what f, P Unit (act what f)

namespace Compositional

variable {P : (α : Type) → Prog σ α → Prop}

theorem recvInt (h : Compositional P) (w : ℕ) (old : ℤ) : P ℤ (recvInt w old) :=
  h.bind (h.read _) fun _ => h.extract _

theorem recvSize (h : Compositional P) (w old : ℕ) : P ℕ (recvSize w old) :=
  h.bind (h.read _) fun _ => h.extract _

theorem recvLine (h : Compositional P) (count : ℕ) (old : Bytes) : P Bytes (recvLine count old) :=
  h.bind (h.read _) fun _ => h.bind (h.extract _) fun _ => h.extract _

theorem recvChunks (h : Compositional P) {max : ℕ} {each : Bytes → Prog σ Unit}
    (heach : ∀ chunk, P Unit (each chunk)) (n : ℕ) : P Bytes (recvChunks max each n) :=
  recvChunks_rule (P := P _) h.pure h.bind h.read (fun _ => h.extract _) heach n

end Compositional

theorem Halts.act (what : String) (f : σ → Bool × σ) : Halts (act what f) := by
  intro s hs
  refine ⟨hs, ?_⟩
  show (if (f s.world).1 then Outcome.returns () else .throws what) ≠ .waits
  split <;> simp

theorem Halts.tryCatch {p : Prog σ α} {handler : String → Prog σ α} (hp : Halts p)
    (hh : ∀ what, Halts (handler what)) : Halts (tryCatch p handler) := by
  intro s hs
  have h := hp s hs
  unfold Prog.tryCatch
  cases hps : p s with
  | mk o s' =>
    rw [hps] at h
    cases o with
    | returns a => exact h
    | throws what => exact hh what s' h.1
    | waits => exact absurd rfl h.2

theorem halts_compositional : Compositional (σ := σ) fun _ p => Halts p where
  pure := .pure
  throw := .throw
  bind := .bind
  tryCatch := .tryCatch
  read := .read
  extract := .extract
  modifyWorld := .modifyWorld
  getWorld := fun _ hs => ⟨hs, by simp⟩
  act := .act

/-- What follows an action may leave its world as it is. -/
theorem act_bind_world (what : String) (f : σ → Bool × σ) (a : α) (s : Session σ) :
    ((act what f >>= fun _ => Pure.pure a : Prog σ α) s).2.world = (f s.world).2 := by
  have hact : act what f s = (_, { s with world := (f s.world).2 }) := rfl
  rw [bind_apply, hact]
  cases (f s.world).1 <;> rfl

/-- However a run ends, nothing has been put back on the wire. -/
def Shrinks (p : Prog σ α) : Prop := ∀ s, (p s).2.wire.length ≤ s.wire.length

theorem Shrinks.bind {p : Prog σ α} {f : α → Prog σ β} (hp : Shrinks p) (hf : ∀ a, Shrinks (f a)) :
    Shrinks (p >>= f) := by
  intro s
  have h := hp s
  rw [bind_apply]
  cases hs : p s with
  | mk o s' =>
    rw [hs] at h
    cases o with
    | returns a => exact (hf a s').trans h
    | throws what => exact h
    | waits => exact h

theorem Shrinks.tryCatch {p : Prog σ α} {handler : String → Prog σ α} (hp : Shrinks p)
    (hh : ∀ what, Shrinks (handler what)) : Shrinks (tryCatch p handler) := by
  intro s
  have h := hp s
  unfold Prog.tryCatch
  cases hs : p s with
  | mk o s' =>
    rw [hs] at h
    cases o with
    | returns a => exact h
    | throws what => exact (hh what s').trans h
    | waits => exact h

theorem Shrinks.read (n : ℕ) : Shrinks (read n : Prog σ Unit) := by
  intro s
  unfold Prog.read
  split
  · show (s.wire.drop n).length ≤ s.wire.length
    rw [List.length_drop]
    omega
  · split
    · exact Nat.zero_le _
    · exact le_refl _

theorem shrinks_compositional : Compositional (σ := σ) fun _ p => Shrinks p where
  pure := fun _ _ => le_refl _
  throw := fun _ _ => le_refl _
  bind := .bind
  tryCatch := .tryCatch
  read := .read
  extract := fun _ _ => le_refl _
  modifyWorld := fun _ _ => le_refl _
  getWorld := fun _ => le_refl _
  act := fun _ _ _ => le_refl _

/-- A run that returns has taken something from the wire. -/
def Consumes (p : Prog σ α) : Prop :=
  ∀ s a s', p s = (.returns a, s') → s'.wire.length < s.wire.length

theorem Consumes.read {n : ℕ} (hn : 0 < n) : Consumes (read n : Prog σ Unit) := by
  intro s a s' h
  obtain ⟨hlength, rfl⟩ := read_returns h
  show (s.wire.drop n).length < s.wire.length
  rw [List.length_drop]
  omega

/-- It is enough that the first part takes something. -/
theorem Consumes.bind {p : Prog σ α} {f : α → Prog σ β} (hp : Consumes p) (hf : ∀ a, Shrinks (f a)) :
    Consumes (p >>= f) := by
  intro s b s'' h
  obtain ⟨a, s', hfirst, hrest⟩ := bind_returns h
  have hlt := hp s a s' hfirst
  have hle := hf a s'
  rw [hrest] at hle
  exact lt_of_le_of_lt hle hlt

theorem Consumes.recvInt (w : ℕ) (old : ℤ) : Consumes (recvInt w old : Prog σ ℤ) :=
  (Consumes.read w.succ_pos).bind fun _ => shrinks_compositional.extract _

theorem Consumes.recvSize (w old : ℕ) : Consumes (recvSize w old : Prog σ ℕ) :=
  (Consumes.read w.succ_pos).bind fun _ => shrinks_compositional.extract _

/-- At most `n` rounds; `inl` goes on with the loop, and `inr` leaves it. -/
def rounds (body : β → Prog σ (β ⊕ α)) : ℕ → β → Prog σ α
  | 0, _ => fun s => (.waits, s)
  | n + 1, b => do
    match ← body b with
    | .inl b => rounds body n b
    | .inr a => pure a

/-- A loop of which every round takes something: there are no more rounds than bytes. -/
def loop (body : β → Prog σ (β ⊕ α)) (b : β) : Prog σ α := fun s =>
  rounds body (s.wire.length + 1) b s

section Loop

variable {body : β → Prog σ (β ⊕ α)}

/-- More rounds than bytes change nothing. -/
theorem rounds_enough (hbody : ∀ b, Consumes (body b)) {n n' : ℕ} {s : Session σ}
    (hn : s.wire.length < n) (hn' : s.wire.length < n') (b : β) :
    rounds body n b s = rounds body n' b s := by
  induction n generalizing n' b s with
  | zero => omega
  | succ n ih =>
    cases n' with
    | zero => omega
    | succ n' =>
      unfold rounds
      refine bind_eq_bind fun next s' hround => ?_
      have hlt := hbody b s next s' hround
      cases next with
      | inl b' => exact ih (by omega) (by omega) b'
      | inr a => rfl

/-- The equation of the loop. -/
theorem loop_eq (hbody : ∀ b, Consumes (body b)) (b : β) :
    loop body b = body b >>= Sum.elim (loop body) Pure.pure := by
  funext s
  show rounds body (s.wire.length + 1) b s = _
  unfold rounds
  refine bind_eq_bind fun next s' hround => ?_
  have hlt := hbody b s next s' hround
  cases next with
  | inl b' => exact rounds_enough hbody (by omega) (by omega) b'
  | inr a => rfl

/-- What every round keeps holds when the loop ends, in whatever way it does. -/
theorem loop_rule (hbody : ∀ b, Consumes (body b)) {I : β → Session σ → Prop}
    {Q : Outcome α → Session σ → Prop}
    (hgo : ∀ b s b' s', I b s → body b s = (.returns (.inl b'), s') → I b' s')
    (hleave : ∀ b s a s', I b s → body b s = (.returns (.inr a), s') → Q (.returns a) s')
    (hthrow : ∀ b s what s', I b s → body b s = (.throws what, s') → Q (.throws what) s')
    (hwait : ∀ b s s', I b s → body b s = (.waits, s') → Q .waits s')
    {b : β} {s : Session σ} (h : I b s) : Q (loop body b s).1 (loop body b s).2 := by
  -- every round leaves less on the wire
  induction hn : s.wire.length using Nat.strong_induction_on generalizing b s with
  | _ n ih =>
    subst hn
    rw [loop_eq hbody, bind_apply]
    cases hround : body b s with
    | mk o s' =>
      cases o with
      | returns next =>
        cases next with
        | inl b' => exact ih _ (hbody b s _ s' hround) (hgo b s b' s' h hround) rfl
        | inr a => exact hleave b s a s' h hround
      | throws what => exact hthrow b s what s' h hround
      | waits => exact hwait b s s' h hround

theorem Halts.loop (hbody : ∀ b, Consumes (body b)) (h : ∀ b, Halts (body b)) (b : β) :
    Halts (loop body b) := by
  intro s hs
  have hround : ∀ b s o s', s.closed = true → body b s = (o, s') →
      s'.closed = true ∧ o ≠ .waits := by
    intro b s o s' hclosed hrun
    have hhalts := h b s hclosed
    rwa [hrun] at hhalts
  refine loop_rule hbody (I := fun _ s => s.closed = true)
    (Q := fun o s' => s'.closed = true ∧ o ≠ .waits) ?_ ?_ ?_ ?_ hs
  · intro b s b' s' hclosed hrun
    exact (hround b s _ s' hclosed hrun).1
  · intro b s a s' hclosed hrun
    exact ⟨(hround b s _ s' hclosed hrun).1, by simp⟩
  · intro b s what s' hclosed hrun
    exact ⟨(hround b s _ s' hclosed hrun).1, by simp⟩
  · intro b s s' hclosed hrun
    exact absurd rfl (hround b s _ s' hclosed hrun).2

theorem Steps.loop {R : σ → σ → Prop} [Std.Refl R] [IsTrans σ R] (hbody : ∀ b, Consumes (body b))
    (h : ∀ b, Steps R (body b)) (b : β) : Steps R (loop body b) := by
  intro s
  have hround : ∀ b s₁ o s₂, R s.world s₁.world → body b s₁ = (o, s₂) → R s.world s₂.world := by
    intro b s₁ o s₂ hs₁ hrun
    have hstep := h b s₁
    rw [hrun] at hstep
    exact IsTrans.trans _ _ _ hs₁ hstep
  exact loop_rule hbody (I := fun _ s' => R s.world s'.world) (Q := fun _ s' => R s.world s'.world)
    (fun b s₁ _ => hround b s₁ _) (fun b s₁ _ => hround b s₁ _) (fun b s₁ _ => hround b s₁ _)
    (fun b s₁ => hround b s₁ _) (Std.Refl.refl _)

end Loop

/-- A program on a part of the world. -/
def zoom (get : τ → σ) (put : τ → σ → τ) (p : Prog σ α) : Prog τ α := fun s =>
  let r := p ⟨s.wire, s.closed, s.stream, get s.world⟩
  (r.1, ⟨r.2.wire, r.2.closed, r.2.stream, put s.world r.2.world⟩)

section Zoom

variable {get : τ → σ} {put : τ → σ → τ} {p : Prog σ α}

theorem zoom_apply {s : Session τ} {o : Outcome α} {s' : Session τ}
    (h : zoom get put p s = (o, s')) :
    ∃ w, p ⟨s.wire, s.closed, s.stream, get s.world⟩ = (o, ⟨s'.wire, s'.closed, s'.stream, w⟩) ∧
      s'.world = put s.world w := by
  cases h
  exact ⟨_, rfl, rfl⟩

theorem Halts.zoom (hp : Halts p) : Halts (zoom get put p) := fun _ hs => hp _ hs

theorem Consumes.zoom (hp : Consumes p) : Consumes (zoom get put p) := by
  intro s a s' h
  obtain ⟨w, hrun, -⟩ := zoom_apply h
  exact hp _ a _ hrun

/-- Whatever becomes of the part. -/
theorem Steps.zoom {S : τ → τ → Prop} (h : ∀ w v, S w (put w v)) : Steps S (zoom get put p) :=
  fun s => h s.world _

end Zoom
end Prog
end BackupManager.ByteStream
