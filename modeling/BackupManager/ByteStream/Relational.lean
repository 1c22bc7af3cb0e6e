import BackupManager.ByteStream.Loop
import BackupManager.Table.Connection

/-! Two runs side by side, on the same bytes and in worlds that are related: they end in the same way,
in worlds that are related again. With a relation that forgets a part of the world this says that
the part has no influence. -/
namespace BackupManager.Table.Connection

variable {D : Type} {R : D → D → Prop}

/-- Related contents, in the same state of a transaction. -/
structure Paired (R : D → D → Prop) (c c' : Connection D) : Prop where
  committed : R c.committed c'.committed
  pending : Option.Rel R c.pending c'.pending

theorem Paired.current {c c' : Connection D} (h : Paired R c c') : R c.current c'.current := by
  obtain ⟨d, p⟩ := c
  obtain ⟨d', p'⟩ := c'
  cases h.pending with
  | none => exact h.committed
  | some hp => exact hp

theorem Paired.put {c c' : Connection D} (h : Paired R c c') {d d' : D} (hd : R d d') :
    Paired R (c.put d) (c'.put d') := by
  obtain ⟨e, p⟩ := c
  obtain ⟨e', p'⟩ := c'
  cases h.pending with
  | none => exact ⟨hd, .none⟩
  | some hp => exact ⟨h.committed, .some hd⟩

theorem Paired.rollback {c c' : Connection D} (h : Paired R c c') : Paired R c.rollback c'.rollback :=
  ⟨h.committed, .none⟩

theorem Paired.failed {c c' : Connection D} (h : Paired R c c') (aborts : Bool) :
    Paired R (c.failed aborts) (c'.failed aborts) := by
  cases aborts with
  | false => exact h
  | true => exact h.rollback

/-- The call succeeds on both connections or on neither, and leaves them related. -/
def Conforms (R : D → D → Prop) (f : Call D) : Prop :=
  ∀ c c', Paired R c c' → (f c).1 = (f c').1 ∧ Paired R (f c).2 (f c').2

theorem Conforms.execute {change : D → Option D}
    (h : ∀ d d', R d d' → Option.Rel R (change d) (change d')) (code : Code) :
    Conforms R (execute change code) := by
  intro c c' hc
  cases code with
  | error aborts => exact ⟨rfl, hc.failed aborts⟩
  | ok =>
    have hchange := h c.current c'.current hc.current
    unfold Connection.execute
    cases hd : change c.current <;> cases hd' : change c'.current <;> rw [hd, hd'] at hchange
    · exact ⟨rfl, hc⟩
    · cases hchange
    · cases hchange
    · cases hchange with
      | some hr => exact ⟨rfl, hc.put hr⟩

theorem Conforms.call (code : Code) : Conforms R (call code) :=
  .execute (fun _ _ h => .some h) code

theorem Conforms.begin (code : Code) : Conforms R (begin code) := by
  intro c c' hc
  obtain ⟨d, p⟩ := c
  obtain ⟨d', p'⟩ := c'
  cases code with
  | error aborts => exact ⟨rfl, hc.failed aborts⟩
  | ok =>
    cases hc.pending with
    | none => exact ⟨rfl, hc.committed, .some hc.committed⟩
    | some hp => exact ⟨rfl, hc⟩

theorem Conforms.commit (code : Code) : Conforms R (commit code) := by
  intro c c' hc
  obtain ⟨d, p⟩ := c
  obtain ⟨d', p'⟩ := c'
  cases hc.pending with
  | none => cases code <;> exact ⟨rfl, hc⟩
  | some hp =>
    cases code with
    | ok => exact ⟨rfl, hp, .none⟩
    | error aborts => exact ⟨rfl, hc.failed aborts⟩

/-- The second call matters only where the first one can succeed. -/
theorem Conforms.andThen {first second : Call D} (hfirst : Conforms R first)
    (hsecond : (∃ c c', Paired R c c' ∧ (first c).1 = true) → Conforms R second) :
    Conforms R (andThen first second) := by
  intro c c' hc
  obtain ⟨hok, hrel⟩ := hfirst c c' hc
  unfold Connection.andThen
  dsimp only
  rw [← hok]
  split
  · next hsucceeds => exact hsecond ⟨c, c', hc, hsucceeds⟩ _ _ hrel
  · exact ⟨hok, hrel⟩

end BackupManager.Table.Connection

namespace BackupManager.ByteStream

variable {σ τ α β : Type}

/-- The session in another world. -/
def Session.within (s : Session σ) (w : τ) : Session τ := ⟨s.wire, s.closed, s.stream, w⟩

namespace Prog

/-- From here, and in related worlds, both programs end in the same way, with the same bytes left. -/
def CoincideFrom (R : σ → σ → Prop) (p q : Prog σ α) (s : Session σ) : Prop :=
  ∀ w, R s.world w → ∃ w', R (p s).2.world w' ∧ q (s.within w) = ((p s).1, (p s).2.within w')

def Coincide (R : σ → σ → Prop) (p q : Prog σ α) : Prop := ∀ s, CoincideFrom R p q s

section Coincide

variable {R : σ → σ → Prop}

theorem Coincide.refl (p : Prog σ α) : Coincide Eq p p := by
  rintro s w rfl
  exact ⟨_, rfl, rfl⟩

theorem Coincide.pure (a : α) : Coincide R (Pure.pure a : Prog σ α) (Pure.pure a) :=
  fun _ w h => ⟨w, h, rfl⟩

theorem Coincide.throw (what : String) : Coincide R (throw what : Prog σ α) (throw what) :=
  fun _ w h => ⟨w, h, rfl⟩

theorem Coincide.waits : Coincide R (fun s => (.waits, s) : Prog σ α) (fun s => (.waits, s)) :=
  fun _ w h => ⟨w, h, rfl⟩

theorem Coincide.extract (f : Istream → α × Istream) : Coincide R (extract f : Prog σ α) (extract f) :=
  fun _ w h => ⟨w, h, rfl⟩

theorem Coincide.read (n : ℕ) : Coincide R (read n : Prog σ Unit) (read n) := by
  intro s w h
  refine ⟨w, ?_⟩
  unfold Prog.read
  show _ ∧ (if n ≤ s.wire.length then _ else if s.closed = true then _ else _) = _
  split
  · exact ⟨h, rfl⟩
  · split
    · exact ⟨h, rfl⟩
    · exact ⟨h, rfl⟩

theorem Coincide.modifyWorld {f g : σ → σ} (hf : ∀ w w', R w w' → R (f w) (g w')) :
    Coincide R (modifyWorld f) (modifyWorld g) :=
  fun s w h => ⟨g w, hf s.world w h, rfl⟩

theorem Coincide.act (what : String) {f g : σ → Bool × σ}
    (hf : ∀ w w', R w w' → (f w).1 = (g w').1 ∧ R (f w).2 (g w').2) :
    Coincide R (act what f) (act what g) := by
  intro s w h
  obtain ⟨hok, hrel⟩ := hf s.world w h
  refine ⟨(g w).2, hrel, ?_⟩
  show (if (g w).1 then Outcome.returns () else .throws what, _) =
    (if (f s.world).1 then Outcome.returns () else .throws what, _)
  rw [hok]
  rfl

theorem CoincideFrom.bind {p q : Prog σ α} {f g : α → Prog σ β} {s : Session σ}
    (hp : CoincideFrom R p q s)
    (hf : ∀ a s', p s = (.returns a, s') → CoincideFrom R (f a) (g a) s') :
    CoincideFrom R (p >>= f) (q >>= g) s := by
  intro w h
  obtain ⟨w', hrel, hq⟩ := hp w h
  rw [bind_apply, bind_apply, hq]
  cases hs : p s with
  | mk o s' =>
    rw [hs] at hrel
    cases o with
    | returns a => exact hf a s' hs w' hrel
    | throws what => exact ⟨w', hrel, rfl⟩
    | waits => exact ⟨w', hrel, rfl⟩

theorem Coincide.bind {p q : Prog σ α} {f g : α → Prog σ β} (hp : Coincide R p q)
    (hf : ∀ a, Coincide R (f a) (g a)) : Coincide R (p >>= f) (q >>= g) :=
  fun s => (hp s).bind fun a s' _ => hf a s'

/-- What follows may look at the worlds, as long as it agrees on those that are related. -/
theorem Coincide.getWorld {f g : σ → Prog σ α} (hf : ∀ v w, R v w → Coincide R (f v) (g w)) :
    Coincide R (getWorld >>= f) (getWorld >>= g) :=
  fun s w h => hf s.world w h s w h

theorem CoincideFrom.tryCatch {p q : Prog σ α} {f g : String → Prog σ α} {s : Session σ}
    (hp : CoincideFrom R p q s) (hf : ∀ what, Coincide R (f what) (g what)) :
    CoincideFrom R (tryCatch p f) (tryCatch q g) s := by
  intro w h
  obtain ⟨w', hrel, hq⟩ := hp w h
  unfold Prog.tryCatch
  rw [hq]
  cases hs : p s with
  | mk o s' =>
    rw [hs] at hrel
    cases o with
    | returns a => exact ⟨w', hrel, rfl⟩
    | throws what => exact hf what s' w' hrel
    | waits => exact ⟨w', hrel, rfl⟩

theorem Coincide.tryCatch {p q : Prog σ α} {f g : String → Prog σ α} (hp : Coincide R p q)
    (hf : ∀ what, Coincide R (f what) (g what)) : Coincide R (tryCatch p f) (tryCatch q g) :=
  fun s => (hp s).tryCatch hf

theorem Coincide.recvInt (w : ℕ) (old : ℤ) : Coincide R (recvInt w old : Prog σ ℤ) (recvInt w old) :=
  .bind (.read _) fun _ => .extract _

theorem Coincide.recvLine (count : ℕ) (old : Bytes) :
    Coincide R (recvLine count old : Prog σ Bytes) (recvLine count old) :=
  .bind (.read _) fun _ => .bind (.extract _) fun _ => .extract _

theorem Coincide.loop {body body' : β → Prog σ (β ⊕ α)} (h : ∀ b, Coincide R (body b) (body' b)) (b : β) :
    Coincide R (loop body b) (loop body' b) := by
  have hrounds : ∀ n b, Coincide R (rounds body n b) (rounds body' n b) := by
    intro n
    induction n with
    | zero => exact fun _ => .waits
    | succ n ih =>
      intro b
      refine (h b).bind fun next => ?_
      cases next with
      | inl b' => exact ih b'
      | inr a => exact .pure a
  exact fun s w hw => hrounds _ b s w hw

/-- Programs on parts of the worlds that are related. -/
theorem Coincide.zoom {S : τ → τ → Prop} {get : τ → σ} {put : τ → σ → τ} {p q : Prog σ α}
    (hp : Coincide R p q) (hget : ∀ w w', S w w' → R (get w) (get w'))
    (hput : ∀ w w' v v', S w w' → R v v' → S (put w v) (put w' v')) :
    Coincide S (zoom get put p) (zoom get put q) := by
  intro s w h
  obtain ⟨v, hrel, hq⟩ := hp (s.within (get s.world)) (get w) (hget _ _ h)
  have hrun : q ⟨s.wire, s.closed, s.stream, get w⟩ = _ := hq
  refine ⟨put w v, hput _ _ _ _ h hrel, ?_⟩
  simp only [Prog.zoom, Session.within] at hrun ⊢
  rw [hrun]

end Coincide
end Prog
end BackupManager.ByteStream
