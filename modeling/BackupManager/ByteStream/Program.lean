import BackupManager.ByteStream.Istream

/-! Sequential programs at one end of a byte channel. A program reads exact counts of bytes
from the channel into its istream, extracts from the istream, and acts on a world of its own;
it returns, throws, or waits for bytes that have not been sent. -/
namespace BackupManager.ByteStream

inductive Outcome (α : Type) where
  | returns (a : α)
  | throws (what : String)
  | waits
  deriving DecidableEq, Repr

structure Session (σ : Type) where
  /-- What the peer has sent and this end has not received. -/
  wire : Bytes
  /-- The peer sends nothing more. -/
  closed : Bool
  stream : Istream
  world : σ
  deriving DecidableEq, Repr

def Prog (σ α : Type) : Type := Session σ → Outcome α × Session σ

variable {σ α β : Type}

namespace Prog

def bind (p : Prog σ α) (f : α → Prog σ β) : Prog σ β := fun s =>
  match p s with
  | (.returns a, s) => f a s
  | (.throws what, s) => (.throws what, s)
  | (.waits, s) => (.waits, s)

instance : Monad (Prog σ) where
  pure a := fun s => (.returns a, s)
  bind := bind

def throw (what : String) : Prog σ α := fun s => (.throws what, s)

/-- `try`/`catch` of every standard exception; waiting is not an exception. -/
def tryCatch (p : Prog σ α) (handler : String → Prog σ α) : Prog σ α := fun s =>
  match p s with
  | (.throws what, s) => handler what s
  | r => r

/-- A block and what a destructor does when it is left, with or without an exception. -/
def withDestructor (p : Prog σ α) (f : σ → σ) : Prog σ α := fun s =>
  match p s with
  | (.waits, s) => (.waits, s)
  | (o, s) => (o, { s with world := f s.world })

/-- `boost::asio::read(socket, buffer, transfer_exactly(n))`. -/
def read (n : ℕ) : Prog σ Unit := fun s =>
  if n ≤ s.wire.length then
    (.returns (), { s with wire := s.wire.drop n, stream := s.stream.receive (s.wire.take n) })
  else if s.closed then
    (.throws "read: End of file", { s with wire := [], stream := s.stream.receive s.wire })
  else (.waits, s)

def extract (f : Istream → α × Istream) : Prog σ α := fun s =>
  let r := f s.stream
  (.returns r.1, { s with stream := r.2 })

def getInt (old : ℤ) : Prog σ ℤ := extract (Istream.getNumber Istream.toInt old)
def getSize (old : ℕ) : Prog σ ℕ := extract (Istream.getNumber Istream.toSizeT old)
def getLine (old : Bytes) : Prog σ Bytes := extract (Istream.getline old)
def getWord (old : Bytes) : Prog σ Bytes := extract (Istream.getWord old)
def readArray (n : ℕ) : Prog σ Bytes := extract (Istream.readArray n)
def ignore : Prog σ Unit := extract (fun s => ((), s.ignore))

/-- `n + 1` in an `int`, which wraps around past its maximum. -/
def intSucc (n : ℤ) : ℤ := if n = Istream.intMax then Istream.intMin else n + 1

/-- An `int` used as a byte count is converted to an unsigned 64-bit number. -/
def sizeOfInt (z : ℤ) : ℕ := (z % 2 ^ 64).toNat

theorem sizeOfInt_intSucc {n : ℕ} (h : n < 2147483647) : sizeOfInt (intSucc n) = n + 1 := by
  have hmax : Istream.intMax = 2147483647 := rfl
  have hne : (n : ℤ) ≠ Istream.intMax := by omega
  rw [intSucc, if_neg hne, sizeOfInt]
  omega

theorem sizeOfInt_intSucc_intMax : sizeOfInt (intSucc Istream.intMax) = 2 ^ 64 - 2 ^ 31 := by
  decide

/-- An action on the world that may fail; a failed one may have changed the world. -/
def act (what : String) (f : σ → Bool × σ) : Prog σ Unit := fun s =>
  let r := f s.world
  (if r.1 then .returns () else .throws what, { s with world := r.2 })

def modifyWorld (f : σ → σ) : Prog σ Unit := fun s => (.returns (), { s with world := f s.world })

def getWorld : Prog σ σ := fun s => (.returns s.world, s)

@[simp] theorem pure_apply (a : α) (s : Session σ) : (pure a : Prog σ α) s = (.returns a, s) := rfl

theorem bind_apply (p : Prog σ α) (f : α → Prog σ β) (s : Session σ) :
    (p >>= f) s = match p s with
      | (.returns a, s) => f a s
      | (.throws what, s) => (.throws what, s)
      | (.waits, s) => (.waits, s) := rfl

theorem bind_pure_right (p : Prog σ α) : (p >>= fun a => pure a) = p := by
  funext s
  rw [bind_apply]
  cases p s with
  | mk o s' => cases o <;> rfl

theorem bind_bind {γ : Type} (p : Prog σ α) (f : α → Prog σ β) (g : β → Prog σ γ) :
    (p >>= f) >>= g = p >>= fun a => f a >>= g := by
  funext s
  simp only [bind_apply]
  cases p s with
  | mk o s' => cases o <;> rfl

instance : LawfulMonad (Prog σ) :=
  LawfulMonad.mk' (Prog σ) bind_pure_right (fun _ _ => rfl) bind_bind

/-- A program goes on where its first part returned. -/
theorem bind_of_returns {p : Prog σ α} {s s' : Session σ} {a : α} (h : p s = (.returns a, s'))
    (f : α → Prog σ β) : (p >>= f) s = f a s' := by
  simp only [bind_apply, h]

theorem bind_of_throws {p : Prog σ α} {s s' : Session σ} {what : String}
    (h : p s = (.throws what, s')) (f : α → Prog σ β) : (p >>= f) s = (.throws what, s') := by
  simp only [bind_apply, h]

theorem bind_of_waits {p : Prog σ α} {s s' : Session σ} (h : p s = (.waits, s'))
    (f : α → Prog σ β) : (p >>= f) s = (.waits, s') := by
  simp only [bind_apply, h]

/-- A program that returned went through every one of its parts. -/
theorem bind_returns {p : Prog σ α} {f : α → Prog σ β} {s s'' : Session σ} {b : β}
    (h : (p >>= f) s = (.returns b, s'')) :
    ∃ a s', p s = (.returns a, s') ∧ f a s' = (.returns b, s'') := by
  rw [bind_apply] at h
  cases hp : p s with
  | mk o s' =>
    rw [hp] at h
    cases o with
    | returns a => exact ⟨a, s', rfl, h⟩
    | throws what => simp at h
    | waits => simp at h

/-- What follows matters only where the first part returns. -/
theorem bind_eq_bind {p : Prog σ α} {f g : α → Prog σ β} {s : Session σ}
    (h : ∀ a s', p s = (.returns a, s') → f a s' = g a s') : (p >>= f) s = (p >>= g) s := by
  rw [bind_apply, bind_apply]
  cases hp : p s with
  | mk o s' =>
    cases o with
    | returns a => exact h a s' hp
    | throws what => rfl
    | waits => rfl

/-- What follows sees only how the first part ends. -/
theorem bind_congr_apply {p q : Prog σ α} {s s' : Session σ} (h : p s = q s')
    (f : α → Prog σ β) : (p >>= f) s = (q >>= f) s' := by
  rw [bind_apply, bind_apply, h]

theorem withDestructor_of_returns {p : Prog σ α} {s s' : Session σ} {a : α}
    (h : p s = (.returns a, s')) (f : σ → σ) :
    withDestructor p f s = (.returns a, { s' with world := f s'.world }) := by
  simp only [withDestructor, h]

theorem withDestructor_of_throws {p : Prog σ α} {s s' : Session σ} {what : String}
    (h : p s = (.throws what, s')) (f : σ → σ) :
    withDestructor p f s = (.throws what, { s' with world := f s'.world }) := by
  simp only [withDestructor, h]

theorem withDestructor_returns {p : Prog σ α} {f : σ → σ} {s s' : Session σ} {a : α}
    (h : withDestructor p f s = (.returns a, s')) :
    ∃ s₁, p s = (.returns a, s₁) ∧ s' = { s₁ with world := f s₁.world } := by
  unfold withDestructor at h
  cases hp : p s with
  | mk o s₁ =>
    rw [hp] at h
    cases o with
    | returns b =>
      rw [Prod.mk.injEq, Outcome.returns.injEq] at h
      exact ⟨s₁, by rw [h.1], h.2.symm⟩
    | throws what => simp at h
    | waits => simp at h

/-- The handler sees only how the protected part ends. -/
theorem tryCatch_congr {p q : Prog σ α} {s s' : Session σ} (h : p s = q s')
    (handler : String → Prog σ α) : tryCatch p handler s = tryCatch q handler s' := by
  unfold tryCatch
  rw [h]

@[simp] theorem getInt_apply (old : ℤ) (s : Session σ) :
    getInt old s = (.returns (s.stream.getNumber Istream.toInt old).1,
      { s with stream := (s.stream.getNumber Istream.toInt old).2 }) := rfl

@[simp] theorem getSize_apply (old : ℕ) (s : Session σ) :
    getSize old s = (.returns (s.stream.getNumber Istream.toSizeT old).1,
      { s with stream := (s.stream.getNumber Istream.toSizeT old).2 }) := rfl

@[simp] theorem getLine_apply (old : Bytes) (s : Session σ) :
    getLine old s = (.returns (s.stream.getline old).1,
      { s with stream := (s.stream.getline old).2 }) := rfl

@[simp] theorem getWord_apply (old : Bytes) (s : Session σ) :
    getWord old s = (.returns (s.stream.getWord old).1,
      { s with stream := (s.stream.getWord old).2 }) := rfl

@[simp] theorem readArray_apply (n : ℕ) (s : Session σ) :
    readArray n s = (.returns (s.stream.readArray n).1,
      { s with stream := (s.stream.readArray n).2 }) := rfl

@[simp] theorem ignore_apply (s : Session σ) :
    ignore s = (.returns (), { s with stream := s.stream.ignore }) := rfl

@[simp] theorem modifyWorld_apply (f : σ → σ) (s : Session σ) :
    modifyWorld f s = (.returns (), { s with world := f s.world }) := rfl

@[simp] theorem getWorld_apply (s : Session σ) : getWorld s = (.returns s.world, s) := rfl

theorem read_append (bytes wire : Bytes) (closed : Bool) (stream : Istream) (world : σ) :
    read bytes.length ⟨bytes ++ wire, closed, stream, world⟩ =
      (.returns (), ⟨wire, closed, stream.receive bytes, world⟩) := by
  simp [read]

theorem read_returns {n : ℕ} {s s' : Session σ} (h : read n s = (.returns (), s')) :
    n ≤ s.wire.length ∧
      s' = { s with wire := s.wire.drop n, stream := s.stream.receive (s.wire.take n) } := by
  simp only [read] at h
  split at h
  · next hn => exact ⟨hn, (Prod.mk.inj h).2.symm⟩
  · split at h <;> simp at h

/-- `R` relates the world before and after every run of the program, however it ends. -/
def Steps (R : σ → σ → Prop) (p : Prog σ α) : Prop := ∀ s, R s.world (p s).2.world

section Steps

variable {R : σ → σ → Prop}

theorem Steps.returns {p : Prog σ α} {s s' : Session σ} {a : α} (hp : Steps R p)
    (h : p s = (.returns a, s')) : R s.world s'.world := by
  have hend := hp s
  rwa [h] at hend

theorem Steps.pure [Std.Refl R] (a : α) : Steps R (Pure.pure a : Prog σ α) := fun _ => Std.Refl.refl _

theorem Steps.bind [IsTrans σ R] {p : Prog σ α} {f : α → Prog σ β} (hp : Steps R p)
    (hf : ∀ a, Steps R (f a)) : Steps R (p >>= f) := by
  intro s
  have h := hp s
  rw [bind_apply]
  cases hs : p s with
  | mk o s' =>
    rw [hs] at h
    cases o with
    | returns a => exact IsTrans.trans _ _ _ h (hf a s')
    | throws what => exact h
    | waits => exact h

theorem Steps.tryCatch [IsTrans σ R] {p : Prog σ α} {handler : String → Prog σ α}
    (hp : Steps R p) (hh : ∀ what, Steps R (handler what)) : Steps R (tryCatch p handler) := by
  intro s
  have h := hp s
  unfold Prog.tryCatch
  cases hs : p s with
  | mk o s' =>
    rw [hs] at h
    cases o with
    | returns a => exact h
    | throws what => exact IsTrans.trans _ _ _ h (hh what s')
    | waits => exact h

theorem Steps.withDestructor [IsTrans σ R] {p : Prog σ α} {f : σ → σ} (hp : Steps R p)
    (hf : ∀ w, R w (f w)) : Steps R (withDestructor p f) := by
  intro s
  have h := hp s
  unfold Prog.withDestructor
  cases hs : p s with
  | mk o s' =>
    rw [hs] at h
    cases o with
    | returns a => exact IsTrans.trans _ _ _ h (hf s'.world)
    | throws what => exact IsTrans.trans _ _ _ h (hf s'.world)
    | waits => exact h

theorem Steps.throw [Std.Refl R] (what : String) : Steps R (throw what : Prog σ α) :=
  fun _ => Std.Refl.refl _

theorem Steps.extract [Std.Refl R] (f : Istream → α × Istream) : Steps R (extract f : Prog σ α) :=
  fun _ => Std.Refl.refl _

theorem Steps.read [Std.Refl R] (n : ℕ) : Steps R (read n : Prog σ Unit) := by
  intro s
  unfold Prog.read
  split
  · exact Std.Refl.refl _
  · split <;> exact Std.Refl.refl _

theorem Steps.modifyWorld {f : σ → σ} (h : ∀ w, R w (f w)) : Steps R (modifyWorld f) :=
  fun s => h s.world

theorem Steps.getWorld [Std.Refl R] : Steps R (getWorld : Prog σ σ) := fun _ => Std.Refl.refl _

end Steps

end Prog
end BackupManager.ByteStream
