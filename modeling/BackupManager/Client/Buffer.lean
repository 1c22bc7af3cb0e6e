import BackupManager.Client.Action

/-! The buffer between the watchers and the action consumer: a ring of `MAX_SIZE` cells, of which one is
never used. Each operation is what the method does once its wait is over; while it waits, there is
none. -/
namespace BackupManager.Client

def maxSize : ℕ := 50

structure Buffer (α : Type) where
  buf : ℕ → α
  head : ℕ
  curr : ℕ
  isTerminated : Bool
  head_lt : head < maxSize
  curr_lt : curr < maxSize

namespace Buffer

variable {α : Type} {b b' : Buffer α} {item : α} {o : Option α}

def empty (default : α) : Buffer α := ⟨fun _ => default, 0, 0, false, by decide, by decide⟩

def next (i : ℕ) : ℕ := (i + 1) % maxSize

theorem next_lt (i : ℕ) : next i < maxSize := Nat.mod_lt _ (by decide)

def push (item : α) (b : Buffer α) : Option (Buffer α) :=
  if b.head = next b.curr then none
  else some { b with
    buf := Function.update b.buf b.curr item
    curr := next b.curr
    curr_lt := next_lt b.curr }

/-- An empty buffer gives nothing once it is terminated, and lets wait before that. -/
def pop (b : Buffer α) : Option (Option α × Buffer α) :=
  if b.head = b.curr then if b.isTerminated then some (none, b) else none
  else some (some (b.buf b.head), { b with
    head := next b.head
    head_lt := next_lt b.head })

def terminate (b : Buffer α) : Buffer α := { b with isTerminated := true }

/-- How many items it holds. -/
def length (b : Buffer α) : ℕ := (b.curr + maxSize - b.head) % maxSize

theorem length_lt (b : Buffer α) : b.length < maxSize := Nat.mod_lt _ (by decide)

theorem length_eq_zero : b.length = 0 ↔ b.head = b.curr := by
  have hhead := b.head_lt
  have hcurr := b.curr_lt
  unfold length
  unfold maxSize at *
  omega

theorem length_eq_full : b.length = maxSize - 1 ↔ b.head = next b.curr := by
  have hhead := b.head_lt
  have hcurr := b.curr_lt
  unfold length next
  unfold maxSize at *
  omega

theorem push_eq_none : b.push item = none ↔ b.length = maxSize - 1 := by
  unfold push
  rw [length_eq_full]
  split <;> simp_all

/-- With room for it, an item is taken in. -/
theorem exists_push (h : b.length < maxSize - 1) (item : α) : ∃ b', b.push item = some b' := by
  apply Option.ne_none_iff_exists'.mp
  rw [Ne, push_eq_none]
  omega

theorem length_push (h : b.push item = some b') : b'.length = b.length + 1 := by
  have hhead := b.head_lt
  have hcurr := b.curr_lt
  unfold push at h
  split at h
  · exact absurd h (by simp)
  · obtain rfl := Option.some.inj h
    unfold length
    unfold next maxSize at *
    dsimp only
    omega

theorem isTerminated_push (h : b.push item = some b') : b'.isTerminated = b.isTerminated := by
  unfold push at h
  split at h
  · exact absurd h (by simp)
  · obtain rfl := Option.some.inj h
    rfl

theorem exists_pop (h : b.length ≠ 0) : ∃ item b', b.pop = some (some item, b') := by
  have hne : ¬b.head = b.curr := fun heq => h (length_eq_zero.mpr heq)
  unfold pop
  rw [if_neg hne]
  exact ⟨_, _, rfl⟩

theorem pop_some (h : b.pop = some (some item, b')) :
    b.length = b'.length + 1 ∧ b'.isTerminated = b.isTerminated := by
  have hhead := b.head_lt
  have hcurr := b.curr_lt
  unfold pop at h
  split at h
  · split at h <;> simp at h
  · obtain ⟨-, rfl⟩ := Prod.mk.inj (Option.some.inj h)
    refine ⟨?_, rfl⟩
    unfold length
    unfold next maxSize at *
    dsimp only
    omega

theorem pop_of_terminated (h : b.length = 0) (hterminated : b.isTerminated = true) :
    b.pop = some (none, b) := by
  unfold pop
  rw [if_pos (length_eq_zero.mp h), if_pos hterminated]

theorem pop_none (h : b.pop = some (none, b')) :
    b' = b ∧ b.length = 0 ∧ b.isTerminated = true := by
  unfold pop at h
  split at h
  · next heq =>
    split at h
    · next hterminated =>
      obtain ⟨-, rfl⟩ := Prod.mk.inj (Option.some.inj h)
      exact ⟨rfl, length_eq_zero.mpr heq, hterminated⟩
    · exact absurd h (by simp)
  · simp at h

end Buffer
end BackupManager.Client
