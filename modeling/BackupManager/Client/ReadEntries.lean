import BackupManager.Client.ActionRestore

/-! What `action_restore` reads, apart from what it does with it: the entries that a stream of bytes
brings. -/
namespace BackupManager.Client
open ByteStream Protocol Prog

section Reading

variable {σ : Type}

/-- The reads at the start of a round, into the variables of the loop. -/
def readHeader (v : Locals) : Prog σ Locals := do
  let pathLength ← recvInt intMaxNDigit v.pathLength
  let path ← recvLine (sizeOfInt (intSucc pathLength)) v.path
  let lastWriteTime ← recvInt intMaxNDigit v.lastWriteTime
  let permissions ← recvInt intMaxNDigit v.permissions
  let isDirectory ← recvInt intMaxNDigit v.isDirectory
  pure ⟨v.size, isDirectory, pathLength, path, lastWriteTime, permissions⟩

/-- The reads of a file; a folder has none. -/
def readContent (v : Locals) : Prog σ (ℤ × Bytes) :=
  if v.isDirectory = 1 then pure (v.size, [])
  else do
    let size ← recvInt intMaxNDigit v.size
    ignore
    let content ← recvChunks maxMsgSize (fun _ => pure ()) size.toNat
    pure (min size 0, content)

/-- The entry that the variables and a content make up. -/
def Locals.entry (v : Locals) (content : Bytes) : Entry :=
  ⟨v.path, v.lastWriteTime, v.permissions, v.isDirectory, content⟩

/-- The reads of a round. -/
def readEntry (v : Locals) : Prog σ (Locals × Entry) := do
  let v ← readHeader v
  let file ← readContent v
  pure ({ v with size := file.1 }, v.entry file.2)

def readEntries : ℕ → Locals → Prog σ (List Entry)
  | 0, _ => pure []
  | n + 1, v => do
    let r ← readEntry v
    let es ← readEntries n r.1
    pure (r.2 :: es)

/-- The paths of the rounds that are begun, at most so many. -/
def begins : ℕ → Locals → Session σ → List Bytes
  | 0, _, _ => []
  | n + 1, v, s =>
    match readHeader v s with
    | (.returns v', _) => v'.path :: match readEntry v s with
      | (.returns r, s') => begins n r.1 s'
      | _ => []
    | _ => []

/-- The paths of the entries that a restore begins. -/
def begun (v : Locals) (pathNumber : ℤ) (s : Session σ) : List Bytes :=
  match recvInt intMaxNDigit pathNumber s with
  | (.returns n, s') => begins n.toNat v s'
  | _ => []

/-- All that is sent for a restore arrives, and is read as these entries. -/
def Brings (v : Locals) (pathNumber : ℤ) (s : Session σ) (es : List Entry) : Prop :=
  ∃ n s₁ s₂, recvInt intMaxNDigit pathNumber s = (.returns n, s₁) ∧
    readEntries n.toNat v s₁ = (.returns es, s₂)

theorem worldless_readHeader (v : Locals) : Worldless (readHeader v : Prog σ Locals) :=
  .bind (.recvInt _ _) fun _ => .bind (.recvLine _ _) fun _ => .bind (.recvInt _ _) fun _ =>
    .bind (.recvInt _ _) fun _ => .bind (.recvInt _ _) fun _ => .pure _

theorem worldless_readContent (v : Locals) : Worldless (readContent v : Prog σ (ℤ × Bytes)) := by
  unfold readContent
  split
  · exact .pure _
  · exact .bind (.recvInt _ _) fun _ => .bind (.extract _) fun _ =>
      .bind (.recvChunks (fun _ => .pure _) _) fun _ => .pure _

theorem worldless_readEntry (v : Locals) : Worldless (readEntry v : Prog σ (Locals × Entry)) :=
  .bind (worldless_readHeader v) fun _ => .bind (worldless_readContent _) fun _ => .pure _

theorem worldless_readEntries (n : ℕ) (v : Locals) :
    Worldless (readEntries n v : Prog σ (List Entry)) := by
  induction n generalizing v with
  | zero => exact .pure _
  | succ n ih => exact .bind (worldless_readEntry v) fun r => .bind (ih r.1) fun _ => .pure _

variable {v v' : Locals} {e : Entry} {es : List Entry} {s s' : Session σ} {n : ℕ} {path : Bytes}

theorem readEntry_returns (h : readEntry v s = (.returns (v', e), s')) :
    ∃ v₁ s₁ file, readHeader v s = (.returns v₁, s₁) ∧ readContent v₁ s₁ = (.returns file, s') ∧
      v' = { v₁ with size := file.1 } ∧ e = v₁.entry file.2 := by
  obtain ⟨v₁, s₁, hheader, h⟩ := bind_returns h
  obtain ⟨file, s₂, hcontent, h⟩ := bind_returns h
  rw [pure_apply, Prod.mk.injEq, Outcome.returns.injEq, Prod.mk.injEq] at h
  obtain ⟨⟨rfl, rfl⟩, rfl⟩ := h
  exact ⟨v₁, s₁, file, hheader, hcontent, rfl, rfl⟩

theorem readEntries_returns (h : readEntries (n + 1) v s = (.returns es, s')) :
    ∃ v' e s₁ rest, readEntry v s = (.returns (v', e), s₁) ∧
      readEntries n v' s₁ = (.returns rest, s') ∧ es = e :: rest := by
  obtain ⟨r, s₁, hentry, h⟩ := bind_returns h
  obtain ⟨rest, s₂, hrest, h⟩ := bind_returns h
  rw [pure_apply, Prod.mk.injEq, Outcome.returns.injEq] at h
  obtain ⟨rfl, rfl⟩ := h
  exact ⟨r.1, r.2, s₁, rest, hentry, hrest, rfl⟩

theorem mem_begins_of_header (n : ℕ) (h : readHeader v s = (.returns v', s')) :
    v'.path ∈ begins (n + 1) v s := by
  rw [begins, h]
  exact List.mem_cons_self

theorem mem_begins_of_later (h : readEntry v s = (.returns (v', e), s')) (hlater : path ∈ begins n v' s') :
    path ∈ begins (n + 1) v s := by
  obtain ⟨v₁, s₁, file, hheader, -, -, -⟩ := readEntry_returns h
  rw [begins, hheader, h]
  exact List.mem_cons_of_mem _ hlater

/-- What is begun does not depend on the world. -/
theorem begins_world (n : ℕ) (v : Locals) (s : Session σ) (w : σ) :
    begins n v { s with world := w } = begins n v s := by
  induction n generalizing v s with
  | zero => rfl
  | succ n ih =>
    rw [begins, begins, worldless_readHeader v s w, worldless_readEntry v s w]
    cases readHeader v s with
    | mk o s₁ =>
      cases o with
      | throws what => rfl
      | waits => rfl
      | returns v' =>
        cases readEntry v s with
        | mk o s₂ =>
          cases o with
          | throws what => rfl
          | waits => rfl
          | returns r => exact congrArg (v'.path :: ·) (ih r.1 s₂)

end Reading
end BackupManager.Client
