import BackupManager.Table.Connection
import Mathlib.Data.Nat.Notation

/-! Prepared statements on a connection. A statement is known by its handle, which is open from its
preparation to its finalization; any other use of a handle is a misuse. What the calls return is
given by an oracle that is asked once a call. -/
namespace BackupManager.Table

theorem Connection.Unwritten.trans {D : Type} {c c' c'' : Connection D} (h : Unwritten c c')
    (h' : Unwritten c' c'') : Unwritten c c'' := by
  rcases h with rfl | rfl
  · exact h'
  · rcases h' with rfl | rfl
    · exact Or.inr rfl
    · exact Or.inr rfl

/-- A connection and its statements. -/
structure Driver (D : Type) where
  connection : Connection D
  /-- The number of handles given out. -/
  next : ℕ
  /-- The handles that are open. -/
  live : List ℕ
  misused : Bool
  /-- The number of calls that the oracle has answered. -/
  calls : ℕ

/-- A program of calls: it returns or throws. -/
def Script (D α : Type) : Type := Driver D → Except String α × Driver D

namespace Script

variable {D α β M ρ : Type}

def bind (p : Script D α) (f : α → Script D β) : Script D β := fun s =>
  match p s with
  | (.ok a, s) => f a s
  | (.error what, s) => (.error what, s)

instance : Monad (Script D) where
  pure a := fun s => (.ok a, s)
  bind := bind

def throw (what : String) : Script D α := fun s => (.error what, s)

/-- A call on the connection, which is told what to return. -/
def call (results : ℕ → Code) (f : Code → Call D) : Script D Bool := fun s =>
  let r := f (results s.calls) s.connection
  (.ok r.1, { s with connection := r.2, calls := s.calls + 1 })

def current : Script D D := fun s => (.ok s.connection.current, s)

/-- A handle is given to a call; a null pointer is no handle. -/
def use (stmt : Option ℕ) : Script D Unit := fun s =>
  (.ok (), { s with misused := s.misused || !stmt.any s.live.contains })

/-- A new handle, or a null pointer for a statement that cannot be prepared. -/
def openHandle (ok : Bool) : Script D (Option ℕ) := fun s =>
  if ok then (.ok (some s.next), { s with next := s.next + 1, live := s.next :: s.live })
  else (.ok none, s)

/-- `sqlite3_prepare_v2` of a statement; `valid` looks at what it refers to. -/
def prepare (results : ℕ → Code) (valid : D → Bool) : Script D (Option ℕ) := do
  let ok ← call results (Connection.execute fun d => if valid d then some d else none)
  openHandle ok

/-- `sqlite3_bind_*`: whether it returns `SQLITE_OK`. -/
def bindValue (results : ℕ → Code) (stmt : Option ℕ) : Script D Bool := do
  use stmt
  call results Connection.call

/-- `sqlite3_step` of a statement that writes: whether it returns `SQLITE_DONE`. -/
def stepWrite (results : ℕ → Code) (change : D → Option D) (stmt : Option ℕ) : Script D Bool := do
  use stmt
  call results (Connection.execute change)

/-- `sqlite3_step` of a statement that reads: whether it does not fail. -/
def stepRead (results : ℕ → Code) (stmt : Option ℕ) : Script D Bool := do
  use stmt
  call results Connection.call

/-- `sqlite3_finalize`, which does nothing with a null pointer. -/
def finalize : Option ℕ → Script D Unit
  | none => pure ()
  | some h => fun s =>
    (.ok (), { s with live := s.live.erase h, misused := s.misused || !s.live.contains h })

/-- `if (... != SQLITE_OK) { sqlite3_finalize(stmt); throw ...; }` -/
def orThrow (what : String) (stmt : Option ℕ) (ok : Bool) : Script D Unit :=
  if ok then pure () else do
    finalize stmt
    throw what

/-- A preparation with the check of its result. -/
def prepareOrThrow (results : ℕ → Code) (what : String) (valid : D → Bool) :
    Script D (Option ℕ) := do
  let stmt ← prepare results valid
  orThrow what stmt stmt.isSome
  pure stmt

/-- A call that is given the statement, with the check of its result. -/
def callOrThrow (results : ℕ → Code) (what : String) (f : Code → Call D) (stmt : Option ℕ) :
    Script D Unit := do
  use stmt
  let ok ← call results f
  orThrow what stmt ok

/-- `while (sqlite3_step(stmt) == SQLITE_ROW) { ... }` over these rows, where the body reads the columns
and may throw. -/
def forRows (results : ℕ → Code) (stmt : Option ℕ) (body : M → ρ → Except String M) :
    List ρ → M → Script D M
  | [], m => do
    let _ ← stepRead results stmt
    pure m
  | r :: rest, m => do
    let ok ← stepRead results stmt
    if ok then
      use stmt
      match body m r with
      | .error what => throw what
      | .ok m => forRows results stmt body rest m
    else pure m

theorem bind_apply (p : Script D α) (f : α → Script D β) (s : Driver D) :
    (p >>= f) s = match p s with
      | (.ok a, s) => f a s
      | (.error what, s) => (.error what, s) := rfl

/-- A program that returned went through every one of its parts. -/
theorem bind_ok {p : Script D α} {f : α → Script D β} {s s'' : Driver D} {b : β}
    (h : (p >>= f) s = (.ok b, s'')) : ∃ a s', p s = (.ok a, s') ∧ f a s' = (.ok b, s'') := by
  rw [bind_apply] at h
  cases hp : p s with
  | mk o s' =>
    rw [hp] at h
    cases o with
    | ok a => exact ⟨a, s', rfl, h⟩
    | error what => cases h

/-! Which statements a program owns. -/

/-- From the statements `opened` to those of `after`, on top of what else is open; no handle is
misused. -/
def Owns (opened : List ℕ) (p : Script D α) (after : Except String α → List ℕ → Prop) : Prop :=
  ∀ s rest, s.live = opened ++ rest → (p s).2.misused = s.misused ∧
    ∃ left, after (p s).1 left ∧ (p s).2.live = left ++ rest

section Owns

variable {opened : List ℕ} {results : ℕ → Code} {h : ℕ}

theorem Owns.mono {p : Script D α} {after after' : Except String α → List ℕ → Prop}
    (hp : Owns opened p after) (himp : ∀ o left, after o left → after' o left) :
    Owns opened p after' := by
  intro s rest hlive
  obtain ⟨hmisused, left, hafter, hleft⟩ := hp s rest hlive
  exact ⟨hmisused, left, himp _ _ hafter, hleft⟩

theorem Owns.bind {p : Script D α} {f : α → Script D β} {mid : Except String α → List ℕ → Prop}
    {after : Except String β → List ℕ → Prop} (hp : Owns opened p mid)
    (hf : ∀ a left, mid (.ok a) left → Owns left (f a) after)
    (hthrow : ∀ what left, mid (.error what) left → after (.error what) left) :
    Owns opened (p >>= f) after := by
  intro s rest hlive
  obtain ⟨hmisused, left, hmid, hleft⟩ := hp s rest hlive
  rw [bind_apply]
  cases hs : p s with
  | mk o s' =>
    rw [hs] at hmisused hmid hleft
    cases o with
    | ok a =>
      obtain ⟨hmisused', left', hafter, hleft'⟩ := hf a left hmid s' rest hleft
      exact ⟨hmisused'.trans hmisused, left', hafter, hleft'⟩
    | error what => exact ⟨hmisused, left, hthrow what left hmid, hleft⟩

theorem Owns.pure {after : Except String α → List ℕ → Prop} {a : α} (h : after (.ok a) opened) :
    Owns opened (Pure.pure a : Script D α) after := fun _ _ hlive => ⟨rfl, opened, h, hlive⟩

theorem Owns.throw {after : Except String α → List ℕ → Prop} {what : String}
    (h : after (.error what) opened) : Owns opened (throw what : Script D α) after :=
  fun _ _ hlive => ⟨rfl, opened, h, hlive⟩

/-- What follows owns what was owned. -/
def Unchanged (opened : List ℕ) (o : Except String α) (left : List ℕ) : Prop :=
  left = opened ∧ ∃ a, o = .ok a

/-- The first part returns, and what follows owns what it has left. -/
theorem Owns.andThen {p : Script D α} {f : α → Script D β} {left : List ℕ}
    {after : Except String β → List ℕ → Prop} (hp : Owns opened p (Unchanged left))
    (hf : ∀ a, Owns left (f a) after) : Owns opened (p >>= f) after := by
  refine .bind hp (fun a left hmid => ?_) fun _ _ ⟨_, _, hok⟩ => by cases hok
  rw [hmid.1]
  exact hf a

theorem Owns.current : Owns opened (current : Script D D) (Unchanged opened) :=
  fun _ _ hlive => ⟨rfl, opened, ⟨rfl, _, rfl⟩, hlive⟩

theorem Owns.call (f : Code → Call D) : Owns opened (call results f) (Unchanged opened) :=
  fun _ _ hlive => ⟨rfl, opened, ⟨rfl, _, rfl⟩, hlive⟩

theorem Owns.use : Owns [h] (use (some h) : Script D Unit) (Unchanged [h]) := by
  intro s rest hlive
  refine ⟨?_, [h], ⟨rfl, _, rfl⟩, hlive⟩
  show (s.misused || !(some h).any s.live.contains) = s.misused
  simp [hlive]

/-- A call that is given the statement, whatever its result. -/
theorem Owns.useCall (f : Code → Call D) : Owns [h]
    (do Script.use (some h); Script.call results f) (Unchanged [h]) :=
  .andThen .use fun _ => .call f

theorem Owns.prepare (valid : D → Bool) : Owns [] (prepare results valid)
    (fun o left => ∃ stmt, o = .ok stmt ∧ left = stmt.toList) := by
  refine .andThen (.call _) fun ok s rest hlive => ?_
  cases ok with
  | true => exact ⟨rfl, [s.next], ⟨some s.next, rfl, rfl⟩, congrArg (s.next :: ·) hlive⟩
  | false => exact ⟨rfl, [], ⟨none, rfl, rfl⟩, hlive⟩

/-- What follows owns the statement that was prepared, if there is one. -/
theorem Owns.prepareThen {valid : D → Bool} {f : Option ℕ → Script D β}
    {after : Except String β → List ℕ → Prop} (hf : ∀ stmt, Owns stmt.toList (f stmt) after) :
    Owns [] (Script.prepare results valid >>= f) after := by
  refine .bind (.prepare valid) ?_ fun _ _ ⟨_, hok, _⟩ => by cases hok
  intro stmt left ⟨_, hok, hleft⟩
  cases hok
  rw [hleft]
  exact hf stmt

theorem Owns.finalize (stmt : Option ℕ) : Owns stmt.toList (finalize stmt : Script D Unit)
    (Unchanged []) := by
  intro s rest hlive
  cases stmt with
  | none => exact ⟨rfl, [], ⟨rfl, _, rfl⟩, hlive⟩
  | some h =>
    refine ⟨?_, [], ⟨rfl, _, rfl⟩, ?_⟩
    · show (s.misused || !s.live.contains h) = s.misused
      simp [hlive]
    · show s.live.erase h = rest
      rw [hlive]
      exact List.erase_cons_head h rest

/-- The statement stays open, or it has been finalized and the exception thrown. -/
def Checked (what : String) (opened : List ℕ) (o : Except String α) (left : List ℕ) : Prop :=
  match o with
  | .ok _ => left = opened
  | .error what' => what' = what ∧ left = []

theorem Owns.orThrow (what : String) (stmt : Option ℕ) :
    Owns stmt.toList (orThrow what stmt true : Script D Unit) (Checked what stmt.toList) ∧
      Owns stmt.toList (orThrow what stmt false : Script D Unit)
        (fun o left => o = .error what ∧ left = []) :=
  ⟨.pure rfl, .andThen (.finalize stmt) fun _ => .throw ⟨rfl, rfl⟩⟩

theorem Owns.prepareOrThrow (what : String) (valid : D → Bool) :
    Owns [] (prepareOrThrow results what valid) (fun o left =>
      (∃ h, o = .ok (some h) ∧ left = [h]) ∨ o = .error what ∧ left = []) := by
  refine .prepareThen fun stmt => ?_
  cases stmt with
  | none =>
    refine .bind (Owns.orThrow what none).2 ?_ ?_
    · exact fun _ _ hmid => by cases hmid.1
    · exact fun _ _ hmid => Or.inr ⟨congrArg Except.error (Except.error.inj hmid.1), hmid.2⟩
  | some h =>
    refine .bind (Owns.orThrow what (some h)).1 ?_ ?_
    · intro u left hmid
      rw [show left = [h] from hmid]
      exact .pure (Or.inl ⟨h, rfl, rfl⟩)
    · exact fun _ _ hmid => Or.inr ⟨hmid.1 ▸ rfl, hmid.2⟩

theorem Owns.callOrThrow (what : String) (f : Code → Call D) :
    Owns [h] (callOrThrow results what f (some h)) (Checked what [h]) := by
  refine .andThen .use fun _ => .andThen (.call f) fun ok => ?_
  cases ok with
  | true => exact (Owns.orThrow what (some h)).1
  | false => exact (Owns.orThrow what (some h)).2.mono fun o left hmid => hmid.1 ▸ ⟨rfl, hmid.2⟩

/-- The loop leaves its statement open, also where its body throws. -/
theorem Owns.forRows (body : M → ρ → Except String M) (rows : List ρ) :
    ∀ m : M, Owns [h] (forRows results (some h) body rows m : Script D M) (fun o left =>
      left = [h] ∧ ∀ what, o = .error what → ∃ m r, body m r = .error what) := by
  induction rows with
  | nil =>
    intro m
    exact .andThen (.useCall Connection.call) fun _ => .pure ⟨rfl, fun _ h => by cases h⟩
  | cons r rest ih =>
    intro m
    refine .andThen (.useCall Connection.call) fun ok => ?_
    cases ok with
    | false => exact .pure ⟨rfl, fun _ h => by cases h⟩
    | true =>
      refine .andThen .use fun _ => ?_
      cases hbody : body m r with
      | error what => exact .throw ⟨rfl, fun _ h => by cases h; exact ⟨m, r, hbody⟩⟩
      | ok m' => exact ih m'

end Owns

/-! What a program does to the connection. -/

theorem bind_error {p : Script D α} {f : α → Script D β} {s s'' : Driver D} {what : String}
    (h : (p >>= f) s = (.error what, s'')) : p s = (.error what, s'') ∨
      ∃ a s', p s = (.ok a, s') ∧ f a s' = (.error what, s'') := by
  rw [bind_apply] at h
  cases hp : p s with
  | mk o s' =>
    rw [hp] at h
    cases o with
    | ok a => exact Or.inr ⟨a, s', rfl, h⟩
    | error what' =>
      cases h
      exact Or.inl rfl

/-- The program only reads: it leaves the connection as it is, and a failed call may have rolled the
transaction back. -/
structure Reads (p : Script D α) : Prop where
  ok : ∀ {s s' a}, p s = (.ok a, s') → s'.connection = s.connection
  error : ∀ {s s' what}, p s = (.error what, s') → Connection.Unwritten s.connection s'.connection

/-- The program makes one change, and nothing is written when it throws. -/
structure Writes (change : D → Option D) (p : Script D α) : Prop where
  ok : ∀ {s s' a}, p s = (.ok a, s') →
    ∃ d, change s.connection.current = some d ∧ s'.connection = s.connection.put d
  error : ∀ {s s' what}, p s = (.error what, s') → Connection.Unwritten s.connection s'.connection

section Connection

variable {results : ℕ → Code} {change : D → Option D}

theorem Reads.of_same {p : Script D α} (h : ∀ s, (p s).2.connection = s.connection) : Reads p where
  ok := fun {s _ _} hp => by rw [← h s, hp]
  error := fun {s _ _} hp => Or.inl (by rw [← h s, hp])

theorem Reads.pure (a : α) : Reads (Pure.pure a : Script D α) := .of_same fun _ => rfl

theorem Reads.use (stmt : Option ℕ) : Reads (use stmt : Script D Unit) := .of_same fun _ => rfl

theorem Reads.current : Reads (current : Script D D) := .of_same fun _ => rfl

theorem Reads.finalize (stmt : Option ℕ) : Reads (finalize stmt : Script D Unit) :=
  .of_same fun _ => by cases stmt <;> rfl

theorem Reads.bind {p : Script D α} {f : α → Script D β} (hp : Reads p) (hf : ∀ a, Reads (f a)) :
    Reads (p >>= f) where
  ok := by
    intro s s'' b h
    obtain ⟨a, s', hfirst, hrest⟩ := bind_ok h
    rw [(hf a).ok hrest, hp.ok hfirst]
  error := by
    intro s s'' what h
    rcases bind_error h with hfirst | ⟨a, s', hfirst, hrest⟩
    · exact hp.error hfirst
    · rw [← hp.ok hfirst]
      exact (hf a).error hrest

/-- A change between parts that read. -/
theorem Writes.after {p : Script D α} {f : α → Script D β} (hp : Reads p)
    (hf : ∀ a, Writes change (f a)) : Writes change (p >>= f) where
  ok := by
    intro s s'' b h
    obtain ⟨a, s', hfirst, hrest⟩ := bind_ok h
    rw [← hp.ok hfirst]
    exact (hf a).ok hrest
  error := by
    intro s s'' what h
    rcases bind_error h with hfirst | ⟨a, s', hfirst, hrest⟩
    · exact hp.error hfirst
    · rw [← hp.ok hfirst]
      exact (hf a).error hrest

/-- A call that only asks: it succeeds and changes nothing, or it fails. -/
def Asks (f : Code → Call D) : Prop := ∀ code c,
  f code c = (true, c) ∨ ∃ c', f code c = (false, c') ∧ Connection.Unwritten c c'

theorem asks_valid (valid : D → Bool) :
    Asks (Connection.execute fun d => if valid d then some d else none) := by
  intro code c
  by_cases hok : code = .ok ∧ valid c.current = true
  · left
    have hvalid : (fun d => if valid d then some d else none) c.current = some c.current :=
      if_pos hok.2
    rw [hok.1, Connection.execute_ok hvalid, Connection.put_current]
  · right
    apply Connection.execute_refused
    by_contra hnot
    rw [not_or, not_not] at hnot
    refine hok ⟨hnot.1, ?_⟩
    by_contra hvalid
    exact hnot.2 (if_neg hvalid)

theorem asks_call : Asks (Connection.call : Code → Call D) := by
  intro code c
  by_cases hok : code = .ok
  · left
    rw [hok]
    exact Connection.call_ok c
  · right
    exact Connection.call_refused hok

/-- The check throws exactly when it is told to, and leaves the connection as it is. -/
theorem orThrow_cases (what : String) (stmt : Option ℕ) (ok : Bool) (s : Driver D) :
    ((orThrow what stmt ok : Script D Unit) s).2.connection = s.connection ∧
      ((orThrow what stmt ok : Script D Unit) s).1 = if ok then .ok () else .error what := by
  cases ok with
  | true => exact ⟨rfl, rfl⟩
  | false => cases stmt <;> exact ⟨rfl, rfl⟩

/-- A call with the check of its result. -/
theorem check_cases (f : Code → Call D) (what : String) (stmt : Option ℕ) (s : Driver D) :
    (callOrThrow results what f stmt s).1 =
        (if (f (results s.calls) s.connection).1 then .ok () else .error what) ∧
      (callOrThrow results what f stmt s).2.connection = (f (results s.calls) s.connection).2 := by
  obtain ⟨hconnection, houtcome⟩ := orThrow_cases what stmt (f (results s.calls) s.connection).1
    { s with
      connection := (f (results s.calls) s.connection).2
      misused := s.misused || !stmt.any s.live.contains
      calls := s.calls + 1 }
  exact ⟨houtcome, hconnection⟩

theorem prepare_cases (what : String) (valid : D → Bool) (s : Driver D) :
    let r := Connection.execute (fun d => if valid d then some d else none) (results s.calls)
      s.connection
    (prepareOrThrow results what valid s).1 = (if r.1 then .ok (some s.next) else .error what) ∧
      (prepareOrThrow results what valid s).2.connection = r.2 := by
  intro r
  unfold prepareOrThrow prepare
  simp only [bind_apply, call, openHandle]
  cases r.1 with
  | true => exact ⟨rfl, rfl⟩
  | false => exact ⟨rfl, rfl⟩

/-- What asks the oracle and checks the answer reads. -/
theorem Reads.of_asks {p : Script D α} {f : Code → Call D} (hf : Asks f) (what : String) (a : Driver D → α)
    (h : ∀ s, (p s).1 = (if (f (results s.calls) s.connection).1 then .ok (a s) else .error what) ∧
      (p s).2.connection = (f (results s.calls) s.connection).2) : Reads p where
  ok := by
    intro s s' b hrun
    obtain ⟨houtcome, hconnection⟩ := h s
    rw [hrun] at houtcome hconnection
    rcases hf (results s.calls) s.connection with htrue | ⟨c', hfalse, -⟩
    · rw [htrue] at hconnection
      exact hconnection
    · rw [hfalse] at houtcome
      cases houtcome
  error := by
    intro s s' what' hrun
    obtain ⟨houtcome, hconnection⟩ := h s
    rw [hrun] at houtcome hconnection
    rcases hf (results s.calls) s.connection with htrue | ⟨c', hfalse, hunwritten⟩
    · rw [htrue] at houtcome
      cases houtcome
    · rw [hfalse] at hconnection
      exact hconnection ▸ hunwritten

theorem Reads.callOrThrow {f : Code → Call D} (hf : Asks f) (what : String) (stmt : Option ℕ) :
    Reads (callOrThrow results what f stmt) :=
  .of_asks hf what (fun _ => ()) (check_cases f what stmt)

theorem Reads.prepareOrThrow (what : String) (valid : D → Bool) :
    Reads (prepareOrThrow results what valid) :=
  .of_asks (asks_valid valid) what (fun s => some s.next) (prepare_cases what valid)

theorem Writes.stepOrThrow (what : String) (stmt : Option ℕ) :
    Writes change (callOrThrow results what (Connection.execute change) stmt) where
  ok := by
    intro s s' a hrun
    obtain ⟨houtcome, hconnection⟩ := @check_cases D results (Connection.execute change) what stmt s
    rw [hrun] at houtcome hconnection
    by_cases hdone : results s.calls = .ok ∧ change s.connection.current ≠ none
    · obtain ⟨d, hd⟩ := Option.ne_none_iff_exists'.mp hdone.2
      rw [hdone.1, Connection.execute_ok hd] at hconnection
      exact ⟨d, hd, hconnection⟩
    · obtain ⟨c', hrefused, -⟩ := Connection.execute_refused change (results s.calls)
        (not_and_or.mp hdone |>.imp_right not_not.mp)
      rw [hrefused] at houtcome
      cases houtcome
  error := by
    intro s s' what' hrun
    obtain ⟨houtcome, hconnection⟩ := @check_cases D results (Connection.execute change) what stmt s
    rw [hrun] at houtcome hconnection
    by_cases hdone : results s.calls = .ok ∧ change s.connection.current ≠ none
    · obtain ⟨d, hd⟩ := Option.ne_none_iff_exists'.mp hdone.2
      rw [hdone.1, Connection.execute_ok hd] at houtcome
      cases houtcome
    · obtain ⟨c', hrefused, hunwritten⟩ := Connection.execute_refused change (results s.calls)
        (not_and_or.mp hdone |>.imp_right not_not.mp)
      rw [hrefused] at hconnection
      exact hconnection ▸ hunwritten

theorem Writes.andThen {p : Script D α} {f : α → Script D β} (hp : Writes change p)
    (hf : ∀ a s, ∃ b, (f a s).1 = .ok b ∧ (f a s).2.connection = s.connection) :
    Writes change (p >>= f) where
  ok := by
    intro s s'' b h
    obtain ⟨a, s', hfirst, hrest⟩ := bind_ok h
    obtain ⟨_, -, hsame⟩ := hf a s'
    rw [hrest] at hsame
    rw [hsame]
    exact hp.ok hfirst
  error := by
    intro s s'' what h
    rcases bind_error h with hfirst | ⟨a, s', hfirst, hrest⟩
    · exact hp.error hfirst
    · obtain ⟨_, hok, -⟩ := hf a s'
      rw [hrest] at hok
      cases hok

/-- The step of a statement that reads, with what it returns. -/
theorem stepRead_cases (stmt : Option ℕ) (s : Driver D) :
    ∃ ok s', stepRead results stmt s = (.ok ok, s') ∧
      Connection.Unwritten s.connection s'.connection := by
  refine ⟨_, _, rfl, ?_⟩
  rcases asks_call (results s.calls) s.connection with htrue | ⟨c', hfalse, hunwritten⟩
  · exact Or.inl (congrArg Prod.snd htrue)
  · exact (congrArg Prod.snd hfalse : _ = c') ▸ hunwritten

/-- The loop over the rows ends early where a call fails, or where its body throws. -/
theorem unwritten_forRows (stmt : Option ℕ) (body : M → ρ → Except String M) (rows : List ρ) :
    ∀ (m : M) (s : Driver D), Connection.Unwritten s.connection
      (forRows results stmt body rows m s).2.connection := by
  induction rows with
  | nil =>
    intro m s
    obtain ⟨ok, s', hstep, hunwritten⟩ := @stepRead_cases D results stmt s
    rw [forRows, bind_apply, hstep]
    exact hunwritten
  | cons r rest ih =>
    intro m s
    obtain ⟨ok, s', hstep, hunwritten⟩ := @stepRead_cases D results stmt s
    rw [forRows, bind_apply, hstep]
    cases ok with
    | false => exact hunwritten
    | true =>
      simp only [if_true]
      rw [bind_apply]
      cases body m r with
      | error what => exact hunwritten
      | ok m' => exact hunwritten.trans (ih m' _)

end Connection
end Script
end BackupManager.Table
