import BackupManager.Client.WatcherSteps
import BackupManager.Digest.Streaming

/-! No modification is lost as long as no file is rewritten in the moment in which `init_status`
has looked at its content and not yet at its time. Every step of the system is followed on each
file apart. -/
namespace BackupManager.Protocol
open ByteStream Client Digest Transition
open Backup (step)

/-- Where the watcher stands with respect to one file. -/
inductive Position where
  | unseen
  | hashed (digest : Bytes)
  | timed (digest : Bytes)
  | pushed
  | seen
  /-- The pass under way has still to deliver the file. -/
  | waiting
  | sampled (time : ℤ)
  deriving DecidableEq, Repr

def position (p : Bytes) : Stage → Position
  | .init todo => if p ∈ todo then .unseen else .seen
  | .hashed q digest todo => if p = q then .hashed digest else if p ∈ todo then .unseen else .seen
  | .timed q digest todo => if p = q then .timed digest else if p ∈ todo then .unseen else .seen
  | .pushed q todo => if p = q then .pushed else if p ∈ todo then .unseen else .seen
  | .leftover _ => .seen
  | .idle => .seen
  | .scan todo => if p ∈ todo then .waiting else .seen
  | .sampled q time todo => if p = q then .sampled time else if p ∈ todo then .waiting else .seen

/-- The files that the iterator under way has still to deliver, with the one at hand. -/
def remaining : Stage → List Bytes
  | .init todo => todo
  | .hashed q _ todo => q :: todo
  | .timed q _ todo => q :: todo
  | .pushed q todo => q :: todo
  | .leftover _ => []
  | .idle => []
  | .scan todo => todo
  | .sampled q _ todo => q :: todo

/-- Everything in the system that concerns one file. -/
structure Track where
  position : Position
  status : Option Bytes
  recorded : Option ℤ
  actions : List Action
  final : Option Bytes
  file : Version
  times : List ℤ
  quiet : Bool
  scanned : Bool

def track (s : Backup) (p : Bytes) : Track where
  position := position p s.stage
  status := s.watching.initialStatus p
  recorded := s.watching.paths p
  actions := s.watching.pushed.filter fun a => a.path = p
  final := s.final p
  file := s.files p
  times := s.times p
  quiet := s.quiet
  scanned := s.scanned

namespace Track

/-- The server will hold what the file holds, or an action on the file is still to be sent. -/
def Covered (t : Track) : Prop := t.actions ≠ [] ∨ t.final = some t.file.content

/-- `init_status` has looked at the content, or the content is sent, and the time that it will
record is still to be read. -/
def Exposed (t : Track) : Prop :=
  match t.position with
  | .hashed digest => t.status = some digest
  | .timed digest => t.status = some digest
  | .pushed => t.actions = []
  | _ => False

instance (t : Track) : Decidable t.Exposed :=
  match h : t.position with
  | .hashed digest => decidable_of_iff (t.status = some digest) (by rw [Exposed, h])
  | .timed digest => decidable_of_iff (t.status = some digest) (by rw [Exposed, h])
  | .pushed => decidable_of_iff (t.actions = []) (by rw [Exposed, h])
  | .unseen => .isFalse (by rw [Exposed, h]; exact id)
  | .seen => .isFalse (by rw [Exposed, h]; exact id)
  | .waiting => .isFalse (by rw [Exposed, h]; exact id)
  | .sampled _ => .isFalse (by rw [Exposed, h]; exact id)

/-- What holds at each position. -/
def Holds (hash : Bytes → Bytes) (t : Track) : Prop :=
  match t.position with
  | .unseen => t.status = t.final.map hash ∧ t.actions = []
  | .hashed digest => t.status = some digest → t.final = some t.file.content
  | .timed digest => t.status = some digest → t.final = some t.file.content
  | .pushed => t.status = none ∧ t.Covered
  | .seen => t.status = none ∧ (t.recorded = some t.file.lastWriteTime → t.Covered)
  | .waiting => t.status = none ∧ (t.recorded = some t.file.lastWriteTime → t.Covered)
  | .sampled time => t.status = none ∧ time ∈ t.times ∧
      (t.recorded = some t.file.lastWriteTime → t.Covered)

/-- Since the pass under way began no file was rewritten: what it has recorded is current. -/
def Current (t : Track) : Prop :=
  match t.position with
  | .seen => t.recorded = some t.file.lastWriteTime
  | .waiting => True
  | .sampled time => time = t.file.lastWriteTime
  | _ => False

structure Invariant (hash : Bytes → Bytes) (t : Track) : Prop where
  time_mem : t.file.lastWriteTime ∈ t.times
  recorded_mem : ∀ time ∈ t.recorded, time ∈ t.times
  reads : ∀ a ∈ t.actions, a.actionType = .readFile
  holds : t.Holds hash
  current : t.quiet = true → t.Current
  scanned : t.scanned = true → t.quiet = true ∧ t.recorded = some t.file.lastWriteTime

section Moves

variable {hash : Bytes → Bytes} {t : Track} (h : t.Invariant hash)

include h

/-- After a rewrite the recorded time is not the current one. -/
theorem recorded_ne {time : ℤ} (htime : time ∉ t.times) : t.recorded ≠ some time := by
  intro hrecorded
  exact htime (h.recorded_mem time hrecorded)

theorem Invariant.rewrite (hexposed : ¬t.Exposed) (content : Bytes) {time : ℤ}
    (htime : time ∉ t.times) :
    Invariant hash { t with
      file := ⟨content, time⟩
      times := time :: t.times
      quiet := false
      scanned := false } := by
  have hne := recorded_ne h htime
  have hholds := h.holds
  refine ⟨List.mem_cons_self, ?_, h.reads, ?_, by simp, by simp⟩
  · intro τ hτ
    exact List.mem_cons_of_mem _ (h.recorded_mem τ hτ)
  · unfold Holds Exposed at *
    cases hposition : t.position with
    | unseen =>
      rw [hposition] at hholds
      exact hholds
    | hashed digest =>
      rw [hposition] at hexposed
      exact fun hdigest => absurd hdigest hexposed
    | timed digest =>
      rw [hposition] at hexposed
      exact fun hdigest => absurd hdigest hexposed
    | pushed =>
      rw [hposition] at hexposed hholds
      exact ⟨hholds.1, Or.inl hexposed⟩
    | seen =>
      rw [hposition] at hholds
      exact ⟨hholds.1, fun hrecorded => absurd hrecorded hne⟩
    | waiting =>
      rw [hposition] at hholds
      exact ⟨hholds.1, fun hrecorded => absurd hrecorded hne⟩
    | sampled τ =>
      rw [hposition] at hholds
      exact ⟨hholds.1, List.mem_cons_of_mem _ hholds.2.1, fun hrecorded => absurd hrecorded hne⟩

/-- Another file is rewritten. -/
theorem Invariant.disturb : Invariant hash { t with quiet := false, scanned := false } :=
  ⟨h.time_mem, h.recorded_mem, h.reads, h.holds, by simp, by simp⟩

/-- A known file is hashed; no other content has its digest. -/
theorem Invariant.digest (hposition : t.position = .unseen)
    (hcollision : ∀ c ∈ t.final, hash c = hash t.file.content → c = t.file.content) :
    Invariant hash { t with position := .hashed (hash t.file.content) } := by
  have hholds := h.holds
  have hcurrent := h.current
  rw [Holds, hposition] at hholds
  unfold Current at hcurrent
  rw [hposition] at hcurrent
  refine ⟨h.time_mem, h.recorded_mem, h.reads, ?_, hcurrent, h.scanned⟩
  intro hdigest
  have hdigest : t.status = some (hash t.file.content) := hdigest
  rw [hholds.1, Option.map_eq_some_iff] at hdigest
  obtain ⟨c, hc, hsame⟩ := hdigest
  show t.final = some t.file.content
  rw [hc, hcollision c hc hsame]

/-- A file that the server does not know is pushed. -/
theorem Invariant.create (hposition : t.position = .unseen) (hstatus : t.status = none)
    {a : Action} (ha : a.actionType = .readFile) :
    Invariant hash { t with position := .pushed, actions := t.actions ++ [a] } := by
  have hcurrent := h.current
  unfold Current at hcurrent
  rw [hposition] at hcurrent
  refine ⟨h.time_mem, h.recorded_mem, ?_, ⟨hstatus, Or.inl (by simp)⟩, hcurrent, h.scanned⟩
  intro b hb
  rcases List.mem_append.mp hb with hb | hb
  · exact h.reads b hb
  · rw [List.mem_singleton.mp hb]
    exact ha

theorem Invariant.record {digest : Bytes} (hposition : t.position = .hashed digest) :
    Invariant hash { t with
      position := .timed digest
      recorded := some t.file.lastWriteTime } := by
  have hholds := h.holds
  have hcurrent := h.current
  rw [Holds, hposition] at hholds
  unfold Current at hcurrent
  rw [hposition] at hcurrent
  refine ⟨h.time_mem, ?_, h.reads, hholds, hcurrent, fun hs => ⟨(h.scanned hs).1, rfl⟩⟩
  intro τ hτ
  rw [← Option.some.inj hτ]
  exact h.time_mem

/-- Pushing the file or not. -/
theorem Invariant.reads_push {a : Action} (ha : a.actionType = .readFile) (differs : Prop)
    [Decidable differs] : ∀ b ∈ (if differs then t.actions ++ [a] else t.actions),
      b.actionType = .readFile := by
  intro b hb
  split at hb
  · rcases List.mem_append.mp hb with hb | hb
    · exact h.reads b hb
    · rw [List.mem_singleton.mp hb]
      exact ha
  · exact h.reads b hb

/-- The digests are compared, and the file is pushed when they differ. -/
theorem Invariant.compare {digest : Bytes} (hposition : t.position = .timed digest) {a : Action}
    (ha : a.actionType = .readFile) :
    Invariant hash { t with
      position := .pushed
      status := none
      actions := if t.status ≠ some digest then t.actions ++ [a] else t.actions } := by
  have hholds := h.holds
  have hcurrent := h.current
  rw [Holds, hposition] at hholds
  unfold Current at hcurrent
  rw [hposition] at hcurrent
  refine ⟨h.time_mem, h.recorded_mem, ?_, ⟨rfl, ?_⟩, hcurrent, h.scanned⟩
  · exact h.reads_push ha _
  · unfold Covered
    dsimp only
    split
    · exact Or.inl (by simp)
    · next hsame => exact Or.inr (hholds (not_not.mp hsame))

/-- The time is read last. -/
theorem Invariant.finish (hposition : t.position = .pushed) :
    Invariant hash { t with position := .seen, recorded := some t.file.lastWriteTime } := by
  have hholds := h.holds
  rw [Holds, hposition] at hholds
  refine ⟨h.time_mem, ?_, h.reads, ⟨hholds.1, fun _ => hholds.2⟩, fun _ => rfl,
    fun hs => ⟨(h.scanned hs).1, rfl⟩⟩
  intro τ hτ
  rw [← Option.some.inj hτ]
  exact h.time_mem

theorem Invariant.await (hposition : t.position = .seen) :
    Invariant hash { t with position := .waiting, quiet := true } := by
  have hholds := h.holds
  rw [Holds, hposition] at hholds
  exact ⟨h.time_mem, h.recorded_mem, h.reads, hholds, fun _ => trivial,
    fun hs => ⟨rfl, (h.scanned hs).2⟩⟩

theorem Invariant.sample (hposition : t.position = .waiting) :
    Invariant hash { t with position := .sampled t.file.lastWriteTime } := by
  have hholds := h.holds
  rw [Holds, hposition] at hholds
  exact ⟨h.time_mem, h.recorded_mem, h.reads, ⟨hholds.1, h.time_mem, hholds.2⟩, fun _ => rfl,
    h.scanned⟩

/-- The time that was read is compared with the recorded one, and the file is pushed when they
differ. -/
theorem Invariant.scan {time : ℤ} (hposition : t.position = .sampled time) {a : Action}
    (ha : a.actionType = .readFile) :
    Invariant hash { t with
      position := .seen
      recorded := some time
      actions := if t.recorded ≠ some time then t.actions ++ [a] else t.actions } := by
  have hholds := h.holds
  have hcurrent := h.current
  rw [Holds, hposition] at hholds
  unfold Current at hcurrent
  rw [hposition] at hcurrent
  refine ⟨h.time_mem, ?_, ?_, ⟨hholds.1, ?_⟩, ?_, ?_⟩
  · intro τ hτ
    rw [← Option.some.inj hτ]
    exact hholds.2.1
  · exact h.reads_push ha _
  · intro htime
    have htime : some time = some t.file.lastWriteTime := htime
    unfold Covered
    dsimp only
    split
    · exact Or.inl (by simp)
    · next hsame => exact hholds.2.2 ((not_not.mp hsame).trans htime)
  · intro hquiet
    exact congrArg some (hcurrent hquiet)
  · intro hs
    have hquiet := (h.scanned hs).1
    exact ⟨hquiet, congrArg some (hcurrent hquiet)⟩

theorem Invariant.endScan (hposition : t.position = .seen) :
    Invariant hash { t with scanned := t.scanned || t.quiet } := by
  have hcurrent := h.current
  unfold Current at hcurrent
  rw [hposition] at hcurrent
  refine ⟨h.time_mem, h.recorded_mem, h.reads, h.holds, h.current, ?_⟩
  intro hs
  have hquiet : t.quiet = true := by
    rcases Bool.or_eq_true_iff.mp hs with hscanned | hquiet
    · exact (h.scanned hscanned).1
    · exact hquiet
  exact ⟨hquiet, hcurrent hquiet⟩

/-- An action on the file is sent with what the file holds. -/
theorem Invariant.send {a : Action} {rest : List Action} (hactions : t.actions = a :: rest) :
    Invariant hash { t with actions := rest, final := some t.file.content } := by
  have hholds := h.holds
  have hcovered : Covered { t with actions := rest, final := some t.file.content } := Or.inr rfl
  refine ⟨h.time_mem, h.recorded_mem, ?_, ?_, h.current, h.scanned⟩
  · intro b hb
    exact h.reads b (by rw [hactions]; exact List.mem_cons_of_mem a hb)
  · unfold Holds at hholds ⊢
    cases hposition : t.position with
    | unseen =>
      rw [hposition, hactions] at hholds
      exact absurd hholds.2 (by simp)
    | hashed digest => exact fun _ => rfl
    | timed digest => exact fun _ => rfl
    | pushed =>
      rw [hposition] at hholds
      exact ⟨hholds.1, hcovered⟩
    | seen =>
      rw [hposition] at hholds
      exact ⟨hholds.1, fun _ => hcovered⟩
    | waiting =>
      rw [hposition] at hholds
      exact ⟨hholds.1, fun _ => hcovered⟩
    | sampled τ =>
      rw [hposition] at hholds
      exact ⟨hholds.1, hholds.2.1, fun _ => hcovered⟩

/-- A file whose recorded time is current is covered once a pass was made. -/
theorem Invariant.covered (hscanned : t.scanned = true) : t.Covered := by
  obtain ⟨hquiet, hrecorded⟩ := h.scanned hscanned
  have hcurrent := h.current hquiet
  have hholds := h.holds
  unfold Current at hcurrent
  unfold Holds at hholds
  cases hposition : t.position with
  | seen =>
    rw [hposition] at hholds
    exact hholds.2 hrecorded
  | waiting =>
    rw [hposition] at hholds
    exact hholds.2 hrecorded
  | sampled time =>
    rw [hposition] at hholds
    exact hholds.2.2 hrecorded
  | unseen =>
    rw [hposition] at hcurrent
    exact hcurrent.elim
  | hashed digest =>
    rw [hposition] at hcurrent
    exact hcurrent.elim
  | timed digest =>
    rw [hposition] at hcurrent
    exact hcurrent.elim
  | pushed =>
    rw [hposition] at hcurrent
    exact hcurrent.elim

end Moves
end Track

/-- The step loses nothing by itself: a rewrite does not hit the moment of a file, and a digest that
is known is the digest of the content that the server holds. -/
def Harmless (hash : Bytes → Bytes) (s : Backup) : Client.Event → Prop
  | .rewrite p _ _ => ¬(track s p).Exposed
  | .watch =>
    ∀ p ∈ (remaining s.stage).head?, (track s p).position = .unseen →
      ∀ c ∈ s.final p, hash c = hash (s.files p).content → c = (s.files p).content
  | _ => True

instance (hash : Bytes → Bytes) (s : Backup) : ∀ e, Decidable (Harmless hash s e)
  | .rewrite p _ _ => inferInstanceAs (Decidable ¬(track s p).Exposed)
  | .watch => inferInstanceAs (Decidable (∀ p ∈ (remaining s.stage).head?,
      (track s p).position = .unseen →
        ∀ c ∈ s.final p, hash c = hash (s.files p).content → c = (s.files p).content))
  | .leftover _ => .isTrue trivial
  | .beginScan _ => .isTrue trivial
  | .send => .isTrue trivial
  | .store => .isTrue trivial

/-- The invariant of the system: every file keeps its own. -/
structure Invariant (hash : Bytes → Bytes) (names : List Bytes) (s : Backup) : Prop where
  nodup : (remaining s.stage).Nodup
  leftover : ∀ todo, s.stage = .leftover todo →
    ∀ q ∈ todo, (s.watching.initialStatus q).isSome = true
  tracks : ∀ p ∈ names, (track s p).Invariant hash

section Steps

variable {hash : Bytes → Bytes} {names : List Bytes} {s s' : Backup} {p q : Bytes}

/-- A step of the watcher on another file. -/
theorem track_of_ne {stage : Stage} {watching : Watching} (hpart : Watching.part p watching =
    Watching.part p s.watching) (hposition : position p stage = position p s.stage) :
    track { s with stage := stage, watching := watching } p = track s p := by
  unfold track
  obtain ⟨hpaths, hrest⟩ := Prod.mk.inj hpart
  obtain ⟨hstatus, hactions⟩ := Prod.mk.inj hrest
  simp only [hposition, hpaths, hstatus, hactions]
  rfl

theorem part_setPath_of_ne (w : Watching) (time : ℤ) (h : p ≠ q) :
    Watching.part p (w.setPath q time) = Watching.part p w := by
  simp [Watching.part, Watching.setPath, h]

theorem part_compare_of_ne (w : Watching) (digest : Bytes) (h : p ≠ q) :
    Watching.part p (Backup.compare w q digest) = Watching.part p w := by
  unfold Backup.compare
  split
  · simp [Watching.part, Watching.push, Action.ofStatus, h, Ne.symm h]
  · simp [Watching.part, h]

theorem watch_init {todo : List Bytes} (hstage : s.stage = .init (q :: todo))
    (ht : (track s p).Invariant hash)
    (hcollision : ∀ c ∈ s.final q, hash c = hash (s.files q).content → c = (s.files q).content)
    (hwatch : s.watch hash = some s') :
    (track s' p).Invariant hash := by
  unfold Backup.watch at hwatch
  rw [hstage] at hwatch
  dsimp only at hwatch
  cases hstatus : s.watching.initialStatus q with
  | some known =>
    rw [hstatus, Option.some.injEq] at hwatch
    subst hwatch
    by_cases hp : p = q
    · subst hp
      have hposition : (track s p).position = .unseen := by simp [track, position, hstage]
      have hmoved := ht.digest hposition hcollision
      have htrack : track { s with stage := .hashed p (hash (s.files p).content) todo } p =
          { track s p with position := .hashed (hash (track s p).file.content) } := by
        simp [track, position, Backup.final]
      rw [htrack]
      exact hmoved
    · rw [track_of_ne rfl (by simp [position, hstage, hp])]
      exact ht
  | none =>
    rw [hstatus, Option.some.injEq] at hwatch
    subst hwatch
    by_cases hp : p = q
    · subst hp
      have hposition : (track s p).position = .unseen := by simp [track, position, hstage]
      have hmoved := ht.create hposition hstatus (a := .ofStatus false p .created .created) rfl
      have htrack : track { s with
            watching := s.watching.push false p .created
            stage := .pushed p todo } p =
          { track s p with
            position := .pushed
            actions := (track s p).actions ++ [.ofStatus false p .created .created] } := by
        simp [track, position, Backup.final, Watching.push, Action.ofStatus]
      rw [htrack]
      exact hmoved
    · rw [track_of_ne (Watching.part_push_of_ne (Ne.symm hp)) (by simp [position, hstage, hp])]
      exact ht

/-- The other steps of `init_status` on a file. -/
theorem watch_hashed {digest : Bytes} {todo : List Bytes} (hstage : s.stage = .hashed q digest todo)
    (ht : (track s p).Invariant hash) (hwatch : s.watch hash = some s') :
    (track s' p).Invariant hash := by
  unfold Backup.watch at hwatch
  rw [hstage, Option.some.injEq] at hwatch
  subst hwatch
  by_cases hp : p = q
  · subst hp
    have hposition : (track s p).position = .hashed digest := by simp [track, position, hstage]
    have hmoved := ht.record hposition
    have htrack : track { s with
          watching := s.watching.setPath p (s.lastWriteTime p)
          stage := .timed p digest todo } p =
        { track s p with
          position := .timed digest
          recorded := some (track s p).file.lastWriteTime } := by
      simp [track, position, Backup.final, Watching.setPath, Backup.lastWriteTime]
    rw [htrack]
    exact hmoved
  · rw [track_of_ne (part_setPath_of_ne _ _ hp) (by simp [position, hstage, hp])]
    exact ht

theorem watch_timed {digest : Bytes} {todo : List Bytes} (hstage : s.stage = .timed q digest todo)
    (ht : (track s p).Invariant hash) (hwatch : s.watch hash = some s') :
    (track s' p).Invariant hash := by
  unfold Backup.watch at hwatch
  rw [hstage, Option.some.injEq] at hwatch
  subst hwatch
  by_cases hp : p = q
  · subst hp
    have hposition : (track s p).position = .timed digest := by simp [track, position, hstage]
    have hmoved := ht.compare hposition
      (a := .ofStatus false p .modified .created) rfl
    have htrack : track { s with
          watching := Backup.compare s.watching p digest
          stage := .pushed p todo } p =
        { track s p with
          position := .pushed
          status := none
          actions := if (track s p).status ≠ some digest then
            (track s p).actions ++ [.ofStatus false p .modified .created]
            else (track s p).actions } := by
      by_cases hsame : s.watching.initialStatus p = some digest
      · simp [track, position, Backup.final, Backup.compare, hsame]
      · simp [track, position, Backup.final, Backup.compare, hsame, Watching.push, Action.ofStatus]
    rw [htrack]
    exact hmoved
  · rw [track_of_ne (part_compare_of_ne _ _ hp) (by simp [position, hstage, hp])]
    exact ht

theorem watch_pushed {todo : List Bytes} (hstage : s.stage = .pushed q todo)
    (hnodup : (q :: todo).Nodup) (ht : (track s p).Invariant hash)
    (hwatch : s.watch hash = some s') :
    (track s' p).Invariant hash := by
  unfold Backup.watch at hwatch
  rw [hstage, Option.some.injEq] at hwatch
  subst hwatch
  by_cases hp : p = q
  · subst hp
    have hmoved := ht.finish (by simp [track, position, hstage])
    have htrack : track { s with
          watching := s.watching.setPath p (s.lastWriteTime p)
          stage := .init todo } p =
        { track s p with
          position := .seen
          recorded := some (track s p).file.lastWriteTime } := by
      simp [track, position, Backup.final, Watching.setPath, Backup.lastWriteTime,
        (List.nodup_cons.mp hnodup).1]
    rw [htrack]
    exact hmoved
  · rw [track_of_ne (part_setPath_of_ne _ _ hp) (by simp [position, hstage, hp])]
    exact ht

/-- The deletions of paths that are no files leave the files alone. -/
theorem watch_leftover {todo : List Bytes} (hstage : s.stage = .leftover todo)
    (hleftover : ∀ q ∈ todo, (s.watching.initialStatus q).isSome = true)
    (ht : (track s p).Invariant hash) (hwatch : s.watch hash = some s') :
    (track s' p).Invariant hash := by
  unfold Backup.watch at hwatch
  rw [hstage] at hwatch
  have hposition : (track s p).position = .seen := by simp [track, position, hstage]
  cases todo with
  | nil =>
    dsimp only at hwatch
    rw [Option.some.injEq] at hwatch
    subst hwatch
    have htrack : track { s with stage := .idle } p = track s p := by
      simp [track, position, hstage, Backup.final]
    rw [htrack]
    exact ht
  | cons q todo =>
    dsimp only at hwatch
    rw [Option.some.injEq] at hwatch
    subst hwatch
    have hstatus : s.watching.initialStatus p = none := by
      have hholds := ht.holds
      rw [Track.Holds, hposition] at hholds
      exact hholds.1
    have hne : q ≠ p := by
      intro heq
      have hsome := hleftover q List.mem_cons_self
      rw [heq, hstatus] at hsome
      exact absurd hsome (by simp)
    rw [track_of_ne (Watching.part_push_of_ne hne) (by simp [position, hstage])]
    exact ht

theorem watch_scan {todo : List Bytes} (hstage : s.stage = .scan todo)
    (ht : (track s p).Invariant hash) (hwatch : s.watch hash = some s') :
    (track s' p).Invariant hash := by
  unfold Backup.watch at hwatch
  rw [hstage] at hwatch
  cases todo with
  | nil =>
    dsimp only at hwatch
    rw [Option.some.injEq] at hwatch
    subst hwatch
    have hmoved := ht.endScan (by simp [track, position, hstage])
    have htrack : track { s with stage := .idle, scanned := s.scanned || s.quiet } p =
        { track s p with scanned := (track s p).scanned || (track s p).quiet } := by
      simp [track, position, hstage, Backup.final]
    rw [htrack]
    exact hmoved
  | cons q todo =>
    dsimp only at hwatch
    rw [Option.some.injEq] at hwatch
    subst hwatch
    by_cases hp : p = q
    · subst hp
      have hmoved := ht.sample (by simp [track, position, hstage])
      have htrack : track { s with stage := .sampled p (s.lastWriteTime p) todo } p =
          { track s p with position := .sampled (track s p).file.lastWriteTime } := by
        simp [track, position, Backup.final, Backup.lastWriteTime]
      rw [htrack]
      exact hmoved
    · rw [track_of_ne rfl (by simp [position, hstage, hp])]
      exact ht

theorem watch_sampled {time : ℤ} {todo : List Bytes} (hstage : s.stage = .sampled q time todo)
    (hnodup : (q :: todo).Nodup) (ht : (track s p).Invariant hash)
    (hwatch : s.watch hash = some s') :
    (track s' p).Invariant hash := by
  unfold Backup.watch at hwatch
  rw [hstage, Option.some.injEq] at hwatch
  subst hwatch
  by_cases hp : p = q
  · subst hp
    have hposition : (track s p).position = .sampled time := by simp [track, position, hstage]
    have hnot : p ∉ todo := (List.nodup_cons.mp hnodup).1
    cases hpaths : s.watching.paths p with
    | none =>
      have hmoved := ht.scan hposition (a := .ofStatus false p .created .created) rfl
      have htrack : track { s with
            watching := s.watching.scanFile (p, ⟨time, some (s.files p).content⟩)
            stage := .scan todo } p =
          { track s p with
            position := .seen
            recorded := some time
            actions := if (track s p).recorded ≠ some time then
              (track s p).actions ++ [.ofStatus false p .created .created]
              else (track s p).actions } := by
        simp [track, position, Backup.final, Watching.scanFile, Watching.setPath, Watching.push,
          Action.ofStatus, Node.isDirectory, hpaths, hnot]
      rw [htrack]
      exact hmoved
    | some recorded =>
      have hmoved := ht.scan hposition (a := .ofStatus false p .modified .created) rfl
      have htrack : track { s with
            watching := s.watching.scanFile (p, ⟨time, some (s.files p).content⟩)
            stage := .scan todo } p =
          { track s p with
            position := .seen
            recorded := some time
            actions := if (track s p).recorded ≠ some time then
              (track s p).actions ++ [.ofStatus false p .modified .created]
              else (track s p).actions } := by
        by_cases htime : recorded = time
        · simp [track, position, Backup.final, Watching.scanFile, hpaths, htime, hnot]
        · simp [track, position, Backup.final, Watching.scanFile, Watching.setPath, Watching.push,
            Action.ofStatus, Node.isDirectory, hpaths, htime, hnot]
      rw [htrack]
      exact hmoved
  · rw [track_of_ne (Watching.part_scanFile_of_ne _ _ (Ne.symm hp)) (by simp [position, hstage, hp])]
    exact ht

/-- The iterator under way only goes on. -/
theorem remaining_watch (hwatch : s.watch hash = some s') :
    (remaining s'.stage).Sublist (remaining s.stage) := by
  unfold Backup.watch at hwatch
  split at hwatch
  case h_2 hstage =>
    rw [hstage]
    split at hwatch <;> cases hwatch <;> exact List.Sublist.refl _
  all_goals
    next hstage =>
      rw [hstage]
      cases hwatch <;> simp [remaining]

theorem leftover_watch (hleftover : ∀ todo, s.stage = .leftover todo →
      ∀ q ∈ todo, (s.watching.initialStatus q).isSome = true)
    (hwatch : s.watch hash = some s') : ∀ todo, s'.stage = .leftover todo →
      ∀ q ∈ todo, (s'.watching.initialStatus q).isSome = true := by
  unfold Backup.watch at hwatch
  split at hwatch
  case h_2 hstage =>
    split at hwatch <;> cases hwatch <;> simp
  case h_7 q todo hstage =>
    cases hwatch
    intro todo' htodo q' hq'
    rw [← Stage.leftover.inj htodo] at hq'
    exact hleftover _ hstage q' (List.mem_cons_of_mem q hq')
  all_goals cases hwatch <;> simp

theorem invariant_watch (h : Invariant hash names s) (hharmless : Harmless hash s .watch)
    (hwatch : s.watch hash = some s') : Invariant hash names s' := by
  obtain ⟨hnodup, hleftover, htracks⟩ := h
  refine ⟨hnodup.sublist (remaining_watch hwatch), leftover_watch hleftover hwatch, fun p hp => ?_⟩
  have ht := htracks p hp
  cases hstage : s.stage with
  | init todo =>
    cases todo with
    | nil =>
      rw [Backup.watch, hstage] at hwatch
      exact absurd hwatch (by simp)
    | cons q todo =>
      rw [hstage] at hnodup
      refine watch_init hstage ht ?_ hwatch
      have hposition : (track s q).position = .unseen := by simp [track, position, hstage]
      exact hharmless q (by simp [remaining, hstage]) hposition
  | hashed q digest todo => exact watch_hashed hstage ht hwatch
  | timed q digest todo => exact watch_timed hstage ht hwatch
  | pushed q todo =>
    rw [hstage] at hnodup
    exact watch_pushed hstage hnodup ht hwatch
  | leftover todo => exact watch_leftover hstage (hleftover todo hstage) ht hwatch
  | idle =>
    rw [Backup.watch, hstage] at hwatch
    exact absurd hwatch (by simp)
  | scan todo => exact watch_scan hstage ht hwatch
  | sampled q time todo =>
    rw [hstage] at hnodup
    exact watch_sampled hstage hnodup ht hwatch

theorem invariant_rewrite {content : Bytes} {time : ℤ} (h : Invariant hash names s)
    (hharmless : ¬(track s q).Exposed)
    (hstep : step hash names s (.rewrite q content time) = some s') : Invariant hash names s' := by
  obtain ⟨hnodup, hleftover, htracks⟩ := h
  unfold Backup.step at hstep
  dsimp only at hstep
  split at hstep
  · exact absurd hstep (by simp)
  · next htime =>
    rw [Option.some.injEq] at hstep
    subst hstep
    refine ⟨hnodup, hleftover, fun p hp => ?_⟩
    by_cases hpq : p = q
    · subst hpq
      have hmoved := (htracks p hp).rewrite hharmless content htime
      have htrack : track { s with
            files := Function.update s.files p ⟨content, time⟩
            times := Function.update s.times p (time :: s.times p)
            quiet := false
            scanned := false } p =
          { track s p with
            file := ⟨content, time⟩
            times := time :: (track s p).times
            quiet := false
            scanned := false } := by
        simp [track, Backup.final]
      rw [htrack]
      exact hmoved
    · have hmoved := (htracks p hp).disturb
      have htrack : track { s with
            files := Function.update s.files q ⟨content, time⟩
            times := Function.update s.times q (time :: s.times q)
            quiet := false
            scanned := false } p =
          { track s p with quiet := false, scanned := false } := by
        simp [track, Backup.final, hpq]
      rw [htrack]
      exact hmoved

theorem invariant_leftover {order : List Bytes} (h : Invariant hash names s)
    (hstep : step hash names s (.leftover order) = some s') : Invariant hash names s' := by
  obtain ⟨-, -, htracks⟩ := h
  unfold Backup.step at hstep
  dsimp only at hstep
  split at hstep
  · next hguard =>
    rw [Option.some.injEq] at hstep
    subst hstep
    refine ⟨List.nodup_nil, ?_, fun p hp => ?_⟩
    · intro todo htodo
      rw [← Stage.leftover.inj htodo]
      exact hguard.2
    · have htrack : track { s with stage := .leftover order } p = track s p := by
        simp [track, position, hguard.1, Backup.final]
      rw [htrack]
      exact htracks p hp
  · exact absurd hstep (by simp)

theorem invariant_beginScan {order : List Bytes} (hnames : names.Nodup) (h : Invariant hash names s)
    (hstep : step hash names s (.beginScan order) = some s') : Invariant hash names s' := by
  obtain ⟨-, -, htracks⟩ := h
  unfold Backup.step at hstep
  dsimp only at hstep
  split at hstep
  · next hguard =>
    rw [Option.some.injEq] at hstep
    subst hstep
    refine ⟨hguard.2.nodup_iff.mpr hnames, by simp, fun p hp => ?_⟩
    have hmoved := (htracks p hp).await (by simp [track, position, hguard.1])
    have htrack : track { s with stage := .scan order, quiet := true } p =
        { track s p with position := .waiting, quiet := true } := by
      simp [track, position, Backup.final, hguard.2.mem_iff.mpr hp]
    rw [htrack]
    exact hmoved
  · exact absurd hstep (by simp)

theorem invariant_send (h : Invariant hash names s)
    (hstep : step hash names s .send = some s') : Invariant hash names s' := by
  obtain ⟨hnodup, hleftover, htracks⟩ := h
  unfold Backup.step at hstep
  dsimp only at hstep
  split at hstep
  · exact absurd hstep (by simp)
  · next action rest hpushed =>
    rw [Option.some.injEq] at hstep
    subst hstep
    refine ⟨hnodup, hleftover, fun p hp => ?_⟩
    by_cases hpath : action.path = p
    · have hactions : (track s p).actions = action :: rest.filter fun a => a.path = p := by
        simp [track, hpushed, hpath]
      have hread : action.actionType = .readFile :=
        (htracks p hp).reads action (by rw [hactions]; exact List.mem_cons_self)
      have hmoved := (htracks p hp).send hactions
      have htrack : track { s with
            watching := { s.watching with pushed := rest }
            sent := s.sent ++ s.message action } p =
          { track s p with
            actions := rest.filter fun a => a.path = p
            final := some (track s p).file.content } := by
        simp [track, Backup.final, Backup.message, hread, hpath]
      rw [htrack]
      exact hmoved
    · have hfinal : Backup.final { s with
            watching := { s.watching with pushed := rest }
            sent := s.sent ++ s.message action } p = s.final p := by
        unfold Backup.final Backup.message
        rw [List.foldl_append]
        split <;> simp [Ne.symm hpath]
      have htrack : track { s with
            watching := { s.watching with pushed := rest }
            sent := s.sent ++ s.message action } p = track s p := by
        unfold track
        rw [hfinal]
        simp [hpushed, hpath]
      rw [htrack]
      exact htracks p hp

theorem invariant_store (h : Invariant hash names s)
    (hstep : step hash names s .store = some s') : Invariant hash names s' := by
  obtain ⟨hnodup, hleftover, htracks⟩ := h
  unfold Backup.step at hstep
  dsimp only at hstep
  split at hstep
  · exact absurd hstep (by simp)
  · next q content rest hsent =>
    rw [Option.some.injEq] at hstep
    subst hstep
    refine ⟨hnodup, hleftover, fun p hp => ?_⟩
    have htrack : track { s with
          sent := rest
          server := Function.update s.server q content } p = track s p := by
      unfold track Backup.final
      rw [hsent]
      rfl
    rw [htrack]
    exact htracks p hp

/-- Every harmless step keeps the invariant. -/
theorem invariant_step (hnames : names.Nodup) {e : Client.Event} (h : Invariant hash names s)
    (hharmless : Harmless hash s e) (hstep : step hash names s e = some s') :
    Invariant hash names s' := by
  cases e with
  | rewrite q content time => exact invariant_rewrite h hharmless hstep
  | watch => exact invariant_watch h hharmless hstep
  | leftover order => exact invariant_leftover h hstep
  | beginScan order => exact invariant_beginScan hnames h hstep
  | send => exact invariant_send h hstep
  | store => exact invariant_store h hstep

theorem invariant_of_starts (h : s.Starts hash names) : Invariant hash names s := by
  obtain ⟨order, horder, hstage⟩ := h.stage
  refine ⟨?_, ?_, fun p hp => ?_⟩
  · rw [hstage]
    exact horder.nodup_iff.mpr h.nodup
  · intro todo htodo
    rw [hstage] at htodo
    exact absurd htodo (by simp)
  · have hposition : (track s p).position = .unseen := by
      simp [track, position, hstage, horder.mem_iff.mpr hp]
    have hfinal : s.final p = s.server p := by
      rw [Backup.final, h.sent]
      rfl
    have hactions : (track s p).actions = [] := by
      simp [track, h.pushed]
    refine ⟨h.times p, ?_, by simp [hactions], ?_, ?_, ?_⟩
    · intro τ hτ
      have hτ : s.watching.paths p = some τ := hτ
      rw [h.paths p] at hτ
      exact absurd hτ (by simp)
    · rw [Track.Holds, hposition]
      refine ⟨?_, hactions⟩
      show s.watching.initialStatus p = (s.final p).map hash
      rw [h.known p, hfinal]
    · intro hquiet
      exact absurd (h.quiet.symm.trans hquiet) (by simp)
    · intro hscanned
      exact absurd (h.scanned.symm.trans hscanned) (by simp)

theorem kept_of_invariant (h : Invariant hash names s) : s.Kept names := by
  intro hscanned hpushed hsent p hp
  have hactions : (track s p).actions = [] := by
    simp [track, hpushed]
  have hfinal : s.final p = s.server p := by
    rw [Backup.final, hsent]
    rfl
  rw [← hfinal]
  exact ((h.tracks p hp).covered hscanned).resolve_left (not_not.mpr hactions)

end Steps

/-- In every run whose steps are harmless no modification is lost. -/
theorem no_lost_update {hash : Bytes → Bytes} {names : List Bytes} {s s' : Backup}
    {events : List Client.Event} (hstart : s.Starts hash names)
    (hharmless : Meets (step hash names) (Harmless hash) s events)
    (hrun : run (step hash names) s events = some s') : s'.Kept names :=
  kept_of_invariant (run_invariant (fun _ _ _ h => invariant_step hstart.nodup h)
    (invariant_of_starts hstart) hharmless hrun)

/-- The client before `init_status`, with one file `a` that the server holds as it is. -/
def oneFile : Backup where
  files _ := ⟨[104, 105], 5⟩
  times _ := [5]
  stage := .init [[97]]
  watching := ⟨fun _ => none, fun p => if p = [97] then some (shortDigest [104, 105]) else none, []⟩
  sent := []
  server p := if p = [97] then some [104, 105] else none
  quiet := false
  scanned := false

theorem starts_oneFile : oneFile.Starts shortDigest [[97]] where
  nodup := List.nodup_singleton _
  stage := ⟨_, List.Perm.refl _, rfl⟩
  paths _ := rfl
  pushed := rfl
  sent := rfl
  known p := by
    unfold oneFile
    dsimp only
    split <;> rfl
  times _ := List.mem_singleton_self _
  quiet := rfl
  scanned := rfl

/-- The file is rewritten before the first pass, and the pass finds it. -/
def laterRewrite : List Client.Event :=
  [.watch, .watch, .watch, .watch, .leftover [], .watch, .rewrite [97] [104, 111] 6, .beginScan [[97]],
    .watch, .watch, .watch, .send, .store]

/-- The file is rewritten between its hash and its time. -/
def earlyRewrite : List Client.Event :=
  [.watch, .rewrite [97] [104, 111] 6, .watch, .watch, .watch, .leftover [], .watch, .beginScan [[97]],
    .watch, .watch, .watch]

theorem no_lost_update_later :
    ∃ s, run (step shortDigest [[97]]) oneFile laterRewrite = some s ∧ s.scanned = true ∧
      s.Kept [[97]] := by
  have hharmless : Meets (step shortDigest [[97]]) (Harmless shortDigest) oneFile laterRewrite := by
    decide
  exact ⟨_, rfl, rfl, no_lost_update starts_oneFile hharmless rfl⟩

/-- The pass sees the time it expects, and the server keeps the old content. -/
theorem no_lost_update_early :
    ∃ s, run (step shortDigest [[97]]) oneFile earlyRewrite = some s ∧ ¬s.Kept [[97]] := by
  refine ⟨_, rfl, fun h => ?_⟩
  have hkept := h rfl rfl rfl [97] List.mem_cons_self
  exact absurd hkept (by decide)

end BackupManager.Protocol
