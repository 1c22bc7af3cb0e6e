import BackupManager.Protocol.CompleteRequest

/-! The loop of the handler once a field did not parse: the variables keep their first values, and a row
is stored as soon as there are bytes enough for a round. -/
namespace BackupManager.Protocol
open ByteStream Client Server

/-- The trace after at most `n` rounds of the loop. -/
def loopTrace (b : Backend) (n : ℕ) (s : Session (List Effect)) : List Effect :=
  (readActions b n s).2.world

/-- However long the loop runs, it stores nothing more. -/
def Idle (b : Backend) (s : Session (List Effect)) : Prop :=
  ∀ n, calls (loopTrace b n s) = calls s.world

/-- The loop comes to store a row. -/
def Stores (b : Backend) (s : Session (List Effect)) : Prop :=
  ∃ n c, calls (loopTrace b n s) = calls s.world ++ [c]

/-- A round that ended so has stored nothing, and neither does what follows it. -/
def IdleAfter (b : Backend) (s : Session (List Effect)) (r : Outcome Bool × Session (List Effect)) :
    Prop :=
  calls r.2.world = calls s.world ∧ (r.1 = .returns true → Idle b r.2)

/-- A round that ended so has stored a row, or what follows it does. -/
def StoresAfter (b : Backend) (s : Session (List Effect))
    (r : Outcome Bool × Session (List Effect)) : Prop :=
  r.1 = .returns true ∧ ((∃ c, calls r.2.world = calls s.world ++ [c]) ∨
    (calls r.2.world = calls s.world ∧ Stores b r.2))

/-- The bytes of a size that is not read, and of the line that is then taken. -/
def lineWidth : ℕ := numberWidth + 1

/-- The bytes of the header when none of its fields is read. -/
def blankHeader : ℕ := numberWidth + (numberWidth + (lineWidth + (lineWidth + lineWidth)))

/-- The bytes of a round when no field is read: the action is an empty file. -/
def blankRound : ℕ := blankHeader + numberWidth

/-- The bytes after the header until a row is stored, when no field is read any more. -/
def untilStored (uninit : ℤ) (pastEnd : ℕ → Bool) (actionType : ℕ) : Option ℕ :=
  if actionType = ActionType.readFile.code then some numberWidth
  else if actionType = ActionType.createFolder.code then some 0
  else if actionType = ActionType.deletePath.code then some 0
  else if actionType = ActionType.quit.code then none
  else if actionType = ActionType.restore.code then
    some (numberWidth + Prog.sizeOfInt (Prog.intSucc uninit) + blankRound)
  else if HasName pastEnd actionType then some blankRound
  else none

/-! The header from a field on. -/

def readPermissions (t : ℕ) (i : ℤ) (p l : Bytes) : Handler Frame := do
  let permissions ← readSizedLine
  pure ⟨t, i, p, l, permissions⟩

def readLastWriteTime (t : ℕ) (i : ℤ) (p : Bytes) : Handler Frame :=
  readSizedLine >>= readPermissions t i p

def readPath (t : ℕ) (i : ℤ) : Handler Frame := readSizedLine >>= readLastWriteTime t i

def readIndex (b : Backend) (t : ℕ) : Handler Frame :=
  Prog.recvInt intMaxNDigit b.uninit >>= readPath t

section Loop

variable {b : Backend} {s s' : Session (List Effect)} {o : Outcome Bool} {f : Frame} {n : ℕ}

theorem loopTrace_zero (b : Backend) (s : Session (List Effect)) : loopTrace b 0 s = s.world := rfl

theorem loopTrace_true (h : readAction b s = (.returns true, s')) (n : ℕ) :
    loopTrace b (n + 1) s = loopTrace b n s' := by
  unfold loopTrace
  rw [readActions, Prog.bind_of_returns h, if_pos rfl, Prog.bind_apply]
  cases hrest : readActions b n s' with
  | mk o s'' =>
    cases o with
    | returns more => rfl
    | throws what => rfl
    | waits => rfl

theorem loopTrace_of_not_true (h : readAction b s = (o, s')) (ho : o ≠ .returns true) (n : ℕ) :
    loopTrace b (n + 1) s = s'.world := by
  unfold loopTrace
  rw [readActions, Prog.bind_apply, h]
  cases o with
  | throws what => rfl
  | waits => rfl
  | returns more =>
    cases more with
    | true => exact absurd rfl ho
    | false => rfl

theorem Idle.of_round (h : IdleAfter b s (readAction b s)) : Idle b s := by
  obtain ⟨hcalls, hrest⟩ := h
  intro n
  cases n with
  | zero => rfl
  | succ n =>
    cases hround : readAction b s with
    | mk o s' =>
      rw [hround] at hcalls hrest
      by_cases ho : o = .returns true
      · rw [ho] at hround
        rw [loopTrace_true hround, hrest ho n, hcalls]
      · rw [loopTrace_of_not_true hround ho, hcalls]

theorem Stores.of_round (h : StoresAfter b s (readAction b s)) : Stores b s := by
  obtain ⟨htrue, hstores⟩ := h
  have hround : readAction b s = (.returns true, (readAction b s).2) := Prod.ext htrue rfl
  rcases hstores with ⟨c, hc⟩ | ⟨hcalls, n, c, hn⟩
  · exact ⟨1, c, by rw [loopTrace_true hround, loopTrace_zero, hc]⟩
  · exact ⟨n + 1, c, by rw [loopTrace_true hround, hn, hcalls]⟩

/-- What comes after the header. -/
theorem readAction_of_frame (h : readFrame b s = (.returns f, s')) :
    readAction b s = dispatch b f { s' with world := acknowledged s'.world f } := by
  rw [readAction, Prog.bind_of_returns h, Prog.bind_of_returns (acknowledge_apply _ _)]

theorem idleAfter_frame (h : readFrame b s = (.returns f, s')) (hworld : s'.world = s.world)
    (hrest : IdleAfter b { s' with world := acknowledged s'.world f }
      (dispatch b f { s' with world := acknowledged s'.world f })) :
    IdleAfter b s (readAction b s) := by
  rw [readAction_of_frame h]
  refine ⟨hrest.1.trans ?_, hrest.2⟩
  rw [calls_acknowledged, hworld]

theorem storesAfter_frame (h : readFrame b s = (.returns f, s')) (hworld : s'.world = s.world)
    (hrest : StoresAfter b { s' with world := acknowledged s'.world f }
      (dispatch b f { s' with world := acknowledged s'.world f })) :
    StoresAfter b s (readAction b s) := by
  have hcalls : calls (acknowledged s'.world f) = calls s.world := by
    rw [calls_acknowledged, hworld]
  rw [readAction_of_frame h]
  unfold StoresAfter at hrest ⊢
  rwa [hcalls] at hrest

theorem idleAfter_starved (h : Prog.Starved s (readFrame b s)) : IdleAfter b s (readAction b s) := by
  have hround : Prog.Starved s (readAction b s) := Prog.Starved.bind h _
  exact ⟨congrArg calls hround.1, fun ho => absurd ho (hround.not_returns true)⟩

theorem idle_nil (h : s.wire = []) : Idle b s := by
  apply Idle.of_round
  apply idleAfter_starved
  refine Prog.Starved.bind (Prog.Starved.bind (Prog.starved_read ?_) _) _
  rw [h]
  decide

/-- A body that does not arrive is no row; after its error there is nothing left to read. -/
theorem idleAfter_dispatch_starved (h : Prog.Starved s (perform b f (b.localDay s.world) s)) :
    IdleAfter b s (dispatch b f s) := by
  obtain ⟨hworld, hends⟩ := h
  cases hrun : perform b f (b.localDay s.world) s with
  | mk o s' =>
    rw [hrun] at hworld hends
    cases o with
    | returns more => exact absurd hends (by simp)
    | waits =>
      rw [dispatch_of_not_throws b s hrun (by simp)]
      exact ⟨congrArg calls hworld, by simp⟩
    | throws what =>
      by_cases hname : HasName b.pastEnd f.actionType
      · rw [dispatch_throws b hname s hrun]
        refine ⟨?_, fun _ => idle_nil (hends.resolve_left (by simp)).2⟩
        rw [calls_append, hworld]
        exact List.append_nil _
      · rw [dispatch_dies b hname s hrun]
        exact ⟨congrArg calls hworld, by simp⟩

end Loop

section Bodies

variable {b : Backend} {f : Frame} {s s₁ : Session (List Effect)} {v : ℤ}

theorem fileBody_starved (hroom : ¬(v < -1 ∨ v = Istream.intMax))
    (hlacking : s.wire.length < v.toNat) (b : Backend) (path : Bytes) (index : ℤ)
    (day lastWriteTime permissions : Bytes) :
    Prog.Starved s (fileBody b path index day lastWriteTime permissions v s) := by
  rw [fileBody, if_neg hroom]
  exact Prog.Starved.bind (Prog.starved_recvChunks maxMsgSize_pos hlacking) _

theorem dispatch_file_lacking (h : f.actionType = ActionType.readFile.code)
    (hsize : Prog.recvBlock numberWidth Istream.numberAndBreak s = (.returns v, s₁))
    (hworld : s₁.world = s.world) (hroom : ¬(v < -1 ∨ v = Istream.intMax))
    (hlacking : s₁.wire.length < v.toNat) : IdleAfter b s (dispatch b f s) := by
  apply idleAfter_dispatch_starved
  have hbody := Prog.Starved.bind (fileBody_starved hroom hlacking b f.path f.index
    (b.localDay s.world) f.lastWriteTime f.permissions) fun _ => (pure true : Handler Bool)
  rw [perform_file h hsize]
  exact ⟨hbody.1.trans hworld, hbody.2⟩

theorem dispatch_date_lacking (h : f.actionType = ActionType.restore.code)
    (hlength : Prog.recvInt intMaxNDigit b.uninit s = (.returns v, s₁)) (hworld : s₁.world = s.world)
    (hlacking : s₁.wire.length < Prog.sizeOfInt (Prog.intSucc v)) : IdleAfter b s (dispatch b f s) := by
  apply idleAfter_dispatch_starved
  rw [perform_restore b h]
  apply Prog.Starved.bind
  exact Prog.Starved.of_returns hlength hworld (Prog.Starved.bind (Prog.starved_read hlacking) _)

end Bodies
section Broken

variable {b : Backend} {f : Frame} {s : Session (List Effect)}

theorem spoils_numberAndBreak (hs : Prog.Broken s) :
    Prog.Spoils (Prog.recvBlock numberWidth Istream.numberAndBreak) s numberWidth 0 := by
  have hbreak : ∀ s' : Session (List Effect), Prog.Broken s' →
      Prog.Spoils (Prog.extract Istream.numberAndBreak) s' 0 0 := by
    intro s' hs'
    have hnumber := Istream.getNumber_of_bad Istream.toInt 0 hs'
    have hbad : (Istream.numberAndBreak s'.stream).2.good = false := by
      rw [Istream.numberAndBreak, hnumber, Istream.ignore_of_bad (Prog.broken_failed _)]
      exact Prog.broken_failed _
    have hvalue : (Istream.numberAndBreak s'.stream).1 = 0 := by
      rw [Istream.numberAndBreak, hnumber]
    have h := Prog.spoils_extract (s := s') Istream.numberAndBreak hbad
    rwa [hvalue] at h
  exact Prog.Spoils.bind (m := 0) (Prog.spoils_read hs numberWidth) fun s' hs' => hbreak s' hs'

/-- The size of a file is not read: it is an empty file. -/
theorem dispatch_blankFile (hs : Prog.Broken s) (h : f.actionType = ActionType.readFile.code) :
    (s.wire.length < numberWidth → IdleAfter b s (dispatch b f s)) ∧
      (numberWidth ≤ s.wire.length → StoresAfter b s (dispatch b f s)) := by
  have hsize := spoils_numberAndBreak hs
  constructor
  · intro hlacking
    apply idleAfter_dispatch_starved
    rw [perform_readFile b h, actionReadFile_eq, Prog.bind_bind]
    exact Prog.Starved.bind (hsize.lacking hlacking) _
  · intro henough
    obtain ⟨stream, -, hrun⟩ := hsize.enough henough
    obtain ⟨c, s₂, hdispatch, hcalls⟩ := dispatch_file_enough (b := b) h hrun rfl (by decide)
      (Nat.zero_le _)
    rw [hdispatch]
    exact ⟨rfl, Or.inl ⟨c, hcalls⟩⟩

theorem spoils_readSizedLine (hs : Prog.Broken s) :
    Prog.Spoils readSizedLine s lineWidth [] :=
  Prog.Spoils.bind (Prog.spoils_recvSize hs intMaxNDigit 0) fun _ h =>
    Prog.spoils_recvLine h (lineCount 0) []

/-- The frame of a header of which no field is read. -/
def blankFrame (uninit : ℤ) : Frame := ⟨0, uninit, [], [], []⟩

theorem spoils_readPermissions (hs : Prog.Broken s) (t : ℕ) (i : ℤ) (p l : Bytes) :
    Prog.Spoils (readPermissions t i p l) s lineWidth ⟨t, i, p, l, []⟩ :=
  Prog.Spoils.bind (m := 0) (spoils_readSizedLine hs) fun _ h => Prog.spoils_pure h _

theorem spoils_readLastWriteTime (hs : Prog.Broken s) (t : ℕ) (i : ℤ) (p : Bytes) :
    Prog.Spoils (readLastWriteTime t i p) s (lineWidth + lineWidth) ⟨t, i, p, [], []⟩ :=
  Prog.Spoils.bind (spoils_readSizedLine hs) fun _ h => spoils_readPermissions h t i p []

theorem spoils_readPath (hs : Prog.Broken s) (t : ℕ) (i : ℤ) :
    Prog.Spoils (readPath t i) s (lineWidth + (lineWidth + lineWidth)) ⟨t, i, [], [], []⟩ :=
  Prog.Spoils.bind (spoils_readSizedLine hs) fun _ h => spoils_readLastWriteTime h t i []

theorem spoils_readIndex (hs : Prog.Broken s) (t : ℕ) :
    Prog.Spoils (readIndex b t) s (numberWidth + (lineWidth + (lineWidth + lineWidth)))
      ⟨t, b.uninit, [], [], []⟩ :=
  Prog.Spoils.bind (Prog.spoils_recvInt hs intMaxNDigit b.uninit) fun _ h =>
    spoils_readPath h t b.uninit

theorem spoils_readFrame (hs : Prog.Broken s) :
    Prog.Spoils (readFrame b) s blankHeader (blankFrame b.uninit) :=
  Prog.Spoils.bind (Prog.spoils_recvSize hs intMaxNDigit 0) fun _ h => spoils_readIndex h 0

/-- A round of which no field is read. -/
theorem broken_round (hs : Prog.Broken s) :
    (s.wire.length < blankRound → Idle b s) ∧ (blankRound ≤ s.wire.length → Stores b s) := by
  have hframe := spoils_readFrame (b := b) hs
  by_cases hheader : blankHeader ≤ s.wire.length
  · obtain ⟨stream, hbad, hrun⟩ := hframe.enough hheader
    obtain ⟨hidle, hstores⟩ := dispatch_blankFile (b := b) (f := blankFrame b.uninit)
      (s := ⟨s.wire.drop blankHeader, s.closed, stream, acknowledged s.world (blankFrame b.uninit)⟩)
      hbad rfl
    rw [List.length_drop] at hidle hstores
    constructor
    · intro hlacking
      apply Idle.of_round
      apply idleAfter_frame hrun rfl
      exact hidle (by unfold blankRound at hlacking; omega)
    · intro henough
      apply Stores.of_round
      apply storesAfter_frame hrun rfl
      exact hstores (by unfold blankRound at henough; omega)
  · constructor
    · intro _
      exact Idle.of_round (idleAfter_starved (hframe.lacking (by omega)))
    · intro henough
      unfold blankRound at henough
      omega

theorem idleAfter_of_returns {r : Outcome Bool × Session (List Effect)}
    {s₁ : Session (List Effect)} (h : r = (.returns true, s₁)) (hcalls : calls s₁.world = calls s.world)
    (hidle : Idle b s₁) : IdleAfter b s r := by
  rw [h]
  exact ⟨hcalls, fun _ => hidle⟩

theorem storesAfter_of_returns {r : Outcome Bool × Session (List Effect)}
    {s₁ : Session (List Effect)} (h : r = (.returns true, s₁)) (hcalls : calls s₁.world = calls s.world)
    (hstores : Stores b s₁) : StoresAfter b s r := by
  rw [h]
  exact ⟨rfl, Or.inr ⟨hcalls, hstores⟩⟩

/-- A date that is not read: the date is taken, and then a round of which no field is read. -/
theorem dispatch_lostDate {s₁ : Session (List Effect)} {v : ℤ}
    (h : f.actionType = ActionType.restore.code)
    (hlength : Prog.recvInt intMaxNDigit b.uninit s = (.returns v, s₁)) (hs₁ : Prog.Broken s₁)
    (hworld : s₁.world = s.world) :
    (s₁.wire.length < Prog.sizeOfInt (Prog.intSucc v) + blankRound → IdleAfter b s (dispatch b f s)) ∧
      (Prog.sizeOfInt (Prog.intSucc v) + blankRound ≤ s₁.wire.length →
        StoresAfter b s (dispatch b f s)) := by
  by_cases hdate : Prog.sizeOfInt (Prog.intSucc v) ≤ s₁.wire.length
  · have hword : Prog.Spoils (Prog.recvBlock (Prog.sizeOfInt (Prog.intSucc v)) (Istream.getWord [])) s₁
        (Prog.sizeOfInt (Prog.intSucc v)) [] :=
      Prog.Spoils.bind (m := 0) (Prog.spoils_read hs₁ _) fun _ h' => Prog.spoils_getWord h' []
    obtain ⟨stream, hbad, hrun⟩ := hword.enough hdate
    obtain ⟨effects, hcalls, hdispatch⟩ := dispatch_date h hlength hrun
    have hround := broken_round (b := b)
      (s := ⟨s₁.wire.drop (Prog.sizeOfInt (Prog.intSucc v)), s₁.closed, stream, s₁.world ++ effects⟩) hbad
    have hsame : calls (s₁.world ++ effects) = calls s.world := by
      rw [calls_append, hcalls, hworld, List.append_nil]
    rw [List.length_drop] at hround
    constructor
    · intro hlacking
      exact idleAfter_of_returns hdispatch hsame (hround.1 (by omega))
    · intro henough
      exact storesAfter_of_returns hdispatch hsame (hround.2 (by omega))
  · constructor
    · intro _
      exact dispatch_date_lacking h hlength hworld (not_le.mp hdate)
    · intro henough
      omega

theorem dispatch_blankDate (hs : Prog.Broken s) (h : f.actionType = ActionType.restore.code) :
    (s.wire.length < numberWidth + Prog.sizeOfInt (Prog.intSucc b.uninit) + blankRound →
        IdleAfter b s (dispatch b f s)) ∧
      (numberWidth + Prog.sizeOfInt (Prog.intSucc b.uninit) + blankRound ≤ s.wire.length →
        StoresAfter b s (dispatch b f s)) := by
  have hlength := Prog.spoils_recvInt hs intMaxNDigit b.uninit
  by_cases hnumber : numberWidth ≤ s.wire.length
  · obtain ⟨stream, hbad, hrun⟩ := hlength.enough hnumber
    have hdate := dispatch_lostDate h hrun hbad rfl
    dsimp only at hdate
    rw [List.length_drop] at hdate
    have hwidth : numberWidth = intMaxNDigit + 1 := rfl
    constructor
    · intro hlacking
      exact hdate.1 (by omega)
    · intro henough
      exact hdate.2 (by omega)
  · constructor
    · intro _
      apply idleAfter_dispatch_starved
      rw [perform_restore b h]
      exact Prog.Starved.bind (Prog.Starved.bind (hlength.lacking (not_le.mp hnumber)) _) _
    · intro henough
      omega

theorem dispatch_blankUnrecognized (hs : Prog.Broken s)
    (h : ActionType.ignore.code ≤ f.actionType) (hname : HasName b.pastEnd f.actionType) :
    (s.wire.length < blankRound → IdleAfter b s (dispatch b f s)) ∧
      (blankRound ≤ s.wire.length → StoresAfter b s (dispatch b f s)) := by
  have hdispatch := dispatch_unrecognized b s h hname
  have hcalls : calls (s.world ++ [.response f.index .error]) = calls s.world := by
    rw [calls_append]
    exact List.append_nil _
  have hround := broken_round (b := b)
    (s := { s with world := s.world ++ [.response f.index .error] }) hs
  constructor
  · intro hlacking
    exact idleAfter_of_returns hdispatch hcalls (hround.1 hlacking)
  · intro henough
    exact storesAfter_of_returns hdispatch hcalls (hround.2 henough)

/-- The rest of a round when its stream is no longer good, and what follows: a row is stored as soon as
enough bytes have arrived. -/
theorem dispatch_broken (hs : Prog.Broken s) :
    ((∀ k ∈ untilStored b.uninit b.pastEnd f.actionType, s.wire.length < k) →
        IdleAfter b s (dispatch b f s)) ∧
      ∀ k ∈ untilStored b.uninit b.pastEnd f.actionType, k ≤ s.wire.length →
        StoresAfter b s (dispatch b f s) := by
  have hat : ∀ k, ((s.wire.length < k → IdleAfter b s (dispatch b f s)) ∧
      (k ≤ s.wire.length → StoresAfter b s (dispatch b f s))) →
      ((∀ k' ∈ some k, s.wire.length < k') → IdleAfter b s (dispatch b f s)) ∧
        ∀ k' ∈ some k, k' ≤ s.wire.length → StoresAfter b s (dispatch b f s) := by
    intro k h
    simpa using h
  have hstore : (f.actionType = ActionType.createFolder.code ∨
      f.actionType = ActionType.deletePath.code) → StoresAfter b s (dispatch b f s) := by
    intro h
    obtain ⟨c, s₂, hrun, hcalls⟩ := dispatch_store b s h
    rw [hrun]
    exact ⟨rfl, Or.inl ⟨c, hcalls⟩⟩
  unfold untilStored
  by_cases hfile : f.actionType = ActionType.readFile.code
  · rw [if_pos hfile]
    exact hat _ (dispatch_blankFile hs hfile)
  rw [if_neg hfile]
  by_cases hfolder : f.actionType = ActionType.createFolder.code
  · rw [if_pos hfolder]
    exact hat 0 ⟨fun h => absurd h (Nat.not_lt_zero _), fun _ => hstore (Or.inl hfolder)⟩
  rw [if_neg hfolder]
  by_cases hdelete : f.actionType = ActionType.deletePath.code
  · rw [if_pos hdelete]
    exact hat 0 ⟨fun h => absurd h (Nat.not_lt_zero _), fun _ => hstore (Or.inr hdelete)⟩
  rw [if_neg hdelete]
  by_cases hquit : f.actionType = ActionType.quit.code
  · rw [if_pos hquit, dispatch_quit b s hquit]
    exact ⟨fun _ => ⟨rfl, by simp⟩, by simp⟩
  rw [if_neg hquit]
  by_cases hrestore : f.actionType = ActionType.restore.code
  · rw [if_pos hrestore]
    exact hat _ (dispatch_blankDate hs hrestore)
  rw [if_neg hrestore]
  have hunknown : ActionType.ignore.code ≤ f.actionType := by
    unfold ActionType.code at *
    dsimp only at *
    omega
  by_cases hname : HasName b.pastEnd f.actionType
  · rw [if_pos hname]
    exact hat _ (dispatch_blankUnrecognized hs hunknown hname)
  · rw [if_neg hname, dispatch_nameless b s hunknown hname]
    exact ⟨fun _ => ⟨rfl, by simp⟩, by simp⟩

end Broken
end BackupManager.Protocol
