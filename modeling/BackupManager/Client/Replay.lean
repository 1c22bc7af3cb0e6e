import BackupManager.Client.ReadEntries
import BackupManager.Client.SendAction

/-! The loop of `action_restore` as the replay of the entries that it understands: what arrives decides
what is understood, and the files decide how far the replay gets. -/
namespace BackupManager.Client
open ByteStream Protocol Prog

section Operations

variable {φ : Type} (ops : FileOps φ)

/-- An operation whose failure is an exception. -/
def attempt (f : φ → Bool × φ) (w : φ) : Option φ := if (f w).1 then some (f w).2 else none

/-- The content of a file, in pieces. -/
def writeAll (filePath content : Bytes) (w : φ) : Option φ :=
  (pieces maxMsgSize content).foldlM (fun w piece => attempt (ops.write filePath piece) w) w

/-- What is written to a file that was not opened is dropped. -/
def storeFile (filePath content : Bytes) (w : φ) : Option φ :=
  let opened := ops.openFile filePath w
  if opened.1 then (writeAll ops filePath content opened.2).map (ops.closeFile filePath)
  else some opened.2

def storePath (filePath : Bytes) (isDirectory : ℤ) (content : Bytes) : φ → Option φ :=
  if isDirectory = 1 then attempt (ops.createDirectory filePath) else storeFile ops filePath content

/-- What a round of the loop does to the files. -/
def replayEntry (w : φ) (e : Entry) : Option φ := do
  let w ← storePath ops (tmpDir ++ e.path) e.isDirectory e.content w
  let w ← attempt (ops.lastWriteTime (tmpDir ++ e.path) e.lastWriteTime) w
  attempt (ops.permissions (tmpDir ++ e.path) e.permissions) w

def replay (es : List Entry) (w : φ) : Option φ := es.foldlM (replayEntry ops) w

@[simp] theorem replay_nil (w : φ) : replay ops [] w = some w := rfl

@[simp] theorem replay_cons (e : Entry) (es : List Entry) (w : φ) :
    replay ops (e :: es) w = (replayEntry ops w e).bind (replay ops es) := rfl

theorem replay_append (es later : List Entry) (w : φ) :
    replay ops (es ++ later) w = (replay ops es w).bind (replay ops later) :=
  List.foldlM_append

end Operations

section Rules

variable {φ α β : Type}

/-- The same session with other files. -/
def withFiles (s : Session (Restoring φ)) (files : φ) : Session (Restoring φ) :=
  { s with world := { s.world with files := files } }

/-- The run from `s` comes to `a` and `s'` and takes the files through `f`; it throws where `f`
fails. -/
def Does (p : Restorer φ α) (s : Session (Restoring φ)) (a : α) (s' : Session (Restoring φ))
    (f : φ → Option φ) : Prop :=
  ∀ files, match f files with
    | some files' => p (withFiles s files) = (.returns a, withFiles s' files')
    | none => ∃ what s'', p (withFiles s files) = (.throws what, s'')

/-- The program does not look at the files. -/
def Blind (p : Restorer φ α) : Prop :=
  ∀ s files, p (withFiles s files) = ((p s).1, withFiles (p s).2 files)

variable {p : Restorer φ α} {k : α → Restorer φ β} {s s₁ s₂ : Session (Restoring φ)} {a : α} {b : β}
  {f g : φ → Option φ}

theorem Does.bind (hp : Does p s a s₁ f) (hk : Does (k a) s₁ b s₂ g) :
    Does (p >>= k) s b s₂ fun w => (f w).bind g := by
  intro files
  have hfirst := hp files
  dsimp only
  cases hf : f files with
  | none =>
    rw [hf] at hfirst
    obtain ⟨what, s'', hthrows⟩ := hfirst
    exact ⟨what, s'', bind_of_throws hthrows k⟩
  | some files' =>
    rw [hf] at hfirst
    have hsecond := hk files'
    rw [Option.bind_some]
    cases hg : g files' with
    | none =>
      rw [hg] at hsecond
      obtain ⟨what, s'', hthrows⟩ := hsecond
      exact ⟨what, s'', (bind_of_returns hfirst k).trans hthrows⟩
    | some files'' =>
      rw [hg] at hsecond
      exact (bind_of_returns hfirst k).trans hsecond

theorem Does.pure (a : α) (s : Session (Restoring φ)) : Does (Pure.pure a) s a s some :=
  fun _ => rfl

/-- A result may be computed at the end. -/
theorem Does.map (hp : Does p s a s₁ f) (c : α → β) :
    Does (p >>= fun a => Pure.pure (c a)) s (c a) s₁ f := by
  have hbind : Does (p >>= fun a => Pure.pure (c a)) s (c a) s₁ fun w => (f w).bind some :=
    hp.bind (.pure (c a) s₁)
  simp only [Option.bind_fun_some] at hbind
  exact hbind

/-- A destructor that changes the files only. -/
theorem Does.withDestructor (hp : Does p s a s₁ f) {d : Restoring φ → Restoring φ} {c : φ → φ}
    (hd : ∀ w, d w = { w with files := c w.files }) :
    Does (withDestructor p d) s a s₁ fun w => (f w).map c := by
  intro files
  have hfiles := hp files
  dsimp only
  cases hf : f files with
  | none =>
    rw [hf] at hfiles
    obtain ⟨what, s'', hthrows⟩ := hfiles
    exact ⟨what, _, withDestructor_of_throws hthrows d⟩
  | some files' =>
    rw [hf] at hfiles
    refine (withDestructor_of_returns hfiles d).trans ?_
    rw [hd]
    rfl

theorem Blind.does (hp : Blind p) (hrun : p s = (.returns a, s₁)) : Does p s a s₁ some := by
  intro files
  show p (withFiles s files) = _
  rw [hp s files, hrun]

/-- What does not look at the files may come before or after. -/
theorem Blind.then (hp : Blind p) (hrun : p s = (.returns a, s₁)) (hk : Does (k a) s₁ b s₂ g) :
    Does (p >>= k) s b s₂ g := (hp.does hrun).bind hk

theorem does_require (what : String) (f : φ → Bool × φ) (s : Session (Restoring φ)) :
    Does (require what f) s () s (attempt f) := by
  intro files
  have hask : ask f (withFiles s files) = (.returns (f files).1, withFiles s (f files).2) := rfl
  unfold attempt require
  rw [bind_of_returns hask]
  by_cases hok : (f files).1 = true
  · rw [if_pos hok, if_pos hok]
    rfl
  · rw [if_neg hok, if_neg hok]
    exact ⟨what, _, rfl⟩

theorem Blind.note (r : Received) : Blind (φ := φ) (Client.note r) := fun _ _ => rfl

/-- What does not look at the world does not look at the files. -/
theorem blind_of_worldless (hp : Worldless p) : Blind p := by
  intro s files
  have hfiles : withFiles (p s).2 files = { (p s).2 with world := (withFiles s files).world } := by
    unfold withFiles
    rw [hp.world s]
  rw [hfiles]
  exact hp s (withFiles s files).world

end Rules

section Loop

variable {φ : Type} (ops : FileOps φ) {s s' : Session (Restoring φ)}

/-- The session once the entry has been noted. -/
def noted (s : Session (Restoring φ)) (e : Entry) : Session (Restoring φ) :=
  { s with world := { s.world with received := s.world.received ++ [.entry e] } }

/-- A content is received in its pieces, and each is handed on. -/
theorem does_recvChunks {each : Bytes → Restorer φ Unit} {g : Bytes → φ → Option φ}
    (heach : ∀ chunk s, Does (each chunk) s () s (g chunk)) {n : ℕ} {content : Bytes}
    (hrun : recvChunks maxMsgSize (fun _ => pure ()) n s = (.returns content, s')) :
    content.length = n ∧ Does (recvChunks maxMsgSize each n) s content s'
      fun w => (pieces maxMsgSize content).foldlM (fun w piece => g piece w) w := by
  induction n using Nat.strong_induction_on generalizing s s' content with
  | _ n ih =>
    unfold Prog.recvChunks at hrun ⊢
    split at hrun
    · next hpos =>
      obtain ⟨_, s₁, hread, hrun⟩ := bind_returns hrun
      obtain ⟨chunk, s₂, harray, hrun⟩ := bind_returns hrun
      obtain ⟨_, s₃, hchunk, hrun⟩ := bind_returns hrun
      obtain ⟨rest, s₄, hrest, hrun⟩ := bind_returns hrun
      rw [pure_apply, Prod.mk.injEq, Outcome.returns.injEq] at hrun
      obtain ⟨rfl, rfl⟩ := hrun
      rw [← (Prod.mk.inj hchunk).2] at hrest
      have hlength : chunk.length = min n maxMsgSize := by
        rw [readArray_apply, Prod.mk.injEq, Outcome.returns.injEq] at harray
        rw [← harray.1, Istream.length_readArray]
      obtain ⟨hrestLength, hdoes⟩ := ih _ (by omega) hrest
      have htotal : (chunk ++ rest).length = n := by
        rw [List.length_append, hlength, hrestLength]
        omega
      have hpieces : pieces maxMsgSize (chunk ++ rest) = chunk :: pieces maxMsgSize rest := by
        have hne : chunk ++ rest ≠ [] := by
          intro hnil
          rw [hnil, List.length_nil] at htotal
          omega
        have htake : (chunk ++ rest).take maxMsgSize = chunk := by
          rw [List.take_eq_take_min, htotal, min_comm, ← hlength, List.take_left]
        have hdrop : (chunk ++ rest).drop maxMsgSize = rest := by
          have hsplit := List.take_append_drop maxMsgSize (chunk ++ rest)
          rw [htake] at hsplit
          exact List.append_cancel_left hsplit
        rw [pieces, dif_pos ⟨hne, maxMsgSize_pos⟩, htake, hdrop]
      refine ⟨htotal, ?_⟩
      rw [dif_pos hpos, hpieces]
      have hblind : ∀ k, Blind (φ := φ) (Prog.readArray k) := fun _ _ _ => rfl
      refine (blind_of_worldless (.read _)).then hread ((hblind _).then harray ?_)
      exact (heach chunk s₂).bind (hdoes.map _)
    · next hzero =>
      rw [pure_apply, Prod.mk.injEq, Outcome.returns.injEq] at hrun
      obtain ⟨rfl, rfl⟩ := hrun
      refine ⟨?_, ?_⟩
      · have hmax := maxMsgSize_pos
        rw [List.length_nil]
        omega
      · rw [dif_neg hzero]
        have hnil : pieces maxMsgSize [] = [] := by
          rw [pieces, dif_neg fun hne => hne.1 rfl]
        rw [hnil]
        exact .pure _ _

/-- A stream that is open takes the content and is closed; any other takes nothing. -/
theorem does_stream {filePath content : Bytes} {n : ℕ} (isOpen : Bool)
    (hrun : recvChunks maxMsgSize (fun _ => pure ()) n s = (.returns content, s')) :
    Does (withDestructor (recvChunks maxMsgSize (writeChunk ops filePath isOpen) n)
      (closeStream ops filePath isOpen)) s content s'
      fun w => if isOpen then (writeAll ops filePath content w).map (ops.closeFile filePath)
        else some w := by
  cases isOpen with
  | true =>
    obtain ⟨-, hdoes⟩ := does_recvChunks
      (fun chunk t => does_require "basic_ios::clear" (ops.write filePath chunk) t) hrun
    exact hdoes.withDestructor fun w => rfl
  | false =>
    have hdrops : ∀ chunk t, Does (writeChunk ops filePath false chunk) t () t some :=
      fun _ t => Does.pure () t
    obtain ⟨-, hdoes⟩ := does_recvChunks hdrops hrun
    have hkeeps : ∀ (l : List Bytes) (w : φ), l.foldlM (fun w _ => some w) w = some w := by
      intro l w
      induction l with
      | nil => rfl
      | cons _ _ ih => exact ih
    simp only [hkeeps] at hdoes
    exact (hdoes.withDestructor (d := closeStream ops filePath false) (c := id) fun w => rfl)

/-- What a round does to the files once its header is read. -/
theorem does_receivePath {v : Locals} {file : ℤ × Bytes}
    (hrun : readContent v s = (.returns file, s')) :
    Does (receivePath ops (tmpDir ++ v.path) v.isDirectory v.size) s file s'
      (storePath ops (tmpDir ++ v.path) v.isDirectory file.2) := by
  unfold readContent at hrun
  unfold receivePath storePath
  split at hrun
  · next hdir =>
    rw [if_pos hdir, if_pos hdir]
    rw [pure_apply, Prod.mk.injEq, Outcome.returns.injEq] at hrun
    obtain ⟨rfl, rfl⟩ := hrun
    exact (does_require _ _ _).map _
  · next hfile =>
    rw [if_neg hfile, if_neg hfile]
    obtain ⟨size, s₁, hsize, hrun⟩ := bind_returns hrun
    obtain ⟨_, s₂, hignore, hrun⟩ := bind_returns hrun
    obtain ⟨content, s₃, hcontent, hrun⟩ := bind_returns hrun
    rw [pure_apply, Prod.mk.injEq, Outcome.returns.injEq] at hrun
    obtain ⟨rfl, rfl⟩ := hrun
    refine (blind_of_worldless (.recvInt _ _)).then hsize
      ((blind_of_worldless (.extract _)).then hignore ?_)
    intro files
    have hask : ask (ops.openFile (tmpDir ++ v.path)) (withFiles s₂ files) =
        (.returns (ops.openFile (tmpDir ++ v.path) files).1,
          withFiles s₂ (ops.openFile (tmpDir ++ v.path) files).2) := rfl
    rw [bind_of_returns hask]
    exact (does_stream ops _ hcontent).map _ _

/-- A round in its two halves. -/
theorem receiveEntry_eq (v : Locals) : receiveEntry ops v = readHeader v >>= fun v =>
    receivePath ops (tmpDir ++ v.path) v.isDirectory v.size >>= fun file =>
      note (.entry (v.entry file.2)) >>= fun _ =>
        require "Error while reading permissions"
          (ops.lastWriteTime (tmpDir ++ v.path) v.lastWriteTime) >>= fun _ =>
        require "Error while writing permissions"
          (ops.permissions (tmpDir ++ v.path) v.permissions) >>= fun _ =>
        pure { v with size := file.1 } := by
  unfold receiveEntry storeEntry readHeader
  simp only [bind_assoc, pure_bind]
  rfl

/-- A round that reads an entry replays it. -/
theorem does_receiveEntry {v v' : Locals} {e : Entry}
    (hrun : readEntry v s = (.returns (v', e), s')) :
    Does (receiveEntry ops v) s v' (noted s' e) fun w => replayEntry ops w e := by
  obtain ⟨v₁, s₁, file, hheader, hcontent, rfl, rfl⟩ := readEntry_returns hrun
  rw [receiveEntry_eq]
  refine (blind_of_worldless (worldless_readHeader v)).then hheader ?_
  refine (does_receivePath ops hcontent).bind ?_
  refine (Blind.note _).then (note_apply _ _) ?_
  exact (does_require _ _ _).bind ((does_require _ _ _).map _)

/-- The loop replays what it reads. -/
theorem does_receiveEntries {n : ℕ} {v : Locals} {es : List Entry}
    (hrun : readEntries n v s = (.returns es, s')) :
    Does (receiveEntries ops n v) s () (es.foldl noted s') (replay ops es) := by
  induction n generalizing v s s' es with
  | zero =>
    unfold readEntries at hrun
    rw [pure_apply, Prod.mk.injEq, Outcome.returns.injEq] at hrun
    obtain ⟨rfl, rfl⟩ := hrun
    exact .pure _ _
  | succ n ih =>
    obtain ⟨v', e, s₁, rest, hentry, hrest, rfl⟩ := readEntries_returns hrun
    have hnext := (worldless_readEntries n v').returns hrest (noted s₁ e).world
    have hworld : { s' with world := (noted s₁ e).world } = noted s' e := by
      have hsame := (worldless_readEntries n v').world s₁
      rw [hrest] at hsame
      unfold noted
      rw [hsame]
    rw [hworld] at hnext
    have hlater : Does (receiveEntries ops n v') (noted s₁ e) () ((e :: rest).foldl noted s')
        (replay ops rest) := by
      rw [List.foldl_cons]
      exact ih hnext
    exact (does_receiveEntry ops hentry).bind hlater

/-- The worlds differ in the files only. -/
def SameButFiles (w w' : Restoring φ) : Prop := ∃ files, w' = { w with files := files }

instance : IgnoresFiles (SameButFiles (φ := φ)) where
  refl w := ⟨w.files, rfl⟩
  trans w w' w'' h h' := by
    obtain ⟨files, rfl⟩ := h
    obtain ⟨files', rfl⟩ := h'
    exact ⟨files', rfl⟩
  files _ files := ⟨files, rfl⟩

variable {ops}

/-- What is done with the pieces of a content does not matter to those who read it. -/
theorem recvChunks_idle {each : Bytes → Restorer φ Unit}
    (heach : ∀ chunk s s', each chunk s = (.returns (), s') → s' = { s with world := s'.world })
    {n : ℕ} {content : Bytes} (hrun : recvChunks maxMsgSize each n s = (.returns content, s')) :
    recvChunks maxMsgSize (fun _ => pure ()) n s =
      (.returns content, { s' with world := s.world }) := by
  induction n using Nat.strong_induction_on generalizing s s' content with
  | _ n ih =>
    unfold Prog.recvChunks at hrun ⊢
    split at hrun
    · next hpos =>
      obtain ⟨_, s₁, hread, hrun⟩ := bind_returns hrun
      obtain ⟨chunk, s₂, harray, hrun⟩ := bind_returns hrun
      obtain ⟨_, s₃, hchunk, hrun⟩ := bind_returns hrun
      obtain ⟨rest, s₄, hrest, hrun⟩ := bind_returns hrun
      rw [pure_apply, Prod.mk.injEq, Outcome.returns.injEq] at hrun
      obtain ⟨rfl, rfl⟩ := hrun
      have hlater := (Worldless.recvChunks (fun _ => .pure ()) _).returns
        (ih _ (by omega) hrest) s₂.world
      have hback : { s₃ with world := s₂.world } = s₂ := by rw [heach _ _ _ hchunk]
      rw [hback] at hlater
      have hworld : s₂.world = s.world := by
        rw [readArray_apply, Prod.mk.injEq] at harray
        rw [← harray.2, (read_returns hread).2]
      rw [dif_pos hpos, bind_of_returns hread, bind_of_returns harray,
        bind_of_returns (pure_apply _ _), bind_of_returns hlater, hworld]
      rfl
    · next hzero =>
      rw [pure_apply, Prod.mk.injEq, Outcome.returns.injEq] at hrun
      obtain ⟨rfl, rfl⟩ := hrun
      rw [dif_neg hzero]
      rfl

theorem require_apply (what : String) (f : φ → Bool × φ) (s : Session (Restoring φ)) :
    require what f s = (if (f s.world.files).1 then .returns () else .throws what,
      { s with world := { s.world with files := (f s.world.files).2 } }) := by
  have hask : ask f s = (.returns (f s.world.files).1,
      { s with world := { s.world with files := (f s.world.files).2 } }) := rfl
  refine (bind_of_returns hask _).trans ?_
  split <;> rfl

theorem files_of_require {what : String} {f : φ → Bool × φ} {u : Unit}
    (hrun : require what f s = (.returns u, s')) : f s.world.files = (true, s'.world.files) := by
  rw [require_apply] at hrun
  have hok : (f s.world.files).1 = true := by
    by_contra hno
    rw [if_neg hno] at hrun
    exact absurd (congrArg Prod.fst hrun) (by simp)
  rw [← (Prod.mk.inj hrun).2]
  exact Prod.ext hok rfl

theorem require_returned {what : String} {f : φ → Bool × φ} {u : Unit}
    (hrun : require what f s = (.returns u, s')) :
    s' = withFiles s s'.world.files := by
  obtain ⟨files, rfl⟩ := require_returns hrun
  rfl

/-- What a round has stored it has read. -/
theorem receivePath_returns {v : Locals} {file : ℤ × Bytes}
    (hrun : receivePath ops (tmpDir ++ v.path) v.isDirectory v.size s = (.returns file, s')) :
    ∃ s₁, readContent v s = (.returns file, s₁) ∧ s' = withFiles s₁ s'.world.files := by
  have hfiles : SameButFiles s.world s'.world := (steps_receivePath ops _ _ _).returns hrun
  obtain ⟨files, hfiles⟩ := hfiles
  suffices hread : readContent v s = (.returns file, { s' with world := s.world }) by
    refine ⟨_, hread, ?_⟩
    obtain ⟨wire, closed, stream, world⟩ := s'
    have hworld : world = { s.world with files := files } := hfiles
    rw [hworld]
    rfl
  unfold receivePath at hrun
  unfold readContent
  split at hrun
  · next hdir =>
    obtain ⟨_, s₁, hcreate, hrun⟩ := bind_returns hrun
    rw [pure_apply, Prod.mk.injEq, Outcome.returns.injEq] at hrun
    obtain ⟨rfl, rfl⟩ := hrun
    rw [if_pos hdir, require_returned hcreate]
    rfl
  · next hfile =>
    obtain ⟨size, s₁, hsize, hrun⟩ := bind_returns hrun
    obtain ⟨_, s₂, hignore, hrun⟩ := bind_returns hrun
    obtain ⟨isOpen, s₃, hopen, hrun⟩ := bind_returns hrun
    obtain ⟨content, s₄, hcontent, hrun⟩ := bind_returns hrun
    obtain ⟨s₅, hchunks, rfl⟩ := withDestructor_returns hcontent
    rw [pure_apply, Prod.mk.injEq, Outcome.returns.injEq] at hrun
    obtain ⟨rfl, rfl⟩ := hrun
    have hwrite : ∀ chunk (t t' : Session (Restoring φ)),
        writeChunk ops (tmpDir ++ v.path) isOpen chunk t = (.returns (), t') →
          t' = { t with world := t'.world } := by
      intro chunk t t' ht
      unfold writeChunk at ht
      split at ht
      · rw [require_returned ht]
        rfl
      · rw [← (Prod.mk.inj ht).2]
    have hsame : s₂.world = s.world := by
      have hfirst := (Worldless.recvInt (σ := Restoring φ) intMaxNDigit v.size).world s
      rw [hsize] at hfirst
      rw [ignore_apply, Prod.mk.injEq] at hignore
      rw [← hignore.2, ← hfirst]
    have hread := (Worldless.recvChunks (fun _ => .pure ()) _).returns
      (recvChunks_idle hwrite hchunks) s₂.world
    have hback : { s₃ with world := s₂.world } = s₂ := by
      rw [← (Prod.mk.inj hopen).2]
    rw [hback] at hread
    rw [if_neg hfile, bind_of_returns hsize, bind_of_returns hignore, bind_of_returns hread, hsame]
    rfl

theorem receiveEntry_returns {v v' : Locals} (hrun : receiveEntry ops v s = (.returns v', s')) :
    ∃ e s₁, readEntry v s = (.returns (v', e), s₁) ∧
      s' = withFiles (noted s₁ e) s'.world.files := by
  rw [receiveEntry_eq] at hrun
  obtain ⟨v₁, s₁, hheader, hrun⟩ := bind_returns hrun
  obtain ⟨file, s₂, hpath, hrun⟩ := bind_returns hrun
  obtain ⟨_, s₃, hnote, hrun⟩ := bind_returns hrun
  obtain ⟨_, s₄, htime, hrun⟩ := bind_returns hrun
  obtain ⟨_, s₅, hmode, hrun⟩ := bind_returns hrun
  rw [pure_apply, Prod.mk.injEq, Outcome.returns.injEq] at hrun
  obtain ⟨rfl, rfl⟩ := hrun
  obtain ⟨s₆, hcontent, hs₂⟩ := receivePath_returns hpath
  refine ⟨v₁.entry file.2, s₆, ?_, ?_⟩
  · exact (bind_of_returns hheader _).trans (bind_of_returns hcontent _)
  · rw [note_apply, Prod.mk.injEq] at hnote
    rw [require_returned hmode, require_returned htime, ← hnote.2, hs₂]
    rfl

theorem receiveEntries_returns {n : ℕ} {v : Locals}
    (hrun : receiveEntries ops n v s = (.returns (), s')) :
    ∃ es s₁, readEntries n v s = (.returns es, s₁) := by
  induction n generalizing v s with
  | zero => exact ⟨[], s, rfl⟩
  | succ n ih =>
    obtain ⟨v', s₁, hentry, hrun⟩ := bind_returns hrun
    obtain ⟨e, s₂, hread, hs₁⟩ := receiveEntry_returns hentry
    obtain ⟨es, s₃, hrest⟩ := ih hrun
    have hlater := (worldless_readEntries n v').returns hrest s₂.world
    have hback : { s₁ with world := s₂.world } = s₂ := by
      rw [hs₁]
      rfl
    rw [hback] at hlater
    exact ⟨e :: es, { s₃ with world := s₂.world }, (bind_of_returns hread _).trans (bind_of_returns hlater _)⟩

/-- What arrives is read as these entries. -/
def Understands {σ : Type} (n : ℕ) (v : Locals) (s : Session σ) (es : List Entry) : Prop :=
  ∃ s', readEntries n v s = (.returns es, s')

section Understands

variable {n : ℕ} {v : Locals} {es : List Entry} {files files' : φ}

theorem Understands.world {σ : Type} {s : Session σ} (h : Understands n v s es) (w : σ) :
    Understands n v { s with world := w } es := by
  obtain ⟨s', hread⟩ := h
  exact ⟨_, (worldless_readEntries n v).returns hread w⟩

theorem Understands.does (h : Understands n v s es) (ops : FileOps φ) :
    ∃ s', Does (receiveEntries ops n v) s () s' (replay ops es) := by
  obtain ⟨s', hrun⟩ := h
  exact ⟨_, does_receiveEntries ops hrun⟩

variable (ops) in
/-- The loop returns where the replay comes to its end, with the files of the replay. -/
theorem Understands.returns_iff (h : Understands n v s es) :
    (∃ s', receiveEntries ops n v (withFiles s files) = (.returns (), s') ∧
      s'.world.files = files') ↔ replay ops es files = some files' := by
  obtain ⟨s₁, hdoes⟩ := h.does ops
  have hfiles := hdoes files
  cases hreplay : replay ops es files with
  | none =>
    rw [hreplay] at hfiles
    obtain ⟨what, s₂, hthrows⟩ := hfiles
    constructor
    · intro hreturns
      obtain ⟨s', hrun, -⟩ := hreturns
      rw [hthrows] at hrun
      exact absurd (congrArg Prod.fst hrun) (by simp)
    · intro hsome
      exact absurd hsome (by simp)
  | some files₁ =>
    rw [hreplay] at hfiles
    constructor
    · intro hreturns
      obtain ⟨s', hrun, hend⟩ := hreturns
      rw [hfiles, Prod.mk.injEq] at hrun
      rw [← hend, ← hrun.2]
      rfl
    · intro hsome
      rw [Option.some.injEq] at hsome
      exact ⟨_, hfiles, hsome⟩

/-- A loop that returns has read entries, and has come to the end of their replay. -/
theorem understands_of_returns (hrun : receiveEntries ops n v s = (.returns (), s')) :
    ∃ es, Understands n v s es ∧ replay ops es s.world.files = some s'.world.files ∧
      s'.world.received = s.world.received ++ es.map .entry := by
  obtain ⟨es, s₁, hread⟩ := receiveEntries_returns hrun
  have hreplay := (Understands.returns_iff ops ⟨s₁, hread⟩).mp ⟨s', hrun, rfl⟩
  refine ⟨es, ⟨s₁, hread⟩, hreplay, ?_⟩
  have hdoes := does_receiveEntries ops hread s.world.files
  rw [hreplay] at hdoes
  have hworld : s₁.world = s.world := by
    have hsame := (worldless_readEntries n v).world s
    rwa [hread] at hsame
  have hnoted : ∀ (l : List Entry) (t : Session (Restoring φ)),
      (l.foldl noted t).world.received = t.world.received ++ l.map .entry := by
    intro l
    induction l with
    | nil => exact fun t => (List.append_nil _).symm
    | cons e l ih =>
      intro t
      rw [List.foldl_cons, ih, List.map_cons]
      exact List.append_assoc _ _ _
  have hlast := (Prod.mk.inj (hrun.symm.trans hdoes)).2
  rw [hlast, ← hworld]
  exact hnoted es s₁

end Understands
end Loop
end BackupManager.Client
