import BackupManager.ByteStream.Extension
import BackupManager.Client.HostFiles
import BackupManager.Client.Replay

/-! What a restore that throws leaves of the directory of the user, wherever an operation fails and
wherever the directory stands. -/
namespace BackupManager.Client
open ByteStream Protocol FileTree Prog

section Stage

variable {φ : Type} (ops : FileOps φ) (v : Locals) (pathNumber : ℤ) (date userPath : Bytes)

/-- The protected part of `action_restore` up to the replacement of the directory. -/
def stage : Restorer φ Unit := do
  Client.write (dateBlock date)
  let pathNumber ← recvInt intMaxNDigit pathNumber
  note (.count pathNumber)
  require "create_directory" (ops.createDirectory tmpDir)
  receiveEntries ops pathNumber.toNat v

/-- The replacement of the directory by the staged one. -/
def replace : Restorer φ Unit := do
  require "remove_all" (ops.removeAll userPath)
  require "rename" (ops.rename tmpDir userPath)

theorem restoreInto_eq :
    restoreInto ops v pathNumber date userPath =
      stage ops v pathNumber date >>= fun _ => replace ops userPath := by
  unfold restoreInto stage replace
  simp only [bind_assoc]

variable {ops v pathNumber date userPath}

theorem halts_require (what : String) (f : φ → Bool × φ) : Halts (require what f) := by
  refine .bind (fun _ h => ⟨h, by simp [ask]⟩) fun ok => ?_
  split
  · exact .pure _
  · exact .throw _

theorem halts_receiveEntries (n : ℕ) (v : Locals) : Halts (receiveEntries ops n v) := by
  have hpath : ∀ filePath isDirectory old, Halts (receivePath ops filePath isDirectory old) := by
    intro filePath isDirectory old
    unfold receivePath
    split
    · exact .bind (halts_require _ _) fun _ => .pure _
    · refine .bind (.recvInt _ _) fun _ => .bind (.extract _) fun _ =>
        .bind (fun _ h => ⟨h, by simp [ask]⟩) fun isOpen =>
          .bind (.withDestructor (.recvChunks (fun chunk => ?_) _) _) fun _ => .pure _
      unfold writeChunk
      split
      · exact halts_require _ _
      · exact .pure _
  induction n generalizing v with
  | zero => exact .pure _
  | succ n ih =>
    refine .bind (.bind (.recvInt _ _) fun _ => .bind (.recvLine _ _) fun _ =>
      .bind (.recvInt _ _) fun _ => .bind (.recvInt _ _) fun _ => ?_) fun v => ih v
    exact .bind (.recvInt _ _) fun _ => .bind (hpath _ _ _) fun _ => .bind (.modifyWorld _) fun _ =>
      .bind (halts_require _ _) fun _ => .bind (halts_require _ _) fun _ => .pure _

theorem halts_stage (ops : FileOps φ) (v : Locals) (pathNumber : ℤ) (date : Bytes) :
    Halts (stage ops v pathNumber date) :=
  .bind (.modifyWorld _) fun _ => .bind (.recvInt _ _) fun _ => .bind (.modifyWorld _) fun _ =>
    .bind (halts_require _ _) fun _ => halts_receiveEntries _ _

section Returns

variable {s s₁ s₂ : Session (Restoring φ)} {n : ℤ} {es : List Entry} {files files' : φ}

/-- A staging that comes to its end has made the directory, and read and replayed entries. -/
theorem stage_returned (hrun : stage ops v pathNumber date s = (.returns (), s₁)) :
    ∃ n s₂ es files, recvInt intMaxNDigit pathNumber s = (.returns n, s₂) ∧
      ops.createDirectory tmpDir s.world.files = (true, files) ∧ Understands n.toNat v s₂ es ∧
      replay ops es files = some s₁.world.files ∧
      s₁.world.received = s.world.received ++ .count n :: es.map .entry := by
  unfold stage at hrun
  rw [bind_of_returns (write_apply _ _)] at hrun
  obtain ⟨n, s₃, hcount, hrun⟩ := bind_returns hrun
  rw [bind_of_returns (note_apply _ _)] at hrun
  obtain ⟨_, s₄, hcreate, hrun⟩ := bind_returns hrun
  have hworld := (Worldless.recvInt intMaxNDigit pathNumber).world { s with world :=
    { s.world with sent := s.world.sent ++ [dateBlock date] } }
  rw [hcount] at hworld
  dsimp only at hworld
  have hback := (Worldless.recvInt intMaxNDigit pathNumber).returns hcount s.world
  obtain ⟨es, hread, hreplay, hreceived⟩ := understands_of_returns hrun
  have hfiles := files_of_require hcreate
  have hs₄ := require_returned hcreate
  refine ⟨n, { s₃ with world := s.world }, es, s₄.world.files, hback, ?_, ?_, hreplay, ?_⟩
  · rw [hworld] at hfiles
    exact hfiles
  · have hsame := hread.world s.world
    rwa [hs₄] at hsame
  · rw [hreceived, hs₄, hworld]
    exact List.append_assoc s.world.received [.count n] (es.map .entry)

theorem returns_stage (date : Bytes)
    (hcount : recvInt intMaxNDigit pathNumber s = (.returns n, s₂))
    (hcreate : ops.createDirectory tmpDir s.world.files = (true, files))
    (hread : Understands n.toNat v s₂ es) (hreplay : replay ops es files = some files') :
    ∃ s₁, stage ops v pathNumber date s = (.returns (), s₁) := by
  have hcount' := (Worldless.recvInt intMaxNDigit pathNumber).returns hcount
    { s.world with sent := s.world.sent ++ [dateBlock date] }
  have hcreate' := require_apply "create_directory" (ops.createDirectory tmpDir) { s₂ with world :=
    { s.world with
      sent := s.world.sent ++ [dateBlock date]
      received := s.world.received ++ [.count n] } }
  dsimp only at hcreate'
  rw [hcreate, if_pos rfl] at hcreate'
  have hread' := hread.world { s.world with
    sent := s.world.sent ++ [dateBlock date]
    received := s.world.received ++ [.count n]
    files := files }
  obtain ⟨s₁, hentries, -⟩ := (hread'.returns_iff ops).mpr hreplay
  refine ⟨s₁, ?_⟩
  unfold stage
  rw [bind_of_returns (write_apply _ _), bind_of_returns hcount', bind_of_returns (note_apply _ _),
    bind_of_returns hcreate']
  exact hentries

end Returns

section Relation

/-- Every operation on this path respects the relation. -/
structure Respects (ops : FileOps φ) (R : φ → φ → Prop) (path : Bytes) : Prop where
  createDirectory : ∀ w, R w (ops.createDirectory path w).2
  openFile : ∀ w, R w (ops.openFile path w).2
  write : ∀ bytes w, R w (ops.write path bytes w).2
  closeFile : ∀ w, R w (ops.closeFile path w)
  lastWriteTime : ∀ time w, R w (ops.lastWriteTime path time w).2
  permissions : ∀ mode w, R w (ops.permissions path mode w).2

variable {R : φ → φ → Prop}

/-- The files before and after are related. -/
def OnFiles (R : φ → φ → Prop) (w w' : Restoring φ) : Prop := R w.files w'.files

variable [Std.Refl R] [IsTrans φ R]

local instance : Std.Refl (OnFiles R) := ⟨fun w => Std.Refl.refl w.files⟩

local instance : IsTrans (Restoring φ) (OnFiles R) := ⟨fun _ _ _ => IsTrans.trans (r := R) _ _ _⟩

theorem steps_onFiles_require (what : String) {f : φ → Bool × φ} (hf : ∀ w, R w (f w).2) :
    Steps (OnFiles R) (require what f) := by
  have hask : Steps (OnFiles R) (ask f) := fun s => hf s.world.files
  refine .bind hask fun ok => ?_
  split
  · exact .pure _
  · exact .throw _

variable {filePath : Bytes}

theorem Respects.receivePath (h : Respects ops R filePath) (isDirectory old : ℤ) :
    Steps (OnFiles R) (receivePath ops filePath isDirectory old) := by
  have hopen : Steps (OnFiles R) (ask (ops.openFile filePath)) :=
    fun s => h.openFile s.world.files
  have hwrite : ∀ isOpen chunk, Steps (OnFiles R) (writeChunk ops filePath isOpen chunk) := by
    intro isOpen chunk
    unfold writeChunk
    split
    · exact steps_onFiles_require _ (h.write _)
    · exact .pure _
  have hclose : ∀ isOpen w, OnFiles R w (closeStream ops filePath isOpen w) := by
    intro isOpen w
    unfold closeStream
    split
    · exact h.closeFile w.files
    · exact Std.Refl.refl w
  unfold Client.receivePath
  split
  · exact .bind (steps_onFiles_require _ h.createDirectory) fun _ => .pure _
  · exact .bind (.recvInt _ _) fun _ => .bind (.extract _) fun _ => .bind hopen fun isOpen =>
      .bind (.withDestructor (.recvChunks (hwrite isOpen) _) (hclose isOpen)) fun _ => .pure _

/-- An entry that is begun changes the files by operations on its path. -/
theorem onFiles_receiveEntry {s : Session (Restoring φ)}
    (h : ∀ v' s', readHeader v s = (.returns v', s') → Respects ops R (tmpDir ++ v'.path)) :
    OnFiles R s.world (receiveEntry ops v s).2.world := by
  have hworld := (worldless_readHeader v).world s
  rw [receiveEntry_eq, bind_apply]
  cases hheader : readHeader v s with
  | mk o s' =>
    rw [hheader] at hworld
    dsimp only at hworld
    rw [← hworld]
    cases o with
    | returns v' =>
      have hpath := h v' s' hheader
      have hrest : Steps (OnFiles R)
          (Client.receivePath ops (tmpDir ++ v'.path) v'.isDirectory v'.size >>= fun file =>
            note (.entry (v'.entry file.2)) >>= fun _ =>
              require "Error while reading permissions"
                (ops.lastWriteTime (tmpDir ++ v'.path) v'.lastWriteTime) >>= fun _ =>
              require "Error while writing permissions"
                (ops.permissions (tmpDir ++ v'.path) v'.permissions) >>= fun _ =>
              pure { v' with size := file.1 }) :=
        .bind (hpath.receivePath _ _) fun _ =>
          .bind (.modifyWorld fun w => Std.Refl.refl w.files) fun _ =>
          .bind (steps_onFiles_require _ (hpath.lastWriteTime _)) fun _ =>
          .bind (steps_onFiles_require _ (hpath.permissions _)) fun _ => .pure _
      exact hrest s'
    | throws what => exact Std.Refl.refl _
    | waits => exact Std.Refl.refl _

theorem onFiles_receiveEntries {n : ℕ} {s : Session (Restoring φ)}
    (h : ∀ path ∈ begins n v s, Respects ops R (tmpDir ++ path)) :
    OnFiles R s.world (receiveEntries ops n v s).2.world := by
  induction n generalizing v s with
  | zero => exact Std.Refl.refl _
  | succ n ih =>
    have hfirst : OnFiles R s.world (receiveEntry ops v s).2.world :=
      onFiles_receiveEntry fun v' s' hheader => h v'.path (mem_begins_of_header n hheader)
    unfold receiveEntries
    rw [bind_apply]
    cases hentry : receiveEntry ops v s with
    | mk o s₁ =>
      rw [hentry] at hfirst
      cases o with
      | returns v' =>
        obtain ⟨e, s₂, hread, hs₁⟩ := receiveEntry_returns hentry
        refine Trans.trans hfirst (ih fun path hpath => h path (mem_begins_of_later hread ?_))
        have hback : { s₁ with world := s₂.world } = s₂ := by
          rw [hs₁]
          rfl
        rwa [← hback, begins_world]
      | throws what => exact hfirst
      | waits => exact hfirst

/-- The staging changes the files by operations on the staging directory and on the paths that are
begun. -/
theorem onFiles_stage {s : Session (Restoring φ)} (hdirectory : Respects ops R tmpDir)
    (h : ∀ path ∈ begun v pathNumber s, Respects ops R (tmpDir ++ path)) :
    OnFiles R s.world (stage ops v pathNumber date s).2.world := by
  have hcount := (Worldless.recvInt intMaxNDigit pathNumber) s
    { s.world with sent := s.world.sent ++ [dateBlock date] }
  unfold stage
  rw [bind_of_returns (write_apply _ _), bind_apply, hcount]
  cases hread : recvInt intMaxNDigit pathNumber s with
  | mk o s₁ =>
    cases o with
    | throws what => exact Std.Refl.refl (r := R) s.world.files
    | waits => exact Std.Refl.refl (r := R) s.world.files
    | returns n =>
      dsimp only
      rw [bind_of_returns (note_apply _ _), bind_apply]
      have hcreate : Steps (OnFiles R) (require "create_directory" (ops.createDirectory tmpDir)) :=
        steps_onFiles_require _ hdirectory.createDirectory
      have hfirst := hcreate { s₁ with world := { s.world with
        sent := s.world.sent ++ [dateBlock date],
        received := s.world.received ++ [.count n] } }
      cases hrun : require "create_directory" (ops.createDirectory tmpDir) { s₁ with
          world := { s.world with
            sent := s.world.sent ++ [dateBlock date],
            received := s.world.received ++ [.count n] } } with
      | mk o s₂ =>
        rw [hrun] at hfirst
        cases o with
        | throws what => exact hfirst
        | waits => exact hfirst
        | returns u =>
          have hlater : OnFiles R s₂.world (receiveEntries ops n.toNat v s₂).2.world := by
            refine onFiles_receiveEntries fun path hpath => h path ?_
            have hback : { s₂ with world := s₁.world } = s₁ := by
              rw [require_returned hrun]
              rfl
            unfold begun
            rw [hread]
            dsimp only
            rwa [← hback, begins_world]
          exact IsTrans.trans (r := R) _ _ _ hfirst hlater

end Relation

section Outcomes

variable {s s₁ : Session (Restoring φ)}

/-- The `catch` block throws, and has removed what it could. -/
theorem cleanUp_apply (ops : FileOps φ) (s : Session (Restoring φ)) :
    ∃ what, cleanUp ops s = (.throws what,
      { s with world := { s.world with files := (ops.removeAll tmpDir s.world.files).2 } }) := by
  have hrequire := require_apply "remove_all" (ops.removeAll tmpDir) s
  by_cases h : (ops.removeAll tmpDir s.world.files).1 = true
  · rw [if_pos h] at hrequire
    exact ⟨_, bind_of_returns hrequire _⟩
  · rw [if_neg h] at hrequire
    exact ⟨_, bind_of_throws hrequire _⟩

/-- How a restore ends: the staging throws, or the removal, or the rename, or nothing. -/
theorem actionRestore_thrown {what : String} (h : stage ops v pathNumber date s = (.throws what, s₁)) :
    actionRestore ops v pathNumber date userPath s = cleanUp ops s₁ := by
  unfold actionRestore Prog.tryCatch
  rw [restoreInto_eq, bind_of_throws h]

theorem actionRestore_staged (h : stage ops v pathNumber date s = (.returns (), s₁)) :
    actionRestore ops v pathNumber date userPath s =
      tryCatch (replace ops userPath) (fun _ => cleanUp ops) s₁ := by
  unfold actionRestore
  refine tryCatch_congr ?_ _
  rw [restoreInto_eq, bind_of_returns h]

theorem replace_apply (s : Session (Restoring φ)) :
    replace ops userPath s =
      if (ops.removeAll userPath s.world.files).1 then
        require "rename" (ops.rename tmpDir userPath) { s with world :=
          { s.world with files := (ops.removeAll userPath s.world.files).2 } }
      else (.throws "remove_all", { s with world :=
        { s.world with files := (ops.removeAll userPath s.world.files).2 } }) := by
  have hrequire := require_apply "remove_all" (ops.removeAll userPath) s
  unfold replace
  split
  · next h =>
    rw [if_pos h] at hrequire
    exact bind_of_returns hrequire _
  · next h =>
    rw [if_neg h] at hrequire
    exact bind_of_throws hrequire _

end Outcomes
end Stage

namespace Host

/-- No operation on a staged entry turns a directory into something else, or changes anything at
another location. -/
theorem respects (h : Host) {s : Location → Prop} {path : Bytes} (hs : s (h.target path)) :
    Respects h.ops (Edited s) path where
  createDirectory w := edited_edit hs fun n _ n' hn' => createDirectory_isDirectory n' hn'
  openFile w := by
    have hopened : Edited s w { w with pending := [] } := .of_tree_eq rfl
    refine hopened.trans (edited_edit hs fun n hn n' hn' => ?_)
    cases n with
    | file data => exact hn.elim
    | directory permissions => exact absurd hn' (by simp [openFile])
  write bytes w := by
    show Edited s w (h.write path bytes w).2
    unfold Host.write
    dsimp only
    split
    · exact .of_tree_eq rfl
    · have happend : Edited s w (h.append .write (w.pending ++ bytes) path w).2 :=
        edited_append hs _
      split
      · exact happend.trans (.of_tree_eq rfl)
      · exact happend
  closeFile w := by
    show Edited s w (h.closeFile path w)
    unfold Host.closeFile
    split
    · exact .refl w
    · have happend : Edited s w (h.append .close w.pending path w).2 := edited_append hs _
      exact happend.trans (.of_tree_eq rfl)
  lastWriteTime time w := by
    refine edited_edit hs fun n hn n' hn' => ?_
    cases n with
    | file data => exact hn.elim
    | directory permissions =>
      rw [← Option.mem_some_iff.mp hn']
      trivial
  permissions mode w := by
    refine edited_edit hs fun n hn n' hn' => ?_
    cases n with
    | file data => exact hn.elim
    | directory permissions =>
      rw [← Option.mem_some_iff.mp hn']
      trivial

end Host
end BackupManager.Client
