import BackupManager.Client.Volume

/-! A whole restore on a volume that holds other files: the loop works in the staging directory only, and
in the end that directory takes the place of the user's. -/
namespace BackupManager.Client
open ByteStream Protocol Prog

/-- The path of a directory, or a path below it. -/
def Within (dir p : Bytes) : Prop := p = dir ∨ dir ++ [slash] <+: p

instance (dir : Bytes) : DecidablePred (Within dir) := fun p =>
  inferInstanceAs (Decidable (p = dir ∨ dir ++ [slash] <+: p))

/-- The staging directory of `t`, in what `base` holds elsewhere. -/
def overlay (base t : Inodes) : Inodes := fun p => if Within tmpDir p then t p else base p

/-- A change that looks at the staging directory only, and changes nothing else. -/
def Local (f : Inodes → Option Inodes) : Prop :=
  ∀ base t, f (overlay base t) = (f t).map (overlay base)

section Paths

variable {k p : Bytes} {base t : Inodes}

theorem within_append (hk : k.head? = some slash) (dir : Bytes) : Within dir (dir ++ k) := by
  cases k with
  | nil => cases hk
  | cons b rest =>
    have hb : b = slash := Option.some.inj hk
    refine Or.inr ⟨rest, ?_⟩
    rw [hb, List.append_assoc]
    rfl

/-- Two directories that have a path in common. -/
theorem within_comparable {a b : Bytes} (ha : Within a p) (hb : Within b p) :
    Within a b ∨ Within b a := by
  rcases ha with rfl | ha
  · exact Or.inr hb
  · rcases hb with rfl | hb
    · exact Or.inl (Or.inr ha)
    · rcases List.prefix_or_prefix_of_prefix ha hb with hab | hba
      · rcases List.prefix_concat_iff.mp hab with heq | hprefix
        · exact Or.inl (Or.inl (List.append_cancel_right heq).symm)
        · exact Or.inl (Or.inr hprefix)
      · rcases List.prefix_concat_iff.mp hba with heq | hprefix
        · exact Or.inr (Or.inl (List.append_cancel_right heq).symm)
        · exact Or.inr (Or.inr hprefix)

/-- What is above a staged path is staged. -/
theorem staged_folderOf (hk : k.head? = some slash) : Within tmpDir (folderOf (tmpDir ++ k)) := by
  have hmem : slash ∈ k := List.mem_of_mem_head? hk
  rw [folderOf_append hmem]
  obtain ⟨name, hname⟩ := folderOf_prefix hmem
  by_cases hempty : folderOf k = []
  · rw [hempty, List.append_nil]
    exact Or.inl rfl
  · refine within_append ?_ tmpDir
    rw [hname, List.head?_append_of_ne_nil _ hempty] at hk
    exact hk

theorem overlay_staged (hp : Within tmpDir p) : overlay base t p = t p := if_pos hp

theorem overlay_update (hp : Within tmpDir p) (node : Option Inode) :
    overlay base (Function.update t p node) = Function.update (overlay base t) p node := by
  funext q
  by_cases hq : q = p
  · rw [hq, overlay_staged hp, Function.update_self, Function.update_self]
  · rw [Function.update_of_ne hq, overlay, overlay, Function.update_of_ne hq]

end Paths

section Local

variable (vol : Volume) {f g : Inodes → Option Inodes} {path : Bytes}

theorem Local.bind (hf : Local f) (hg : Local g) : Local fun w => (f w).bind g := by
  intro base t
  show (f (overlay base t)).bind g = ((f t).bind g).map (overlay base)
  rw [hf]
  cases f t with
  | none => rfl
  | some t' => exact hg base t'

theorem local_create (hpath : Within tmpDir path) (hfolder : Within tmpDir (folderOf path))
    (content : Option Bytes) : Local (vol.create content path) := by
  intro base t
  unfold Volume.create
  rw [overlay_staged hfolder]
  split
  · next time permissions hnode =>
    by_cases hadmits : vol.admits permissions = true
    · rw [if_pos hadmits, if_pos hadmits, Option.map_some, overlay_update hpath,
        overlay_update hfolder]
    · rw [if_neg hadmits, if_neg hadmits]
      rfl
  · rfl

theorem local_createDirectory (hpath : Within tmpDir path) (hfolder : Within tmpDir (folderOf path)) :
    Local (vol.createDirectory path) := by
  intro base t
  unfold Volume.createDirectory
  rw [overlay_staged hpath]
  split
  · exact local_create vol hpath hfolder none base t
  · rfl
  · rfl

theorem local_openFile (hpath : Within tmpDir path) (hfolder : Within tmpDir (folderOf path)) :
    Local (vol.openFile path) := by
  intro base t
  unfold Volume.openFile
  rw [overlay_staged hpath]
  split
  · exact local_create vol hpath hfolder (some []) base t
  · rw [Option.map_some, overlay_update hpath]
  · rfl

theorem local_write (hpath : Within tmpDir path) (bytes : Bytes) : Local (vol.write path bytes) := by
  intro base t
  unfold Volume.write
  rw [overlay_staged hpath]
  split
  · rw [Option.map_some, overlay_update hpath]
  · rfl

theorem local_change (hpath : Within tmpDir path) (f : Inode → Inode) : Local (Volume.change f path) := by
  intro base t
  unfold Volume.change
  rw [overlay_staged hpath]
  cases t path with
  | none => rfl
  | some node => simp only [Option.map_some, overlay_update hpath]

/-- An operation of the volume, where it must succeed. -/
theorem Local.attempt (hf : Local f) : Local (attempt fun t => Volume.answer t (f t)) := by
  intro base t
  rw [Volume.attempt_answer, Volume.attempt_answer]
  exact hf base t

theorem local_writeAll (hpath : Within tmpDir path) (content : Bytes) :
    Local (writeAll vol.ops path content) := by
  intro base
  unfold writeAll
  induction pieces maxMsgSize content with
  | nil => exact fun t => rfl
  | cons piece rest ih =>
    intro t
    have hpiece : attempt (vol.ops.write path piece) (overlay base t) =
        (attempt (vol.ops.write path piece) t).map (overlay base) :=
      (local_write vol hpath piece).attempt base t
    rw [List.foldlM_cons, List.foldlM_cons, hpiece]
    cases attempt (vol.ops.write path piece) t with
    | none => rfl
    | some t' => exact ih t'

theorem local_storeFile (hpath : Within tmpDir path) (hfolder : Within tmpDir (folderOf path))
    (content : Bytes) : Local (storeFile vol.ops path content) := by
  intro base t
  have hopen := local_openFile vol hpath hfolder base t
  have hclose : vol.ops.closeFile path = id := rfl
  have hops : ∀ t, vol.ops.openFile path t = Volume.answer t (vol.openFile path t) := fun _ => rfl
  unfold storeFile
  rw [hclose, hops, hops, hopen]
  cases vol.openFile path t with
  | none => rfl
  | some t' =>
    have hwrite := local_writeAll vol hpath content base t'
    simpa [Volume.answer] using hwrite

/-- The replay of an entry stays in the staging directory. -/
theorem local_replayEntry {e : Entry} (he : e.path.head? = some slash) :
    Local fun t => replayEntry vol.ops t e := by
  have hpath := within_append he tmpDir
  have hfolder := staged_folderOf he
  have hstore : Local (storePath vol.ops (tmpDir ++ e.path) e.isDirectory e.content) := by
    unfold storePath
    split
    · exact (local_createDirectory vol hpath hfolder).attempt
    · exact local_storeFile vol hpath hfolder e.content
  exact hstore.bind (Local.bind (local_change hpath _).attempt (local_change hpath _).attempt)

theorem local_replay {es : List Entry} (hes : ∀ e ∈ es, e.path.head? = some slash) :
    Local (replay vol.ops es) := by
  induction es with
  | nil => exact fun _ _ => rfl
  | cons e es ih =>
    exact (local_replayEntry vol (hes e List.mem_cons_self)).bind
      (ih fun x hx => hes x (List.mem_cons_of_mem e hx))

end Local

namespace Volume

variable (vol : Volume)

/-- A volume on which the directory of the user can be restored: nothing stands where the entries are
staged, and neither of the two directories is part of the other. -/
structure Ready (files : Inodes) (user : Bytes) : Prop where
  parent : ∃ time permissions, files (folderOf tmpDir) = some ⟨none, time, permissions⟩ ∧
    vol.admits permissions = true
  free : ∀ p, Within tmpDir p → files p = none
  outside : ¬Within tmpDir user
  apart : ¬Within user tmpDir

/-- The exchange of the two directories at the end. -/
def exchange (user : Bytes) (t : Inodes) : Inodes := rename tmpDir user (removeAll user t)

/-- The volume after a restore: the entries in the directory of the user, no staging directory, and all
else as it was. -/
structure Restored (files files' : Inodes) (user : Bytes) (es : List Entry) : Prop where
  shows : ∀ k, k.head? = some slash → ∀ x, (files' (user ++ k)).map Inode.content = some x ↔
    ∃ e ∈ es, e.path = k ∧ e.shown = x
  root : ∃ time permissions, files' user = some ⟨none, time, permissions⟩
  cleared : ∀ p, Within tmpDir p → files' p = none
  elsewhere : ∀ p, ¬Within user p → ¬Within tmpDir p → p ≠ folderOf tmpDir → files' p = files p

section Restore

variable {vol} {files t : Inodes} {user : Bytes} {es : List Entry}

theorem folderOf_tmpDir_outside : ¬Within tmpDir (folderOf tmpDir) := by decide

/-- The staging directory is created in what stands already. -/
theorem Ready.created (h : vol.Ready files user) : ∃ base, vol.createDirectory tmpDir files =
    some (overlay base vol.emptyStaging) ∧ ∀ p, p ≠ folderOf tmpDir → base p = files p := by
  obtain ⟨time, permissions, hparent, hadmits⟩ := h.parent
  refine ⟨Function.update files (folderOf tmpDir) (some ⟨none, vol.clock tmpDir, permissions⟩), ?_,
    fun p hp => Function.update_of_ne hp _ _⟩
  rw [createDirectory, h.free tmpDir (Or.inl rfl)]
  dsimp only
  rw [vol.create_apply hparent, if_pos hadmits, placed]
  congr 1
  funext p
  unfold overlay emptyStaging
  by_cases hp : p = tmpDir
  · rw [hp, Function.update_self, Function.update_self]
    exact (if_pos (Or.inl rfl)).symm
  · rw [Function.update_of_ne hp, Function.update_of_ne hp]
    by_cases hwithin : Within tmpDir p
    · have hne : p ≠ folderOf tmpDir := by
        rintro rfl
        exact folderOf_tmpDir_outside hwithin
      rw [if_pos hwithin, Function.update_of_ne hne, h.free p hwithin]
    · rw [if_neg hwithin]

/-- No path is in both directories. -/
theorem Ready.not_within (h : vol.Ready files user) {p : Bytes} (hp : Within tmpDir p) :
    ¬Within user p := fun huser =>
  (within_comparable hp huser).elim h.outside h.apart

theorem exchange_user (h : vol.Ready files user) {k : Bytes} (hk : k = [] ∨ k.head? = some slash) :
    exchange user t (user ++ k) = t (tmpDir ++ k) := by
  have hwithin (dir : Bytes) : Within dir (dir ++ k) := by
    rcases hk with rfl | hk
    · exact Or.inl (List.append_nil dir)
    · exact within_append hk dir
  have hout := h.not_within (hwithin tmpDir)
  show (if Within user (user ++ k) then _ else _) = _
  rw [if_pos (hwithin user), List.drop_left]
  exact if_neg hout

theorem exchange_staging (h : vol.Ready files user) {p : Bytes} (hp : Within tmpDir p) :
    exchange user t p = none := by
  show (if Within user p then _ else _) = _
  rw [if_neg (h.not_within hp)]
  exact if_pos hp

theorem exchange_elsewhere {p : Bytes} (huser : ¬Within user p) (hstaging : ¬Within tmpDir p) :
    exchange user t p = t p := by
  show (if Within user p then _ else (if Within tmpDir p then _ else (if Within user p then _ else _))) = _
  rw [if_neg huser, if_neg hstaging, if_neg huser]

/-- What the entries come to once the directories are exchanged. -/
theorem Ready.restored (h : vol.Ready files user) {base : Inodes} (hes : ServerOrder es)
    (hbase : ∀ p, p ≠ folderOf tmpDir → base p = files p) :
    Restored files (exchange user (overlay base (vol.staged es))) user es where
  shows k hk x := by
    rw [exchange_user h (Or.inr hk), overlay_staged (within_append hk tmpDir),
      vol.staged_content hes]
    constructor
    · rintro (⟨heq, -⟩ | ⟨e, he, heq, rfl⟩)
      · rw [List.append_right_eq_self.mp heq] at hk
        cases hk
      · exact ⟨e, he, (List.append_cancel_left heq).symm, rfl⟩
    · rintro ⟨e, he, rfl, rfl⟩
      exact Or.inr ⟨e, he, rfl, rfl⟩
  root := by
    have hroot := exchange_user (t := overlay base (vol.staged es)) h (Or.inl rfl)
    rw [List.append_nil, List.append_nil, overlay_staged (Or.inl rfl), vol.staged_tmpDir] at hroot
    exact ⟨_, _, hroot⟩
  cleared p hp := exchange_staging h hp
  elsewhere p huser hstaging hp := by
    rw [exchange_elsewhere huser hstaging, overlay, if_neg hstaging, hbase p hp]

/-- A restore whose entries are understood comes to its end on a volume that is ready for it. -/
theorem Ready.actionRestore {v : Locals} {pathNumber n : ℤ} {date : Bytes}
    {s s₁ : Session (Restoring Inodes)} (h : vol.Ready s.world.files user) (hes : ServerOrder es)
    (hadmits : vol.Admits es)
    (hcount : recvInt intMaxNDigit pathNumber { s with world :=
      { s.world with sent := s.world.sent ++ [dateBlock date] } } = (.returns n, s₁))
    (hfiles : s₁.world.files = s.world.files)
    (hunderstood : Understands n.toNat v { s₁ with world :=
      { s₁.world with received := s₁.world.received ++ [Received.count n] } } es) :
    ∃ s', Client.actionRestore vol.ops v pathNumber date user s = (.returns (), s') ∧
      Restored s.world.files s'.world.files user es := by
  obtain ⟨base, hcreated, hbase⟩ := h.created
  have hcreate : vol.ops.createDirectory tmpDir s₁.world.files =
      (true, overlay base vol.emptyStaging) := by
    show answer _ (vol.createDirectory tmpDir s₁.world.files) = _
    rw [hfiles, hcreated]
    rfl
  have hreplay : replay vol.ops es (overlay base vol.emptyStaging) =
      some (overlay base (vol.staged es)) := by
    rw [local_replay vol hes.absolute base, (vol.replay_staged hes).1 hadmits]
    rfl
  obtain ⟨s₃, hentries, hstaged⟩ := (hunderstood.returns_iff vol.ops).mpr hreplay
  have hrestored := h.restored hes hbase
  rw [← hstaged] at hrestored
  refine ⟨withFiles s₃ (exchange user s₃.world.files), ?_, hrestored⟩
  have hinto : restoreInto vol.ops v pathNumber date user s =
      (.returns (), withFiles s₃ (exchange user s₃.world.files)) := by
    rw [restoreInto, bind_of_returns (write_apply _ _), bind_of_returns hcount,
      bind_of_returns (note_apply _ _), bind_apply, require_apply]
    dsimp only
    rw [hcreate]
    dsimp only
    rw [if_pos rfl]
    exact (bind_of_returns hentries _).trans rfl
  unfold Client.actionRestore Prog.tryCatch
  rw [hinto]

end Restore
end Volume
end BackupManager.Client
