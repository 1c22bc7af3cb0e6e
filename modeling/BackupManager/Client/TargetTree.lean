import BackupManager.Client.StagedEntries

/-! The directory of the user after a restore that throws: when it is as it was. -/
namespace BackupManager.Client
open ByteStream Protocol FileTree Prog Host

section Target

variable {h : Host} {v : Locals} {pathNumber : ℤ} {date userPath : Bytes} {user : Location}
  {s s₁ : Session (Restoring FileSystem)}

/-- `command_restore` accepts the path of a directory that exists. -/
def Accepted (h : Host) (fs : FileSystem) (userPath : Bytes) (user : Location) : Prop :=
  h.locate fs userPath = some user ∧ IsDirectory fs.tree user

/-- A restore that throws leaves everything at and below the path as it was. -/
def AllOrNothing (h : Host) (v : Locals) (pathNumber : ℤ) (date userPath : Bytes) (user : Location)
    (s : Session (Restoring FileSystem)) : Prop :=
  ∀ what s', actionRestore h.ops v pathNumber date userPath s = (.throws what, s') →
    ∀ x, user <+: x → s'.world.files.tree x = s.world.files.tree x

/-- The staging directory can be made, and the entries staged in it. -/
structure CanStageAll (h : Host) (fs : FileSystem) (es : List Entry) : Prop where
  works : h.fails .createDirectory (fs.calls .createDirectory) = false
  free : kinds fs.tree h.staging ≠ some (.file ())
  entries : h.Stageable
    ⟨Function.update (kinds fs.tree) h.staging (some (.directory ())),
      Function.update fs.calls .createDirectory (fs.calls .createDirectory + 1)⟩ es

/-- A `remove_all` that fails takes away something outside the staging directory. -/
def Takes (h : Host) (fs : FileSystem) (userPath : Bytes) (user : Location) : Prop :=
  ∃ x, user <+: x ∧ x ≠ user ∧ h.left userPath x = false ∧ ¬h.staging <+: x ∧ fs.tree x ≠ none

/-- The rename can follow the removal. -/
structure CanFollow (h : Host) (fs : FileSystem) (userPath : Bytes) (user : Location) : Prop where
  works : h.renameFails = false
  sameDevice : h.device h.staging = h.device user.dropLast
  keepsStaging : ¬user <+: h.staging
  locates : h.locate { fs with tree := prune fs.tree user } userPath = some user

/-- The directory can be replaced, or `remove_all` fails before it has done any harm. -/
def Replaces (h : Host) (fs : FileSystem) (userPath : Bytes) (user : Location) : Prop :=
  (h.Removes userPath user → CanFollow h fs userPath user) ∧
    (¬h.Removes userPath user → ¬Takes h fs userPath user)

/-- No path that the stream brings leads into the user's directory, but for the staging directory. -/
def Confined (h : Host) (v : Locals) (pathNumber : ℤ) (user : Location)
    (s : Session (Restoring FileSystem)) : Prop :=
  ∀ path ∈ begun v pathNumber s, user <+: h.target (tmpDir ++ path) →
    h.staging <+: h.target (tmpDir ++ path)

/-- When a restore is safe for the directory of the user. -/
structure Safe (h : Host) (v : Locals) (pathNumber : ℤ) (userPath : Bytes) (user : Location)
    (s : Session (Restoring FileSystem)) : Prop where
  outside : ¬h.staging <+: user
  above : user <+: h.staging → h.Removes tmpDir h.staging ∧
    ∀ x, h.staging <+: x → s.world.files.tree x = none
  confined : Confined h v pathNumber user s
  replaces : ∀ es, Brings v pathNumber s es → CanStageAll h s.world.files es →
    Replaces h s.world.files userPath user

/-- Where the staging may change something: at the staging directory and where the paths lead. -/
def Touches (h : Host) (v : Locals) (pathNumber : ℤ) (s : Session (Restoring FileSystem))
    (x : Location) : Prop :=
  x = h.staging ∨ ∃ path ∈ begun v pathNumber s, x = h.target (tmpDir ++ path)

/-- What the staging phase has not done. -/
theorem edited_stage {o : Outcome Unit} (hstage : stage h.ops v pathNumber date s = (o, s₁)) :
    Edited (Touches h v pathNumber s) s.world.files s₁.world.files := by
  have : Std.Refl (Edited (Touches h v pathNumber s)) := ⟨.refl⟩
  have : IsTrans FileSystem (Edited (Touches h v pathNumber s)) := ⟨fun _ _ _ => .trans⟩
  have hedited : OnFiles (Edited (Touches h v pathNumber s)) s.world
      (stage h.ops v pathNumber date s).2.world :=
    onFiles_stage (h.respects (Or.inl target_tmpDir)) fun path hpath =>
      h.respects (Or.inr ⟨path, hpath, rfl⟩)
  rwa [hstage] at hedited

/-- The directory for what arrives. -/
theorem createDirectory_staging {fs fs' : FileSystem}
    (hrun : h.ops.createDirectory tmpDir fs = (true, fs')) :
    fs'.standing = ⟨Function.update (kinds fs.tree) h.staging (some (.directory ())),
      Function.update fs.calls .createDirectory (fs.calls .createDirectory + 1)⟩ := by
  obtain ⟨-, -, node, hnode, rfl⟩ := edit_eq_true.mp hrun
  have hdir := createDirectory_isDirectory node hnode
  rw [target_tmpDir]
  cases node with
  | file data => exact hdir.elim
  | directory permissions =>
    show Standing.mk (kinds (Function.update fs.tree h.staging _)) _ = _
    rw [kinds_update]
    rfl

theorem exists_createDirectory {fs : FileSystem} (hparent : IsDirectory fs.tree h.cwd.dropLast) :
    (∃ fs', h.ops.createDirectory tmpDir fs = (true, fs')) ↔
      h.fails .createDirectory (fs.calls .createDirectory) = false ∧
      kinds fs.tree h.staging ≠ some (.file ()) := by
  have hlocate : h.locate fs tmpDir = some h.staging := by rw [locate_tmpDir, if_pos hparent]
  have hnode : (∃ node, h.createDirectory (fs.tree h.staging) = some node) ↔
      kinds fs.tree h.staging ≠ some (.file ()) := by
    unfold kinds
    cases fs.tree h.staging with
    | none => simp [Host.createDirectory]
    | some n => cases n <;> simp [Host.createDirectory, Node.kind]
  rw [← hnode]
  constructor
  · intro hsome
    obtain ⟨fs', hrun⟩ := hsome
    obtain ⟨hfails, -, node, hnode, -⟩ := edit_eq_true.mp hrun
    rw [target_tmpDir] at hnode
    exact ⟨hfails, node, hnode⟩
  · intro hboth
    obtain ⟨hfails, node, hnode⟩ := hboth
    refine ⟨_, edit_eq_true.mpr ⟨hfails, ?_, node, ?_, rfl⟩⟩
    · rw [target_tmpDir, hlocate]
    · rw [target_tmpDir, hnode]

/-- The staging comes to its end when the stream brings entries that can be staged. -/
theorem exists_stage (hparent : IsDirectory s.world.files.tree h.cwd.dropLast) :
    (∃ s₁, stage h.ops v pathNumber date s = (.returns (), s₁)) ↔
      ∃ es, Brings v pathNumber s es ∧ CanStageAll h s.world.files es := by
  constructor
  · intro hsome
    obtain ⟨s₁, hrun⟩ := hsome
    obtain ⟨n, s₂, es, files, hcount, hcreate, ⟨s₃, hread⟩, hreplay, -⟩ := stage_returned hrun
    obtain ⟨hfails, hfree⟩ := (exists_createDirectory hparent).mp ⟨files, hcreate⟩
    refine ⟨es, ⟨n, s₂, s₃, hcount, hread⟩, hfails, hfree, ?_⟩
    rw [← createDirectory_staging hcreate]
    exact exists_replay.mp ⟨_, hreplay⟩
  · intro hsome
    obtain ⟨es, ⟨n, s₂, s₃, hcount, hread⟩, hcan⟩ := hsome
    obtain ⟨files, hcreate⟩ := (exists_createDirectory hparent).mpr ⟨hcan.works, hcan.free⟩
    have hentries := hcan.entries
    rw [← createDirectory_staging hcreate] at hentries
    obtain ⟨files', hreplay⟩ := exists_replay.mpr hentries
    exact returns_stage date hcount hcreate ⟨s₃, hread⟩ hreplay

/-- Once all is staged the staging directory is there. -/
theorem staged_directory (hstage : stage h.ops v pathNumber date s = (.returns (), s₁)) :
    IsDirectory s₁.world.files.tree h.staging := by
  obtain ⟨n, s₂, es, files, -, hcreate, -, hreplay, -⟩ := stage_returned hstage
  have hthere : IsDirectory files.standing.kinds h.staging := by
    rw [createDirectory_staging hcreate]
    exact ⟨.directory (), Function.update_self _ _ _, trivial⟩
  rw [FileSystem.standing, isDirectory_kinds] at hthere
  exact isDirectory_replay hreplay hthere

section Outcomes

variable {f : FileSystem} {what : String}

theorem cleanUp_throws (s : Session (Restoring FileSystem)) :
    ∃ what s', cleanUp h.ops s = (.throws what, s') ∧
      s'.world.files = (h.removeAll tmpDir s.world.files).2 := by
  obtain ⟨what, hwhat⟩ := cleanUp_apply h.ops s
  exact ⟨what, _, hwhat, rfl⟩

theorem rename_failed {source target : Bytes} (hok : (h.rename source target f).1 = false) :
    (h.rename source target f).2 = f := by
  unfold Host.rename at hok ⊢
  split at hok
  · next a b ha hb =>
    split at hok
    · exact absurd hok (by simp)
    · next hno => rw [if_neg hno]
  · rfl

/-- The three ways in which a restore throws, and what the `catch` block finds. -/
def Found (h : Host) (v : Locals) (pathNumber : ℤ) (date userPath : Bytes)
    (s : Session (Restoring FileSystem)) (f : FileSystem) : Prop :=
  (∃ what s₁, stage h.ops v pathNumber date s = (.throws what, s₁) ∧ f = s₁.world.files) ∨
    ∃ s₁, stage h.ops v pathNumber date s = (.returns (), s₁) ∧
      (h.removeAll userPath s₁.world.files = (false, f) ∨
        h.removeAll userPath s₁.world.files = (true, f) ∧ (h.rename tmpDir userPath f).1 = false)

theorem actionRestore_of_found (hfound : Found h v pathNumber date userPath s f) :
    ∃ what s', actionRestore h.ops v pathNumber date userPath s = (.throws what, s') ∧
      s'.world.files = (h.removeAll tmpDir f).2 := by
  rcases hfound with ⟨what, s₁, hstage, rfl⟩ | ⟨s₁, hstage, hreplace⟩
  · rw [actionRestore_thrown hstage]
    exact cleanUp_throws s₁
  · rw [actionRestore_staged hstage]
    unfold Prog.tryCatch
    rw [replace_apply]
    rcases hreplace with hremove | ⟨hremove, hrename⟩
    · rw [show h.ops.removeAll = h.removeAll from rfl, hremove]
      exact cleanUp_throws _
    · rw [show h.ops.removeAll = h.removeAll from rfl, hremove, if_pos rfl, require_apply,
        show h.ops.rename = h.rename from rfl]
      dsimp only
      rw [hrename, rename_failed hrename]
      exact cleanUp_throws _

theorem found_of_throws {s' : Session (Restoring FileSystem)}
    (hrun : actionRestore h.ops v pathNumber date userPath s = (.throws what, s')) :
    ∃ f, Found h v pathNumber date userPath s f ∧
      s'.world.files = (h.removeAll tmpDir f).2 := by
  suffices hfound : ∃ f, Found h v pathNumber date userPath s f by
    obtain ⟨f, hf⟩ := hfound
    obtain ⟨what', s'', hrun', hfiles⟩ := actionRestore_of_found hf
    rw [hrun] at hrun'
    rw [(Prod.mk.inj hrun').2]
    exact ⟨f, hf, hfiles⟩
  cases hstage : stage h.ops v pathNumber date s with
  | mk o s₁ =>
    cases o with
    | throws what => exact ⟨s₁.world.files, Or.inl ⟨what, s₁, hstage, rfl⟩⟩
    | waits =>
      exfalso
      unfold actionRestore Prog.tryCatch at hrun
      rw [restoreInto_eq, bind_of_waits hstage] at hrun
      exact absurd hrun (by simp)
    | returns u =>
      cases hremove : h.removeAll userPath s₁.world.files with
      | mk removed f =>
        refine ⟨f, Or.inr ⟨s₁, hstage, ?_⟩⟩
        cases removed with
        | false => exact Or.inl hremove
        | true =>
          refine Or.inr ⟨hremove, ?_⟩
          by_contra hrename
          rw [actionRestore_staged hstage] at hrun
          unfold Prog.tryCatch at hrun
          rw [replace_apply, show h.ops.removeAll = h.removeAll from rfl, hremove, if_pos rfl,
            require_apply, show h.ops.rename = h.rename from rfl] at hrun
          dsimp only at hrun
          rw [Bool.not_eq_false] at hrename
          rw [hrename] at hrun
          exact absurd hrun (by simp)

end Outcomes

section Removal

variable {f : FileSystem} {x : Location}

theorem not_prefix_cwd (hkeeps : ¬user <+: h.staging) : ¬user <+: h.cwd.dropLast :=
  fun hp => hkeeps (hp.trans (List.prefix_append _ _))

/-- The clean-up removes the whole staging directory where it can be removed. -/
theorem cleaned (hparent : IsDirectory f.tree h.cwd.dropLast) (hremoves : h.Removes tmpDir h.staging)
    (hx : h.staging <+: x) : (h.removeAll tmpDir f).2.tree x = none := by
  have hlocate : h.locate f tmpDir = some h.staging := by rw [locate_tmpDir, if_pos hparent]
  rw [removeAll_of_removes hlocate hremoves]
  exact prune_inside hx

/-- The clean-up leaves the rest. -/
theorem cleaned_outside (hx : ¬h.staging <+: x) :
    (h.removeAll tmpDir f).2.tree x = f.tree x := by
  apply removeAll_of_not_prefix
  intro l hl
  rwa [eq_staging hl]

section Staged

variable (haccepted : Accepted h s.world.files userPath user)
  (hstage : stage h.ops v pathNumber date s = (.returns (), s₁))

include haccepted hstage

theorem staged_accepted : h.locate s₁.world.files userPath = some user ∧
    IsDirectory s₁.world.files.tree user := by
  have hedited := edited_stage hstage
  exact ⟨locate_mono hedited.directories haccepted.1, hedited.directories _ haccepted.2⟩

/-- What the removal of the directory leaves of its path was fixed before anything was staged. -/
theorem locate_pruned :
    h.locate { s₁.world.files with tree := prune s₁.world.files.tree user } userPath =
      h.locate { s.world.files with tree := prune s.world.files.tree user } userPath := by
  have hedited := edited_stage hstage
  have hlocate := locate_eq_some.mp haccepted.1
  unfold locate
  rw [if_neg hlocate.1, if_neg hlocate.1]
  exact resolve_prune hedited.directories hlocate.2

/-- When the rename follows the removal. -/
theorem rename_iff (hparent : IsDirectory s₁.world.files.tree h.cwd.dropLast) :
    (h.rename tmpDir userPath
        { s₁.world.files with tree := prune s₁.world.files.tree user }).1 = true ↔
      CanFollow h s.world.files userPath user ∧ ¬h.staging <+: user := by
  have hlocated := (staged_accepted haccepted hstage).1
  have hpruned := locate_pruned haccepted hstage
  constructor
  · intro hok
    unfold Host.rename at hok
    split at hok
    · next a b ha hb =>
      split at hok
      · next hcan =>
        obtain ⟨hworks, hdir, -, hbelow, hdevice⟩ := hcan
        have hb' : h.locate s₁.world.files userPath = some b :=
          locate_mono (fun x hx => (isDirectory_prune.mp hx).2) hb
        rw [hlocated, Option.some.injEq] at hb'
        subst hb'
        rw [eq_staging ha] at hdir hbelow hdevice
        rw [hpruned] at hb
        exact ⟨⟨hworks, hdevice, (isDirectory_prune.mp hdir).1, hb⟩, hbelow⟩
      · exact absurd hok (by simp)
    · exact absurd hok (by simp)
  · rintro ⟨hfollow, hbelow⟩
    have hcwd : IsDirectory (prune s₁.world.files.tree user) h.cwd.dropLast :=
      isDirectory_prune.mpr ⟨not_prefix_cwd hfollow.keepsStaging, hparent⟩
    have hsource : IsDirectory (prune s₁.world.files.tree user) h.staging :=
      isDirectory_prune.mpr ⟨hfollow.keepsStaging, staged_directory hstage⟩
    have hfree : (prune s₁.world.files.tree user user).isNone :=
      Option.isNone_iff_eq_none.mpr (prune_inside (List.prefix_refl _))
    unfold Host.rename
    rw [locate_tmpDir, if_pos hcwd, hpruned, hfollow.locates]
    dsimp only
    rw [if_pos ⟨hfollow.works, hsource, hfree, hbelow, hfollow.sameDevice⟩]

end Staged

section Keeps

variable (haccepted : Accepted h s.world.files userPath user)

include haccepted

/-- Up to the clean-up a safe restore has changed nothing of the directory outside the staging
directory. -/
theorem Safe.found (hparent : IsDirectory s.world.files.tree h.cwd.dropLast)
    (hsafe : Safe h v pathNumber userPath user s)
    (hfound : Found h v pathNumber date userPath s f) (hx : user <+: x) (hout : ¬h.staging <+: x) :
    f.tree x = s.world.files.tree x := by
  have htouched : ¬Touches h v pathNumber s x := by
    rintro (rfl | ⟨path, hpath, rfl⟩)
    · exact hout (List.prefix_refl _)
    · exact hout (hsafe.confined path hpath hx)
  rcases hfound with ⟨what, s₁, hstage, rfl⟩ | ⟨s₁, hstage, hreplace⟩
  · exact (edited_stage hstage).elsewhere x htouched
  · have hedited := edited_stage hstage
    have hstaged := hedited.elsewhere x htouched
    obtain ⟨hlocate, hdir⟩ := staged_accepted haccepted hstage
    obtain ⟨es, hbrings, hcan⟩ := (exists_stage hparent).mp ⟨s₁, hstage⟩
    have hreplaces := hsafe.replaces es hbrings hcan
    by_cases hremoves : h.Removes userPath user
    · -- the rename follows, and nothing is found
      exfalso
      rw [removeAll_of_removes hlocate hremoves] at hreplace
      rcases hreplace with hfails | ⟨hremoved, hrename⟩
      · exact absurd hfails (by simp)
      · have hok := (rename_iff haccepted hstage (hedited.directories _ hparent)).mpr
          ⟨hreplaces.1 hremoves, hsafe.outside⟩
        rw [(Prod.mk.inj hremoved).2, hrename] at hok
        exact absurd hok (by simp)
    · rw [removeAll_of_not_removes hlocate hdir.ne_none hremoves] at hreplace
      rcases hreplace with hremoved | ⟨hremoved, -⟩
      · rw [← (Prod.mk.inj hremoved).2]
        show prunePart s₁.world.files.tree user (h.left userPath) x = s.world.files.tree x
        unfold prunePart
        split
        · next htaken =>
          by_contra hsome
          exact hreplaces.2 hremoves ⟨x, hx, htaken.2.1, htaken.2.2, hout, fun hnone => hsome hnone.symm⟩
        · exact hstaged
      · exact absurd hremoved (by simp)

theorem Safe.allOrNothing (hparent : IsDirectory s.world.files.tree h.cwd.dropLast)
    (hsafe : Safe h v pathNumber userPath user s) :
    AllOrNothing h v pathNumber date userPath user s := by
  intro what s' hrun x hx
  obtain ⟨f, hfound, hfiles⟩ := found_of_throws hrun
  rw [hfiles]
  by_cases hin : h.staging <+: x
  · -- the staging directory is below the user's directory and was not there before
    have habove : user <+: h.staging :=
      (List.prefix_or_prefix_of_prefix hx hin).resolve_right hsafe.outside
    obtain ⟨hremoves, hnone⟩ := hsafe.above habove
    have hcwd : IsDirectory f.tree h.cwd.dropLast := by
      have huser : user <+: h.cwd.dropLast := by
        refine (List.prefix_concat_iff.mp habove).resolve_left fun heq => hsafe.outside ?_
        rw [heq]
        exact List.prefix_refl _
      unfold IsDirectory
      rw [hsafe.found haccepted hparent hfound huser not_prefix_parent]
      exact hparent
    rw [cleaned hcwd hremoves hin, hnone x hin]
  · rw [cleaned_outside hin]
    exact hsafe.found haccepted hparent hfound hx hin

end Keeps

section Necessary

/-- What the catch block cannot bring back. -/
theorem AllOrNothing.ne_none {f : FileSystem} {x : Location}
    (hall : AllOrNothing h v pathNumber date userPath user s)
    (hfound : Found h v pathNumber date userPath s f) (hx : user <+: x)
    (hsome : s.world.files.tree x ≠ none) : (h.removeAll tmpDir f).2.tree x ≠ none := by
  obtain ⟨what, s', hrun, hfiles⟩ := actionRestore_of_found hfound
  rw [← hfiles, hall what s' hrun x hx]
  exact hsome

variable (haccepted : Accepted h s.world.files userPath user)

include haccepted

/-- Where the rename can never follow, every restore throws. -/
theorem exists_found (hclosed : s.closed = true)
    (hparent : IsDirectory s.world.files.tree h.cwd.dropLast)
    (hnever : user <+: h.staging ∨ h.staging <+: user) :
    ∃ f, Found h v pathNumber date userPath s f := by
  cases hstage : stage h.ops v pathNumber date s with
  | mk o s₁ =>
    cases o with
    | throws what => exact ⟨s₁.world.files, Or.inl ⟨what, s₁, hstage, rfl⟩⟩
    | waits =>
      have hhalts := (halts_stage h.ops v pathNumber date s hclosed).2
      rw [hstage] at hhalts
      exact absurd rfl hhalts
    | returns u =>
      have hedited := edited_stage hstage
      obtain ⟨hlocate, hdir⟩ := staged_accepted haccepted hstage
      by_cases hremoves : h.Removes userPath user
      · refine ⟨_, Or.inr ⟨s₁, hstage, Or.inr ⟨removeAll_of_removes hlocate hremoves, ?_⟩⟩⟩
        rw [Bool.eq_false_iff]
        intro hok
        obtain ⟨hfollow, hbelow⟩ := (rename_iff haccepted hstage (hedited.directories _ hparent)).mp hok
        exact hnever.elim hfollow.keepsStaging hbelow
      · have hremoved := removeAll_of_not_removes hlocate hdir.ne_none hremoves
        exact ⟨_, Or.inr ⟨s₁, hstage, Or.inl hremoved⟩⟩

/-- Nothing but the user's directory can have lost anything. -/
theorem Found.outside {f : FileSystem} {x : Location}
    (hfound : Found h v pathNumber date userPath s f) (hx : ¬user <+: x)
    (hdir : IsDirectory s.world.files.tree x) : IsDirectory f.tree x := by
  rcases hfound with ⟨what, s₁, hstage, rfl⟩ | ⟨s₁, hstage, hreplace⟩
  · exact (edited_stage hstage).directories x hdir
  · have hedited := edited_stage hstage
    have hlocate := (staged_accepted haccepted hstage).1
    have hkept : (h.removeAll userPath s₁.world.files).2.tree x = s₁.world.files.tree x := by
      apply removeAll_of_not_prefix
      intro l hl
      rw [hlocate, Option.some.injEq] at hl
      rwa [← hl]
    have hf : (h.removeAll userPath s₁.world.files).2 = f := by
      rcases hreplace with hremoved | ⟨hremoved, -⟩ <;> rw [hremoved]
    unfold IsDirectory
    rw [← hf, hkept]
    exact hedited.directories x hdir

theorem AllOrNothing.safe (hclosed : s.closed = true)
    (hparent : IsDirectory s.world.files.tree h.cwd.dropLast)
    (hclean : user <+: h.staging ∨ h.staging <+: user → h.Removes tmpDir h.staging)
    (hconfined : Confined h v pathNumber user s)
    (hall : AllOrNothing h v pathNumber date userPath user s) :
    Safe h v pathNumber userPath user s := by
  have huser : s.world.files.tree user ≠ none := haccepted.2.ne_none
  constructor
  case outside =>
    intro hbelow
    obtain ⟨f, hfound⟩ : ∃ f, Found h v pathNumber date userPath s f :=
      exists_found haccepted hclosed hparent (Or.inr hbelow)
    have hcwd : IsDirectory f.tree h.cwd.dropLast :=
      hfound.outside haccepted (fun hp => not_prefix_parent (hbelow.trans hp)) hparent
    exact hall.ne_none hfound (List.prefix_refl _) huser
      (cleaned hcwd (hclean (Or.inr hbelow)) hbelow)
  case above =>
    intro habove
    obtain ⟨f, hfound⟩ : ∃ f, Found h v pathNumber date userPath s f :=
      exists_found haccepted hclosed hparent (Or.inl habove)
    obtain ⟨what, s', hrun, hfiles⟩ := actionRestore_of_found hfound
    have hcwd : IsDirectory f.tree h.cwd.dropLast := by
      by_cases hin : user <+: h.cwd.dropLast
      · have hkept := hall what s' hrun _ hin
        rw [hfiles, cleaned_outside not_prefix_parent] at hkept
        unfold IsDirectory
        rw [hkept]
        exact hparent
      · exact hfound.outside haccepted hin hparent
    refine ⟨hclean (Or.inl habove), fun x hx => ?_⟩
    rw [← hall what s' hrun x (habove.trans hx), hfiles]
    exact cleaned hcwd (hclean (Or.inl habove)) hx
  case confined => exact hconfined
  case replaces =>
    intro es hbrings hcan
    obtain ⟨s₁, hstage⟩ : ∃ s₁, stage h.ops v pathNumber date s = (.returns (), s₁) :=
      (exists_stage hparent).mpr ⟨es, hbrings, hcan⟩
    have hedited := edited_stage hstage
    obtain ⟨hlocate, hdir⟩ := staged_accepted haccepted hstage
    constructor
    · intro hremoves
      have hremoved := removeAll_of_removes hlocate hremoves
      by_contra hno
      have hrename : (h.rename tmpDir userPath
          { s₁.world.files with tree := prune s₁.world.files.tree user }).1 = false := by
        rw [Bool.eq_false_iff]
        exact fun hok => hno ((rename_iff haccepted hstage (hedited.directories _ hparent)).mp hok).1
      have hfound : Found h v pathNumber date userPath s _ :=
        Or.inr ⟨s₁, hstage, Or.inr ⟨hremoved, hrename⟩⟩
      apply hall.ne_none hfound (List.prefix_refl _) huser
      exact removeAll_of_none (prune_inside (List.prefix_refl _))
    · rintro hremoves ⟨x, hx, hne, hleft, -, hsome⟩
      have hremoved := removeAll_of_not_removes hlocate hdir.ne_none hremoves
      have hfound : Found h v pathNumber date userPath s _ :=
        Or.inr ⟨s₁, hstage, Or.inl hremoved⟩
      apply hall.ne_none hfound hx hsome
      exact removeAll_of_none (if_pos ⟨hx, hne, hleft⟩)

end Necessary
end Removal

section Samples

/-- A client in `/c` and the directory `/m/u` of its user, which holds one file. -/
def sampleTree : HostTree := fun x =>
  if x ∈ [[], [[99]], [[109]], [[109], [117]]] then some (.directory 493)
  else if x = [[109], [117], [102]] then some (.file ⟨[1], 5, 420⟩) else none

/-- Everything works there, and `/m` is a device of its own when its number is not 0. A stream has a buffer
of 8191 bytes and passes chunks from 1024 bytes on. -/
def sampleHost (mounted : ℕ) : Host where
  cwd := [[99]]
  device l := if [[109]] <+: l then mounted else 0
  now := 7
  filePermissions := 420
  directoryPermissions := 493
  keeps waiting size := size < min 1024 (8191 - waiting)
  fails _ _ := false
  reaches _ _ := 0
  removal _ := none
  renameFails := false

/-- The server sends an empty restore. -/
def sampleSession : Session (Restoring FileSystem) :=
  ⟨field intMaxNDigit 0, true, .fresh [], ⟨[], ⟨sampleTree, fun _ => 0, []⟩, []⟩⟩

def sampleLocals : Locals := ⟨0, 0, 0, [], 0, 0⟩

def sampleUser : Bytes := [47, 109, 47, 117]

/-- The server sends the folder `/a` and breaks off in the next entry. -/
def cutSession : Session (Restoring FileSystem) :=
  { sampleSession with
    wire := field intMaxNDigit 2 ++ (field intMaxNDigit 2 ++ [slash, 97, newline] ++
      field intMaxNDigit 5 ++ field intMaxNDigit 493 ++ field intMaxNDigit 1) ++
      (field intMaxNDigit 4 ++ [slash, 97, slash, 98, newline]) }

end Samples
end Target
end BackupManager.Client
