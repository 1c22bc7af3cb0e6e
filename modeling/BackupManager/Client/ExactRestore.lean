import BackupManager.Client.StagedEntries
import BackupManager.Client.TargetTree

/-! The directory of the user after a restore that returns: whether it shows what was received. -/
namespace BackupManager.Client
open ByteStream Protocol FileTree Prog Host

/-- Entries with different paths below the restored directory, each with its parent. -/
structure ParentClosed (entries : List Entry) : Prop where
  named : ∀ e ∈ entries, e.Named
  distinct : (entries.map Entry.location).Nodup
  parents : ∀ e ∈ entries, e.location.dropLast = [] ∨
    ∃ p ∈ entries, p.location = e.location.dropLast ∧ p.isDirectory = 1

/-- The paths below the directory, their kinds and their contents are those of the entries. -/
def Exact (t : HostTree) (user : Location) (entries : List Entry) : Prop :=
  IsDirectory t user ∧ ∀ y, y ≠ [] → ∀ c,
    listing t (user ++ y) = some c ↔ ∃ e ∈ entries, e.location = y ∧ e.shown = c

/-- What waits in the buffer when a file is closed reaches it; `n` is the number of the call. -/
def Flushed (h : Host) (n : ℕ) (content : Bytes) : Prop :=
  h.fails .close n = true → (h.waiting content).length ≤ h.reaches .close n

/-- Every received file can be opened where it is staged and is written to its end, or it cannot and
stands there already with its content; the numbers count the files opened and closed before. -/
def Overwritten (h : Host) (t : HostTree) : ℕ → ℕ → List Entry → Prop
  | _, _, [] => True
  | opened, closed, e :: es =>
    if e.isDirectory = 1 then Overwritten h t opened closed es
    else if h.fails .openFile opened = false ∧ ¬IsDirectory t (h.staging ++ e.location) then
      Flushed h closed e.content ∧
        Overwritten h t (opened + 1) (if h.waiting e.content = [] then closed else closed + 1) es
    else listing t (h.staging ++ e.location) = some e.shown ∧ Overwritten h t (opened + 1) closed es

instance (h : Host) (n : ℕ) (content : Bytes) : Decidable (Flushed h n content) :=
  inferInstanceAs (Decidable (_ → _))

instance Overwritten.decidable (h : Host) (t : HostTree) :
    ∀ opened closed es, Decidable (Overwritten h t opened closed es)
  | _, _, [] => .isTrue trivial
  | opened, closed, e :: es =>
    haveI := decidable h t opened closed es
    haveI := decidable h t (opened + 1) closed es
    haveI := decidable h t (opened + 1) (if h.waiting e.content = [] then closed else closed + 1) es
    inferInstanceAs (Decidable (ite _ _ _))

section Entries

variable {h : Host} {es : List Entry} {fs fs' : FileSystem} {t t' : HostTree}

theorem overwritten_cons {e : Entry} {opened closed : ℕ} :
    Overwritten h t opened closed (e :: es) ↔
      if e.isDirectory = 1 then Overwritten h t opened closed es
      else if h.fails .openFile opened = false ∧ ¬IsDirectory t (h.staging ++ e.location) then
        Flushed h closed e.content ∧
          Overwritten h t (opened + 1) (if h.waiting e.content = [] then closed else closed + 1) es
      else listing t (h.staging ++ e.location) = some e.shown ∧
        Overwritten h t (opened + 1) closed es :=
  Iff.rfl

theorem isDirectory_iff_listing {x : Location} : IsDirectory t x ↔ listing t x = some none := by
  unfold IsDirectory listing
  cases t x with
  | none => simp
  | some n => cases n <;> simp [Node.IsDirectory, Host.shown]

theorem overwritten_congr {opened closed : ℕ} (hsame : ∀ e ∈ es,
      listing t (h.staging ++ e.location) = listing t' (h.staging ++ e.location)) :
    Overwritten h t opened closed es ↔ Overwritten h t' opened closed es := by
  induction es generalizing opened closed with
  | nil => rfl
  | cons e es ih =>
    have hhead := hsame e List.mem_cons_self
    have htail : ∀ opened closed,
        Overwritten h t opened closed es ↔ Overwritten h t' opened closed es :=
      fun _ _ => ih fun e he => hsame e (List.mem_cons_of_mem _ he)
    simp only [overwritten_cons, isDirectory_iff_listing, hhead, htail]

/-- A file has its content exactly when what waits reaches it. -/
theorem stored_eq_iff {n : ℕ} {content : Bytes} :
    h.stored n content = content ↔ Flushed h n content := by
  have hwhole : OutputBuffer.through h.keeps [] (pieces maxMsgSize content) ++ h.waiting content =
      content := by
    unfold Host.waiting
    rw [OutputBuffer.through_append_waiting, List.nil_append,
      flatten_pieces maxMsgSize_pos content]
  have hcancel : h.stored n content = content ↔
      h.reached .close n (h.waiting content) = h.waiting content := by
    unfold Host.stored
    constructor
    · exact fun hall => List.append_cancel_left (hall.trans hwhole.symm)
    · intro hreached
      rw [hreached]
      exact hwhole
  rw [hcancel]
  unfold Host.reached Flushed
  by_cases hfails : h.fails .close n = true
  · rw [if_pos hfails, List.take_eq_self_iff]
    exact ⟨fun hle _ => hle, fun hle => hle hfails⟩
  · rw [if_neg hfails]
    exact iff_of_true rfl fun hcontra => absurd hcontra hfails

/-- Entries leave what has another name. -/
theorem replay_elsewhere (hrun : replay h.ops es fs = some fs') (hnamed : ∀ e ∈ es, e.Named)
    {y : Location} (hy : ∀ e ∈ es, e.location ≠ y) :
    listing fs'.tree (h.staging ++ y) = listing fs.tree (h.staging ++ y) := by
  induction es generalizing fs with
  | nil =>
    rw [replay_nil, Option.some.injEq] at hrun
    rw [hrun]
  | cons e es ih =>
    rw [replay_cons] at hrun
    obtain ⟨fs₁, hentry, hrest⟩ := Option.bind_eq_some_iff.mp hrun
    rw [ih hrest (fun e he => hnamed e (List.mem_cons_of_mem _ he))
      (fun e he => hy e (List.mem_cons_of_mem _ he)), (arrives_replayEntry hentry).listing]
    have hplace := place_named (h := h) (hnamed e List.mem_cons_self)
    have hne : h.staging ++ y ≠ h.place e := by
      rw [hplace]
      exact fun heq => hy e List.mem_cons_self (List.append_cancel_left heq).symm
    unfold Host.listed
    split
    · exact Function.update_of_ne hne _ _
    · split
      · exact Function.update_of_ne hne _ _
      · rfl

/-- When every entry is shown in the end. -/
theorem replay_shown_iff (hrun : replay h.ops es fs = some fs') (hnamed : ∀ e ∈ es, e.Named)
    (hdistinct : (es.map Entry.location).Nodup) :
    (∀ e ∈ es, listing fs'.tree (h.staging ++ e.location) = some e.shown) ↔
      Overwritten h fs.tree (fs.calls .openFile) (fs.calls .close) es := by
  induction es generalizing fs with
  | nil => simp [Overwritten]
  | cons e es ih =>
    rw [replay_cons] at hrun
    obtain ⟨fs₁, hentry, hrest⟩ := Option.bind_eq_some_iff.mp hrun
    have harrives := arrives_replayEntry hentry
    have hnamed' : ∀ e ∈ es, e.Named := fun e he => hnamed e (List.mem_cons_of_mem _ he)
    have hplace := place_named (h := h) (hnamed e List.mem_cons_self)
    rw [List.map_cons, List.nodup_cons] at hdistinct
    have hother : ∀ e' ∈ es, e'.location ≠ e.location := by
      intro e' he' heq
      exact hdistinct.1 (heq ▸ List.mem_map_of_mem he')
    have hlast : listing fs'.tree (h.staging ++ e.location) = h.listed fs e (h.place e) := by
      rw [replay_elsewhere hrest hnamed' hother, harrives.listing, hplace]
    have hbefore : ∀ e' ∈ es, listing fs₁.tree (h.staging ++ e'.location) =
        listing fs.tree (h.staging ++ e'.location) := by
      intro e' he'
      have hone : replay h.ops [e] fs = some fs₁ := by
        rw [replay_cons, hentry]
        rfl
      refine replay_elsewhere hone (fun e'' he'' => ?_) fun e'' he'' heq => ?_
      · exact hnamed e'' (List.mem_singleton.mp he'' ▸ List.mem_cons_self)
      · rw [List.mem_singleton.mp he''] at heq
        exact hother e' he' heq.symm
    have hcalls : ∀ op, fs₁.calls op = fs.calls op + h.callsFor fs.standing e op :=
      fun op => congrArg (fun p => p.calls op) harrives.standing
    have hopens : h.Opens fs.standing e ↔ h.fails .openFile (fs.calls .openFile) = false ∧
        ¬IsDirectory fs.tree (h.staging ++ e.location) := by
      rw [← hplace]
      exact and_congr_right fun _ => not_congr isDirectory_kinds
    rw [List.forall_mem_cons, ih hrest hnamed' hdistinct.2, overwritten_congr hbefore, hcalls,
      hcalls, hlast, overwritten_cons]
    unfold Host.listed Host.callsFor
    by_cases hdir : e.isDirectory = 1
    · simp [hdir, Entry.shown]
    · by_cases hopen : h.Opens fs.standing e
      · rw [if_neg hdir, if_neg hdir, if_pos hopen, if_pos (hopens.mp hopen), Function.update_self]
        by_cases hwaiting : h.waiting e.content = []
        · simp [hdir, hopen, hwaiting, Entry.shown, stored_eq_iff]
        · simp [hdir, hopen, hwaiting, Entry.shown, stored_eq_iff]
      · rw [if_neg hdir, if_neg hdir, if_neg hopen, if_neg fun hboth => hopen (hopens.mpr hboth),
          ← hplace]
        simp [hdir, hopen]

end Entries

section Runs

variable {h : Host} {v : Locals} {pathNumber : ℤ} {date userPath : Bytes} {user : Location}
  {s s₁ s' : Session (Restoring FileSystem)}

/-- The replacement of the directory by a restore that returns. -/
theorem replace_returns (hrun : replace h.ops userPath s₁ = (.returns (), s')) :
    ∃ f, h.removeAll userPath s₁.world.files = (true, f) ∧
      h.rename tmpDir userPath f = (true, s'.world.files) ∧
      s'.world.received = s₁.world.received := by
  unfold replace at hrun
  obtain ⟨_, s₂, hremove, hrun⟩ := bind_returns hrun
  refine ⟨s₂.world.files, files_of_require hremove, files_of_require hrun, ?_⟩
  rw [require_returned hrun, require_returned hremove]
  rfl

/-- A rename that works has moved a directory to a place outside of it. -/
theorem rename_ok {source target : Bytes} {f f' : FileSystem}
    (hok : h.rename source target f = (true, f')) :
    ∃ a b, h.locate f source = some a ∧ h.locate f target = some b ∧ IsDirectory f.tree a ∧
      ¬a <+: b ∧ f'.tree = move f.tree a b := by
  unfold Host.rename at hok
  split at hok
  · next a b ha hb =>
    split at hok
    · next hcan =>
      rw [← (Prod.mk.inj hok).2]
      exact ⟨a, b, ha, hb, hcan.2.1, hcan.2.2.2.1, rfl⟩
    · exact absurd (congrArg Prod.fst hok) (by simp)
  · exact absurd (congrArg Prod.fst hok) (by simp)

/-- The user's directory is the staged one in the end. -/
theorem replaced (hlocate : h.locate s₁.world.files userPath = some user)
    (hrun : replace h.ops userPath s₁ = (.returns (), s')) :
    IsDirectory s'.world.files.tree user ∧
      ∀ y, s'.world.files.tree (user ++ y) = s₁.world.files.tree (h.staging ++ y) := by
  obtain ⟨f, hremove, hrename, -⟩ := replace_returns hrun
  have hf : f.tree = prune s₁.world.files.tree user := by
    unfold Host.removeAll at hremove
    rw [hlocate] at hremove
    dsimp only at hremove
    split at hremove
    · rw [← (Prod.mk.inj hremove).2]
    · exact absurd (congrArg Prod.fst hremove) (by simp)
  obtain ⟨a, b, ha, hb, hdir, hbelow, htree⟩ := rename_ok hrename
  have ha' := eq_staging ha
  have hb' : h.locate s₁.world.files userPath = some b := by
    refine locate_mono (fun x hx => ?_) hb
    rw [hf] at hx
    exact (isDirectory_prune.mp hx).2
  rw [hlocate, Option.some.injEq] at hb'
  subst ha' hb'
  have hkeeps : ¬user <+: h.staging := by
    rw [hf] at hdir
    exact (isDirectory_prune.mp hdir).1
  have hmoved : ∀ y, s'.world.files.tree (user ++ y) = s₁.world.files.tree (h.staging ++ y) := by
    intro y
    have hout : ¬user <+: h.staging ++ y := fun hp =>
      (List.prefix_or_prefix_of_prefix hp (List.prefix_append _ _)).elim hkeeps hbelow
    rw [htree]
    unfold move
    rw [if_pos (List.prefix_append _ _), List.drop_left, hf, prune_outside hout]
  refine ⟨?_, hmoved⟩
  have hroot := hmoved []
  rw [List.append_nil, List.append_nil] at hroot
  unfold IsDirectory
  rw [hroot]
  rw [hf] at hdir
  exact (isDirectory_prune.mp hdir).2

/-- The directory for what arrives changes nothing below it. -/
theorem created_staging {fs fs' : FileSystem}
    (hrun : h.ops.createDirectory tmpDir fs = (true, fs')) :
    (∀ y, y ≠ [] → listing fs'.tree (h.staging ++ y) = listing fs.tree (h.staging ++ y)) ∧
      ∀ op, op ≠ .createDirectory → fs'.calls op = fs.calls op := by
  obtain ⟨-, -, node, -, rfl⟩ := edit_eq_true.mp hrun
  constructor
  · intro y hy
    unfold listing
    dsimp only
    rw [Function.update_of_ne]
    rw [target_tmpDir]
    exact fun heq => hy (List.append_right_eq_self.mp heq)
  · exact fun op hop => Function.update_of_ne hop _ _

end Runs

section Samples

/-- The server sends the folder `/a` and a file of three bytes in it. -/
def folderSession : Session (Restoring FileSystem) :=
  { sampleSession with
    wire := field intMaxNDigit 2 ++
      (field intMaxNDigit 2 ++ [slash, 97, newline] ++ field intMaxNDigit 5 ++
        field intMaxNDigit 493 ++ field intMaxNDigit 1) ++
      (field intMaxNDigit 4 ++ [slash, 97, slash, 98, newline] ++ field intMaxNDigit 6 ++
        field intMaxNDigit 420 ++ field intMaxNDigit 0 ++ field intMaxNDigit 3 ++
        [120, 121, 122]) }

def folderEntries : List Entry :=
  [⟨[slash, 97], 5, 493, 1, []⟩, ⟨[slash, 97, slash, 98], 6, 420, 0, [120, 121, 122]⟩]

/-- A file `x` was left in the staging directory by an earlier run. -/
def leftTree : HostTree := fun x =>
  if x = (sampleHost 0).staging then some (.directory 493)
  else if x = (sampleHost 0).staging ++ [[120]] then some (.file ⟨[7], 3, 420⟩) else sampleTree x

def leftSession : Session (Restoring FileSystem) :=
  { sampleSession with world := ⟨[], ⟨leftTree, fun _ => 0, []⟩, []⟩ }

/-- The disk is full when a stream is closed. -/
def fullHost : Host := { sampleHost 0 with fails := fun op _ => op = .close }

/-- The restore returns, and the file is empty. -/
example : (actionRestore fullHost.ops sampleLocals 0 [] sampleUser folderSession).1 = .returns () ∧
    listing (actionRestore fullHost.ops sampleLocals 0 [] sampleUser folderSession).2.world.files.tree
      ([[109], [117]] ++ [[97], [98]]) = some (some []) := by decide +kernel

end Samples
end BackupManager.Client
