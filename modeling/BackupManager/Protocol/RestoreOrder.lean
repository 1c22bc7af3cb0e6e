import BackupManager.Client.Volume
import BackupManager.Protocol.RestoreOutcome

/-! The order of the restore map: a folder is sent before everything below it, so that the replay never
lacks a parent. -/
namespace BackupManager.Protocol
open ByteStream Client Server Table

/-- A parent-closed set of entries, as `getRestoreEntries` collects it. -/
structure EntrySet (m : RestoreMap) : Prop where
  keyed : ∀ x ∈ m.entries, x.1 = x.2.filename
  absolute : ∀ f ∈ filesOf m, f.filename.head? = some slash
  noNul : ∀ f ∈ filesOf m, 0 ∉ f.filename
  parents : ∀ f ∈ filesOf m, ∀ q ∈ parentPath f.filename,
    ∃ d ∈ filesOf m, d.filename = q ∧ d.isDirectory = 1
  sized : ∀ f ∈ filesOf m, WellSized f

/-- Nothing is sent before a folder that it lies below. -/
def TopDown (m : RestoreMap) : Prop :=
  (filesOf m).Pairwise fun x y => ¬y.filename ++ [slash] <+: x.filename

/-- Where creation needs an existing parent directory only, the loop gets through what was sent, and
leaves exactly the folders and the contents of the map. -/
def Replays (m : RestoreMap) : Prop :=
  ∀ vol : Volume, (∀ permissions, vol.admits permissions = true) →
    ∀ (v : Locals) (residue wire : Bytes) (closed : Bool) (sent : List Bytes)
      (received : List Received), Blank residue →
    ∃ s', receiveEntries vol.ops m.entries.length v
      ⟨(filesOf m).flatMap entryBytes ++ wire, closed, .fresh residue,
        ⟨sent, vol.emptyStaging, received⟩⟩ = (.returns (), s') ∧
      ∀ p x, (s'.world.files p).map Inode.content = some x ↔
        p = tmpDir ∧ x = none ∨ ∃ f ∈ filesOf m, p = tmpDir ++ f.filename ∧ x = (entryOf f).shown

/-- Every name is one line. -/
def OneLine (m : RestoreMap) : Prop := ∀ f ∈ filesOf m, newline ∉ f.filename

/-- No name has an empty part, `.` or `..`. -/
def Plain (m : RestoreMap) : Prop := ∀ f ∈ filesOf m, PlainPath f.filename

/-- Times and permissions pass through their fields unchanged. -/
def MetadataFits (m : RestoreMap) : Prop :=
  ∀ f ∈ filesOf m, Fits intMaxNDigit f.lastWriteTime ∧ Fits intMaxNDigit f.permissions

section Understood

variable {φ : Type} {files : List File} {residue : Bytes}

/-- The client understands sendable files as they were sent. -/
theorem understands_files (hf : ∀ f ∈ files, WellSized f) (hs : ∀ f ∈ files, Sendable f)
    (hr : Blank residue) (v : Locals) (wire : Bytes) (closed : Bool) (world : Restoring φ) :
    Understands files.length v ⟨files.flatMap entryBytes ++ wire, closed, .fresh residue, world⟩
      (files.map entryOf) := by
  have hends : Prog.Ends (receiveEntries willingOps files.length v)
      ⟨files.flatMap entryBytes ++ wire, closed, .fresh residue, ⟨[], world.files, []⟩⟩
      (fun _ s' => Arrived wire closed (files.map fun f => .entry (entryOf f)) s') fun _ => False :=
    (ends_receiveEntries hf hs hr v).mono (fun _ _ h => h) fun _ h => h.1 succeeds_willingOps
  obtain ⟨_, s', hrun, _, world', -, hs', hreceived⟩ := hends.exists_returns
  obtain ⟨es, hunderstood, -, hnoted⟩ := understands_of_returns hrun
  have hsame : es.map Received.entry = (files.map entryOf).map Received.entry := by
    rw [hs', hreceived] at hnoted
    rw [List.map_map]
    exact hnoted.symm
  rw [← List.map_injective_iff.mpr (fun _ _ => Received.entry.inj) hsame]
  exact hunderstood.world world

end Understood

section Order

variable {m : RestoreMap}

theorem EntrySet.sorted (h : EntrySet m) : ((filesOf m).map File.filename).Pairwise (· < ·) := by
  have hkeys : (filesOf m).map File.filename = m.entries.map Prod.fst := by
    rw [filesOf, List.map_map]
    exact List.map_congr_left fun x hx => (h.keyed x hx).symm
  rw [hkeys]
  exact m.sorted

theorem EntrySet.topDown (h : EntrySet m) : TopDown m := by
  have hsorted := h.sorted
  rw [List.pairwise_map] at hsorted
  refine hsorted.imp fun {x y} hlt hbelow => ?_
  obtain ⟨rest, hrest⟩ := hbelow
  rw [List.append_assoc, List.singleton_append] at hrest
  have hafter := lt_below y.filename rest
  rw [hrest] at hafter
  exact lt_asymm hlt hafter

theorem EntrySet.serverOrder (h : EntrySet m) (hplain : Plain m) :
    ServerOrder ((filesOf m).map entryOf) := by
  constructor
  · rw [List.map_map]
    exact h.sorted
  · intro e he
    obtain ⟨f, hf, rfl⟩ := List.mem_map.mp he
    exact h.absolute f hf
  · intro e he
    obtain ⟨f, hf, rfl⟩ := List.mem_map.mp he
    exact hplain f hf
  · intro e he q hq
    obtain ⟨f, hf, rfl⟩ := List.mem_map.mp he
    obtain ⟨d, hd, hname, hdir⟩ := h.parents f hf q hq
    exact ⟨entryOf d, List.mem_map_of_mem hd, hname, hdir⟩

/-- A sendable set of entries is replayed in its order. -/
theorem EntrySet.replays (h : EntrySet m) (hplain : Plain m) (hlines : OneLine m)
    (hfits : MetadataFits m) : Replays m := by
  intro vol hadmits v residue wire closed sent received hr
  have hsend : ∀ f ∈ filesOf m, Sendable f := fun f hf =>
    ⟨hlines f hf, (hfits f hf).1, (hfits f hf).2⟩
  have hunderstood := understands_files h.sized hsend hr v wire closed
    (⟨sent, vol.emptyStaging, received⟩ : Restoring Inodes)
  have hreplay := (vol.replay_staged (h.serverOrder hplain)).1
    ⟨fun _ => hadmits _, fun _ _ _ => hadmits _⟩
  obtain ⟨s', hrun, hfiles⟩ := (hunderstood.returns_iff vol.ops).mpr hreplay
  rw [length_filesOf] at hrun
  refine ⟨s', hrun, fun p x => ?_⟩
  rw [hfiles, vol.staged_content (h.serverOrder hplain)]
  simp only [List.mem_map, exists_exists_and_eq_and]
  rfl

end Order

section Names

variable {vol : Volume} {s s' : Session (Restoring Inodes)}

/-- Nothing is created but at one path. -/
def CreatesAt (path : Bytes) (t t' : Inodes) : Prop := ∀ p, p ≠ path → t p = none → t' p = none

theorem createsAt_answer {path : Bytes} {t : Inodes} {r : Option Inodes}
    (hr : ∀ t' ∈ r, CreatesAt path t t') : CreatesAt path t (Volume.answer t r).2 := by
  cases r with
  | none => exact fun _ _ hp => hp
  | some t' => exact hr t' rfl

theorem createsAt_update (path : Bytes) (t : Inodes) (node : Option Inode) :
    CreatesAt path t (Function.update t path node) := by
  intro p hp hnone
  rwa [Function.update_of_ne hp]

theorem createsAt_create {content : Option Bytes} {path : Bytes} {t : Inodes} :
    ∀ t' ∈ vol.create content path t, CreatesAt path t t' := by
  intro t' ht' p hp hnone
  unfold Volume.create at ht'
  split at ht'
  · next time permissions hfolder =>
    split at ht'
    · rw [Option.mem_some_iff] at ht'
      have hother : p ≠ folderOf path := by
        rintro rfl
        rw [hnone] at hfolder
        exact absurd hfolder (by simp)
      rw [← ht', Function.update_of_ne hp, Function.update_of_ne hother, hnone]
    · exact absurd ht' (by simp)
  · exact absurd ht' (by simp)

theorem createsAt_change {f : Inode → Inode} {path : Bytes} {t : Inodes} :
    ∀ t' ∈ Volume.change f path t, CreatesAt path t t' := by
  intro t' ht'
  obtain ⟨node, -, rfl⟩ := Option.map_eq_some_iff.mp ht'
  exact createsAt_update _ _ _

theorem createsAt_createDirectory (path : Bytes) (t : Inodes) :
    CreatesAt path t (vol.ops.createDirectory path t).2 := by
  refine createsAt_answer fun t' ht' => ?_
  unfold Volume.createDirectory at ht'
  split at ht'
  · exact createsAt_create t' ht'
  · rw [← Option.mem_some_iff.mp ht']
    exact fun _ _ hp => hp
  · exact absurd ht' (by simp)

theorem createsAt_openFile (path : Bytes) (t : Inodes) :
    CreatesAt path t (vol.ops.openFile path t).2 := by
  refine createsAt_answer fun t' ht' => ?_
  unfold Volume.openFile at ht'
  split at ht'
  · exact createsAt_create t' ht'
  · rw [← Option.mem_some_iff.mp ht']
    exact createsAt_update _ _ _
  · exact absurd ht' (by simp)

theorem createsAt_write (path bytes : Bytes) (t : Inodes) :
    CreatesAt path t (vol.ops.write path bytes t).2 := by
  refine createsAt_answer fun t' ht' => ?_
  unfold Volume.write at ht'
  split at ht'
  · rw [← Option.mem_some_iff.mp ht']
    exact createsAt_update _ _ _
  · exact absurd ht' (by simp)

/-- A round creates nothing but the path that it has read. -/
theorem createsAt_storeEntry (v : Locals) (pathLength : ℤ) (path : Bytes)
    (lastWriteTime permissions : ℤ) :
    Prog.Steps (OnFiles (CreatesAt (tmpDir ++ path)))
      (storeEntry vol.ops v pathLength path lastWriteTime permissions) := by
  have : Std.Refl (OnFiles (CreatesAt (tmpDir ++ path))) := ⟨fun _ _ _ hp => hp⟩
  have : IsTrans _ (OnFiles (CreatesAt (tmpDir ++ path))) :=
    ⟨fun _ _ _ h h' p hp hnone => h' p hp (h p hp hnone)⟩
  have hrequire : ∀ (what : String) (f : Inodes → Bool × Inodes),
      (∀ t, CreatesAt (tmpDir ++ path) t (f t).2) →
      Prog.Steps (OnFiles (CreatesAt (tmpDir ++ path))) (require what f) := by
    intro what f hf
    refine .bind (fun s => hf s.world.files) fun ok => ?_
    split
    · exact .pure _
    · exact .throw _
  have hpath : ∀ isDirectory old, Prog.Steps (OnFiles (CreatesAt (tmpDir ++ path)))
      (receivePath vol.ops (tmpDir ++ path) isDirectory old) := by
    intro isDirectory old
    unfold receivePath
    split
    · exact .bind (hrequire _ _ (createsAt_createDirectory _)) fun _ => .pure _
    · refine .bind (.recvInt _ _) fun _ => .bind (.extract _) fun _ =>
        .bind (fun s => createsAt_openFile _ s.world.files) fun isOpen =>
        .bind (.withDestructor (.recvChunks (fun chunk => ?_) _) fun w => ?_) fun _ => .pure _
      · unfold writeChunk
        split
        · exact hrequire _ _ (createsAt_write _ _)
        · exact .pure _
      · unfold closeStream
        split
        · exact fun _ _ hp => hp
        · exact fun _ _ hp => hp
  exact .bind (.recvInt _ _) fun _ => .bind (hpath _ _) fun _ =>
    .bind (.modifyWorld fun w p _ hp => hp) fun _ =>
    .bind (hrequire _ _ fun t => createsAt_answer createsAt_change) fun _ =>
    .bind (hrequire _ _ fun t => createsAt_answer createsAt_change) fun _ => .pure _

theorem storeEntry_path {v v' : Locals} {pathLength : ℤ} {path : Bytes}
    {lastWriteTime permissions : ℤ}
    (hrun : storeEntry vol.ops v pathLength path lastWriteTime permissions s = (.returns v', s')) :
    v'.path = path := by
  obtain ⟨_, _, -, hrun⟩ := Prog.bind_returns hrun
  obtain ⟨_, _, -, hrun⟩ := Prog.bind_returns hrun
  obtain ⟨_, _, -, hrun⟩ := Prog.bind_returns hrun
  obtain ⟨_, _, -, hrun⟩ := Prog.bind_returns hrun
  obtain ⟨_, _, -, hrun⟩ := Prog.bind_returns hrun
  rw [Prog.pure_apply, Prod.mk.injEq, Outcome.returns.injEq] at hrun
  rw [← hrun.1]

/-- No path with a line break is created. -/
theorem receiveEntries_oneLine {n : ℕ} {v : Locals} (hv : newline ∉ v.path)
    (hrun : receiveEntries vol.ops n v s = (.returns (), s')) {p : Bytes} (hp : newline ∈ p)
    (hnone : s.world.files p = none) : s'.world.files p = none := by
  induction n generalizing v s with
  | zero =>
    unfold receiveEntries at hrun
    rw [Prog.pure_apply, Prod.mk.injEq] at hrun
    rwa [← hrun.2]
  | succ n ih =>
    obtain ⟨v', s₁, hentry, hrun⟩ := Prog.bind_returns hrun
    obtain ⟨pathLength, s₂, h₂, hentry⟩ := Prog.bind_returns hentry
    obtain ⟨path, s₃, h₃, hentry⟩ := Prog.bind_returns hentry
    obtain ⟨lastWriteTime, s₄, h₄, hentry⟩ := Prog.bind_returns hentry
    obtain ⟨permissions, s₅, h₅, hentry⟩ := Prog.bind_returns hentry
    have hworld : s.world = s₅.world := by
      have hw₂ := (Prog.Steps.recvInt (R := Eq) _ _).returns h₂
      have hw₃ := (Prog.Steps.recvLine (R := Eq) _ _).returns h₃
      have hw₄ := (Prog.Steps.recvInt (R := Eq) _ _).returns h₄
      have hw₅ := (Prog.Steps.recvInt (R := Eq) _ _).returns h₅
      exact ((hw₂.trans hw₃).trans hw₄).trans hw₅
    have hline : newline ∉ path := by
      obtain ⟨-, -, hpath⟩ := Prog.recvLine_returns h₃
      rw [hpath]
      exact Istream.getline_oneLine hv _
    have hother : p ≠ tmpDir ++ path := by
      rintro rfl
      rcases List.mem_append.mp hp with htmp | hpath
      · exact absurd htmp (by decide)
      · exact hline hpath
    have hstored := (createsAt_storeEntry v pathLength path lastWriteTime permissions).returns hentry
    apply ih _ hrun
    · exact hstored p hother (by rwa [← hworld])
    · rwa [storeEntry_path hentry]

theorem Replays.oneLine {m : RestoreMap} (h : Replays m) : OneLine m := by
  intro f hf hline
  obtain ⟨s', hrun, hfiles⟩ := h ⟨fun _ => true, fun _ => 0, 493⟩ (fun _ => rfl)
    ⟨0, 0, 0, [], 0, 0⟩ [] [] false [] [] Blank.nil
  have hsome := (hfiles (tmpDir ++ f.filename) (entryOf f).shown).mpr (Or.inr ⟨f, hf, rfl, rfl⟩)
  have hne : tmpDir ++ f.filename ≠ tmpDir := by
    intro heq
    rw [List.append_right_eq_self.mp heq] at hline
    exact absurd hline List.not_mem_nil
  have hfree : Volume.emptyStaging ⟨fun _ => true, fun _ => 0, 493⟩ (tmpDir ++ f.filename) = none :=
    Function.update_of_ne hne _ _
  rw [receiveEntries_oneLine List.not_mem_nil hrun (List.mem_append_right tmpDir hline) hfree] at hsome
  exact absurd hsome (by simp)

end Names

/-- A folder is sent before everything below it. What is sent under plain names is replayed where the
names are lines and the times and permissions fit their fields; no name with a line break is ever
replayed. -/
theorem restore_order (m : RestoreMap) (h : EntrySet m) :
    TopDown m ∧ (Plain m →
      (Replays m → OneLine m) ∧ (OneLine m → MetadataFits m → Replays m)) :=
  ⟨h.topDown, fun hplain => ⟨Replays.oneLine, h.replays hplain⟩⟩

/-- The folder `/a` with the file `/a/x`; the file `/a-b` comes between them. -/
def nestedMap : RestoreMap where
  entries := [([47, 97], ⟨0, 1, [47, 97], [], 1714521600, 493⟩),
    ([47, 97, 45, 98], ⟨1, 0, [47, 97, 45, 98], [7], 1714521600, 420⟩),
    ([47, 97, 47, 120], ⟨2, 0, [47, 97, 47, 120], [8, 9], 1714521600, 420⟩)]
  sorted := by decide

theorem entrySet_nestedMap : EntrySet nestedMap := by
  constructor <;> decide

theorem plain_nestedMap : Plain nestedMap := by
  unfold Plain
  decide

theorem restore_order_nested : TopDown nestedMap ∧ Replays nestedMap := by
  obtain ⟨htop, hreplays⟩ := restore_order nestedMap entrySet_nestedMap
  exact ⟨htop, (hreplays plain_nestedMap).2 (by unfold OneLine; decide)
    (by unfold MetadataFits; decide)⟩

/-- One folder `/a⏎b`. -/
def brokenLineMap : RestoreMap where
  entries := [([47, 97, 10, 98], ⟨0, 1, [47, 97, 10, 98], [], 1714521600, 493⟩)]
  sorted := List.pairwise_singleton _ _

/-- Neither a folder whose name has a line break nor one from before 1970 is replayed. -/
theorem restore_order_broken :
    (EntrySet brokenLineMap ∧ Plain brokenLineMap ∧ ¬Replays brokenLineMap) ∧
      EntrySet (folderMap (-5)) ∧ Plain (folderMap (-5)) ∧ ¬Replays (folderMap (-5)) := by
  refine ⟨⟨by constructor <;> decide, by unfold Plain; decide, fun h => ?_⟩,
    by constructor <;> decide, by unfold Plain; decide, fun h => ?_⟩
  · exact absurd h.oneLine (by unfold OneLine; decide)
  · obtain ⟨s', hrun, -⟩ := h ⟨fun _ => true, fun _ => 0, 493⟩ (fun _ => rfl)
      ⟨0, 0, 0, [], 0, 0⟩ [] [] false [] [] Blank.nil
    have hwaits : (receiveEntries (Volume.ops ⟨fun _ => true, fun _ => 0, 493⟩) 1 ⟨0, 0, 0, [], 0, 0⟩
        ⟨(filesOf (folderMap (-5))).flatMap entryBytes ++ [], false, .fresh [],
          ⟨[], Volume.emptyStaging ⟨fun _ => true, fun _ => 0, 493⟩, []⟩⟩).1 = .waits := by
      decide
    rw [show (folderMap (-5)).entries.length = 1 from rfl] at hrun
    rw [hrun] at hwaits
    exact absurd hwaits (by simp)

end BackupManager.Protocol
