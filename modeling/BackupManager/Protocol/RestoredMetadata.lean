import BackupManager.Protocol.RestoreOrder

/-! Times and permissions after a restore: the loop gives them to a folder before it creates what is in
it, and that can be refused by the ones and changes the others. -/
namespace BackupManager.Protocol
open ByteStream Client Server

/-- The owner may write and search the directory. -/
def ownerEnters (permissions : BitVec 12) : Bool := permissions &&& 0o300#12 == 0o300#12

/-- A file system that asks for write and search permission. -/
def posix (clock : Bytes → ℤ) (mode : BitVec 12) : Volume := ⟨ownerEnters, clock, mode⟩

/-- The loop comes to its end, and every entry has the time and the permissions that were received
for it. -/
def RestoresMetadata (vol : Volume) (n : ℕ) (v : Locals) (s : Session (Restoring Inodes))
    (es : List Entry) : Prop :=
  ∃ s', receiveEntries vol.ops n v (withFiles s vol.emptyStaging) = (.returns (), s') ∧
    ∀ e ∈ es, ∃ node, s'.world.files (tmpDir ++ e.path) = some node ∧
      node.lastWriteTime = e.lastWriteTime ∧ (node.permissions.toNat : ℤ) = e.permissions

/-- No entry stands in the way of another: permissions are permission bits, a folder with something in
it may be written and searched by its owner, and has just the time at which the last of it is
created. -/
structure Undisturbed (clock : Bytes → ℤ) (mode : BitVec 12) (es : List Entry) : Prop where
  staging : es ≠ [] → ownerEnters mode = true
  bits : ∀ e ∈ es, 0 ≤ e.permissions ∧ e.permissions ≤ 4095
  enters : ∀ d ∈ es, (∃ e ∈ es, parentPath e.path = some d.path) →
    ownerEnters (BitVec.ofInt 12 d.permissions) = true
  times : ∀ d ∈ es, ∀ c ∈ (Volume.childrenOf es (some d.path)).getLast?,
    clock (tmpDir ++ c.path) = d.lastWriteTime

section Permissions

theorem boostPermissions_of_bits {mode : ℤ} (h0 : 0 ≤ mode) (hmode : mode ≤ 4095)
    (old : BitVec 12) : boostPermissions mode old = BitVec.ofInt 12 mode := by
  obtain ⟨n, rfl⟩ := Int.eq_ofNat_of_zero_le h0
  have hn : n < 2 ^ 12 := by omega
  have hbits : BitVec.ofInt 32 (n : ℤ) = BitVec.ofNat 32 n := BitVec.ofInt_natCast 32 n
  have hadd : (BitVec.ofNat 32 n).getLsbD 12 = false := by
    rw [BitVec.getLsbD_ofNat, Nat.testBit_lt_two_pow hn, Bool.and_false]
  have hremove : (BitVec.ofNat 32 n).getLsbD 13 = false := by
    rw [BitVec.getLsbD_ofNat, Nat.testBit_lt_two_pow (by omega), Bool.and_false]
  unfold boostPermissions
  dsimp only
  rw [hbits, hadd, hremove, BitVec.ofInt_natCast]
  apply BitVec.eq_of_toNat_eq
  simp

/-- What `permissions` sets is what was asked for exactly where that is made of permission bits. -/
theorem boostPermissions_exact (mode : ℤ) (old : BitVec 12) :
    ((boostPermissions mode old).toNat : ℤ) = mode ↔ 0 ≤ mode ∧ mode ≤ 4095 := by
  constructor
  · intro heq
    have hlt := (boostPermissions mode old).isLt
    omega
  · intro hbits
    rw [boostPermissions_of_bits hbits.1 hbits.2, BitVec.toNat_ofInt]
    omega

end Permissions

section Exact

variable {clock : Bytes → ℤ} {mode : BitVec 12} {es : List Entry}

theorem changed_exact (d : Entry) :
    (posix clock mode).changed es (some d.path) d.lastWriteTime = d.lastWriteTime ↔
      ∀ c ∈ (Volume.childrenOf es (some d.path)).getLast?,
        clock (tmpDir ++ c.path) = d.lastWriteTime := by
  unfold Volume.changed
  cases (Volume.childrenOf es (some d.path)).getLast? with
  | none => simp
  | some c =>
    constructor
    · intro htime c' hc'
      rw [← Option.mem_some_iff.mp hc']
      exact htime
    · intro hall
      exact hall c rfl

/-- With permissions made of permission bits, the folders admit what is created in them exactly where
their own permissions say so. -/
theorem admits_iff (hbits : ∀ e ∈ es, 0 ≤ e.permissions ∧ e.permissions ≤ 4095) :
    (posix clock mode).Admits es ↔ (es ≠ [] → ownerEnters mode = true) ∧
      ∀ d ∈ es, (∃ e ∈ es, parentPath e.path = some d.path) →
        ownerEnters (BitVec.ofInt 12 d.permissions) = true := by
  constructor
  · intro hadmits
    refine ⟨hadmits.staging, fun d hd hchild => ?_⟩
    have hown := hadmits.entries d hd hchild
    rwa [boostPermissions_of_bits (hbits d hd).1 (hbits d hd).2] at hown
  · intro hboth
    obtain ⟨hstaging, henters⟩ := hboth
    refine ⟨hstaging, fun d hd hchild => ?_⟩
    rw [boostPermissions_of_bits (hbits d hd).1 (hbits d hd).2]
    exact henters d hd hchild

theorem staged_exact (h : ServerOrder es) {e : Entry} (he : e ∈ es) :
    (∃ node, (posix clock mode).staged es (tmpDir ++ e.path) = some node ∧
      node.lastWriteTime = e.lastWriteTime ∧ (node.permissions.toNat : ℤ) = e.permissions) ↔
      (∀ c ∈ (Volume.childrenOf es (some e.path)).getLast?,
        clock (tmpDir ++ c.path) = e.lastWriteTime) ∧
      0 ≤ e.permissions ∧ e.permissions ≤ 4095 := by
  rw [(posix clock mode).staged_entry h he, ← changed_exact, ← boostPermissions_exact _ mode]
  constructor
  · intro hnode
    obtain ⟨node, hsome, hboth⟩ := hnode
    rwa [← Option.some.inj hsome] at hboth
  · intro hboth
    exact ⟨_, rfl, hboth⟩

variable {n : ℕ} {v : Locals} {s : Session (Restoring Inodes)}

theorem RestoresMetadata.undisturbed (h : ServerOrder es) (hunderstood : Understands n v s es)
    (hrestores : RestoresMetadata (posix clock mode) n v s es) : Undisturbed clock mode es := by
  obtain ⟨hyes, hno⟩ := (posix clock mode).replay_staged h
  obtain ⟨s', hrun, hall⟩ := hrestores
  have hreplay := (hunderstood.returns_iff (posix clock mode).ops).mp ⟨s', hrun, rfl⟩
  have hadmits : (posix clock mode).Admits es := by
    by_contra hrefused
    rw [hno hrefused] at hreplay
    exact absurd hreplay (by simp)
  rw [hyes hadmits, Option.some.injEq] at hreplay
  have hentries := fun e he => (staged_exact h he).mp (by rw [hreplay]; exact hall e he)
  have hboth := (admits_iff fun e he => (hentries e he).2).mp hadmits
  exact ⟨hboth.1, fun e he => (hentries e he).2, hboth.2, fun d hd => (hentries d hd).1⟩

theorem Undisturbed.restores (h : ServerOrder es) (hunderstood : Understands n v s es)
    (hundisturbed : Undisturbed clock mode es) :
    RestoresMetadata (posix clock mode) n v s es := by
  have hadmits : (posix clock mode).Admits es :=
    (admits_iff hundisturbed.bits).mpr ⟨hundisturbed.staging, hundisturbed.enters⟩
  have hreplay := ((posix clock mode).replay_staged h).1 hadmits
  obtain ⟨s', hrun, hfiles⟩ := (hunderstood.returns_iff (posix clock mode).ops).mpr hreplay
  refine ⟨s', hrun, fun e he => ?_⟩
  rw [hfiles]
  exact (staged_exact h he).mpr ⟨hundisturbed.times e he, hundisturbed.bits e he⟩

end Exact

/-- Times and permissions are restored exactly where no entry stands in the way of another. -/
theorem restored_metadata (clock : Bytes → ℤ) (mode : BitVec 12) (es : List Entry)
    (h : ServerOrder es) (n : ℕ) (v : Locals) (s : Session (Restoring Inodes))
    (hunderstood : Understands n v s es) :
    RestoresMetadata (posix clock mode) n v s es ↔ Undisturbed clock mode es :=
  ⟨fun hrestores => hrestores.undisturbed h hunderstood,
    fun hundisturbed => hundisturbed.restores h hunderstood⟩

/-- The bytes of a map, in a session that has read nothing yet. -/
def sentMap (m : RestoreMap) : Session (Restoring Inodes) :=
  ⟨(filesOf m).flatMap entryBytes ++ [], false, .fresh [], ⟨[], fun _ => none, []⟩⟩

/-- A folder with what is in it, restored within the second in which it was last changed. -/
theorem restored_metadata_nested :
    RestoresMetadata (posix (fun _ => 1714521600) 0o755) 3 ⟨0, 0, 0, [], 0, 0⟩ (sentMap nestedMap)
      ((filesOf nestedMap).map entryOf) := by
  have hunderstood : Understands 3 ⟨0, 0, 0, [], 0, 0⟩ (sentMap nestedMap)
      ((filesOf nestedMap).map entryOf) :=
    understands_files entrySet_nestedMap.sized (by decide) Blank.nil _ _ _ _
  refine (restored_metadata (fun _ => 1714521600) 0o755 _ (entrySet_nestedMap.serverOrder plain_nestedMap) 3
    ⟨0, 0, 0, [], 0, 0⟩ (sentMap nestedMap) hunderstood).mpr ⟨?_, ?_, ?_, ?_⟩
  · intro _
    decide
  · decide
  · decide
  · decide

/-- A folder `/a` that its owner may not write, with the file `/a/x` in it. -/
def readOnlyMap : RestoreMap where
  entries := [([47, 97], ⟨0, 1, [47, 97], [], 1714521600, 0o555⟩),
    ([47, 97, 47, 120], ⟨1, 0, [47, 97, 47, 120], [7], 1714521600, 420⟩)]
  sorted := by decide

theorem entrySet_readOnlyMap : EntrySet readOnlyMap := by
  constructor <;> decide

theorem plain_readOnlyMap : Plain readOnlyMap := by
  unfold Plain
  decide

/-- A day later the folder has another time, and a folder that is read-only cannot be restored at
all. -/
theorem restored_metadata_disturbed :
    (∃ n v s es, ServerOrder es ∧ Understands n v s es ∧
      ¬RestoresMetadata (posix (fun _ => 1714608000) 0o755) n v s es) ∧
    ∃ n v s es, ServerOrder es ∧ Understands n v s es ∧
      ¬∃ s', receiveEntries (posix (fun _ => 1714521600) 0o755).ops n v
        (withFiles s (posix (fun _ => 1714521600) 0o755).emptyStaging) = (.returns (), s') := by
  have hnested : Understands 3 ⟨0, 0, 0, [], 0, 0⟩ (sentMap nestedMap)
      ((filesOf nestedMap).map entryOf) :=
    understands_files entrySet_nestedMap.sized (by decide) Blank.nil _ _ _ _
  have hreadOnly : Understands 2 ⟨0, 0, 0, [], 0, 0⟩ (sentMap readOnlyMap)
      ((filesOf readOnlyMap).map entryOf) :=
    understands_files entrySet_readOnlyMap.sized (by decide) Blank.nil _ _ _ _
  have hnestedOrder := entrySet_nestedMap.serverOrder plain_nestedMap
  have hreadOnlyOrder := entrySet_readOnlyMap.serverOrder plain_readOnlyMap
  constructor
  · refine ⟨3, ⟨0, 0, 0, [], 0, 0⟩, sentMap nestedMap, _, hnestedOrder, hnested, fun h => ?_⟩
    have htimes := (h.undisturbed hnestedOrder hnested).times
    exact absurd htimes (by decide)
  · refine ⟨2, ⟨0, 0, 0, [], 0, 0⟩, sentMap readOnlyMap, _, hreadOnlyOrder, hreadOnly, fun h => ?_⟩
    obtain ⟨s', hrun⟩ := h
    have hreplay := (hreadOnly.returns_iff _).mp ⟨s', hrun, rfl⟩
    have hrefused : ¬(posix (fun _ => 1714521600) 0o755).Admits
        ((filesOf readOnlyMap).map entryOf) := by
      intro hadmits
      have henters := ((admits_iff (by decide)).mp hadmits).2
      exact absurd henters (by decide)
    rw [((posix _ _).replay_staged hreadOnlyOrder).2 hrefused] at hreplay
    exact absurd hreplay (by simp)

end BackupManager.Protocol
