import BackupManager.Client.ActionRestore
import BackupManager.Server.ClientHandler

/-! The restore stream: what `action_restore` of the server writes, taken by `action_restore` of
the client. -/
namespace BackupManager.Protocol
open ByteStream Client Server

/-- A file, as the client should understand it. -/
def entryOf (f : File) : Entry :=
  ⟨f.filename, f.lastWriteTime, f.permissions, f.isDirectory,
    if f.isDirectory = 0 then f.fileContent else []⟩

/-- What holds of every file that a query returns; a text holds at most `1000000000` bytes. -/
structure WellSized (f : File) : Prop where
  filename : f.filename.length ≤ 1000000000
  lastWriteTime : InInt f.lastWriteTime
  permissions : InInt f.permissions
  kind : f.isDirectory = 1 ∨ f.isDirectory = 0 ∧ f.size = f.fileContent.length
  size : InInt f.size

/-- The fields of the file pass through the stream unchanged. -/
structure Sendable (f : File) : Prop where
  filename : newline ∉ f.filename
  lastWriteTime : Fits intMaxNDigit f.lastWriteTime
  permissions : Fits intMaxNDigit f.permissions

instance : DecidablePred WellSized := fun f =>
  decidable_of_iff (f.filename.length ≤ 1000000000 ∧ InInt f.lastWriteTime ∧ InInt f.permissions ∧
      (f.isDirectory = 1 ∨ f.isDirectory = 0 ∧ f.size = f.fileContent.length) ∧ InInt f.size)
    ⟨fun h => ⟨h.1, h.2.1, h.2.2.1, h.2.2.2.1, h.2.2.2.2⟩,
      fun h => ⟨h.filename, h.lastWriteTime, h.permissions, h.kind, h.size⟩⟩

instance : DecidablePred Sendable := fun f =>
  decidable_of_iff (newline ∉ f.filename ∧ Fits intMaxNDigit f.lastWriteTime ∧
      Fits intMaxNDigit f.permissions)
    ⟨fun h => ⟨h.1, h.2.1, h.2.2⟩, fun h => ⟨h.filename, h.lastWriteTime, h.permissions⟩⟩

/-- An `int` that is not negative always fits. -/
theorem fits_of_nonneg {z : ℤ} (h : InInt z) (h0 : 0 ≤ z) : Fits intMaxNDigit z := by
  obtain ⟨n, rfl⟩ := Int.eq_ofNat_of_zero_le h0
  refine (fits_natCast (by decide)).mpr ?_
  have hmax : (n : ℤ) ≤ 2147483647 := h.2
  have hten : 10 ^ intMaxNDigit = 10000000000 := by decide
  omega

theorem inInt_natCast {n : ℕ} (h : n ≤ 2147483647) : InInt n := by
  unfold InInt Istream.intMin Istream.intMax
  omega

theorem sizeOfInt_filename {f : File} (hf : WellSized f) :
    Prog.sizeOfInt (Prog.intSucc f.filename.length) = f.filename.length + 1 := by
  have hlength := hf.filename
  exact Prog.sizeOfInt_intSucc (by omega)

section Entries

variable {φ : Type} {ops : FileOps φ} {f : File} {residue wire : Bytes} {closed : Bool}
variable {world : Restoring φ}

/-- The content of a file arrives, or an operation on the file throws. -/
theorem ends_receiveFile (hf : WellSized f) (hkind : f.isDirectory = 0 ∧ f.size = f.fileContent.length)
    (filePath : Bytes) (old : ℤ) :
    Prog.Ends (receiveFile ops filePath old)
      ⟨field intMaxNDigit f.size ++ f.fileContent ++ wire, closed, .fresh [newline], world⟩
      (fun r s' => r.2 = f.fileContent ∧ s' = ⟨wire, closed, .fresh [], s'.world⟩ ∧
        world.received = s'.world.received)
      (fun s' => ¬ops.Succeeds ∧ world.received = s'.world.received) := by
  have hfits : Fits intMaxNDigit f.size := fits_of_nonneg hf.size (by omega)
  have hlen : f.size.toNat = f.fileContent.length := by omega
  rw [List.append_assoc]
  refine .bind_of_returns (Prog.recvInt_field hfits hf.size Blank.newline old) ?_
  refine .bind_of_returns (Prog.ignore_apply _) (.bind_of_returns rfl ?_)
  rw [hlen]
  refine .bind (.withDestructor ((Prog.Ends.recvChunks
    (I := fun w => world.received = w.received) (E := fun s' => ¬ops.Succeeds ∧
      world.received = s'.world.received) maxMsgSize_pos ?_ f.fileContent wire closed _ rfl).mono
    ?_ ?_))
  · intro chunk s hs
    unfold writeChunk
    split
    · refine ends_require (fun files => ⟨rfl, hs⟩) fun hfail files => ⟨fun hops => ?_, hs⟩
      obtain ⟨w, hw⟩ := hfail
      exact hw (hops.write filePath chunk w)
    · exact .pure ⟨rfl, hs⟩
  · intro v s' h
    obtain ⟨hv, hs', hreceived⟩ := h
    refine .pure ⟨hv, ?_, ?_⟩
    · rw [hs']
    · rw [received_closeStream]
      exact hreceived
  · intro s' h
    rw [received_closeStream]
    exact h

/-- What an entry leaves behind when it arrived: the bytes after it, and a stream without
anything but blanks. -/
def Arrived (wire : Bytes) (closed : Bool) (received : List Received)
    (s' : Session (Restoring φ)) : Prop :=
  ∃ residue world, Blank residue ∧ s' = ⟨wire, closed, .fresh residue, world⟩ ∧
    world.received = received

theorem ends_receivePath (hf : WellSized f) (filePath : Bytes) (old : ℤ) :
    Prog.Ends (receivePath ops filePath f.isDirectory old)
      ⟨(if f.isDirectory = 0 then field intMaxNDigit f.size ++ f.fileContent else []) ++ wire,
        closed, .fresh [newline], world⟩
      (fun r s' => r.2 = (entryOf f).content ∧ Arrived wire closed world.received s')
      (fun s' => ¬ops.Succeeds ∧ world.received = s'.world.received) := by
  rcases hf.kind with hdir | hfile
  · have hne : ¬f.isDirectory = 0 := by omega
    rw [receivePath, if_pos hdir, if_neg hne, List.nil_append]
    refine .bind (ends_require (fun files => .pure ⟨?_, [newline], _, Blank.newline, rfl, rfl⟩) ?_)
    · rw [entryOf, if_neg hne]
    · intro hfail files
      obtain ⟨w, hw⟩ := hfail
      exact ⟨fun hops => hw (hops.createDirectory filePath w), rfl⟩
  · have hne : ¬f.isDirectory = 1 := by omega
    rw [receivePath, if_neg hne, if_pos hfile.1]
    refine (ends_receiveFile hf hfile filePath old).mono ?_ fun _ h => h
    intro r s' h
    obtain ⟨hcontent, hs', hreceived⟩ := h
    refine ⟨?_, [], s'.world, Blank.nil, hs', hreceived.symm⟩
    rw [hcontent, entryOf, if_pos hfile.1]

/-- One entry arrives as it was sent. -/
theorem ends_receiveEntry (hf : WellSized f) (hs : Sendable f) (hr : Blank residue) (v : Locals) :
    Prog.Ends (receiveEntry ops v)
      ⟨entryBytes f ++ wire, closed, .fresh residue, world⟩
      (fun _ s' => Arrived wire closed (world.received ++ [.entry (entryOf f)]) s')
      (fun s' => ¬ops.Succeeds ∧
        s'.world.received <+: world.received ++ [.entry (entryOf f)]) := by
  have hname := inInt_natCast (hf.filename.trans (by decide))
  have hdir : InInt f.isDirectory := by
    rcases hf.kind with h | h
    · rw [h]
      decide
    · rw [h.1]
      decide
  have hdirFits : Fits intMaxNDigit f.isDirectory := by
    rcases hf.kind with h | h
    · rw [h]
      decide
    · rw [h.1]
      decide
  simp only [entryBytes, List.append_assoc, List.cons_append, List.nil_append]
  refine .bind_of_returns (Prog.recvInt_field (fits_of_nonneg hname (by omega)) hname hr _) ?_
  refine .bind_of_returns (Prog.recvLine_field (sizeOfInt_filename hf) hs.filename _) ?_
  refine .bind_of_returns (Prog.recvInt_field hs.lastWriteTime hf.lastWriteTime Blank.nil _) ?_
  refine .bind_of_returns (Prog.recvInt_field hs.permissions hf.permissions Blank.newline _) ?_
  refine .bind_of_returns (Prog.recvInt_field hdirFits hdir Blank.newline _) ?_
  refine .bind ((ends_receivePath hf _ _).mono ?_ ?_)
  · intro file s₁ h
    obtain ⟨hcontent, residue₁, world₁, hr₁, rfl, hreceived⟩ := h
    rw [hcontent]
    have hE : ¬ops.Succeeds → ∀ files : φ, ¬ops.Succeeds ∧
        world₁.received ++ [.entry (entryOf f)] <+: world.received ++ [.entry (entryOf f)] :=
      fun hops _ => ⟨hops, hreceived ▸ List.prefix_refl _⟩
    refine .bind_of_returns (note_apply _ _) (.bind (ends_require (fun files => ?_) ?_))
    · refine .bind (ends_require (fun files' => ?_) ?_)
      · exact .pure ⟨residue₁, _, hr₁, rfl, by rw [hreceived]; rfl⟩
      · intro hfail
        obtain ⟨w, hw⟩ := hfail
        exact hE fun hops => hw (hops.permissions _ _ w)
    · intro hfail
      obtain ⟨w, hw⟩ := hfail
      exact hE fun hops => hw (hops.lastWriteTime _ _ w)
  · intro s₁ h
    exact ⟨h.1, by rw [← h.2]; exact List.prefix_append _ _⟩

/-- The entries arrive in order. -/
theorem ends_receiveEntries {files : List File} (hf : ∀ f ∈ files, WellSized f)
    (hs : ∀ f ∈ files, Sendable f) (hr : Blank residue) (v : Locals) :
    Prog.Ends (receiveEntries ops files.length v)
      ⟨files.flatMap entryBytes ++ wire, closed, .fresh residue, world⟩
      (fun _ s' => Arrived wire closed (world.received ++ files.map fun f => .entry (entryOf f)) s')
      (fun s' => ¬ops.Succeeds ∧
        s'.world.received <+: world.received ++ files.map fun f => .entry (entryOf f)) := by
  induction files generalizing residue world v with
  | nil =>
    rw [List.length_nil, receiveEntries]
    exact .pure ⟨residue, world, hr, rfl, (List.append_nil _).symm⟩
  | cons f files ih =>
    have hsplit : (world.received ++ (f :: files).map fun f => .entry (entryOf f)) =
        (world.received ++ [.entry (entryOf f)]) ++ files.map fun f => .entry (entryOf f) := by
      rw [List.append_assoc]
      rfl
    rw [List.flatMap_cons, List.append_assoc, hsplit, List.length_cons, receiveEntries]
    refine .bind ((ends_receiveEntry (hf f List.mem_cons_self) (hs f List.mem_cons_self) hr v).mono
      ?_ ?_)
    · intro v' s₁ h
      obtain ⟨residue₁, world₁, hr₁, rfl, hreceived⟩ := h
      rw [← hreceived]
      exact ih (fun x hx => hf x (List.mem_cons_of_mem f hx))
        (fun x hx => hs x (List.mem_cons_of_mem f hx)) hr₁ v'
    · intro s₁ h
      exact ⟨h.1, h.2.trans (List.prefix_append _ _)⟩

/-- The converse for one entry: it arrives changed, or breaks the stream, or was sendable. -/
theorem receiveEntry_inexact (hf : WellSized f) (hr : Blank residue) {v v' : Locals}
    {s' : Session (Restoring φ)}
    (h : receiveEntry ops v ⟨entryBytes f ++ wire, closed, .fresh residue, world⟩ =
      (.returns v', s')) :
    ∃ e, s'.world.received = world.received ++ [.entry e] ∧
      (e ≠ entryOf f ∨ Prog.Broken s' ∨ Sendable f) := by
  have hname := inInt_natCast (hf.filename.trans (by decide))
  simp only [entryBytes, List.append_assoc, List.cons_append, List.nil_append] at h
  rw [receiveEntry, Prog.bind_of_returns
    (Prog.recvInt_field (fits_of_nonneg hname (by omega)) hname hr _)] at h
  obtain ⟨path, s₁, hpath, h⟩ := Prog.bind_returns h
  obtain ⟨lastWriteTime, s₂, htime, h⟩ := Prog.bind_returns h
  obtain ⟨permissions, s₃, hmode, hstore⟩ := Prog.bind_returns h
  obtain ⟨e, hreceived, hepath, hetime, hemode⟩ := storeEntry_received hstore
  have hsame : world.received = s₃.world.received :=
    ((Prog.Steps.recvLine (R := SameReceived) _ _).returns hpath).trans
      (((Prog.Steps.recvInt (R := SameReceived) _ _).returns htime).trans
        ((Prog.Steps.recvInt (R := SameReceived) _ _).returns hmode))
  refine ⟨e, by rw [hreceived, hsame], ?_⟩
  by_cases hline : newline ∈ f.filename
  · left
    intro he
    have hcut := Prog.recvLine_cut (sizeOfInt_filename hf) hpath
    have hsame : f.filename = f.filename.takeWhile (· ≠ newline) := by
      rw [← hcut, ← hepath, he]
      rfl
    rw [hsame] at hline
    simpa using List.all_eq_true.mp List.all_takeWhile newline hline
  · rw [Prog.recvLine_field (sizeOfInt_filename hf) hline, Prod.mk.injEq] at hpath
    rw [← hpath.2] at htime
    rcases Prog.recvInt_inexact Blank.nil htime with hne | hbroken | hfits
    · left
      intro he
      rw [he] at hetime
      exact hne hetime.symm
    · right; left
      exact (keeps_storeEntry ops v _ _ _ _).returns hstore
        ((Prog.Keeps.recvInt _ _).returns hmode hbroken)
    · rw [Prog.recvInt_field hfits.1 hfits.2 Blank.nil, Prod.mk.injEq] at htime
      rw [← htime.2] at hmode
      rcases Prog.recvInt_inexact Blank.newline hmode with hne | hbroken | hfits'
      · left
        intro he
        rw [he] at hemode
        exact hne hemode.symm
      · right; left
        exact (keeps_storeEntry ops v _ _ _ _).returns hstore hbroken
      · right; right
        exact ⟨hline, hfits.1, hfits'.1⟩

/-- Entries that arrive as they were sent, in a stream that stays good, were sendable. -/
theorem sendable_of_receiveEntries {files : List File} (hf : ∀ f ∈ files, WellSized f)
    (hr : Blank residue) {v : Locals} {s' : Session (Restoring φ)}
    (h : receiveEntries ops files.length v
      ⟨files.flatMap entryBytes ++ wire, closed, .fresh residue, world⟩ = (.returns (), s'))
    (hgood : s'.stream.good = true)
    (hreceived : s'.world.received =
      world.received ++ files.map fun f => .entry (entryOf f)) :
    ∀ f ∈ files, Sendable f := by
  induction files generalizing residue world v with
  | nil => simp
  | cons f files ih =>
    rw [List.flatMap_cons, List.append_assoc, List.length_cons, receiveEntries] at h
    obtain ⟨v₁, s₁, hhead, hrest⟩ := Prog.bind_returns h
    have hgood₁ := (keeps_receiveEntries ops files.length v₁).good hrest hgood
    obtain ⟨e, hreceived₁, hcases⟩ := receiveEntry_inexact (hf f List.mem_cons_self) hr hhead
    have hprefix : s₁.world.received <+: s'.world.received :=
      (steps_receiveEntries ops files.length v₁).returns hrest
    have he : e = entryOf f := by
      rw [hreceived₁, hreceived, List.prefix_append_right_inj] at hprefix
      obtain ⟨later, hlater⟩ := hprefix
      exact Received.entry.inj (List.cons.inj hlater).1
    have hsend : Sendable f := by
      rcases hcases with hne | hbroken | hsend
      · exact absurd he hne
      · exact absurd (hbroken.symm.trans hgood₁) (by simp)
      · exact hsend
    obtain ⟨residue₁, world₁, hr₁, rfl, hworld₁⟩ :=
      (ends_receiveEntry (hf f List.mem_cons_self) hsend hr v).returns hhead
    have hlater := ih (fun x hx => hf x (List.mem_cons_of_mem f hx)) hr₁ hrest (by
      rw [hreceived, hworld₁, List.append_assoc]
      rfl)
    intro x hx
    rcases List.mem_cons.mp hx with rfl | hx
    · exact hsend
    · exact hlater x hx

end Entries

/-- The files of a map, in the order of their names. -/
def filesOf (m : RestoreMap) : List File := m.entries.map Prod.snd

/-- What the client should understand of a whole map. -/
def expected (m : RestoreMap) : List Received :=
  .count m.entries.length :: (filesOf m).map fun f => .entry (entryOf f)

theorem restoreBytes_eq (m : RestoreMap) :
    restoreBytes m = field intMaxNDigit m.entries.length ++ (filesOf m).flatMap entryBytes := by
  rw [restoreBytes, filesOf, List.flatMap_map]

theorem length_filesOf (m : RestoreMap) : (filesOf m).length = m.entries.length :=
  List.length_map _

section Maps

variable {φ : Type} {ops : FileOps φ} {m : RestoreMap} {residue wire : Bytes} {closed : Bool}
variable {world : Restoring φ} (hf : ∀ f ∈ filesOf m, WellSized f) (hr : Blank residue)
variable (v : Locals) (pathNumber : ℤ) (date userPath : Bytes)

include hf hr

/-- A sendable map arrives as it was sent, unless a file operation throws. -/
theorem ends_actionRestore (hcount : (m.entries.length : ℤ) ≤ Istream.intMax)
    (hs : ∀ f ∈ filesOf m, Sendable f) :
    Prog.Ends (actionRestore ops v pathNumber date userPath)
      ⟨restoreBytes m ++ wire, closed, .fresh residue, world⟩
      (fun _ s' => Arrived wire closed (world.received ++ expected m) s')
      (fun s' => ¬ops.Succeeds ∧ s'.world.received <+: world.received ++ expected m) := by
  have hint : InInt m.entries.length := ⟨le_trans (by decide) (Int.natCast_nonneg _), hcount⟩
  have hlen : (m.entries.length : ℤ).toNat = (filesOf m).length := by
    rw [Int.toNat_natCast, length_filesOf]
  have hsplit : world.received ++ expected m =
      (world.received ++ [.count m.entries.length]) ++
        (filesOf m).map fun f => .entry (entryOf f) := by
    rw [List.append_assoc]
    rfl
  have hhandler : ∀ s' : Session (Restoring φ),
      (¬ops.Succeeds ∧ s'.world.received <+: world.received ++ expected m) →
      ∀ _ : String, Prog.Ends (cleanUp ops) s'
        (fun _ s' => Arrived wire closed (world.received ++ expected m) s')
        (fun s' => ¬ops.Succeeds ∧ s'.world.received <+: world.received ++ expected m) :=
    fun _ h _ => ends_cleanUp fun _ => h
  refine .tryCatch (.mono ?_ (fun _ _ h => h) hhandler)
  rw [restoreBytes_eq, List.append_assoc, hsplit]
  refine .bind_of_returns (write_apply _ _) (.bind_of_returns
    (Prog.recvInt_field (fits_of_nonneg hint (Int.natCast_nonneg _)) hint hr _)
    (.bind_of_returns (note_apply _ _) (.bind (ends_require ?_ ?_))))
  · intro files
    rw [hlen]
    refine .bind ((ends_receiveEntries hf hs Blank.newline v).mono ?_ fun _ h => h)
    intro _ s₁ h
    obtain ⟨residue₁, world₁, hr₁, rfl, hreceived⟩ := h
    have hprefix : world₁.received <+: (world.received ++ [.count m.entries.length]) ++
        (filesOf m).map fun f => .entry (entryOf f) := hreceived ▸ List.prefix_refl _
    refine .bind (ends_require (fun files₁ => ends_require (fun files₂ => ?_) ?_) ?_)
    · exact ⟨residue₁, _, hr₁, rfl, hreceived⟩
    · intro hfail files₂
      obtain ⟨w, hw⟩ := hfail
      exact ⟨fun hops => hw (hops.rename _ _ w), hprefix⟩
    · intro hfail files₁
      obtain ⟨w, hw⟩ := hfail
      exact ⟨fun hops => hw (hops.removeAll _ w), hprefix⟩
  · intro hfail files
    obtain ⟨w, hw⟩ := hfail
    exact ⟨fun hops => hw (hops.createDirectory _ w), List.prefix_append _ _⟩

/-- The converse: a map that arrives as it was sent, in a stream that stays good, was sendable. -/
theorem sendable_of_actionRestore {s' : Session (Restoring φ)}
    (h : actionRestore ops v pathNumber date userPath
      ⟨restoreBytes m ++ wire, closed, .fresh residue, world⟩ = (.returns (), s'))
    (hgood : s'.stream.good = true) (hreceived : s'.world.received = world.received ++ expected m) :
    (m.entries.length : ℤ) ≤ Istream.intMax ∧ ∀ f ∈ filesOf m, Sendable f := by
  rw [restoreBytes_eq, List.append_assoc] at h
  obtain ⟨n, s₁, s₃, files, files', hcount, hentries, rfl⟩ := actionRestore_phases h
  have hgood₃ : s₃.stream.good = true := hgood
  have hgood₁ := (keeps_receiveEntries _ _ _).good hentries hgood₃
  have hreceived₁ : world.received = s₁.world.received :=
    (Prog.Steps.recvInt (R := SameReceived) _ _).returns hcount
  have hreceived₃ : s₃.world.received = world.received ++ expected m := hreceived
  have hprefix : s₁.world.received ++ [.count n] <+: s₃.world.received :=
    (steps_receiveEntries _ _ _).returns hentries
  have hn : n = m.entries.length := by
    rw [hreceived₃, ← hreceived₁, List.prefix_append_right_inj] at hprefix
    obtain ⟨later, hlater⟩ := hprefix
    exact Received.count.inj (List.cons.inj hlater).1
  subst hn
  have hint : InInt m.entries.length := by
    rcases Prog.recvInt_inexact hr hcount with hne | hbroken | hfits
    · exact absurd rfl hne
    · exact absurd (hbroken.symm.trans hgood₁) (by simp)
    · exact hfits.2
  refine ⟨hint.2, ?_⟩
  rw [Prog.recvInt_field (fits_of_nonneg hint (Int.natCast_nonneg _)) hint hr, Prod.mk.injEq]
    at hcount
  have hlen : (m.entries.length : ℤ).toNat = (filesOf m).length := by
    rw [Int.toNat_natCast, length_filesOf]
  rw [hlen, ← hcount.2] at hentries
  refine sendable_of_receiveEntries hf Blank.newline hentries hgood₃ ?_
  rw [hreceived₃]
  show world.received ++ expected m = (world.received ++ [.count m.entries.length]) ++
    (filesOf m).map fun f => .entry (entryOf f)
  rw [List.append_assoc]
  rfl

end Maps

/-- Whatever the file system does, the client understands the map as it was sent, and what is left
in the channel is the response; only a failing file operation ends the restore before. -/
def RestoreRoundTrips (m : RestoreMap) (index : ℤ) : Prop :=
  ∀ (φ : Type) (ops : FileOps φ) (v : Locals) (pathNumber : ℤ) (date userPath residue : Bytes)
    (closed : Bool) (files : φ), Blank residue →
    Prog.Ends (actionRestore ops v pathNumber date userPath)
      ⟨restoreBytes m ++ responseBytes index .completed, closed, .fresh residue, ⟨[], files, []⟩⟩
      (fun _ s' => Arrived (responseBytes index .completed) closed (expected m) s')
      (fun s' => ¬ops.Succeeds ∧ s'.world.received <+: expected m)

/-- A file system on which everything succeeds. -/
def willingOps {φ : Type} : FileOps φ where
  createDirectory _ w := (true, w)
  openFile _ w := (true, w)
  write _ _ w := (true, w)
  closeFile _ w := w
  lastWriteTime _ _ w := (true, w)
  permissions _ _ w := (true, w)
  removeAll _ w := (true, w)
  rename _ _ w := (true, w)

theorem succeeds_willingOps {φ : Type} : (willingOps (φ := φ)).Succeeds := by
  constructor <;> intros <;> rfl

/-- The locals of the client before the first entry. -/
def zeroLocals : Locals := ⟨0, 0, 0, [], 0, 0⟩

theorem sendable_of_roundTrips {m : RestoreMap} {index : ℤ} (hf : ∀ f ∈ filesOf m, WellSized f)
    (h : RestoreRoundTrips m index) :
    (m.entries.length : ℤ) ≤ Istream.intMax ∧ ∀ f ∈ filesOf m, Sendable f := by
  have hends := h Unit willingOps zeroLocals 0 [] [] [] true () Blank.nil
  obtain ⟨_, s', hrun, harrived⟩ :=
    (hends.mono (fun _ _ h => h) fun _ h => h.1 succeeds_willingOps).exists_returns
  obtain ⟨residue, world, -, rfl, hreceived⟩ := harrived
  exact sendable_of_actionRestore hf Blank.nil zeroLocals 0 [] [] hrun rfl hreceived

/-- A map as `getRestoreEntries` returns it for the usual rows: names of one line and permissions
that are not negative. -/
structure Usual (f : File) : Prop extends WellSized f where
  oneLine : newline ∉ f.filename
  mode : 0 ≤ f.permissions

/-- The restore stream round trip holds exactly when the count is an `int` and no padding comes
before a minus sign. -/
theorem restore_stream (m : RestoreMap) (hm : ∀ f ∈ filesOf m, Usual f) (index : ℤ) :
    RestoreRoundTrips m index ↔ (m.entries.length : ℤ) ≤ Istream.intMax ∧
      ∀ f ∈ filesOf m, Fits intMaxNDigit f.lastWriteTime := by
  have hf : ∀ f ∈ filesOf m, WellSized f := fun f hmem => (hm f hmem).toWellSized
  constructor
  · intro h
    obtain ⟨hcount, hsend⟩ := sendable_of_roundTrips hf h
    exact ⟨hcount, fun f hmem => (hsend f hmem).lastWriteTime⟩
  · intro h φ ops v pathNumber date userPath residue closed files hr
    have hsend : ∀ f ∈ filesOf m, Sendable f := by
      intro f hmem
      obtain ⟨hsized, hline, hmode⟩ := hm f hmem
      exact ⟨hline, h.2 f hmem, fits_of_nonneg hsized.permissions hmode⟩
    exact ends_actionRestore hf hr v pathNumber date userPath h.1 hsend

/-- The map of one folder `/d`, with the given time. -/
def folderMap (lastWriteTime : ℤ) : RestoreMap where
  entries := [([47, 100], ⟨0, 1, [47, 100], [], lastWriteTime, 493⟩)]
  sorted := List.pairwise_singleton _ _

theorem usual_folderMap {lastWriteTime : ℤ} (h : InInt lastWriteTime) :
    ∀ f ∈ filesOf (folderMap lastWriteTime), Usual f := by
  intro f hf
  rw [List.mem_singleton.mp hf]
  have hname : newline ∉ ([47, 100] : Bytes) := by decide
  have hmode : InInt 493 := by decide
  have hzero : InInt 0 := by decide
  exact ⟨⟨Nat.le_of_ble_eq_true rfl, h, hmode, Or.inl rfl, hzero⟩, hname, Int.natCast_nonneg 493⟩

theorem restore_stream_folder : RestoreRoundTrips (folderMap 1714521600) 7 :=
  (restore_stream _ (usual_folderMap (by decide)) 7).mpr ⟨by decide, by decide⟩

/-- Five seconds before 1970 are sent as `00000000-5`, which reads as zero. -/
theorem restore_stream_before_1970 : ¬RestoreRoundTrips (folderMap (-5)) 7 := by
  intro h
  have hsend := (sendable_of_roundTrips
    (fun f hf => (usual_folderMap (by decide) f hf).toWellSized) h).2 _ (List.mem_singleton_self _)
  exact absurd hsend.lastWriteTime (by decide)

end BackupManager.Protocol
