import BackupManager.Client.WholeRestore
import BackupManager.Protocol.RestoreOrder
import BackupManager.Protocol.Snapshots

/-! A restore of a date, from the folder that was watched to the folder that is restored: whatever is
stored on later days, what the server selects is sent, understood and replayed as the tree of the date. -/
namespace BackupManager.Protocol
open ByteStream Client Digest Server Table Transition

/-- A row that an upload leaves: a folder, or a file under its digest. -/
structure Genuine (hash : Bytes → Bytes) (r : Row) : Prop where
  kind : r.action = .createFolder ∧ r.hash = dirHash ∨ r.action = .readFile ∧ r.hash = hash r.file
  size : r.size = r.file.length
  small : r.file.length ≤ maxFileSize
  mode : ∃ p : ℕ, p ≤ 0xFFFF ∧ r.permissions = decimal p

/-- Every row that does not delete its path comes from an upload. -/
def Backed (hash : Bytes → Bytes) (table : UserTable) : Prop :=
  ∀ r ∈ table.rows, r.action ≠ .deletePath → Genuine hash r

/-- A time that is an `int` and is sent without a sign. -/
def Timely (r : Row) : Prop := ∃ t : ℕ, t ≤ 2147483647 ∧ r.lastWriteTime = decimal t

section Rows

variable {hash : Bytes → Bytes} {mainPath : Bytes} {table table' : UserTable} {disk : Disk}
  {action : Action} {index : ℤ} {day : Bytes}

/-- The row of an upload that is written. -/
theorem genuine_call (hwritten : IsWritten disk action)
    (hkind : ((uploadOf mainPath disk action index).call hash day).row.action ≠ .deletePath) :
    Genuine hash ((uploadOf mainPath disk action index).call hash day).row := by
  have hmode : (disk.permissions mainPath).getD 0 ≤ 0xFFFF := by
    cases hp : disk.permissions mainPath with
    | none => decide
    | some p => exact disk.mode mainPath p hp
  cases htype : action.actionType with
  | createFolder =>
    have hcall : (uploadOf mainPath disk action index).call hash day =
        createFolderCall (action.path.drop mainPath.length) day
          (showInt ((disk.lastWriteTime mainPath).getD 0))
          (decimal ((disk.permissions mainPath).getD 0)) := by
      simp [Upload.call, uploadOf, htype]
    rw [hcall]
    exact ⟨Or.inl ⟨rfl, rfl⟩, rfl, Nat.zero_le _, ⟨_, hmode, rfl⟩⟩
  | readFile =>
    have hcall : (uploadOf mainPath disk action index).call hash day =
        readFileCall hash (action.path.drop mainPath.length) day
          (showInt ((disk.lastWriteTime mainPath).getD 0))
          (decimal ((disk.permissions mainPath).getD 0)) ((disk.content action.path).getD [])
          ((disk.content action.path).getD []).length := by
      simp [Upload.call, uploadOf, htype]
    have hsmall : ((disk.content action.path).getD []).length ≤ maxFileSize := by
      cases hcontent : disk.content action.path with
      | none => exact Nat.zero_le _
      | some content => exact hwritten.2 htype _ (disk.sized action.path content hcontent)
    have hfile : (readFileCall hash (action.path.drop mainPath.length) day
        (showInt ((disk.lastWriteTime mainPath).getD 0))
        (decimal ((disk.permissions mainPath).getD 0)) ((disk.content action.path).getD [])
        ((disk.content action.path).getD []).length).row.file =
          (disk.content action.path).getD [] :=
      congrArg Row.file (AddAction.row_eq_wholeRow rfl)
    rw [hcall]
    refine ⟨Or.inr ⟨rfl, ?_⟩, ?_, ?_, ⟨_, hmode, rfl⟩⟩
    · exact congrArg hash hfile.symm
    · exact congrArg (fun bytes : Bytes => (bytes.length : ℤ)) hfile.symm
    · exact le_of_eq_of_le (congrArg List.length hfile) hsmall
  | _ => exact absurd (by simp [Upload.call, uploadOf, htype, deletePathCall, AddAction.row]) hkind

theorem backed_storeAction (h : Backed hash table)
    (hstore : storeAction hash mainPath disk index day table action = some table') :
    Backed hash table' := by
  unfold storeAction at hstore
  split at hstore
  · next hwritten =>
    intro r hr hkind
    rw [addAction_rows hstore] at hr
    rcases mem_upsert.mp hr with rfl | ⟨hold, -⟩
    · exact genuine_call hwritten hkind
    · exact h r hold hkind
  · rw [← Option.some.inj hstore]
    exact h

theorem backed_delivered {tree : Tree mainPath} {actions : List Action} (h : Backed hash table)
    (hdelivered : Delivered hash tree actions table table') : Backed hash table' := by
  induction hdelivered with
  | nil => exact h
  | cons disk index day shows later stored rest ih => exact ih (backed_storeAction h stored)

/-- Whatever the sessions were, and in whatever order their passes came. -/
theorem backed_sessions {default : Action} {today : Bytes} {events : List (SnapshotEvent mainPath)}
    {sessions : Snapshots}
    (hrun : run (Snapshots.step hash default) (Snapshots.initial today) events = some sessions) :
    Backed hash sessions.table := by
  have hempty : Backed hash (Snapshots.initial today).table := fun r hr => absurd hr List.not_mem_nil
  refine run_keeps (I := fun s => Backed hash s.table) (fun s e s' h hstep => ?_) hempty hrun
  cases e with
  | start walk order =>
    simp only [Snapshots.step] at hstep
    split at hstep
    · exact Option.some.inj hstep ▸ h
    · cases hstep
  | scan walk order =>
    obtain ⟨w, -, hscan⟩ := Option.bind_eq_some_iff.mp hstep
    split at hscan
    · exact Option.some.inj hscan ▸ h
    · cases hscan
  | store disk responses =>
    obtain ⟨w, -, hstore⟩ := Option.bind_eq_some_iff.mp hstep
    unfold Snapshots.store at hstore
    split at hstore
    · cases hstore
    · split at hstore
      · obtain ⟨table, hadd, rfl⟩ := Option.map_eq_some_iff.mp hstore
        exact backed_storeAction h hadd
      · cases hstore
  | midnight day =>
    simp only [Snapshots.step] at hstep
    split at hstep
    · exact Option.some.inj hstep ▸ h
    · cases hstep
  | stop => exact Option.some.inj hstep ▸ h

/-- What a file shows of its content. -/
def digestOf (hash : Bytes → Bytes) : Option Bytes → Bytes
  | none => dirHash
  | some content => hash content

/-- A genuine row with a name that is kept comes back as what was uploaded. -/
theorem restoreFile_genuine (hhash : ∀ content, IsDigest (hash content)) {r : Row}
    (h : Genuine hash r) (hascii : PlainAscii r.filename) (htimely : Timely r) :
    ∃ f, restoreFile r = .ok f ∧ f.filename = r.filename ∧
      digestOf hash (entryOf f).shown = r.hash ∧ (r.hash = dirHash → f.isDirectory = 1) ∧
      0 ≤ f.lastWriteTime ∧ 0 ≤ f.permissions := by
  obtain ⟨t, hint, ht⟩ := htimely
  obtain ⟨p, hp, hmode⟩ := h.mode
  have htime : stoi r.lastWriteTime = some (t : ℤ) := by
    have hshow : r.lastWriteTime = showInt t := ht
    rw [hshow, stoi_showInt, if_pos (inInt_natCast hint)]
  have hpermissions : stoi r.permissions = some (p : ℤ) := by
    have hshow : r.permissions = showInt p := hmode
    have hint : InInt p := inInt_natCast (le_trans hp (by decide))
    rw [hshow, stoi_showInt, if_pos hint]
  have hname : r.filename.take (sqliteLength r.filename) = r.filename := by
    rw [sqliteLength_of_plain hascii, List.take_length]
  have hdir : cString dirHash = dirHash := by decide
  rcases h.kind with ⟨-, hkind⟩ | ⟨-, hkind⟩
  · refine ⟨⟨r.size, 1, r.filename, [], t, p⟩, ?_, rfl, hkind.symm, fun _ => rfl, Int.natCast_nonneg t,
      Int.natCast_nonneg p⟩
    simp [restoreFile, htime, hpermissions, hname, hkind, hdir, pure, Except.pure]
  · have hne : cString r.hash ≠ dirHash := by
      rw [hkind, (hhash _).cString]
      exact (hhash _).ne_dirHash
    have hsize : ¬r.size < 0 := by
      rw [h.size]
      omega
    have hfile : r.file.take r.size.toNat = r.file := by
      rw [h.size, Int.toNat_natCast, List.take_length]
    refine ⟨⟨r.size, 0, r.filename, r.file, t, p⟩, ?_, rfl, hkind.symm, fun heq => ?_,
      Int.natCast_nonneg t, Int.natCast_nonneg p⟩
    · simp [restoreFile, htime, hpermissions, hname, hne, hsize, hfile, pure, Except.pure]
    · rw [hkind] at heq
      exact absurd heq (hhash _).ne_dirHash

/-- Rows that all decode, in the order of their names. -/
theorem exists_restoreMap {rows : List Row} (hsorted : (rows.map Row.filename).Pairwise (· < ·))
    (hrows : ∀ r ∈ rows, ∃ f, restoreFile r = .ok f ∧ f.filename = r.filename) :
    ∃ m, getRestoreEntries (complete rows) = .ok m ∧ (∀ x ∈ m.entries, x.1 = x.2.filename) ∧
      m.entries.length = rows.length ∧
      ∀ f, f ∈ filesOf m ↔ ∃ r ∈ rows, restoreFile r = .ok f := by
  obtain ⟨files, hfiles, hnames⟩ : ∃ files : List File, rows.map restoreFile = files.map .ok ∧
      files.map File.filename = rows.map Row.filename := by
    clear hsorted
    induction rows with
    | nil => exact ⟨[], rfl, rfl⟩
    | cons r rows ih =>
      obtain ⟨f, hf, hname⟩ := hrows r List.mem_cons_self
      obtain ⟨files, hfiles, hnames⟩ := ih fun x hx => hrows x (List.mem_cons_of_mem r hx)
      refine ⟨f :: files, ?_, ?_⟩
      · rw [List.map_cons, List.map_cons, hf, hfiles]
      · rw [List.map_cons, List.map_cons, hname, hnames]
  have hentries : (insertAll .empty files).entries = files.map fun f => (f.filename, f) :=
    insertAll_empty (by rw [hnames]; exact hsorted)
  have hfilesOf : filesOf (insertAll .empty files) = files := by
    rw [filesOf, hentries, List.map_map]
    exact List.map_id files
  refine ⟨insertAll .empty files, ?_, fun x hx => ?_, ?_, fun f => ?_⟩
  · exact (getRestoreEntries_rows done_ne_row).mpr ⟨files, hfiles, rfl⟩
  · rw [hentries] at hx
    obtain ⟨f, -, rfl⟩ := List.mem_map.mp hx
    rfl
  · have hlength := congrArg List.length hfiles
    rw [List.length_map, List.length_map] at hlength
    rw [hentries, List.length_map, hlength]
  · rw [hfilesOf]
    constructor
    · intro hf
      have hmem : Except.ok f ∈ rows.map restoreFile := by
        rw [hfiles]
        exact List.mem_map_of_mem hf
      exact List.mem_map.mp hmem
    · rintro ⟨r, hr, hdecoded⟩
      have hmem : restoreFile r ∈ files.map Except.ok := by
        rw [← hfiles]
        exact List.mem_map_of_mem hr
      rw [hdecoded] at hmem
      obtain ⟨f', hf', heq⟩ := List.mem_map.mp hmem
      rwa [← Except.ok.inj heq]

/-- What is stored on later days is not selected. -/
theorem selectRestore_of_all_later {date : Bytes} {later : List AddAction}
    (hlater : ∀ c ∈ later, date < c.timestamp) (hstored : addActions table later = some table') :
    selectRestore table' .deletePath date = selectRestore table .deletePath date := by
  induction later generalizing table with
  | nil => rw [← Option.some.inj hstored]
  | cons c later ih =>
    obtain ⟨table₁, hadd, hrest⟩ := Option.bind_eq_some_iff.mp hstored
    rw [ih (fun x hx => hlater x (List.mem_cons_of_mem c hx)) hrest,
      selectRestore_of_later .deletePath (hlater c List.mem_cons_self) hadd]

end Rows

section Watched

variable {hash : Bytes → Bytes} {mainPath : Bytes} {passes : List (Pass mainPath)} {w : Watching}

/-- Passes on genuine rows leave genuine rows. -/
theorem backed_watched (h : Watched hash passes w)
    (hfirst : ∀ y ∈ passes.getLast?, Backed hash y.before) : ∀ y ∈ passes, Backed hash y.after := by
  induction h with
  | init clean received nodup listed delivered =>
    rw [List.forall_mem_singleton]
    exact backed_delivered (hfirst _ rfl) delivered
  | scan run changed nodup listed delivered ih =>
    have hbefore := ih fun y hy => hfirst y (by rwa [List.getLast?_cons_cons])
    exact List.forall_mem_cons.mpr
      ⟨backed_delivered (hbefore _ List.mem_cons_self) delivered, hbefore⟩

/-- A watcher that never finds a folder in the place of a file is followed. -/
theorem follows_of_watched (hhash : ∀ content, IsDigest (hash content)) (h : Watched hash passes w)
    (hkinds : ∀ y ∈ passes, NoFileIsFolder y.before y.tree) :
    ∀ y ∈ passes, Follows hash y.after y.tree := by
  induction h with
  | init clean received nodup listed delivered =>
    obtain ⟨hclean, -, hsettles⟩ :=
      settles_of_watched hhash (.init clean received nodup listed delivered)
    rw [List.forall_mem_singleton] at hkinds ⊢
    exact (follows_iff_noFileIsFolder hclean (hsettles (by simp))).mpr hkinds
  | scan run changed nodup listed delivered ih =>
    obtain ⟨hclean, -, hsettles⟩ :=
      settles_of_watched hhash (.scan run changed nodup listed delivered)
    obtain ⟨hlast, hbefore⟩ := List.forall_mem_cons.mp hkinds
    have hfollows := ih hbefore
    exact List.forall_mem_cons.mpr
      ⟨(follows_iff_noFileIsFolder hclean (hsettles hfollows)).mpr hlast, hfollows⟩

end Watched

/-- A tree whose paths pass through the database and the stream unchanged: lines of plain ASCII that
start with a separator, made of names, each below a folder of the tree. -/
structure Portable {mainPath : Bytes} (tree : Tree mainPath) : Prop where
  absolute : ∀ e ∈ tree.entries, (relative mainPath e.1).head? = some slash
  plain : ∀ e ∈ tree.entries, PlainPath (relative mainPath e.1)
  ascii : ∀ e ∈ tree.entries, PlainAscii (relative mainPath e.1)
  lines : ∀ e ∈ tree.entries, newline ∉ relative mainPath e.1
  short : ∀ e ∈ tree.entries, (relative mainPath e.1).length ≤ 1000000000
  parents : ∀ e ∈ tree.entries, ∀ q ∈ parentPath (relative mainPath e.1),
    ∃ d ∈ tree.entries, d.1 = mainPath ++ q ∧ d.2.isDirectory = true
  few : (tree.entries.length : ℤ) ≤ Istream.intMax

section Selected

variable {hash : Bytes → Bytes} {mainPath : Bytes} {table : UserTable} {tree : Tree mainPath}
  {rows : List Row}

/-- The rows show the tree: one for each path, under the digest of what stands there. -/
structure RowsOf (hash : Bytes → Bytes) (tree : Tree mainPath) (rows : List Row) : Prop where
  sorted : (rows.map Row.filename).Pairwise (· < ·)
  genuine : ∀ r ∈ rows, Genuine hash r
  timely : ∀ r ∈ rows, Timely r
  shows : ∀ k h, (∃ r ∈ rows, r.filename = k ∧ r.hash = h) ↔
    ∃ n, tree.find (mainPath ++ k) = some n ∧ n.hashStr hash = h

/-- What a file of the map is shown as. -/
def Carries (hash : Bytes → Bytes) (tree : Tree mainPath) (m : RestoreMap) : Prop :=
  ∀ k h, (∃ f ∈ filesOf m, f.filename = k ∧ digestOf hash (entryOf f).shown = h) ↔
    ∃ n, tree.find (mainPath ++ k) = some n ∧ n.hashStr hash = h

/-- A selected row is the row of an entry of the tree. -/
theorem RowsOf.entry (h : RowsOf hash tree rows) {r : Row} (hr : r ∈ rows) :
    ∃ n, (mainPath ++ r.filename, n) ∈ tree.entries := by
  obtain ⟨n, hfind, -⟩ := (h.shows r.filename r.hash).mp ⟨r, hr, rfl, rfl⟩
  exact ⟨n, tree.find_eq_some_iff.mp hfind⟩

theorem RowsOf.length_le (h : RowsOf hash tree rows) : rows.length ≤ tree.entries.length := by
  have hnodup : (rows.map fun r => mainPath ++ r.filename).Nodup := by
    have hnames : (rows.map Row.filename).Nodup := h.sorted.imp fun hlt => ne_of_lt hlt
    have hmap : (rows.map fun r => mainPath ++ r.filename) =
        (rows.map Row.filename).map (mainPath ++ ·) := by
      rw [List.map_map]
      rfl
    rw [hmap]
    exact hnames.map fun _ _ heq => List.append_cancel_left heq
  have hsub : (rows.map fun r => mainPath ++ r.filename) ⊆ tree.entries.map Prod.fst := by
    intro p hp
    obtain ⟨r, hr, rfl⟩ := List.mem_map.mp hp
    obtain ⟨n, hn⟩ := h.entry hr
    exact List.mem_map_of_mem hn
  have hle := (List.subperm_of_subset hnodup hsub).length_le
  rwa [List.length_map, List.length_map] at hle

/-- The rows of a portable tree become a map that carries it. -/
theorem RowsOf.exists_map (hhash : ∀ content, IsDigest (hash content)) (h : RowsOf hash tree rows)
    (hportable : Portable tree) :
    ∃ m, getRestoreEntries (complete rows) = .ok m ∧ EntrySet m ∧ Plain m ∧ OneLine m ∧
      MetadataFits m ∧ (m.entries.length : ℤ) ≤ Istream.intMax ∧ Carries hash tree m := by
  have hascii : ∀ r ∈ rows, PlainAscii r.filename := by
    intro r hr
    obtain ⟨n, hn⟩ := h.entry hr
    simpa using hportable.ascii _ hn
  have hdecode : ∀ r ∈ rows, ∃ f, restoreFile r = .ok f ∧ f.filename = r.filename ∧
      digestOf hash (entryOf f).shown = r.hash ∧ (r.hash = dirHash → f.isDirectory = 1) ∧
      0 ≤ f.lastWriteTime ∧ 0 ≤ f.permissions := fun r hr =>
    restoreFile_genuine hhash (h.genuine r hr) (hascii r hr) (h.timely r hr)
  obtain ⟨m, hm, hkeyed, hlength, hfiles⟩ := exists_restoreMap h.sorted fun r hr => by
    obtain ⟨f, hf, hname, -⟩ := hdecode r hr
    exact ⟨f, hf, hname⟩
  -- every file of the map, with the row and the entry that it comes from
  have hfile : ∀ f ∈ filesOf m, ∃ r ∈ rows, f.filename = r.filename ∧
      digestOf hash (entryOf f).shown = r.hash ∧ 0 ≤ f.lastWriteTime ∧ 0 ≤ f.permissions ∧
      WellSized f ∧ ∃ n, (mainPath ++ f.filename, n) ∈ tree.entries := by
    intro f hf
    obtain ⟨r, hr, hdecoded⟩ := (hfiles f).mp hf
    obtain ⟨f', hf', hname, hshown, -, htime, hmode⟩ := hdecode r hr
    rw [hdecoded] at hf'
    cases hf'
    obtain ⟨n, hn⟩ := h.entry hr
    have hshort := hportable.short _ hn
    rw [relative_append] at hshort
    have hsmall : InInt r.size := by
      rw [(h.genuine r hr).size]
      exact inInt_natCast (le_trans (h.genuine r hr).small (by decide))
    refine ⟨r, hr, hname, hshown, htime, hmode, ?_, n, by rwa [hname]⟩
    exact wellSized_restoreFile ⟨hshort, (h.genuine r hr).size, hsmall⟩ hdecoded
  have hcarries : Carries hash tree m := by
    intro k x
    rw [← h.shows]
    constructor
    · rintro ⟨f, hf, rfl, rfl⟩
      obtain ⟨r, hr, hname, hshown, -⟩ := hfile f hf
      exact ⟨r, hr, hname.symm, hshown.symm⟩
    · rintro ⟨r, hr, rfl, rfl⟩
      obtain ⟨f, hf, hname, hshown, -⟩ := hdecode r hr
      exact ⟨f, (hfiles f).mpr ⟨r, hr, hf⟩, hname, hshown⟩
  have hentries : EntrySet m := by
    refine ⟨hkeyed, fun f hf => ?_, fun f hf => ?_, fun f hf q hq => ?_, fun f hf => ?_⟩
    · obtain ⟨r, -, -, -, -, -, -, n, hn⟩ := hfile f hf
      simpa using hportable.absolute _ hn
    · obtain ⟨r, hr, hname, -⟩ := hfile f hf
      rw [hname]
      exact fun hzero => absurd (hascii r hr 0 hzero).1 (lt_irrefl _)
    · obtain ⟨r, -, -, -, -, -, -, n, hn⟩ := hfile f hf
      obtain ⟨d, hd, hpath, hdir⟩ := hportable.parents _ hn q (by simpa using hq)
      have hfind : tree.find (mainPath ++ q) = some d.2 := by
        rw [tree.find_eq_some_iff, ← hpath]
        exact hd
      have hdirHash : d.2.hashStr hash = dirHash := by
        unfold Node.hashStr
        rw [Option.isNone_iff_eq_none.mp hdir]
      obtain ⟨r', hr', hname', hhash'⟩ := (h.shows q dirHash).mpr ⟨d.2, hfind, hdirHash⟩
      obtain ⟨f', hf', hfilename, -, hisdir, -⟩ := hdecode r' hr'
      exact ⟨f', (hfiles f').mpr ⟨r', hr', hf'⟩, hfilename.trans hname', hisdir hhash'⟩
    · obtain ⟨r, -, -, -, -, -, hsized, -⟩ := hfile f hf
      exact hsized
  refine ⟨m, hm, hentries, fun f hf => ?_, fun f hf => ?_, fun f hf => ?_, ?_, hcarries⟩
  · obtain ⟨r, -, -, -, -, -, -, n, hn⟩ := hfile f hf
    simpa using hportable.plain _ hn
  · obtain ⟨r, -, -, -, -, -, -, n, hn⟩ := hfile f hf
    simpa using hportable.lines _ hn
  · obtain ⟨r, -, -, -, htime, hmode, hsized, -⟩ := hfile f hf
    exact ⟨fits_of_nonneg hsized.lastWriteTime htime, fits_of_nonneg hsized.permissions hmode⟩
  · rw [hlength]
    exact le_trans (Int.ofNat_le.mpr h.length_le) hportable.few

end Selected

section Days

variable {hash : Bytes → Bytes} {mainPath : Bytes} {x : Pass mainPath} {passes : List (Pass mainPath)}
  {w : Watching} {date : Bytes} {later : List AddAction} {table : UserTable}

/-- The rows of a date show the tree of its last pass, whatever is stored later. -/
theorem rowsOf_watched (hhash : ∀ content, IsDigest (hash content))
    (hwatched : Watched hash (x :: passes) w)
    (hfirst : ∀ y ∈ (x :: passes).getLast?, Backed hash y.before)
    (hkinds : ∀ y ∈ x :: passes, NoFileIsFolder y.before y.tree)
    (hdated : ∀ r ∈ x.after.rows, r.timestamp ≤ date)
    (htimes : ∀ r ∈ x.after.rows, r.action ≠ .deletePath → Timely r)
    (hlater : ∀ c ∈ later, date < c.timestamp) (hstored : addActions x.after later = some table) :
    RowsOf hash x.tree (selectRestore table .deletePath date) := by
  have hselect : selectRestore table .deletePath date = selectInitialization x.after .deletePath := by
    rw [selectRestore_of_all_later hlater hstored]
    exact selectRestore_of_last hdated
  have hfollows := follows_of_watched hhash hwatched hkinds x List.mem_cons_self
  have hbacked := backed_watched hwatched hfirst x List.mem_cons_self
  obtain ⟨hclean, -⟩ := settles_of_watched hhash hwatched
  have hkept : ∀ r ∈ selectInitialization x.after .deletePath, r.action ≠ .deletePath := fun r hr => by
    simpa using (mem_current.mp (mem_orderByFilename.mp hr)).2.1
  rw [hselect]
  refine ⟨selectInitialization_sorted _ _, fun r hr => ?_, fun r hr => ?_, fun k digest => ?_⟩
  · exact hbacked r (mem_rows_of_select hr) (hkept r hr)
  · exact htimes r (mem_rows_of_select hr) (hkept r hr)
  · rw [← view_eq_some_iff, (follows_iff hclean).mp hfollows k, Option.map_eq_some_iff]

end Days

section Restore

variable {hash : Bytes → Bytes} {mainPath : Bytes} {tree : Tree mainPath} {m : RestoreMap}
  {vol : Volume} {user residue wire : Bytes} {closed : Bool} {world : Restoring Inodes}

/-- A map that carries a tree is restored as the tree, and what is left in the channel is what came
behind it. -/
theorem Carries.restores (h : Carries hash tree m) (hm : EntrySet m) (hplain : Plain m)
    (hlines : OneLine m) (hfits : MetadataFits m) (hcount : (m.entries.length : ℤ) ≤ Istream.intMax)
    (hadmits : ∀ permissions, vol.admits permissions = true) (hready : vol.Ready world.files user)
    (hr : Blank residue) (v : Locals) (pathNumber : ℤ) (date : Bytes) :
    ∃ s', Client.actionRestore vol.ops v pathNumber date user
        ⟨restoreBytes m ++ wire, closed, .fresh residue, world⟩ = (.returns (), s') ∧
      s'.wire = wire ∧
      (∀ k, k.head? = some slash → (s'.world.files (user ++ k)).map (digestOf hash ∘ Inode.content) =
        (tree.find (mainPath ++ k)).map (Node.hashStr hash)) ∧
      ∀ p, ¬Within user p → ¬Within tmpDir p → p ≠ folderOf tmpDir →
        s'.world.files p = world.files p := by
  have hsend : ∀ f ∈ filesOf m, Sendable f := fun f hf =>
    ⟨hlines f hf, (hfits f hf).1, (hfits f hf).2⟩
  have hint : InInt m.entries.length := ⟨le_trans (by decide) (Int.natCast_nonneg _), hcount⟩
  have hunderstood := understands_files hm.sized hsend Blank.newline v wire closed
    (⟨world.sent ++ [dateBlock date], world.files, world.received ++ [.count m.entries.length]⟩ :
      Restoring Inodes)
  rw [length_filesOf, ← Int.toNat_natCast m.entries.length] at hunderstood
  have hread : Prog.recvInt intMaxNDigit pathNumber
      (⟨restoreBytes m ++ wire, closed, .fresh residue,
        { world with sent := world.sent ++ [dateBlock date] }⟩ : Session (Restoring Inodes)) =
      (.returns (m.entries.length : ℤ), ⟨(filesOf m).flatMap entryBytes ++ wire, closed,
        .fresh [newline], { world with sent := world.sent ++ [dateBlock date] }⟩) := by
    rw [restoreBytes_eq, List.append_assoc]
    exact Prog.recvInt_field (fits_of_nonneg hint (Int.natCast_nonneg _)) hint hr _
  have hready' : vol.Ready (⟨restoreBytes m ++ wire, closed, .fresh residue, world⟩ :
      Session (Restoring Inodes)).world.files user := hready
  obtain ⟨s', hrun, hrestored⟩ := hready'.actionRestore (hm.serverOrder hplain)
    ⟨fun _ => hadmits _, fun _ _ _ => hadmits _⟩ hread rfl hunderstood
  obtain ⟨_, _, -, hs', -⟩ :=
    (ends_actionRestore hm.sized hr v pathNumber date user hcount hsend).returns hrun
  refine ⟨s', hrun, by rw [hs'], fun k hk => ?_, hrestored.elsewhere⟩
  have hiff : ∀ y, (s'.world.files (user ++ k)).map (digestOf hash ∘ Inode.content) = some y ↔
      (tree.find (mainPath ++ k)).map (Node.hashStr hash) = some y := by
    intro y
    rw [← Option.map_map, Option.map_eq_some_iff, Option.map_eq_some_iff, ← h k y]
    constructor
    · rintro ⟨c, hc, rfl⟩
      obtain ⟨e, he, hpath, rfl⟩ := (hrestored.shows k hk c).mp hc
      obtain ⟨f, hf, rfl⟩ := List.mem_map.mp he
      exact ⟨f, hf, hpath, rfl⟩
    · rintro ⟨f, hf, hpath, rfl⟩
      exact ⟨_, (hrestored.shows k hk _).mpr ⟨entryOf f, List.mem_map_of_mem hf, hpath, rfl⟩, rfl⟩
  exact Option.ext hiff

end Restore

section Samples

theorem portable_fileTree : Portable fileTree where
  absolute := by decide
  plain := by decide
  ascii := by decide
  lines := by decide
  short := by decide
  parents := by decide
  few := by decide

/-- A volume that holds the directory of the staging directory and nothing else. -/
def sampleVolume : Volume := ⟨fun _ => true, fun _ => 0, 0o755⟩

def sampleFiles : Inodes := Function.update (fun _ => none) (folderOf tmpDir) (some ⟨none, 0, 0o755⟩)

/-- The directory `/u`. -/
theorem ready_sampleFiles : sampleVolume.Ready sampleFiles [47, 117] where
  parent := ⟨0, 0o755, Function.update_self _ _ _, rfl⟩
  free p hp := by
    have hne : p ≠ folderOf tmpDir := by
      rintro rfl
      exact Volume.folderOf_tmpDir_outside hp
    exact Function.update_of_ne hne _ _
  outside := by decide
  apart := by decide

end Samples
end BackupManager.Protocol
