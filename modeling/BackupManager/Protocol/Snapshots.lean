import BackupManager.Client.ParentOrder
import BackupManager.Protocol.WatchedFolder
import BackupManager.Transition.Run

/-! What a restore of any date selects, while sessions come and go: each starts from the view of the
server, makes passes over the folder and stores its actions one by one. -/
namespace BackupManager.Protocol
open ByteStream Client Digest FileTree Server Table Transition

/-- A path below a subdirectory comes with the subdirectory. -/
def ParentClosedRows (rows : List Row) : Prop :=
  ∀ r ∈ rows, ∀ q ∈ parentPath r.filename, ∃ r' ∈ rows, r'.filename = q ∧ r'.hash = dirHash

instance (rows : List Row) : Decidable (ParentClosedRows rows) :=
  inferInstanceAs (Decidable (∀ r ∈ rows, ∀ q ∈ parentPath r.filename, _))

/-- So do the entries of every date. -/
def Restorable (table : UserTable) : Prop :=
  ∀ date, ParentClosedRows (selectRestore table .deletePath date)

section Rows

variable {mainPath : Bytes} {table table' : UserTable} {hash : Bytes → Bytes} {disk : Disk}
  {action : Action} {index : ℤ} {day : Bytes}

theorem parentClosed_view :
    UpClosed parentPath dirHash (view table) ↔
      ParentClosedRows (selectInitialization table .deletePath) := by
  constructor
  · intro h r hr q hq
    have hheld : view table r.filename ≠ none := by
      rw [view_eq_some_iff.mpr ⟨r, hr, rfl, rfl⟩]
      exact Option.some_ne_none _
    exact view_eq_some_iff.mp (h r.filename hheld q hq)
  · intro h k hk q hq
    obtain ⟨x, hx⟩ := Option.ne_none_iff_exists'.mp hk
    obtain ⟨r, hr, rfl, -⟩ := view_eq_some_iff.mp hx
    exact view_eq_some_iff.mpr (h r hr q hq)

/-- The view is what a restore of today selects. -/
theorem Restorable.closed (h : Restorable table) (hdated : ∀ r ∈ table.rows, r.timestamp ≤ day) :
    UpClosed parentPath dirHash (view table) := by
  rw [parentClosed_view, ← selectRestore_of_last hdated]
  exact h day

/-- A call of today changes the dates from today on, and no other. -/
theorem Restorable.addAction {c : AddAction} (h : Restorable table)
    (hdated : ∀ r ∈ table.rows, r.timestamp ≤ c.timestamp) (hadd : addAction table c = some table')
    (hclosed : UpClosed parentPath dirHash (view table')) : Restorable table' := by
  intro date
  by_cases hdate : date < c.timestamp
  · rw [selectRestore_of_later _ hdate hadd]
    exact h date
  · have hdated' : ∀ r ∈ table'.rows, r.timestamp ≤ date := by
      intro r hr
      rw [addAction_rows hadd, mem_upsert] at hr
      apply le_trans _ (not_lt.mp hdate)
      rcases hr with rfl | hr
      · exact le_refl _
      · exact hdated r hr.1
    rw [selectRestore_of_last hdated']
    exact parentClosed_view.mp hclosed

/-- A stored action is an edit of the view. -/
theorem view_edited (hpath : OnPath mainPath action) (hwritten : IsWritten disk action)
    (hdated : ∀ r ∈ table.rows, r.timestamp ≤ day)
    (hadd : addAction table ((uploadOf mainPath disk action index).call hash day) = some table') :
    ∃ x, editOf mainPath action = some x ∧ Applies dirHash x (view table) (view table') := by
  obtain ⟨hname, htimestamp⟩ := call_uploadOf hash mainPath disk action index day
  have hview := view_addAction (by rwa [htimestamp]) hadd
  rw [hname] at hview
  cases htype : action.actionType with
  | readFile =>
    have hedit : editOf mainPath action = some (.write (relative mainPath action.path)) := by
      rw [editOf, htype]
    refine ⟨_, hedit, Or.inr ⟨hash ((disk.content action.path).getD []), ?_⟩⟩
    rw [hview]
    simp [Upload.call, uploadOf, htype, readFileCall, relative]
  | createFolder =>
    have hedit : editOf mainPath action = some (.makeDirectory (relative mainPath action.path)) := by
      rw [editOf, htype]
    refine ⟨_, hedit, ?_⟩
    unfold Applies
    rw [hview]
    simp [Upload.call, uploadOf, htype, createFolderCall, relative]
  | deletePath =>
    have hedit : editOf mainPath action = some (.remove (relative mainPath action.path)) := by
      rw [editOf, htype]
    refine ⟨_, hedit, ?_⟩
    unfold Applies
    rw [hview]
    simp [Upload.call, uploadOf, htype, deletePathCall, relative]
  | restore => exact absurd htype hpath.2.1
  | quit => exact absurd htype hpath.2.2
  | ignore => exact absurd htype hwritten.1

/-- An action that is not written is no edit, or a file that is left out. -/
theorem edit_of_not_written (hwritten : ¬IsWritten disk action) {x : Edit Bytes}
    (hx : editOf mainPath action = some x) (v : Bytes → Option Bytes) : Applies dirHash x v v := by
  have hread : action.actionType = .readFile := by
    by_contra hne
    apply hwritten
    refine ⟨fun hignore => ?_, fun hread => absurd hread hne⟩
    rw [editOf, hignore] at hx
    exact absurd hx (by simp)
  rw [editOf, hread, Option.some.injEq] at hx
  rw [← hx]
  exact Or.inl rfl

end Rows

structure Snapshots where
  table : UserTable
  today : Bytes
  /-- The watcher of the session; it keeps the actions that are not stored yet. -/
  watching : Option Watching

/-- A pass does not look at the server: it may as well be made when the actions of the passes before it
are stored. -/
inductive SnapshotEvent (mainPath : Bytes) where
  | start (walk : Walk mainPath) (order : List Bytes)
  | scan (walk : Walk mainPath) (order : List Bytes)
  | store (disk : Disk) (responses : ResponseBuffer)
  | midnight (day : Bytes)
  | stop

/-- What the client is told at the start of a session. -/
def received (mainPath : Bytes) (table : UserTable) : Bytes → Option Bytes :=
  match getInitailizationEntries (complete (selectInitialization table .deletePath)) with
  | .ok m => initialStatus mainPath m
  | .error _ => fun _ => none

namespace Snapshots

variable {mainPath : Bytes}

/-- The next action is sent and stored. -/
def store (hash : Bytes → Bytes) (default : Action) (mainPath : Bytes) (s : Snapshots) (w : Watching)
    (disk : Disk) (responses : ResponseBuffer) : Option Snapshots :=
  match w.pushed with
  | [] => none
  | action :: rest =>
    if (sendAction default mainPath responses disk action).thrown = none then
      (storeAction hash mainPath disk responses.currentIndex s.today s.table action).map fun table =>
        { s with
          table := table
          watching := some { w with pushed := rest } }
    else none

def step (hash : Bytes → Bytes) (default : Action) (s : Snapshots) :
    SnapshotEvent mainPath → Option Snapshots
  | .start walk order =>
    if s.watching.isNone then
      let w := Watching.initStatus hash walk.toListing order (received mainPath s.table)
      some { s with watching := some w }
    else none
  | .scan walk order =>
    s.watching.bind fun w =>
      if w.pushed = [] then some { s with watching := some (w.scan walk.toListing order) } else none
  | .store disk responses => s.watching.bind fun w => s.store hash default mainPath w disk responses
  | .midnight day => if s.today ≤ day then some { s with today := day } else none
  | .stop => some { s with watching := none }

/-- No row is stored and no session is open. -/
def initial (today : Bytes) : Snapshots := ⟨.empty, today, none⟩

/-- The iterator of a map visits each of its keys once. -/
def Iterates (s : Snapshots) : SnapshotEvent mainPath → Prop
  | .start _ order =>
    order.Nodup ∧ ∀ p, (received mainPath s.table p).isSome = true → p ∈ order
  | .scan _ order =>
    order.Nodup ∧ ∀ w ∈ s.watching, ∀ p, (w.paths p).isSome = true → p ∈ order
  | _ => True

/-- What is sent goes below folders, no file is sent in the place of a folder that is not empty for the
server, and what is gone is reported before the folder it was in. -/
def InOrder (hash : Bytes → Bytes) (s : Snapshots) : SnapshotEvent mainPath → Prop
  | .start walk order =>
    let status := received mainPath s.table
    let event (e : Bytes × Node) := Watching.initEvent hash (status e.1) (some e.2)
    FoldersAbove mainPath (fun p => (status p).isSome) (view s.table) event walk.entries ∧
      (∀ e ∈ walk.entries, e.2.isDirectory = false → Uploaded event e →
        ∀ r ∈ selectInitialization s.table .deletePath,
          parentPath r.filename ≠ some (relative mainPath e.1)) ∧
      ChildrenFirst mainPath (view s.table)
        (Watching.gone walk.toListing (fun p => (status p).isSome) order)
  | .scan walk order => ∀ w ∈ s.watching,
    FoldersAbove mainPath (fun p => (w.paths p).isSome) (view s.table)
        (fun e => Watching.scanEvent (w.paths e.1) (some e.2)) walk.entries ∧
      ChildrenFirst mainPath (view s.table)
        (Watching.gone walk.toListing (fun p => (w.paths p).isSome) order)
  | _ => True

instance (hash : Bytes → Bytes) (s : Snapshots) :
    DecidablePred (InOrder hash s : SnapshotEvent mainPath → Prop)
  | .start _ _ => inferInstanceAs (Decidable (_ ∧ _ ∧ _))
  | .scan _ _ => inferInstanceAs (Decidable (∀ w ∈ s.watching, _ ∧ _))
  | .store _ _ => inferInstanceAs (Decidable True)
  | .midnight _ => inferInstanceAs (Decidable True)
  | .stop => inferInstanceAs (Decidable True)

/-- The client is told the view. -/
theorem received_apply {table : UserTable} (hclean : Clean table) (k : Bytes) :
    received mainPath table (mainPath ++ k) = view table k := by
  obtain ⟨m, hm, hentries⟩ := getInitailizationEntries_view hclean
  unfold received
  rw [hm]
  ext h
  rw [← hentries]
  apply initialStatus_eq_some_iff.trans
  constructor
  · rintro ⟨k', hk, hmem⟩
    rwa [List.append_cancel_left hk]
  · exact fun hmem => ⟨k, rfl, hmem⟩

/-- A path that the watcher can know. -/
def Plain (mainPath p : Bytes) : Prop := mainPath <+: p ∧ 0 ∉ relative mainPath p

theorem received_plain {table : UserTable} (hclean : Clean table) {p : Bytes}
    (hp : (received mainPath table p).isSome = true) : Plain mainPath p := by
  obtain ⟨m, hm, hentries⟩ := getInitailizationEntries_view hclean
  unfold received at hp
  rw [hm] at hp
  obtain ⟨h, hh⟩ := Option.isSome_iff_exists.mp hp
  obtain ⟨k, rfl, hmem⟩ := initialStatus_eq_some_iff.mp hh
  obtain ⟨r, hr, rfl, -⟩ := view_eq_some_iff.mp ((hentries k h).mp hmem)
  refine ⟨List.prefix_append _ _, ?_⟩
  rw [relative_append]
  exact (hclean r (mem_rows_of_select hr)).1

theorem find_plain (walk : Walk mainPath) {p : Bytes} (hp : walk.find p ≠ none) :
    Plain mainPath p := by
  obtain ⟨n, hn⟩ := Option.ne_none_iff_exists'.mp hp
  have hmem := walk.find_eq_some_iff.mp hn
  exact ⟨walk.below _ hmem, fun h => walk.plain _ hmem (List.mem_of_mem_drop h)⟩

/-- An action that a pass can push. -/
def PlainAction (mainPath : Bytes) (action : Action) : Prop :=
  OnPath mainPath action ∧ 0 ∉ relative mainPath action.path

theorem plainAction_ofStatus {p : Bytes} (hp : Plain mainPath p) (isDirectory : Bool)
    (st : FileStatus) : PlainAction mainPath (.ofStatus isDirectory p st .created) := by
  refine ⟨⟨hp.1, ?_⟩, hp.2⟩
  cases st <;> cases isDirectory <;> simp [Action.ofStatus, actionTypeOf]

theorem plainAction_found {walk : Walk mainPath} {event : Bytes × Node → Option FileStatus} :
    ∀ action ∈ Watching.found event walk.entries, PlainAction mainPath action := by
  intro action haction
  obtain ⟨e, he, haction⟩ := List.mem_flatMap.mp haction
  rw [Watching.actionsOf, Option.mem_toList, Option.map_eq_some_iff] at haction
  obtain ⟨st, -, rfl⟩ := haction
  apply plainAction_ofStatus
  apply find_plain walk
  rw [walk.find_eq_some_iff.mpr he]
  exact Option.some_ne_none _

theorem plainAction_erased {walk : Walk mainPath} {known : Bytes → Bool} {order : List Bytes}
    (hknown : ∀ p, known p = true → Plain mainPath p) :
    ∀ action ∈ Watching.erased walk.toListing (Watching.gone walk.toListing known order),
      PlainAction mainPath action := by
  intro action haction
  obtain ⟨p, hp, rfl⟩ := List.mem_map.mp haction
  obtain ⟨-, hgone⟩ := List.mem_filter.mp hp
  rw [Bool.and_eq_true] at hgone
  exact plainAction_ofStatus (hknown p hgone.1) _ _

/-- What the server holds is known to the watcher. -/
def Known (mainPath : Bytes) (w : Watching) (v : Bytes → Option Bytes) : Prop :=
  ∀ k, v k ≠ none → (w.paths (mainPath ++ k)).isSome = true

/-- The actions that are not stored yet. -/
structure Pending (mainPath : Bytes) (table : UserTable) (w : Watching) : Prop where
  pushed : ∀ action ∈ w.pushed, PlainAction mainPath action
  paths : ∀ p, (w.paths p).isSome = true → Plain mainPath p
  safe : KeepsParents parentPath dirHash (Known mainPath w) (view table) (edits mainPath w.pushed)

structure Invariant (mainPath : Bytes) (s : Snapshots) : Prop where
  clean : Clean s.table
  dated : ∀ r ∈ s.table.rows, r.timestamp ≤ s.today
  restorable : Restorable s.table
  pending : ∀ w ∈ s.watching, Pending mainPath s.table w

section Steps

variable {hash : Bytes → Bytes} {default : Action} {s s' : Snapshots} {walk : Walk mainPath}
  {order : List Bytes} {w : Watching}

theorem paths_of_find (walk : Walk mainPath) (w' : Watching)
    (hpaths : ∀ p, w'.paths p = (walk.find p).map Node.lastWriteTime) :
    (∀ p, (w'.paths p).isSome = true → Plain mainPath p) ∧
      ∀ v, (∀ k, v k ≠ none → walk.find (mainPath ++ k) ≠ none) → Known mainPath w' v := by
  constructor
  · intro p hp
    rw [hpaths, Option.isSome_map] at hp
    exact find_plain walk (Option.isSome_iff_ne_none.mp hp)
  · intro v hwithin k hk
    rw [hpaths, Option.isSome_map]
    exact Option.isSome_iff_ne_none.mpr (hwithin k hk)

theorem Invariant.start (h : s.Invariant mainPath) (hiterates : s.Iterates (.start walk order))
    (horder : s.InOrder hash (.start walk order)) :
    Pending mainPath s.table
      (Watching.initStatus hash walk.toListing order (received mainPath s.table)) := by
  obtain ⟨habove, hfiles, hfirst⟩ := horder
  have hknown : ∀ p, (received mainPath s.table p).isSome = true → Plain mainPath p :=
    fun p hp => received_plain h.clean hp
  obtain ⟨hpaths, hfinal⟩ := paths_of_find walk
    (Watching.initStatus hash walk.toListing order (received mainPath s.table))
    fun p => (Watching.initStatus_apply hiterates.1 hiterates.2).1
  refine ⟨?_, hpaths, ?_⟩
  · rw [Watching.initStatus_pushed]
    intro action haction
    rcases List.mem_append.mp haction with haction | haction
    · exact plainAction_found action haction
    · exact plainAction_erased hknown action haction
  · apply keepsParents_initStatus (h.restorable.closed h.dated) (received_apply h.clean)
      (fun p hp => (hknown p hp).1) hiterates.2 habove _ hfirst hfinal
    intro e he hfile huploaded y hy
    obtain ⟨x, hx⟩ := Option.ne_none_iff_exists'.mp hy
    obtain ⟨r, hr, rfl, -⟩ := view_eq_some_iff.mp hx
    exact hfiles e he hfile huploaded r hr

theorem Invariant.scan (h : s.Invariant mainPath) (hw : s.watching = some w) (hempty : w.pushed = [])
    (hiterates : s.Iterates (.scan walk order)) (horder : s.InOrder hash (.scan walk order)) :
    Pending mainPath s.table (w.scan walk.toListing order) := by
  obtain ⟨habove, hfirst⟩ := horder w hw
  have hlisted := hiterates.2 w hw
  have hpending := h.pending w hw
  have hheld : Known mainPath w (view s.table) := by
    have hsafe := hpending.safe
    rwa [hempty] at hsafe
  obtain ⟨hpaths, hfinal⟩ := paths_of_find walk (w.scan walk.toListing order)
    fun p => (Watching.scan_apply hiterates.1 hempty hlisted).1
  refine ⟨?_, hpaths, ?_⟩
  · rw [Watching.scan_pushed, hempty, List.nil_append]
    intro action haction
    rcases List.mem_append.mp haction with haction | haction
    · exact plainAction_erased hpending.paths action haction
    · exact plainAction_found action haction
  · exact keepsParents_scan hempty (h.restorable.closed h.dated) hheld
      (fun p hp => (hpending.paths p hp).1) hlisted habove hfirst hfinal

theorem edits_cons (action : Action) (actions : List Action) :
    edits mainPath (action :: actions) =
      (editOf mainPath action).toList ++ edits mainPath actions := by
  unfold edits
  rw [List.filterMap_cons]
  cases editOf mainPath action <;> rfl

/-- What stays pending when the first action is stored as an edit, or is none. -/
theorem Pending.rest {table table' : UserTable} {action : Action} {rest : List Action}
    (h : Pending mainPath table w) (hpushed : w.pushed = action :: rest)
    (hclosed : UpClosed parentPath dirHash (view table))
    (hnone : editOf mainPath action = none → view table' = view table)
    (hsome : ∀ x, editOf mainPath action = some x →
      Applies dirHash x (view table) (view table')) :
    UpClosed parentPath dirHash (view table') ∧
      Pending mainPath table' { w with pushed := rest } := by
  have hsafe := h.safe
  rw [hpushed, edits_cons] at hsafe
  have hrest : UpClosed parentPath dirHash (view table') ∧
      KeepsParents parentPath dirHash (Known mainPath w) (view table') (edits mainPath rest) := by
    cases hedit : editOf mainPath action with
    | none =>
      rw [hedit] at hsafe
      rw [hnone hedit]
      exact ⟨hclosed, hsafe⟩
    | some x =>
      rw [hedit] at hsafe
      exact hsafe _ (hsome x hedit)
  refine ⟨hrest.1, fun a ha => h.pushed a ?_, h.paths, hrest.2⟩
  rw [hpushed]
  exact List.mem_cons_of_mem action ha

theorem Invariant.store (hhash : ∀ content, IsDigest (hash content)) (h : s.Invariant mainPath)
    (hw : s.watching = some w) {disk : Disk} {responses : ResponseBuffer}
    (hstore : s.store hash default mainPath w disk responses = some s') : s'.Invariant mainPath := by
  unfold Snapshots.store at hstore
  split at hstore
  case h_1 => exact absurd hstore (by simp)
  case h_2 action rest hpushed =>
    rw [Option.ite_none_right_eq_some] at hstore
    obtain ⟨table, htable, rfl⟩ := Option.map_eq_some_iff.mp hstore.2
    have hpending := h.pending w hw
    have hclosed := h.restorable.closed h.dated
    have haction := hpending.pushed action (by rw [hpushed]; exact List.mem_cons_self)
    unfold storeAction at htable
    by_cases hwritten : IsWritten disk action
    · rw [if_pos hwritten] at htable
      obtain ⟨hname, hday⟩ := call_uploadOf hash mainPath disk action responses.currentIndex s.today
      obtain ⟨x, hx, happlies⟩ := view_edited haction.1 hwritten h.dated htable
      obtain ⟨hclosed', hrest⟩ := hpending.rest hpushed hclosed
        (fun hnone => absurd hnone (by rw [hx]; exact Option.some_ne_none x))
        (fun y hy => by rw [hx, Option.some.injEq] at hy; rwa [← hy])
      constructor
      case clean =>
        apply clean_addAction h.clean _ (not_mem_zero_uploadOf hhash _ _ _ _) htable
        rw [hname]
        exact haction.2
      case dated =>
        intro r hr
        rw [addAction_rows htable, mem_upsert] at hr
        rcases hr with rfl | hr
        · exact le_of_eq hday
        · exact h.dated r hr.1
      case restorable =>
        apply h.restorable.addAction _ htable hclosed'
        rw [hday]
        exact h.dated
      case pending =>
        intro w' hw'
        obtain rfl := Option.some.inj hw'
        exact hrest
    · rw [if_neg hwritten, Option.some.injEq] at htable
      subst htable
      obtain ⟨-, hrest⟩ := hpending.rest hpushed hclosed (fun _ => rfl)
        (fun x hx => edit_of_not_written hwritten hx _)
      refine ⟨h.clean, h.dated, h.restorable, fun w' hw' => ?_⟩
      obtain rfl := Option.some.inj hw'
      exact hrest

theorem Invariant.step (hhash : ∀ content, IsDigest (hash content)) (h : s.Invariant mainPath)
    {e : SnapshotEvent mainPath} (hgood : s.Iterates e ∧ s.InOrder hash e)
    (hstep : s.step hash default e = some s') : s'.Invariant mainPath := by
  cases e with
  | start walk order =>
    rw [Snapshots.step, Option.ite_none_right_eq_some] at hstep
    obtain rfl := Option.some.inj hstep.2
    refine ⟨h.clean, h.dated, h.restorable, fun w hw => ?_⟩
    obtain rfl := Option.some.inj hw
    exact h.start hgood.1 hgood.2
  | scan walk order =>
    obtain ⟨w, hw, hstep⟩ := Option.bind_eq_some_iff.mp hstep
    rw [Option.ite_none_right_eq_some] at hstep
    obtain rfl := Option.some.inj hstep.2
    refine ⟨h.clean, h.dated, h.restorable, fun w' hw' => ?_⟩
    obtain rfl := Option.some.inj hw'
    exact h.scan hw hstep.1 hgood.1 hgood.2
  | store disk responses =>
    obtain ⟨w, hw, hstep⟩ := Option.bind_eq_some_iff.mp hstep
    exact h.store hhash hw hstep
  | midnight day =>
    rw [Snapshots.step, Option.ite_none_right_eq_some] at hstep
    obtain rfl := Option.some.inj hstep.2
    exact ⟨h.clean, fun r hr => (h.dated r hr).trans hstep.1, h.restorable, h.pending⟩
  | stop =>
    obtain rfl := Option.some.inj hstep
    exact ⟨h.clean, h.dated, h.restorable, fun w hw => absurd hw (by simp)⟩

theorem invariant_initial (today : Bytes) : (initial today).Invariant mainPath := by
  refine ⟨clean_empty, fun r hr => absurd hr (by simp [initial, UserTable.empty]), ?_,
    fun w hw => absurd hw (by simp [initial])⟩
  intro date r hr
  rw [selectRestore, mem_orderByFilename] at hr
  exact absurd (mem_current.mp hr).1 (by simp [initial, UserTable.empty])

end Steps

/-- Every date can be restored after a run in which every pass comes in order. -/
theorem snapshots {hash : Bytes → Bytes} (hhash : ∀ content, IsDigest (hash content))
    (default : Action) (today : Bytes) (events : List (SnapshotEvent mainPath)) (s : Snapshots)
    (hiterates : Meets (step hash default) Iterates (initial today) events)
    (horder : Meets (step hash default) (InOrder hash) (initial today) events)
    (hrun : run (step hash default) (initial today) events = some s) : Restorable s.table :=
  (run_invariant (fun _ _ _ h hgood hstep => h.step hhash hgood hstep) (invariant_initial today)
    (hiterates.and horder) hrun).restorable

section Samples

/-- The monitored folder with the folder `b` and the file `b/a`. -/
def nestedWalk : Walk samplePath where
  entries := [([47, 100, 47, 98], ⟨1, none⟩), ([47, 100, 47, 98, 47, 97], ⟨1, some [104, 105]⟩)]
  nodup := by decide
  below := by decide
  plain := by decide
  parents := by decide

/-- The monitored folder without them. -/
def emptyWalk : Walk samplePath where
  entries := []
  nodup := List.nodup_nil
  below := by simp
  plain := by simp
  parents := by simp

/-- Whatever the path, the disk answers. -/
def stored : SnapshotEvent samplePath := .store sampleDisk .empty

/-- Both are stored, and then deleted in this order, with midnight in between. -/
def deletedIn (order : List Bytes) : List (SnapshotEvent samplePath) :=
  [.start nestedWalk [], stored, stored, .scan emptyWalk order, stored, .midnight [51], stored]

def afterDeletion (order : List Bytes) : Snapshots :=
  (run (step shortDigest (.ofRestore [] [])) (initial [50]) (deletedIn order)).getD (initial [])

def parentFirst : List Bytes := [[47, 100, 47, 98], [47, 100, 47, 98, 47, 97]]

theorem received_empty (p : Bytes) : received mainPath .empty p = none := rfl

/-- An order that lists both paths, each once. -/
theorem iterates_deletedIn {order : List Bytes} (hnodup : order.Nodup)
    (hlisted : ∀ e ∈ nestedWalk.entries, e.1 ∈ order) :
    Meets (step shortDigest (.ofRestore [] [])) Iterates (initial [50]) (deletedIn order) := by
  refine ⟨⟨List.nodup_nil, fun p hp => ?_⟩, fun s₁ h₁ => ⟨trivial, fun s₂ h₂ => ⟨trivial, fun s₃ h₃ =>
    ⟨⟨hnodup, fun w hw p hp => ?_⟩, fun s₄ _ => ⟨trivial, fun s₅ _ => ⟨trivial, fun s₆ _ =>
      ⟨trivial, fun s₇ _ => trivial⟩⟩⟩⟩⟩⟩⟩
  · exact absurd hp (by simp [initial, received_empty])
  · obtain rfl := Option.some.inj h₁
    obtain rfl := Option.some.inj h₂
    obtain rfl := Option.some.inj h₃
    obtain rfl := Option.some.inj hw
    have hpaths : (Watching.initStatus shortDigest nestedWalk.toListing []
        (received samplePath .empty)).paths p = (nestedWalk.find p).map Node.lastWriteTime :=
      (Watching.initStatus_apply List.nodup_nil fun q hq =>
        absurd hq (by simp [received_empty])).1
    have hp : ((Watching.initStatus shortDigest nestedWalk.toListing []
        (received samplePath .empty)).paths p).isSome = true := hp
    rw [hpaths, Option.isSome_map] at hp
    obtain ⟨n, hn⟩ := Option.isSome_iff_exists.mp hp
    exact hlisted _ (nestedWalk.find_eq_some_iff.mp hn)

theorem snapshots_childFirst : Restorable (afterDeletion parentFirst.reverse).table :=
  snapshots isDigest_shortDigest (.ofRestore [] []) [50] (deletedIn parentFirst.reverse)
    (afterDeletion parentFirst.reverse) (iterates_deletedIn (by decide) (by decide)) (by decide) rfl

/-- The folder is deleted on the day before its file: that day has the file alone. -/
theorem snapshots_parentFirst :
    Meets (step shortDigest (.ofRestore [] [])) Iterates (initial [50]) (deletedIn parentFirst) ∧
      ∃ s, run (step shortDigest (.ofRestore [] [])) (initial [50]) (deletedIn parentFirst) =
        some s ∧ ¬Restorable s.table := by
  refine ⟨iterates_deletedIn (by decide) (by decide), afterDeletion parentFirst, rfl, fun h => ?_⟩
  have hday : ¬ParentClosedRows
      (selectRestore (afterDeletion parentFirst).table .deletePath [50]) := by decide
  exact hday (h [50])

end Samples

end Snapshots
end BackupManager.Protocol
