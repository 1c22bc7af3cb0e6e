import BackupManager.Client.FileWatcher
import BackupManager.Protocol.RequestStream
import BackupManager.Server.View

/-! The server's view of a watched folder: `init_status`, then passes over a folder that changes in
between, every action being stored before the next pass. -/
namespace BackupManager.Protocol
open ByteStream Client Digest Server Table
open Watching (initEvent scanEvent)

section Delivered

/-- One action is sent and stored, by the call that the handler makes for its upload. -/
def storeAction (hash : Bytes → Bytes) (mainPath : Bytes) (disk : Disk) (index : ℤ) (day : Bytes)
    (table : UserTable) (action : Action) : Option UserTable :=
  if IsWritten disk action then
    addAction table ((uploadOf mainPath disk action index).call hash day)
  else some table

variable {mainPath : Bytes} (hash : Bytes → Bytes) (tree : Tree mainPath)

/-- A file is opened and read as it stands in the folder. -/
def Shows (disk : Disk) : Prop :=
  ∀ p time content, tree.find p = some ⟨time, some content⟩ → disk.content p = some content

/-- The actions are stored one by one; the date of the server does not go back. -/
inductive Delivered : List Action → UserTable → UserTable → Prop where
  | nil (table : UserTable) : Delivered [] table table
  | cons {action : Action} {actions : List Action} {table table₁ table₂ : UserTable} (disk : Disk)
      (index : ℤ) (day : Bytes) (shows : Shows tree disk)
      (later : ∀ r ∈ table.rows, r.timestamp ≤ day)
      (stored : storeAction hash mainPath disk index day table action = some table₁)
      (rest : Delivered actions table₁ table₂) : Delivered (action :: actions) table table₂

/-- An action that a pass can push. -/
structure IsPushed (action : Action) : Prop where
  onPath : OnPath mainPath action
  plain : 0 ∉ action.path.drop mainPath.length
  file : action.actionType = .readFile →
    ∃ time content, tree.find action.path = some ⟨time, some content⟩

/-- What an action makes of the view of its path. -/
def effect (old : Option Bytes) (action : Action) : Option Bytes :=
  match action.actionType with
  | .readFile => (tree.find action.path).map (Node.hashStr hash)
  | .createFolder => some dirHash
  | .deletePath => none
  | _ => old

variable {hash tree}

/-- The view that the call of an upload leaves. -/
def callView (c : AddAction) : Option Bytes := if c.action = .deletePath then none else some c.hash

theorem call_uploadOf (hash : Bytes → Bytes) (mainPath : Bytes) (disk : Disk) (action : Action)
    (index : ℤ) (day : Bytes) :
    ((uploadOf mainPath disk action index).call hash day).filename =
        action.path.drop mainPath.length ∧
      ((uploadOf mainPath disk action index).call hash day).timestamp = day := by
  unfold Upload.call uploadOf
  cases action.actionType <;> exact ⟨rfl, rfl⟩

/-- What is uploaded is what the effect says. -/
theorem callView_uploadOf {disk : Disk} {action : Action} (haction : IsPushed tree action)
    (hshows : Shows tree disk) (hwritten : IsWritten disk action) (index : ℤ) (day : Bytes)
    (old : Option Bytes) :
    callView ((uploadOf mainPath disk action index).call hash day) = effect hash tree old action := by
  cases htype : action.actionType with
  | readFile =>
    obtain ⟨time, content, hfind⟩ := haction.file htype
    have hcontent := hshows _ _ _ hfind
    simp [callView, Upload.call, uploadOf, effect, htype, readFileCall, hcontent, hfind,
      Node.hashStr]
  | createFolder => simp [callView, Upload.call, uploadOf, effect, htype, createFolderCall]
  | deletePath => simp [callView, Upload.call, uploadOf, effect, htype, deletePathCall]
  | restore => exact absurd htype haction.onPath.2.1
  | quit => exact absurd htype haction.onPath.2.2
  | ignore => exact absurd htype hwritten.1

/-- Only an ignored action is not written: no file is above the size limit. -/
theorem isWritten_iff {disk : Disk} {action : Action} (haction : IsPushed tree action)
    (hshows : Shows tree disk) : IsWritten disk action ↔ action.actionType ≠ .ignore := by
  constructor
  · intro h
    exact h.1
  · intro h
    refine ⟨h, fun htype n hn => ?_⟩
    obtain ⟨time, content, hfind⟩ := haction.file htype
    have hsmall : content.length ≤ maxFileSize :=
      tree.small _ (tree.find_eq_some_iff.mp hfind) content rfl
    rw [disk.sized _ _ (hshows _ _ _ hfind), Option.mem_some_iff] at hn
    omega

section Digests

variable (hhash : ∀ content, IsDigest (hash content))

include hhash

theorem not_mem_zero_uploadOf (disk : Disk) (action : Action) (index : ℤ) (day : Bytes) :
    0 ∉ ((uploadOf mainPath disk action index).call hash day).hash := by
  unfold Upload.call uploadOf
  cases action.actionType with
  | readFile => exact (hhash _).not_mem_zero
  | createFolder =>
    show 0 ∉ dirHash
    decide
  | deletePath => exact List.not_mem_nil
  | restore => exact List.not_mem_nil
  | quit => exact List.not_mem_nil
  | ignore => exact List.not_mem_nil

/-- A stored action changes the view of its own path, as its effect says. -/
theorem view_storeAction {disk : Disk} {index : ℤ} {day : Bytes} {table table' : UserTable}
    {action : Action} (haction : IsPushed tree action) (hshows : Shows tree disk)
    (hday : ∀ r ∈ table.rows, r.timestamp ≤ day) (hclean : Clean table)
    (hstore : storeAction hash mainPath disk index day table action = some table') :
    Clean table' ∧ view table' = Function.update (view table)
      (action.path.drop mainPath.length)
      (effect hash tree (view table (action.path.drop mainPath.length)) action) := by
  unfold storeAction at hstore
  by_cases hwritten : IsWritten disk action
  · rw [if_pos hwritten] at hstore
    obtain ⟨hname, htimestamp⟩ := call_uploadOf hash mainPath disk action index day
    have hplain := haction.plain
    constructor
    · exact clean_addAction hclean (by rwa [hname]) (not_mem_zero_uploadOf hhash _ _ _ _) hstore
    · rw [view_addAction (by rwa [htimestamp]) hstore, hname]
      exact congrArg _ (callView_uploadOf haction hshows hwritten index day _)
  · rw [if_neg hwritten, Option.some.injEq] at hstore
    have hignore : action.actionType = .ignore := by
      by_contra h
      exact hwritten ((isWritten_iff haction hshows).mpr h)
    have heffect : effect hash tree (view table (action.path.drop mainPath.length)) action =
        view table (action.path.drop mainPath.length) := by
      rw [effect, hignore]
    rw [← hstore, heffect, Function.update_eq_self]
    exact ⟨hclean, rfl⟩

/-- Stored actions change the view of each path by the effects of the actions on it, in order. -/
theorem view_delivered {actions : List Action} {table table' : UserTable}
    (hdelivered : Delivered hash tree actions table table')
    (hactions : ∀ action ∈ actions, IsPushed tree action) (hclean : Clean table) :
    Clean table' ∧ ∀ k, view table' k =
      (actions.filter fun action => action.path = mainPath ++ k).foldl (effect hash tree)
        (view table k) := by
  induction hdelivered with
  | nil table => exact ⟨hclean, fun k => rfl⟩
  | @cons action actions table table₁ table₂ disk index day shows later stored rest ih =>
    have haction := hactions action List.mem_cons_self
    obtain ⟨hclean₁, hview₁⟩ := view_storeAction hhash haction shows later hclean stored
    obtain ⟨hclean₂, hview₂⟩ := ih (fun a ha => hactions a (List.mem_cons_of_mem action ha)) hclean₁
    refine ⟨hclean₂, fun k => ?_⟩
    obtain ⟨below, hbelow⟩ := haction.onPath.1
    rw [hview₂, hview₁, List.filter_cons, ← hbelow, List.drop_left]
    by_cases hk : below = k
    · rw [hk, Function.update_self, if_pos (by simp), List.foldl_cons]
    · rw [Function.update_of_ne (Ne.symm hk), if_neg (by simpa using hk)]

end Digests
/-- The view of a path once the action of its event, if any, is stored. -/
def settled (hash : Bytes → Bytes) (tree : Tree mainPath) (old : Option Bytes) (p : Bytes)
    (event : Option FileStatus) : Option Bytes :=
  (Watching.actionsOf (tree.isDirectory p) p event).foldl (effect hash tree) old

theorem settled_none (hash : Bytes → Bytes) (old : Option Bytes) (p : Bytes) :
    settled hash tree old p none = old := rfl

/-- A path that the view holds as a file and that is a folder now. -/
def Stale (old : Option Bytes) (n : Option Node) : Prop :=
  old ≠ none ∧ old ≠ some dirHash ∧ n.map Node.isDirectory = some true

instance (old : Option Bytes) (n : Option Node) : Decidable (Stale old n) :=
  inferInstanceAs (Decidable (_ ∧ _ ∧ _))

section Events

variable {p : Bytes} {old : Option Bytes}

theorem settled_created {n : Node} (hfind : tree.find p = some n) :
    settled hash tree old p (some .created) = some (n.hashStr hash) := by
  have hdir := tree.isDirectory_of_find hfind
  obtain ⟨time, content⟩ := n
  cases content with
  | none =>
    simp [settled, Watching.actionsOf, hdir, Node.isDirectory, effect, Action.ofStatus, actionTypeOf,
      Node.hashStr]
  | some content =>
    simp [settled, Watching.actionsOf, hdir, Node.isDirectory, effect, Action.ofStatus, actionTypeOf,
      Node.hashStr, hfind]

/-- A modified folder is ignored, whatever the view holds. -/
theorem settled_modified {n : Node} (hfind : tree.find p = some n) :
    settled hash tree old p (some .modified) =
      if n.isDirectory then old else some (n.hashStr hash) := by
  have hdir := tree.isDirectory_of_find hfind
  obtain ⟨time, content⟩ := n
  cases content with
  | none =>
    simp [settled, Watching.actionsOf, hdir, Node.isDirectory, effect, Action.ofStatus, actionTypeOf]
  | some content =>
    simp [settled, Watching.actionsOf, hdir, Node.isDirectory, effect, Action.ofStatus, actionTypeOf,
      Node.hashStr, hfind]

theorem settled_erased : settled hash tree old p (some .erased) = none := by
  simp [settled, Watching.actionsOf, effect, Action.ofStatus, actionTypeOf]

theorem not_stale_none {n : Option Node} : ¬Stale none n := fun h => h.1 rfl

theorem not_stale_of_missing : ¬Stale old none := fun h => absurd h.2.2 (by simp)

theorem not_stale_of_hashStr (n : Node) : ¬Stale (some (n.hashStr hash)) (some n) := by
  intro h
  obtain ⟨time, content⟩ := n
  cases content with
  | none => exact h.2.1 rfl
  | some content => exact absurd h.2.2 (by simp [Node.isDirectory])

/-- A modified path is followed unless it is stale, and a stale path keeps what the view held. -/
theorem settled_modified_iff {known : Bytes} {n : Node} (hfind : tree.find p = some n) :
    settled hash tree (some known) p (some .modified) =
      if Stale (some known) (some n) then some known else some (n.hashStr hash) := by
  rw [settled_modified hfind]
  obtain ⟨time, content⟩ := n
  cases content with
  | none =>
    have hdir : Node.isDirectory ⟨time, none⟩ = true := rfl
    rw [if_pos hdir]
    split
    · rfl
    · next hfresh =>
      by_contra hne
      apply hfresh
      exact ⟨by simp, fun h => hne h, rfl⟩
  | some content =>
    have hfile : ¬Node.isDirectory ⟨time, some content⟩ = true := by simp [Node.isDirectory]
    have hfresh : ¬Stale (some known) (some ⟨time, some content⟩) :=
      fun h => absurd h.2.2 (by simp [Node.isDirectory])
    rw [if_neg hfile, if_neg hfresh]

/-- `init_status` brings the view of a path up to date unless the path is stale. -/
theorem settled_initEvent :
    settled hash tree old p (initEvent hash old (tree.find p)) =
      if Stale old (tree.find p) then old else (tree.find p).map (Node.hashStr hash) := by
  cases hfind : tree.find p with
  | none =>
    rw [if_neg not_stale_of_missing]
    cases old with
    | none => rfl
    | some known => exact settled_erased
  | some n =>
    cases old with
    | none =>
      rw [if_neg not_stale_none]
      exact settled_created hfind
    | some known =>
      by_cases hknown : known = n.hashStr hash
      · have hevent : initEvent hash (some known) (some n) = none := if_neg (by simpa using hknown)
        rw [hevent, settled_none, hknown, if_neg (not_stale_of_hashStr n)]
        rfl
      · have hevent : initEvent hash (some known) (some n) = some .modified := if_pos hknown
        rw [hevent]
        exact settled_modified_iff hfind

/-- A pass brings the view of a path up to date unless the path is stale, when the view followed
the folder before and every change shows in the time. -/
theorem settled_scanEvent {n₀ : Option Node} (hold : old = n₀.map (Node.hashStr hash))
    (hchanged : ∀ n n', n₀ = some n → tree.find p = some n' →
      n.lastWriteTime = n'.lastWriteTime → n = n') :
    settled hash tree old p (scanEvent (n₀.map Node.lastWriteTime) (tree.find p)) =
      if Stale old (tree.find p) then old else (tree.find p).map (Node.hashStr hash) := by
  subst hold
  cases hfind : tree.find p with
  | none =>
    rw [if_neg not_stale_of_missing]
    cases n₀ with
    | none => rfl
    | some n => exact settled_erased
  | some n' =>
    cases n₀ with
    | none =>
      rw [Option.map_none, if_neg not_stale_none]
      exact settled_created hfind
    | some n =>
      rw [Option.map_some, Option.map_some]
      by_cases htime : n.lastWriteTime = n'.lastWriteTime
      · have hsame := hchanged n n' rfl hfind htime
        have hevent : scanEvent (some n.lastWriteTime) (some n') = none :=
          if_neg (by simpa using htime)
        rw [hevent, settled_none, hsame, if_neg (not_stale_of_hashStr n')]
        rfl
      · have hevent : scanEvent (some n.lastWriteTime) (some n') = some .modified := if_pos htime
        rw [hevent]
        exact settled_modified_iff hfind

/-- What an event of a pass tells about its path. -/
structure EventOf (tree : Tree mainPath) (p : Bytes) (st : FileStatus) : Prop where
  below : mainPath <+: p
  plain : 0 ∉ p.drop mainPath.length
  exists_of_ne : st ≠ .erased → ∃ n, tree.find p = some n

theorem eventOf_of_find {st : FileStatus} {n : Node} (hfind : tree.find p = some n) :
    EventOf tree p st where
  below := tree.below _ (tree.find_eq_some_iff.mp hfind)
  plain h := tree.plain _ (tree.find_eq_some_iff.mp hfind) (List.mem_of_mem_drop h)
  exists_of_ne _ := ⟨n, hfind⟩

theorem isPushed_of_eventOf {st : FileStatus} (h : EventOf tree p st) :
    IsPushed tree (.ofStatus (tree.isDirectory p) p st .created) := by
  have htype : ∀ isDirectory, actionTypeOf isDirectory st ≠ .restore ∧
      actionTypeOf isDirectory st ≠ .quit := by
    intro isDirectory
    cases st <;> cases isDirectory <;> exact ⟨by decide, by decide⟩
  refine ⟨⟨h.below, htype _⟩, h.plain, fun hread => ?_⟩
  have hread : actionTypeOf (tree.isDirectory p) st = .readFile := hread
  have hne : st ≠ .erased := by
    intro herased
    rw [herased] at hread
    exact absurd hread (by simp [actionTypeOf])
  obtain ⟨⟨time, content⟩, hfind⟩ := h.exists_of_ne hne
  rw [tree.isDirectory_of_find hfind] at hread
  cases content with
  | none => cases st <;> exact absurd hread (by simp [actionTypeOf, Node.isDirectory])
  | some content => exact ⟨time, content, hfind⟩

section Digests

variable (hhash : ∀ content, IsDigest (hash content)) {actions : List Action}
variable {event : Bytes → Option FileStatus}

include hhash

/-- A pass that pushes one action for each event settles every path by its event. -/
theorem view_pass {table table' : UserTable} (hclean : Clean table)
    (hactions : ∀ p, (actions.filter fun action => action.path = p) =
      Watching.actionsOf (tree.isDirectory p) p (event p))
    (hevent : ∀ p st, event p = some st → EventOf tree p st)
    (hdelivered : Delivered hash tree actions table table') :
    Clean table' ∧ ∀ k, view table' k =
      settled hash tree (view table k) (mainPath ++ k) (event (mainPath ++ k)) := by
  have hpushed : ∀ action ∈ actions, IsPushed tree action := by
    intro action haction
    have hmem : action ∈ actions.filter fun a => a.path = action.path := by
      simpa using haction
    rw [hactions, Watching.actionsOf, Option.mem_toList, Option.map_eq_some_iff] at hmem
    obtain ⟨st, hst, heq⟩ := hmem
    rw [← heq]
    exact isPushed_of_eventOf (hevent _ _ hst)
  obtain ⟨hclean', hview⟩ := view_delivered hhash hdelivered hpushed hclean
  refine ⟨hclean', fun k => ?_⟩
  rw [hview, hactions]
  rfl

end Digests
end Events
end Delivered

/-- `getInitailizationEntries` gives exactly the paths of the folder, each with its hash. -/
def Follows {mainPath : Bytes} (hash : Bytes → Bytes) (table : UserTable) (tree : Tree mainPath) :
    Prop :=
  ∃ m, getInitailizationEntries (complete (selectInitialization table .deletePath)) = .ok m ∧
    ∀ k h, (k, h) ∈ m.entries ↔ ∃ n, tree.find (mainPath ++ k) = some n ∧ h = n.hashStr hash

/-- No path that the view holds as a file is a folder. -/
def NoFileIsFolder {mainPath : Bytes} (table : UserTable) (tree : Tree mainPath) : Prop :=
  ∀ k, ¬Stale (view table k) (tree.find (mainPath ++ k))

/-- A change of a path that stays shows in its time. -/
def Changed {mainPath : Bytes} (tree tree' : Tree mainPath) : Prop :=
  ∀ p n n', tree.find p = some n → tree'.find p = some n' →
    n.lastWriteTime = n'.lastWriteTime → n = n'

theorem follows_iff {mainPath : Bytes} {hash : Bytes → Bytes} {table : UserTable}
    {tree : Tree mainPath} (hclean : Clean table) :
    Follows hash table tree ↔
      ∀ k, view table k = (tree.find (mainPath ++ k)).map (Node.hashStr hash) := by
  obtain ⟨m, hm, hentries⟩ := getInitailizationEntries_view hclean
  constructor
  · intro h k
    obtain ⟨m', hm', hentries'⟩ := h
    rw [hm, Except.ok.injEq] at hm'
    ext hk
    rw [← hentries, hm', hentries', Option.map_eq_some_iff]
    simp only [eq_comm]
  · intro h
    refine ⟨m, hm, fun k hk => ?_⟩
    rw [hentries, h, Option.map_eq_some_iff]
    simp only [eq_comm]

/-- A pass of the watcher, with the table before and after its actions are stored. -/
structure Pass (mainPath : Bytes) where
  before : UserTable
  tree : Tree mainPath
  after : UserTable

/-- `init_status` on the view of a table, then passes; the last pass comes first. -/
inductive Watched {mainPath : Bytes} (hash : Bytes → Bytes) :
    List (Pass mainPath) → Watching → Prop where
  | init {table table' : UserTable} {tree : Tree mainPath} {m : HashMap} {order : List Bytes}
      (clean : Clean table)
      (received : getInitailizationEntries (complete (selectInitialization table .deletePath)) = .ok m)
      (nodup : order.Nodup)
      (listed : ∀ p, (initialStatus mainPath m p).isSome = true → p ∈ order)
      (delivered : Delivered hash tree
        (Watching.initStatus hash tree.toListing order (initialStatus mainPath m)).pushed table table') :
      Watched hash [⟨table, tree, table'⟩]
        (Watching.initStatus hash tree.toListing order (initialStatus mainPath m))
  | scan {last : Pass mainPath} {passes : List (Pass mainPath)} {w : Watching}
      {tree : Tree mainPath} {table' : UserTable} {order : List Bytes}
      (run : Watched hash (last :: passes) w)
      (changed : Changed last.tree tree)
      (nodup : order.Nodup)
      (listed : ∀ p, (w.paths p).isSome = true → p ∈ order)
      (delivered : Delivered hash tree
        (Watching.scan tree.toListing order { w with pushed := [] }).pushed last.after table') :
      Watched hash (⟨last.after, tree, table'⟩ :: last :: passes)
        (Watching.scan tree.toListing order { w with pushed := [] })

section Watched

variable {mainPath : Bytes} {hash : Bytes → Bytes}

/-- Every path is brought up to date but those that are stale. -/
def Settles (hash : Bytes → Bytes) (x : Pass mainPath) : Prop :=
  ∀ k, view x.after k =
    if Stale (view x.before k) (x.tree.find (mainPath ++ k)) then view x.before k
    else (x.tree.find (mainPath ++ k)).map (Node.hashStr hash)

theorem follows_iff_noFileIsFolder {x : Pass mainPath} (hclean : Clean x.after)
    (hsettles : Settles hash x) :
    Follows hash x.after x.tree ↔ NoFileIsFolder x.before x.tree := by
  rw [follows_iff hclean]
  constructor
  · intro h k hstale
    have hview := hsettles k
    rw [if_pos hstale, h k] at hview
    obtain ⟨n, hn, hdir⟩ := Option.map_eq_some_iff.mp hstale.2.2
    apply hstale.2.1
    rw [← hview, hn]
    obtain ⟨time, content⟩ := n
    cases content with
    | none => rfl
    | some content => exact absurd hdir (by simp [Node.isDirectory])
  · intro h k
    rw [hsettles k, if_neg (h k)]

variable (hhash : ∀ content, IsDigest (hash content))

include hhash

/-- What every pass leaves, and what a pass leaves when the view followed the folder before. -/
theorem settles_of_watched {x : Pass mainPath} {passes : List (Pass mainPath)} {w : Watching}
    (h : Watched hash (x :: passes) w) :
    Clean x.after ∧ (∀ p, w.paths p = (x.tree.find p).map Node.lastWriteTime) ∧
      ((∀ y ∈ passes, Follows hash y.after y.tree) → Settles hash x) := by
  generalize hall : x :: passes = all at h
  induction h generalizing x passes with
  | @init table table' tree m order clean received nodup listed delivered =>
    obtain ⟨rfl, rfl⟩ := List.cons.inj hall
    obtain ⟨m', hm', hentries⟩ := getInitailizationEntries_view clean
    rw [received, Except.ok.injEq] at hm'
    rw [← hm'] at hentries
    have hstatus : ∀ k, initialStatus mainPath m (mainPath ++ k) = view table k := by
      intro k
      ext h
      rw [initialStatus_eq_some_iff, ← hentries]
      constructor
      · intro hmem
        obtain ⟨k', hk, hmem⟩ := hmem
        rwa [List.append_cancel_left hk]
      · intro hmem
        exact ⟨k, rfl, hmem⟩
    have hevent : ∀ p st, initEvent hash (initialStatus mainPath m p) (tree.find p) = some st →
        EventOf tree p st := by
      intro p st hst
      cases hfind : tree.find p with
      | some n => exact eventOf_of_find hfind
      | none =>
        rw [hfind] at hst
        cases hknown : initialStatus mainPath m p with
        | none =>
          rw [hknown] at hst
          exact absurd hst (by simp [initEvent])
        | some known =>
          obtain ⟨k, rfl, hmem⟩ := initialStatus_eq_some_iff.mp hknown
          obtain ⟨r, hr, rfl, -⟩ := view_eq_some_iff.mp ((hentries _ _).mp hmem)
          rw [hknown] at hst
          refine ⟨List.prefix_append _ _, ?_, fun hne => absurd (Option.some.inj hst).symm hne⟩
          rw [List.drop_left]
          exact (clean r (mem_rows_of_select hr)).1
    have happly : ∀ p, (Watching.initStatus hash tree.toListing order (initialStatus mainPath m)).paths p =
        (tree.find p).map Node.lastWriteTime ∧ _ = _ :=
      fun p => Watching.initStatus_apply nodup listed
    obtain ⟨hclean, hview⟩ := view_pass hhash clean (fun p => (happly p).2) hevent delivered
    refine ⟨hclean, fun p => (happly p).1, fun _ k => ?_⟩
    rw [hview, hstatus]
    exact settled_initEvent
  | @scan last passes' w tree table' order run changed nodup listed delivered ih =>
    obtain ⟨rfl, rfl⟩ := List.cons.inj hall
    obtain ⟨hclean₁, htimes, -⟩ := ih rfl
    have hevent : ∀ p st, scanEvent (w.paths p) (tree.find p) = some st → EventOf tree p st := by
      intro p st hst
      cases hfind : tree.find p with
      | some n => exact eventOf_of_find hfind
      | none =>
        rw [hfind, htimes] at hst
        cases hlast : last.tree.find p with
        | none =>
          rw [hlast] at hst
          exact absurd hst (by simp [scanEvent])
        | some n =>
          have hmem := last.tree.find_eq_some_iff.mp hlast
          rw [hlast] at hst
          refine ⟨last.tree.below _ hmem, fun h => last.tree.plain _ hmem (List.mem_of_mem_drop h),
            fun hne => absurd (Option.some.inj hst).symm hne⟩
    have happly : ∀ p, (Watching.scan tree.toListing order { w with pushed := [] }).paths p =
        (tree.find p).map Node.lastWriteTime ∧ _ = _ :=
      fun p => Watching.scan_apply nodup rfl listed
    obtain ⟨hclean, hview⟩ := view_pass hhash hclean₁ (fun p => (happly p).2) hevent delivered
    refine ⟨hclean, fun p => (happly p).1, fun hfollows k => ?_⟩
    have hold := (follows_iff hclean₁).mp (hfollows last List.mem_cons_self) k
    rw [hview]
    show settled hash tree _ _ (scanEvent (w.paths (mainPath ++ k)) (tree.find (mainPath ++ k))) = _
    rw [htimes]
    exact settled_scanEvent hold fun n n' hn hn' => changed _ n n' hn hn'

/-- The view follows the folder after every pass exactly when no pass finds a folder where the
view holds a file. -/
theorem watched_folder {passes : List (Pass mainPath)} {w : Watching}
    (h : Watched hash passes w) :
    (∀ x ∈ passes, Follows hash x.after x.tree) ↔
      ∀ x ∈ passes, NoFileIsFolder x.before x.tree := by
  induction h with
  | init clean received nodup listed delivered =>
    obtain ⟨hclean, -, hsettles⟩ :=
      settles_of_watched hhash (.init clean received nodup listed delivered)
    rw [List.forall_mem_singleton, List.forall_mem_singleton]
    exact follows_iff_noFileIsFolder hclean (hsettles (by simp))
  | scan run changed nodup listed delivered ih =>
    obtain ⟨hclean, -, hsettles⟩ :=
      settles_of_watched hhash (.scan run changed nodup listed delivered)
    constructor
    · intro hall
      obtain ⟨hlast, hbefore⟩ := List.forall_mem_cons.mp hall
      have hfolder := (follows_iff_noFileIsFolder hclean (hsettles hbefore)).mp hlast
      exact List.forall_mem_cons.mpr ⟨hfolder, ih.mp hbefore⟩
    · intro hall
      obtain ⟨hlast, hbefore⟩ := List.forall_mem_cons.mp hall
      have hfollows := ih.mpr hbefore
      exact List.forall_mem_cons.mpr
        ⟨(follows_iff_noFileIsFolder hclean (hsettles hfollows)).mpr hlast, hfollows⟩

end Watched

/-- The monitored folder with the file `a`. -/
def fileTree : Tree samplePath where
  entries := [([47, 100, 47, 97], ⟨1, some [104, 105]⟩)]
  nodup := List.nodup_singleton _
  below := by decide
  plain := by decide
  small := by decide

/-- The same path as a folder, later. -/
def folderTree : Tree samplePath where
  entries := [([47, 100, 47, 97], ⟨2, none⟩)]
  nodup := List.nodup_singleton _
  below := by decide
  plain := by decide
  small := by decide

/-- The row of the file `a`, stored on the day `2`. -/
def fileTable : UserTable where
  rows := [(readFileCall shortDigest [47, 97] [50] (showInt 1714521600) (decimal 420) [104, 105] 2).row]
  keyed := List.nodup_singleton _

theorem clean_empty : Clean .empty := by simp [Clean, UserTable.empty]

/-- `init_status` on a server that knows nothing. -/
theorem watched_fileTree :
    Watched shortDigest [⟨.empty, fileTree, fileTable⟩]
      (Watching.initStatus shortDigest fileTree.toListing [] (initialStatus samplePath .empty)) := by
  refine .init clean_empty rfl List.nodup_nil (by simp [initialStatus, SortedMap.empty]) ?_
  refine .cons sampleDisk 0 [50] ?_ (by simp [UserTable.empty]) rfl (.nil _)
  intro p time content hfind
  have hmem := List.mem_singleton.mp (fileTree.find_eq_some_iff.mp hfind)
  rw [Prod.mk.injEq, Node.mk.injEq] at hmem
  exact hmem.2.2.symm

theorem watched_folder_file : Follows shortDigest fileTable fileTree := by
  have hall : ∀ x ∈ [(⟨.empty, fileTree, fileTable⟩ : Pass samplePath)],
      Follows shortDigest x.after x.tree := by
    apply (watched_folder isDigest_shortDigest watched_fileTree).mpr
    rw [List.forall_mem_singleton]
    intro k
    have hview : view .empty k = none := rfl
    show ¬Stale (view .empty k) _
    rw [hview]
    exact not_stale_none
  exact hall _ (List.mem_singleton.mpr rfl)

/-- A pass after the file became a folder. -/
theorem watched_folderTree :
    Watched shortDigest [⟨fileTable, folderTree, fileTable⟩, ⟨.empty, fileTree, fileTable⟩]
      (Watching.scan folderTree.toListing [[47, 100, 47, 97]]
        { Watching.initStatus shortDigest fileTree.toListing [] (initialStatus samplePath .empty) with
          pushed := [] }) := by
  have hfolder : ∀ p n, folderTree.find p = some n → n = ⟨2, none⟩ := by
    intro p n hfind
    exact (Prod.mk.inj (List.mem_singleton.mp (folderTree.find_eq_some_iff.mp hfind))).2
  have hfile : ∀ p n, fileTree.find p = some n → n = ⟨1, some [104, 105]⟩ := by
    intro p n hfind
    exact (Prod.mk.inj (List.mem_singleton.mp (fileTree.find_eq_some_iff.mp hfind))).2
  refine .scan watched_fileTree ?_ (List.nodup_singleton _) ?_ ?_
  · intro p n n' hn hn' htime
    rw [hfile p n hn, hfolder p n' hn'] at htime
    exact absurd htime (by decide)
  · intro p hp
    obtain ⟨-, htimes, -⟩ := settles_of_watched isDigest_shortDigest watched_fileTree
    rw [htimes, Option.isSome_map, Option.isSome_iff_exists] at hp
    obtain ⟨n, hn⟩ := hp
    rw [(Prod.mk.inj (List.mem_singleton.mp (fileTree.find_eq_some_iff.mp hn))).1]
    exact List.mem_singleton_self _
  · refine .cons sampleDisk 0 [50] ?_ (by decide) rfl (.nil _)
    intro p time content hfind
    exact absurd (hfolder p _ hfind) (by simp)

/-- When the file becomes a folder the action is ignored, and the server keeps the file. -/
theorem watched_folder_replaced :
    ∃ (passes : List (Pass samplePath)) (w : Watching), Watched shortDigest passes w ∧
      ¬∀ x ∈ passes, Follows shortDigest x.after x.tree := by
  refine ⟨_, _, watched_folderTree, fun h => ?_⟩
  have hfollows := h _ List.mem_cons_self
  obtain ⟨hclean, -⟩ := settles_of_watched isDigest_shortDigest watched_fileTree
  have hview := (follows_iff hclean).mp hfollows [47, 97]
  exact absurd hview (by decide)

end BackupManager.Protocol
