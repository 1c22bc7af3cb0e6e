import BackupManager.Client.Emission
import BackupManager.FileTree.ParentClosed

/-! The actions of the watcher as edits of what the server holds. The directory iterator gives a folder
before what it contains, so that what is created comes after its parent; nothing orders what is gone. -/
namespace BackupManager.Client
open ByteStream FileTree Protocol Server Table

/-- A path below the main path, as it is sent. -/
def relative (mainPath p : Bytes) : Bytes := p.drop mainPath.length

@[simp] theorem relative_append (mainPath k : Bytes) : relative mainPath (mainPath ++ k) = k :=
  List.drop_left

/-- The part of a path before its last separator; what lies directly in the main path has none. -/
def parentPath (k : Bytes) : Option Bytes :=
  let parent := (k.reverse.dropWhile (· ≠ 47)).tail.reverse
  if parent = [] then none else some parent

theorem parentPath_ne (k : Bytes) : parentPath k ≠ some k := by
  intro h
  unfold parentPath at h
  dsimp only at h
  split at h
  · exact absurd h (by simp)
  · next hne =>
    rw [Option.some.injEq] at h
    have hlength : (k.reverse.dropWhile (· ≠ 47)).tail.length = k.length := by
      rw [← List.length_reverse, h]
    have hle := (List.dropWhile_sublist (l := k.reverse) (· ≠ (47 : UInt8))).length_le
    rw [List.length_tail] at hlength
    rw [List.length_reverse] at hle
    apply hne
    rw [List.reverse_eq_nil_iff, ← List.length_eq_zero_iff, List.length_tail]
    omega

/-- A listing in which a folder comes before what it contains. -/
structure Walk (mainPath : Bytes) extends Listing mainPath where
  parents : ∀ i (h : i < entries.length), ∀ q ∈ parentPath (relative mainPath entries[i].1),
    ∃ d ∈ entries.take i, d.1 = mainPath ++ q ∧ d.2.isDirectory = true

namespace Walk

variable {mainPath : Bytes} (walk : Walk mainPath)

theorem parent_before {before after : List (Bytes × Node)} {e : Bytes × Node}
    (hsplit : walk.entries = before ++ e :: after) {q : Bytes}
    (hq : parentPath (relative mainPath e.1) = some q) :
    ∃ n, (mainPath ++ q, n) ∈ before ∧ n.isDirectory = true := by
  have hlt : before.length < walk.entries.length := by
    rw [hsplit, List.length_append, List.length_cons]
    omega
  have hat : walk.entries[before.length] = e := by simp [hsplit]
  have htake : walk.entries.take before.length = before := by simp [hsplit]
  obtain ⟨d, hd, hpath, hdir⟩ := walk.parents before.length hlt q (by rw [hat]; exact hq)
  rw [htake] at hd
  refine ⟨d.2, ?_, hdir⟩
  rw [← hpath]
  exact hd

theorem parent_find {e : Bytes × Node} (he : e ∈ walk.entries) {q : Bytes}
    (hq : parentPath (relative mainPath e.1) = some q) :
    ∃ n, walk.find (mainPath ++ q) = some n ∧ n.isDirectory = true := by
  obtain ⟨before, after, hsplit⟩ := List.append_of_mem he
  obtain ⟨n, hn, hdir⟩ := walk.parent_before hsplit hq
  refine ⟨n, walk.find_eq_some_iff.mpr ?_, hdir⟩
  rw [hsplit]
  exact List.mem_append_left _ hn

theorem relative_eq {e : Bytes × Node} (he : e ∈ walk.entries) :
    mainPath ++ relative mainPath e.1 = e.1 := by
  obtain ⟨rest, hrest⟩ := walk.below e he
  rw [relative, ← hrest, List.drop_left]

/-- A file is the parent of no entry. -/
theorem not_parent_of_file {e d : Bytes × Node} (he : e ∈ walk.entries) (hd : d ∈ walk.entries)
    (hfile : e.2.isDirectory = false) :
    parentPath (relative mainPath d.1) ≠ some (relative mainPath e.1) := by
  intro hparent
  obtain ⟨n, hn, hdir⟩ := walk.parent_find hd hparent
  rw [walk.relative_eq he, walk.find_eq_some_iff.mpr he, Option.some.injEq] at hn
  rw [hn, hdir] at hfile
  exact Bool.noConfusion hfile

end Walk

/-- What storing an action does to the paths that the server holds. -/
def editOf (mainPath : Bytes) (action : Action) : Option (Edit Bytes) :=
  match action.actionType with
  | .createFolder => some (.makeDirectory (relative mainPath action.path))
  | .readFile => some (.write (relative mainPath action.path))
  | .deletePath => some (.remove (relative mainPath action.path))
  | _ => none

def edits (mainPath : Bytes) (actions : List Action) : List (Edit Bytes) :=
  actions.filterMap (editOf mainPath)

/-- The event of an entry asks for an upload: a folder that is modified is ignored. -/
def Uploaded (event : Bytes × Node → Option FileStatus) (e : Bytes × Node) : Prop :=
  ∃ st ∈ event e, actionTypeOf e.2.isDirectory st ≠ .ignore

instance (event : Bytes × Node → Option FileStatus) (e : Bytes × Node) :
    Decidable (Uploaded event e) :=
  inferInstanceAs (Decidable (∃ st ∈ event e, _))

/-- The edit of an entry. -/
def editOfEntry (mainPath : Bytes) (event : Bytes × Node → Option FileStatus) (e : Bytes × Node) :
    Option (Edit Bytes) :=
  (event e).bind fun st => editOf mainPath (.ofStatus e.2.isDirectory e.1 st .created)

section Edits

variable {mainPath : Bytes} {tree : Listing mainPath} {event : Bytes × Node → Option FileStatus}
  {e : Bytes × Node}

theorem edits_append (actions later : List Action) :
    edits mainPath (actions ++ later) = edits mainPath actions ++ edits mainPath later :=
  List.filterMap_append

theorem edits_erased (paths : List Bytes) :
    edits mainPath (Watching.erased tree paths) = (paths.map (relative mainPath)).map .remove := by
  unfold edits Watching.erased
  rw [List.filterMap_map, List.map_map, ← List.filterMap_eq_map]
  rfl

theorem edits_found (entries : List (Bytes × Node)) :
    edits mainPath (Watching.found event entries) =
      entries.filterMap (editOfEntry mainPath event) := by
  induction entries with
  | nil => rfl
  | cons e entries ih =>
    rw [Watching.found_cons, edits_append, ih, List.filterMap_cons]
    unfold editOfEntry edits Watching.actionsOf
    cases event e with
    | none => rfl
    | some st =>
      rw [Option.bind_some, Option.map_some, Option.toList_some, List.filterMap_cons]
      split <;> simp_all

/-- An entry that is uploaded is made as what it is. -/
theorem editOfEntry_eq_some_iff (herased : event e ≠ some .erased) {x : Edit Bytes} :
    editOfEntry mainPath event e = some x ↔ Uploaded event e ∧
      x = if e.2.isDirectory then .makeDirectory (relative mainPath e.1)
        else .write (relative mainPath e.1) := by
  unfold editOfEntry Uploaded
  cases hevent : event e with
  | none => simp
  | some st =>
    cases st with
    | created => cases hdir : e.2.isDirectory <;> simp [editOf, Action.ofStatus, actionTypeOf, eq_comm]
    | modified =>
      cases hdir : e.2.isDirectory <;> simp [editOf, Action.ofStatus, actionTypeOf, eq_comm]
    | erased => exact absurd hevent herased

theorem path_editOfEntry (herased : event e ≠ some .erased) {x : Edit Bytes}
    (hx : editOfEntry mainPath event e = some x) : x.path = relative mainPath e.1 := by
  obtain ⟨-, rfl⟩ := (editOfEntry_eq_some_iff herased).mp hx
  cases e.2.isDirectory <;> rfl

end Edits

/-- An entry that is uploaded has a parent that is new as well, or is held as a folder. -/
def FoldersAbove (mainPath : Bytes) (known : Bytes → Bool) (v : Bytes → Option Bytes)
    (event : Bytes × Node → Option FileStatus) (entries : List (Bytes × Node)) : Prop :=
  ∀ e ∈ entries, Uploaded event e → ∀ q ∈ parentPath (relative mainPath e.1),
    known (mainPath ++ q) = true → v q = some dirHash

instance (mainPath : Bytes) (known : Bytes → Bool) (v : Bytes → Option Bytes)
    (event : Bytes × Node → Option FileStatus) (entries : List (Bytes × Node)) :
    Decidable (FoldersAbove mainPath known v event entries) :=
  inferInstanceAs (Decidable (∀ e ∈ entries, _ → ∀ q ∈ parentPath _, _ → _))

/-- No path that is held follows its parent among those that are gone. -/
def ChildrenFirst (mainPath : Bytes) (v : Bytes → Option Bytes) (paths : List Bytes) : Prop :=
  (paths.map (relative mainPath)).Pairwise fun p q => v q ≠ none → parentPath q ≠ some p

instance (mainPath : Bytes) (v : Bytes → Option Bytes) (paths : List Bytes) :
    Decidable (ChildrenFirst mainPath v paths) :=
  inferInstanceAs (Decidable (List.Pairwise _ _))

section Events

variable {hash : Bytes → Bytes} {status : Option Bytes} {time : Option ℤ}

theorem initEvent_ne_erased (status : Option Bytes) (n : Node) :
    Watching.initEvent hash status (some n) ≠ some .erased := by
  cases status with
  | none => simp [Watching.initEvent]
  | some known => simp [Watching.initEvent]

theorem initEvent_new (h : status.isSome = false) (n : Node) :
    Watching.initEvent hash status (some n) = some .created := by
  cases status with
  | none => rfl
  | some known => exact absurd h (by simp)

theorem initEvent_known (h : status.isSome = true) (n : Node) :
    Watching.initEvent hash status (some n) ≠ some .created := by
  cases status with
  | none => exact absurd h (by simp)
  | some known => simp [Watching.initEvent]

theorem scanEvent_ne_erased (time : Option ℤ) (n : Node) :
    Watching.scanEvent time (some n) ≠ some .erased := by
  cases time with
  | none => simp [Watching.scanEvent]
  | some time => simp [Watching.scanEvent]

theorem scanEvent_new (h : time.isSome = false) (n : Node) :
    Watching.scanEvent time (some n) = some .created := by
  cases time with
  | none => rfl
  | some time => exact absurd h (by simp)

theorem scanEvent_known (h : time.isSome = true) (n : Node) :
    Watching.scanEvent time (some n) ≠ some .created := by
  cases time with
  | none => exact absurd h (by simp)
  | some time => simp [Watching.scanEvent]

end Events

section Passes

variable {mainPath : Bytes} {walk : Walk mainPath} {event : Bytes × Node → Option FileStatus}
  {v : Bytes → Option Bytes} {known : Bytes → Bool} {final : (Bytes → Option Bytes) → Prop}

/-- The edits of the paths that exist. -/
theorem keepsParents_found (hclosed : UpClosed parentPath dirHash v)
    (herased : ∀ e ∈ walk.entries, event e ≠ some .erased)
    (hcreated : ∀ e ∈ walk.entries, known e.1 = false → event e = some .created)
    (hknown : ∀ e ∈ walk.entries, known e.1 = true → event e ≠ some .created)
    (habove : FoldersAbove mainPath known v event walk.entries)
    (hfiles : ∀ e ∈ walk.entries, e.2.isDirectory = false → Uploaded event e →
      ∀ y, v y ≠ none → parentPath y ≠ some (relative mainPath e.1))
    (hfinal : ∀ v', UpClosed parentPath dirHash v' →
      (∀ y, walk.find (mainPath ++ y) = none → v' y = v y) → final v') :
    KeepsParents parentPath dirHash final v (edits mainPath (Watching.found event walk.entries)) := by
  have hentry : ∀ x ∈ walk.entries.filterMap (editOfEntry mainPath event), ∃ e ∈ walk.entries,
      Uploaded event e ∧ x.path = relative mainPath e.1 ∧
        x = if e.2.isDirectory then .makeDirectory (relative mainPath e.1)
          else .write (relative mainPath e.1) := by
    intro x hx
    obtain ⟨e, he, hx⟩ := List.mem_filterMap.mp hx
    obtain ⟨huploaded, heq⟩ := (editOfEntry_eq_some_iff (herased e he)).mp hx
    exact ⟨e, he, huploaded, path_editOfEntry (herased e he) hx, heq⟩
  rw [edits_found]
  apply keepsParents_additions hclosed parentPath_ne
  case hadds =>
    intro x hx p heq
    obtain ⟨e, -, -, -, hx⟩ := hentry x hx
    rw [hx] at heq
    split at heq <;> exact absurd heq (by simp)
  case hnodup =>
    rw [List.Nodup, List.pairwise_map, List.pairwise_filterMap]
    apply (List.pairwise_map.mp walk.nodup).imp_of_mem
    intro e d he hd hne x hx y hy hpath
    rw [path_editOfEntry (herased e he) hx, path_editOfEntry (herased d hd) hy] at hpath
    rw [← walk.relative_eq he, ← walk.relative_eq hd, hpath] at hne
    exact hne rfl
  case hparents =>
    intro before x after hsplit q hq
    obtain ⟨entries, later, hentries, rfl, hlater⟩ := List.filterMap_eq_append_iff.mp hsplit
    obtain ⟨skipped, e, rest, rfl, hskipped, hx, -⟩ := List.filterMap_eq_cons_iff.mp hlater
    have hsplit : walk.entries = (entries ++ skipped) ++ e :: rest := by
      rw [hentries, List.append_assoc]
    have he : e ∈ walk.entries := by
      rw [hsplit]
      exact List.mem_append_right _ List.mem_cons_self
    have huploaded := ((editOfEntry_eq_some_iff (herased e he)).mp hx).1
    rw [path_editOfEntry (herased e he) hx] at hq
    obtain ⟨n, hn, hdir⟩ := walk.parent_before hsplit hq
    have hmem : (mainPath ++ q, n) ∈ walk.entries := by
      rw [hsplit]
      exact List.mem_append_left _ hn
    cases hq' : known (mainPath ++ q) with
    | false =>
      -- a folder that is new is made when the iterator comes to it
      left
      have hnew : editOfEntry mainPath event (mainPath ++ q, n) = some (.makeDirectory q) := by
        apply (editOfEntry_eq_some_iff (herased _ hmem)).mpr
        rw [if_pos hdir, relative_append]
        exact ⟨⟨.created, hcreated _ hmem hq', by simp [actionTypeOf, hdir]⟩, rfl⟩
      rcases List.mem_append.mp hn with hn | hn
      · exact List.mem_filterMap.mpr ⟨_, hn, hnew⟩
      · exact absurd hnew (by simp [hskipped _ hn])
    | true =>
      right
      refine ⟨habove e he huploaded q hq hq', fun y hy heq => ?_⟩
      obtain ⟨d, hd, hy⟩ := List.mem_filterMap.mp hy
      have hd : d ∈ walk.entries := by
        rw [hentries]
        exact List.mem_append_left _ hd
      rw [path_editOfEntry (herased d hd) hy] at heq
      have hsame : walk.find (mainPath ++ q) = some d.2 := by
        rw [← heq, walk.relative_eq hd]
        exact walk.find_eq_some_iff.mpr hd
      rw [walk.find_eq_some_iff.mpr hmem, Option.some.injEq] at hsame
      rw [← heq, walk.relative_eq hd] at hq'
      obtain ⟨⟨st, hst, hne⟩, -⟩ := (editOfEntry_eq_some_iff (herased d hd)).mp hy
      cases st with
      | created => exact hknown d hd hq' hst
      | modified => exact hne (by rw [← hsame, hdir]; rfl)
      | erased => exact herased d hd hst
  case hfiles =>
    intro p hp
    obtain ⟨e, he, huploaded, hpath, heq⟩ := hentry _ hp
    have hfile : e.2.isDirectory = false := by
      by_contra hdir
      rw [if_pos (by simpa using hdir)] at heq
      exact absurd heq (by simp)
    have hp : p = relative mainPath e.1 := hpath
    rw [hp]
    refine ⟨hfiles e he hfile huploaded, fun x hx => ?_⟩
    obtain ⟨d, hd, -, hpath, -⟩ := hentry x hx
    rw [hpath]
    exact walk.not_parent_of_file he hd hfile
  case hfinal =>
    intro v' hclosed' hsame
    apply hfinal v' hclosed'
    intro y hy
    apply hsame
    intro hmem
    obtain ⟨x, hx, rfl⟩ := List.mem_map.mp hmem
    obtain ⟨e, he, -, hpath, -⟩ := hentry x hx
    rw [hpath, walk.relative_eq he, walk.find_eq_some_iff.mpr he] at hy
    exact Option.some_ne_none _ hy

section Order

variable {order : List Bytes} (hbelow : ∀ p, known p = true → mainPath <+: p)
  (hlisted : ∀ p, known p = true → p ∈ order)

include hbelow

theorem mem_gone {k : Bytes} (hk : k ∈ (Watching.gone walk.toListing known order).map (relative mainPath)) :
    known (mainPath ++ k) = true ∧ walk.find (mainPath ++ k) = none := by
  obtain ⟨p, hp, rfl⟩ := List.mem_map.mp hk
  obtain ⟨-, hgone⟩ := List.mem_filter.mp hp
  rw [Bool.and_eq_true, Option.isNone_iff_eq_none] at hgone
  obtain ⟨k, rfl⟩ := hbelow p hgone.1
  rw [relative_append]
  exact hgone

include hlisted

omit hbelow in
theorem mem_gone_of_known {k : Bytes} (hknown : known (mainPath ++ k) = true)
    (hfind : walk.find (mainPath ++ k) = none) :
    k ∈ (Watching.gone walk.toListing known order).map (relative mainPath) := by
  refine List.mem_map.mpr ⟨mainPath ++ k, List.mem_filter.mpr ⟨hlisted _ hknown, ?_⟩,
    relative_append _ _⟩
  rw [hknown, hfind]
  rfl

/-- The edits of the paths that are gone. -/
theorem keepsParents_gone (hclosed : UpClosed parentPath dirHash v)
    (hheld : ∀ k, v k ≠ none → walk.find (mainPath ++ k) = none → known (mainPath ++ k) = true)
    (hfirst : ChildrenFirst mainPath v (Watching.gone walk.toListing known order))
    (hfinal : ∀ v', UpClosed parentPath dirHash v' →
      (∀ k, v' k ≠ none → walk.find (mainPath ++ k) ≠ none) →
      (∀ k, walk.find (mainPath ++ k) ≠ none → v' k = v k) → final v') :
    KeepsParents parentPath dirHash final v
      (edits mainPath (Watching.erased walk.toListing (Watching.gone walk.toListing known order))) := by
  rw [edits_erased]
  apply keepsParents_removals hclosed parentPath_ne
  case hall =>
    intro y hy p hp hyp
    obtain ⟨-, hgone⟩ := mem_gone hbelow hp
    have hfind : walk.find (mainPath ++ y) = none := by
      by_contra hne
      obtain ⟨n, hn⟩ := Option.ne_none_iff_exists'.mp hne
      have hparent : parentPath (relative mainPath (mainPath ++ y, n).1) = some p := by
        rw [relative_append, hyp]
      obtain ⟨n', hn', -⟩ := walk.parent_find (walk.find_eq_some_iff.mp hn) hparent
      rw [hgone] at hn'
      exact Option.some_ne_none _ hn'.symm
    exact mem_gone_of_known hlisted (hheld y hy hfind) hfind
  case hordered => exact hfirst
  case hfinal =>
    intro v' hclosed' hnone hsame
    apply hfinal v' hclosed'
    · intro k hk hfind
      by_cases hmem : k ∈ (Watching.gone walk.toListing known order).map (relative mainPath)
      · exact hk (hnone k hmem)
      · rw [hsame k hmem] at hk
        exact hmem (mem_gone_of_known hlisted (hheld k hk hfind) hfind)
    · intro k hfind
      apply hsame
      intro hmem
      exact hfind (mem_gone hbelow hmem).2

end Order

variable {hash : Bytes → Bytes} {order : List Bytes}

/-- `init_status` starts from what the server holds. -/
theorem keepsParents_initStatus {status : Bytes → Option Bytes}
    (hclosed : UpClosed parentPath dirHash v) (hstatus : ∀ k, status (mainPath ++ k) = v k)
    (hbelow : ∀ p, (status p).isSome = true → mainPath <+: p)
    (hlisted : ∀ p, (status p).isSome = true → p ∈ order)
    (habove : FoldersAbove mainPath (fun p => (status p).isSome) v
      (fun e => Watching.initEvent hash (status e.1) (some e.2)) walk.entries)
    (hfiles : ∀ e ∈ walk.entries, e.2.isDirectory = false →
      Uploaded (fun e => Watching.initEvent hash (status e.1) (some e.2)) e →
      ∀ y, v y ≠ none → parentPath y ≠ some (relative mainPath e.1))
    (hfirst : ChildrenFirst mainPath v
      (Watching.gone walk.toListing (fun p => (status p).isSome) order))
    (hfinal : ∀ v', (∀ k, v' k ≠ none → walk.find (mainPath ++ k) ≠ none) → final v') :
    KeepsParents parentPath dirHash final v
      (edits mainPath (Watching.initStatus hash walk.toListing order status).pushed) := by
  rw [Watching.initStatus_pushed, edits_append]
  have hfound : KeepsParents parentPath dirHash (fun v' => UpClosed parentPath dirHash v' ∧
      ∀ k, walk.find (mainPath ++ k) = none → v' k = v k) v
      (edits mainPath (Watching.found
        (fun e => Watching.initEvent hash (status e.1) (some e.2)) walk.entries)) := by
    apply keepsParents_found hclosed _ _ _ habove hfiles
    · exact fun v' hclosed' hsame => ⟨hclosed', hsame⟩
    · exact fun e _ => initEvent_ne_erased _ _
    · exact fun e _ hnew => initEvent_new hnew _
    · exact fun e _ hold => initEvent_known hold _
  apply hfound.append
  rintro v' ⟨hclosed', hsame⟩
  apply keepsParents_gone hbelow hlisted hclosed'
  · intro k hk hfind
    rw [hsame k hfind, ← hstatus k] at hk
    exact Option.isSome_iff_ne_none.mpr hk
  · apply hfirst.imp_of_mem
    intro p q _ hq himp hne
    rw [hsame q (mem_gone hbelow hq).2] at hne
    exact himp hne
  · exact fun v'' _ hwithin _ => hfinal v'' hwithin

/-- A pass starts from paths that the server held or will hold. -/
theorem keepsParents_scan {w : Watching} (hempty : w.pushed = [])
    (hclosed : UpClosed parentPath dirHash v)
    (hheld : ∀ k, v k ≠ none → (w.paths (mainPath ++ k)).isSome = true)
    (hbelow : ∀ p, (w.paths p).isSome = true → mainPath <+: p)
    (hlisted : ∀ p, (w.paths p).isSome = true → p ∈ order)
    (habove : FoldersAbove mainPath (fun p => (w.paths p).isSome) v
      (fun e => Watching.scanEvent (w.paths e.1) (some e.2)) walk.entries)
    (hfirst : ChildrenFirst mainPath v
      (Watching.gone walk.toListing (fun p => (w.paths p).isSome) order))
    (hfinal : ∀ v', (∀ k, v' k ≠ none → walk.find (mainPath ++ k) ≠ none) → final v') :
    KeepsParents parentPath dirHash final v
      (edits mainPath (Watching.scan walk.toListing order w).pushed) := by
  rw [Watching.scan_pushed, hempty, List.nil_append, edits_append]
  have hgone : KeepsParents parentPath dirHash (fun v' => UpClosed parentPath dirHash v' ∧
      (∀ k, v' k ≠ none → walk.find (mainPath ++ k) ≠ none) ∧
      ∀ k, walk.find (mainPath ++ k) ≠ none → v' k = v k) v
      (edits mainPath (Watching.erased walk.toListing
        (Watching.gone walk.toListing (fun p => (w.paths p).isSome) order))) := by
    apply keepsParents_gone hbelow hlisted hclosed (fun k hk _ => hheld k hk) hfirst
    exact fun v' hclosed' hwithin hsame => ⟨hclosed', hwithin, hsame⟩
  apply hgone.append
  rintro v' ⟨hclosed', hwithin, hsame⟩
  have habove' : FoldersAbove mainPath (fun p => (w.paths p).isSome) v'
      (fun e => Watching.scanEvent (w.paths e.1) (some e.2)) walk.entries := by
    intro e he huploaded q hq hknown
    obtain ⟨n, hn, -⟩ := walk.parent_find he hq
    rw [hsame q (by rw [hn]; exact Option.some_ne_none n)]
    exact habove e he huploaded q hq hknown
  apply keepsParents_found hclosed' _ _ _ habove'
  · -- what is held now lies in the tree, where a file contains nothing
    intro e he hfile _ y hy
    obtain ⟨n, hn⟩ := Option.ne_none_iff_exists'.mp (hwithin y hy)
    have hparent := walk.not_parent_of_file he (walk.find_eq_some_iff.mp hn) hfile
    rwa [relative_append] at hparent
  · intro v'' _ hsame'
    apply hfinal v''
    intro k hk hfind
    rw [hsame' k hfind] at hk
    exact hwithin k hk hfind
  · exact fun e _ => scanEvent_ne_erased _ _
  · exact fun e _ hnew => scanEvent_new hnew _
  · exact fun e _ hold => scanEvent_known hold _

end Passes
end BackupManager.Client
