import BackupManager.Client.FileWatcher

/-! The order in which the watcher pushes its actions: `init_status` reports the paths that exist
before the ones that are gone, a pass of `start` the other way round. -/
namespace BackupManager.Client
open ByteStream Protocol Table

namespace Watching

variable {mainPath : Bytes}

/-- The paths that are known and gone, in the order of the iterator. -/
def gone (tree : Listing mainPath) (known : Bytes → Bool) (order : List Bytes) : List Bytes :=
  order.filter fun p => known p && (tree.find p).isNone

/-- The actions on the paths that exist. -/
def found (event : Bytes × Node → Option FileStatus) (entries : List (Bytes × Node)) :
    List Action :=
  entries.flatMap fun e => actionsOf e.2.isDirectory e.1 (event e)

theorem found_cons (event : Bytes × Node → Option FileStatus) (e : Bytes × Node)
    (entries : List (Bytes × Node)) : found event (e :: entries) =
      actionsOf e.2.isDirectory e.1 (event e) ++ found event entries := rfl

theorem found_congr {event event' : Bytes × Node → Option FileStatus}
    {entries : List (Bytes × Node)} (h : ∀ e ∈ entries, event e = event' e) :
    found event entries = found event' entries := by
  apply List.flatMap_congr
  intro e he
  rw [h e he]

/-- The actions on the paths that are gone. -/
def erased (tree : Listing mainPath) (paths : List Bytes) : List Action :=
  paths.map fun p => .ofStatus (tree.isDirectory p) p .erased .created

section Folds

variable {hash : Bytes → Bytes} {tree : Listing mainPath}

theorem initFile_apply (hash : Bytes → Bytes) (w : Watching) (e : Bytes × Node) :
    (initFile hash w e).pushed = w.pushed ++
        actionsOf e.2.isDirectory e.1 (initEvent hash (w.initialStatus e.1) (some e.2)) ∧
      (initFile hash w e).initialStatus = Function.update w.initialStatus e.1 none := by
  unfold initFile
  cases hstatus : w.initialStatus e.1 with
  | none =>
    have hsame : Function.update w.initialStatus e.1 none = w.initialStatus := by
      rw [← hstatus, Function.update_eq_self]
    rw [hsame]
    exact ⟨rfl, rfl⟩
  | some known =>
    by_cases hknown : known = e.2.hashStr hash
    · simp [setPath, actionsOf, initEvent, hknown]
    · simp [setPath, push, actionsOf, initEvent, hknown]

theorem foldl_initFile (hash : Bytes → Bytes) {entries : List (Bytes × Node)}
    (hnodup : (entries.map Prod.fst).Nodup) (w : Watching) :
    (entries.foldl (initFile hash) w).pushed = w.pushed ++
        found (fun e => initEvent hash (w.initialStatus e.1) (some e.2)) entries ∧
      ∀ p, (entries.foldl (initFile hash) w).initialStatus p =
        if p ∈ entries.map Prod.fst then none else w.initialStatus p := by
  induction entries generalizing w with
  | nil => exact ⟨(List.append_nil _).symm, fun p => rfl⟩
  | cons e entries ih =>
    rw [List.map_cons, List.nodup_cons] at hnodup
    obtain ⟨hpushed, hstatus⟩ := initFile_apply hash w e
    obtain ⟨hpushed', hstatus'⟩ := ih hnodup.2 (initFile hash w e)
    constructor
    · have hsame : found (fun x => initEvent hash ((initFile hash w e).initialStatus x.1) (some x.2))
          entries = found (fun x => initEvent hash (w.initialStatus x.1) (some x.2)) entries := by
        apply found_congr
        intro x hx
        have hne : x.1 ≠ e.1 := by
          intro heq
          exact hnodup.1 (heq ▸ List.mem_map_of_mem hx)
        rw [hstatus, Function.update_of_ne hne]
      rw [List.foldl_cons, hpushed', hpushed, hsame, List.append_assoc]
      rfl
    · intro p
      rw [List.foldl_cons, hstatus' p, hstatus, List.map_cons]
      by_cases hp : p = e.1
      · simp [hp]
      · rw [Function.update_of_ne hp]
        exact if_congr (by simp [hp]) rfl rfl

theorem foldl_push (paths : List Bytes) (w : Watching) :
    (paths.foldl (fun w p => w.push (tree.isDirectory p) p .erased) w).pushed =
      w.pushed ++ erased tree paths := by
  induction paths generalizing w with
  | nil => exact (List.append_nil _).symm
  | cons p paths ih =>
    rw [List.foldl_cons, ih, push, List.append_assoc]
    rfl

/-- The actions of `init_status`. -/
theorem initStatus_pushed (hash : Bytes → Bytes) (tree : Listing mainPath) (order : List Bytes)
    (status : Bytes → Option Bytes) :
    (initStatus hash tree order status).pushed =
      found (fun e => initEvent hash (status e.1) (some e.2)) tree.entries ++
        erased tree (gone tree (fun p => (status p).isSome) order) := by
  obtain ⟨hpushed, hstatus⟩ := foldl_initFile hash tree.nodup ⟨fun _ => none, status, []⟩
  unfold initStatus
  dsimp only
  rw [foldl_push, hpushed, List.nil_append]
  congr 2
  apply List.filter_congr
  intro p _
  rw [hstatus p]
  by_cases hp : p ∈ tree.entries.map Prod.fst
  · have hfind : tree.find p ≠ none := fun hnone => tree.find_eq_none_iff.mp hnone hp
    simp [hp, Option.isNone_eq_false_iff.mpr (Option.isSome_iff_ne_none.mpr hfind)]
  · simp [hp, tree.find_eq_none_iff.mpr hp]

theorem foldl_scanPath (tree : Listing mainPath) (paths : List Bytes) (w : Watching) :
    (paths.foldl (scanPath tree) w).pushed =
        w.pushed ++ erased tree (paths.filter fun p => (tree.find p).isNone) ∧
      ∀ p, tree.find p ≠ none → (paths.foldl (scanPath tree) w).paths p = w.paths p := by
  induction paths generalizing w with
  | nil => exact ⟨(List.append_nil _).symm, fun _ _ => rfl⟩
  | cons q paths ih =>
    obtain ⟨hpushed, hpaths⟩ := ih (scanPath tree w q)
    rw [List.foldl_cons, hpushed, List.filter_cons]
    unfold scanPath at hpaths ⊢
    by_cases hq : tree.find q = none
    · rw [if_pos hq] at hpaths ⊢
      constructor
      · rw [if_pos (by rw [hq]; rfl)]
        simp [push, erased]
      · intro p hp
        have hne : p ≠ q := fun heq => hp (heq ▸ hq)
        rw [hpaths p hp]
        exact Function.update_of_ne hne _ _
    · rw [if_neg hq] at hpaths ⊢
      rw [if_neg (by simpa using hq)]
      exact ⟨rfl, hpaths⟩

theorem scanFile_apply (w : Watching) (e : Bytes × Node) :
    (scanFile w e).pushed =
        w.pushed ++ actionsOf e.2.isDirectory e.1 (scanEvent (w.paths e.1) (some e.2)) ∧
      ∀ p, p ≠ e.1 → (scanFile w e).paths p = w.paths p := by
  unfold scanFile
  cases hpath : w.paths e.1 with
  | none => exact ⟨rfl, fun p hp => Function.update_of_ne hp _ _⟩
  | some time =>
    by_cases htime : time = e.2.lastWriteTime
    · simp [actionsOf, scanEvent, htime]
    · constructor
      · simp [setPath, push, actionsOf, scanEvent, htime]
      · intro p hp
        simp [setPath, push, htime, hp]

theorem foldl_scanFile {entries : List (Bytes × Node)} (hnodup : (entries.map Prod.fst).Nodup)
    (w : Watching) :
    (entries.foldl scanFile w).pushed =
      w.pushed ++ found (fun e => scanEvent (w.paths e.1) (some e.2)) entries := by
  induction entries generalizing w with
  | nil => exact (List.append_nil _).symm
  | cons e entries ih =>
    rw [List.map_cons, List.nodup_cons] at hnodup
    obtain ⟨hpushed, hpaths⟩ := scanFile_apply w e
    have hsame : found (fun x => scanEvent ((scanFile w e).paths x.1) (some x.2)) entries =
        found (fun x => scanEvent (w.paths x.1) (some x.2)) entries := by
      apply found_congr
      intro x hx
      have hne : x.1 ≠ e.1 := by
        intro heq
        exact hnodup.1 (heq ▸ List.mem_map_of_mem hx)
      rw [hpaths x.1 hne]
    rw [List.foldl_cons, ih hnodup.2, hpushed, hsame, List.append_assoc]
    rfl

/-- The actions of a pass. -/
theorem scan_pushed (tree : Listing mainPath) (order : List Bytes) (w : Watching) :
    (scan tree order w).pushed = w.pushed ++
      (erased tree (gone tree (fun p => (w.paths p).isSome) order) ++
        found (fun e => scanEvent (w.paths e.1) (some e.2)) tree.entries) := by
  obtain ⟨hpushed, hpaths⟩ :=
    foldl_scanPath tree (order.filter fun p => (w.paths p).isSome) w
  have hsame : found (fun e => scanEvent
        (((order.filter fun p => (w.paths p).isSome).foldl (scanPath tree) w).paths e.1) (some e.2))
      tree.entries = found (fun e => scanEvent (w.paths e.1) (some e.2)) tree.entries := by
    apply found_congr
    intro e he
    have hfind : tree.find e.1 ≠ none := by
      rw [tree.find_eq_some_iff.mpr he]
      exact Option.some_ne_none _
    rw [hpaths e.1 hfind]
  unfold scan
  rw [foldl_scanFile tree.nodup, hpushed, hsame, List.filter_filter, List.append_assoc]
  unfold gone
  congr 4
  funext p
  exact Bool.and_comm _ _

end Folds
end Watching
end BackupManager.Client
