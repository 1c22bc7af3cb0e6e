import BackupManager.Client.HostFiles
import BackupManager.Client.ParentOrder

/-! What the watcher emits is the difference: of the folder and the server's view at the start, of two
states of the folder in each pass. -/
namespace BackupManager.Client
open ByteStream

/-- What `action` is called with. -/
def Watching.events (w : Watching) : List (Bytes × FileStatus) :=
  w.pushed.map fun a => (a.path, a.fileStatus)

/-- Every path that exists, with its time. -/
def Listing.snapshot {mainPath : Bytes} (tree : Listing mainPath) (p : Bytes) : Option ℤ :=
  (tree.find p).map Node.lastWriteTime

/-- The keys of a map, each once, in some order. -/
structure Enumerates {α : Type} (order : List Bytes) (map : Bytes → Option α) : Prop where
  nodup : order.Nodup
  complete : ∀ p, (map p).isSome = true → p ∈ order

variable {mainPath : Bytes}

/-- `init_status` has emitted how the folder differs from the initial status. -/
structure InitExact (hash : Bytes → Bytes) (status : Bytes → Option Bytes) (tree : Walk mainPath)
    (w : Watching) : Prop where
  once : (w.events.map Prod.fst).Nodup
  created : ∀ p, (p, .created) ∈ w.events ↔ status p = none ∧ tree.find p ≠ none
  modified : ∀ p, (p, .modified) ∈ w.events ↔
    ∃ known n, status p = some known ∧ tree.find p = some n ∧ known ≠ n.hashStr hash
  erased : ∀ p, (p, .erased) ∈ w.events ↔ status p ≠ none ∧ tree.find p = none
  paths : w.paths = tree.snapshot

/-- A pass has emitted how the folder differs from the snapshot before: first what is gone, and a
folder before what is in it. -/
structure ScanExact (before : Bytes → Option ℤ) (tree : Walk mainPath) (w : Watching) : Prop where
  once : (w.events.map Prod.fst).Nodup
  created : ∀ p, (p, .created) ∈ w.events ↔ before p = none ∧ tree.find p ≠ none
  modified : ∀ p, (p, .modified) ∈ w.events ↔
    ∃ time n, before p = some time ∧ tree.find p = some n ∧ time ≠ n.lastWriteTime
  erased : ∀ p, (p, .erased) ∈ w.events ↔ before p ≠ none ∧ tree.find p = none
  erasedFirst : w.events.Pairwise fun x y => y.2 = .erased → x.2 = .erased
  topDown : w.events.Pairwise fun x y => x.2 = .created → y.2 = .created → y.1 ≠ mainPath →
    ¬y.1 ++ [slash] <+: x.1
  paths : w.paths = tree.snapshot

/-- The watcher after `init_status` and any number of passes, the last of which has found this
folder. -/
inductive Watches (hash : Bytes → Bytes) : Walk mainPath → Watching → Prop where
  | init (tree : Walk mainPath) (order : List Bytes) (status : Bytes → Option Bytes)
      (horder : Enumerates order status) :
      Watches hash tree (Watching.initStatus hash tree.toListing order status)
  | pass (tree tree' : Walk mainPath) (w : Watching) (order : List Bytes) (hw : Watches hash tree w)
      (horder : Enumerates order w.paths) :
      Watches hash tree' (Watching.scan tree'.toListing order { w with pushed := [] })

section Events

variable {w : Watching} {event : Bytes → Option FileStatus} {isDirectory : Bytes → Bool}

/-- One event on a path, or none. -/
theorem mem_events (h : ∀ p, (w.pushed.filter fun a => a.path = p) =
      Watching.actionsOf (isDirectory p) p (event p)) (p : Bytes) (st : FileStatus) :
    (p, st) ∈ w.events ↔ event p = some st := by
  have hmem : (p, st) ∈ w.events ↔ ∃ a ∈ w.pushed.filter fun a => a.path = p, a.fileStatus = st := by
    simp only [Watching.events, List.mem_map, List.mem_filter, decide_eq_true_eq, Prod.mk.injEq]
    constructor
    · rintro ⟨a, ha, hp, hst⟩
      exact ⟨a, ⟨ha, hp⟩, hst⟩
    · rintro ⟨a, ⟨ha, hp⟩, hst⟩
      exact ⟨a, ha, hp, hst⟩
  rw [hmem, h p]
  cases event p with
  | none => simp [Watching.actionsOf]
  | some st' => simp [Watching.actionsOf, Action.ofStatus]

theorem nodup_events (h : ∀ p, (w.pushed.filter fun a => a.path = p) =
      Watching.actionsOf (isDirectory p) p (event p)) : (w.events.map Prod.fst).Nodup := by
  rw [List.nodup_iff_count_le_one]
  intro p
  have hcount : (w.events.map Prod.fst).count p = (w.pushed.filter fun a => a.path = p).length := by
    rw [Watching.events, List.map_map, List.count_eq_countP, List.countP_map,
      List.countP_eq_length_filter]
    congr 1
    apply List.filter_congr
    intro a _
    rw [Bool.eq_iff_iff]
    simp
  rw [hcount, h p]
  cases event p <;> simp [Watching.actionsOf]

theorem events_erased (tree : Listing mainPath) (paths : List Bytes) :
    (Watching.erased tree paths).map (fun a => (a.path, a.fileStatus)) =
      paths.map fun p => (p, .erased) := by
  rw [Watching.erased, List.map_map]
  rfl

theorem events_found (event : Bytes × Node → Option FileStatus) (entries : List (Bytes × Node)) :
    (Watching.found event entries).map (fun a => (a.path, a.fileStatus)) =
      entries.filterMap fun e => (event e).map fun st => (e.1, st) := by
  induction entries with
  | nil => rfl
  | cons e entries ih =>
    rw [Watching.found_cons, List.map_append, ih, List.filterMap_cons]
    cases event e <;> rfl

end Events

section Order

theorem parentPath_append {q name : Bytes} (hname : slash ∉ name) (hq : q ≠ []) :
    parentPath (q ++ slash :: name) = some q := by
  have hreverse : (q ++ slash :: name).reverse = name.reverse ++ slash :: q.reverse := by simp
  have hskip : ∀ b ∈ name.reverse, decide (b ≠ slash) = true := by
    intro b hb
    exact decide_eq_true fun h => hname (h ▸ List.mem_reverse.mp hb)
  unfold parentPath
  rw [hreverse, show (47 : UInt8) = slash from rfl, List.dropWhile_append_of_pos hskip]
  simp [hq]

/-- The parent of a path below a folder is the folder, or is below it itself. -/
theorem parentPath_below {k : Bytes} (rest : Bytes) (hk : k ≠ []) :
    ∃ q, parentPath (k ++ slash :: rest) = some q ∧ q.length < (k ++ slash :: rest).length ∧
      (q = k ∨ k ++ [slash] <+: q) := by
  by_cases hrest : slash ∈ rest
  · obtain ⟨b, a, hsplit, hb⟩ := List.eq_append_cons_of_mem (List.mem_reverse.mpr hrest)
    have hrest' : rest = a.reverse ++ slash :: b.reverse := by
      rw [← List.reverse_reverse rest, hsplit]
      simp
    refine ⟨k ++ slash :: a.reverse, ?_, ?_, Or.inr ⟨a.reverse, by simp⟩⟩
    · have hpath : k ++ slash :: rest = (k ++ slash :: a.reverse) ++ slash :: b.reverse := by
        rw [hrest']
        simp
      rw [hpath]
      exact parentPath_append (fun h => hb (List.mem_reverse.mp h)) (by simp)
    · rw [hrest']
      simp
  · exact ⟨k, parentPath_append hrest hk, by simp, Or.inl rfl⟩

namespace Walk

variable (walk : Walk mainPath)

/-- A folder comes before everything below it. -/
theorem folder_before {before after : List (Bytes × Node)} {e d : Bytes × Node}
    (hsplit : walk.entries = before ++ e :: after) (hd : d ∈ walk.entries) (hroot : d.1 ≠ mainPath)
    (hbelow : d.1 ++ [slash] <+: e.1) : d ∈ before := by
  induction hlength : e.1.length using Nat.strong_induction_on generalizing e before after with
  | _ length ih =>
    obtain ⟨k, hk⟩ := walk.below d hd
    obtain ⟨rest, hrest⟩ := hbelow
    have hpath : e.1 = mainPath ++ (k ++ slash :: rest) := by
      rw [← hrest, ← hk]
      simp
    have hne : k ≠ [] := by
      rintro rfl
      exact hroot (by rw [← hk, List.append_nil])
    obtain ⟨q, hparent, hshort, hq⟩ := parentPath_below rest hne
    rw [← relative_append mainPath (k ++ slash :: rest), ← hpath] at hparent
    obtain ⟨n, hn, -⟩ := walk.parent_before hsplit hparent
    rcases hq with rfl | hq
    · have hmem : (mainPath ++ q, n) ∈ walk.entries := by
        rw [hsplit]
        exact List.mem_append_left _ hn
      have heq : d = (mainPath ++ q, n) := List.inj_on_of_nodup_map walk.nodup hd hmem hk.symm
      rw [heq]
      exact hn
    · obtain ⟨first, second, hbefore⟩ := List.append_of_mem hn
      have hsplit' : walk.entries = first ++ (mainPath ++ q, n) :: (second ++ e :: after) := by
        rw [hsplit, hbefore]
        simp
      have hlt : (mainPath ++ q, n).1.length < length := by
        rw [← hlength, hpath]
        simp only [List.length_append] at hshort ⊢
        omega
      have hbelow' : d.1 ++ [slash] <+: (mainPath ++ q, n).1 := by
        rw [← hk, List.append_assoc]
        exact (List.prefix_append_right_inj mainPath).mpr hq
      rw [hbefore]
      exact List.mem_append_left _ (ih _ hlt hsplit' hbelow' rfl)

theorem topDown : walk.entries.Pairwise fun x y => y.1 ≠ mainPath → ¬y.1 ++ [slash] <+: x.1 := by
  rw [List.pairwise_iff_getElem]
  intro i j hi hj hlt hroot hbelow
  have hsplit : walk.entries = walk.entries.take i ++ walk.entries[i] :: walk.entries.drop (i + 1) := by
    rw [List.cons_getElem_drop_succ, List.take_append_drop]
  have hbefore := walk.folder_before hsplit (List.getElem_mem hj) hroot hbelow
  obtain ⟨l, hl, heq⟩ := List.mem_take_iff_getElem.mp hbefore
  have hnodup := List.Nodup.of_map _ walk.nodup
  have hsame := (List.Nodup.getElem_inj_iff hnodup).mp heq
  omega

end Walk
end Order

section Passes

variable {hash : Bytes → Bytes} {order : List Bytes}

theorem init_exact (tree : Walk mainPath) {status : Bytes → Option Bytes}
    (horder : Enumerates order status) :
    InitExact hash status tree (Watching.initStatus hash tree.toListing order status) := by
  have happly := fun p => @Watching.initStatus_apply mainPath hash tree.toListing p order horder.nodup
    status horder.complete
  have hevents := mem_events fun p => (happly p).2
  refine ⟨nodup_events fun p => (happly p).2, fun p => ?_, fun p => ?_, fun p => ?_, ?_⟩
  · rw [hevents]
    cases status p <;> cases tree.find p <;> simp [Watching.initEvent]
  · rw [hevents]
    cases status p <;> cases tree.find p <;> simp [Watching.initEvent]
  · rw [hevents]
    cases status p <;> cases tree.find p <;> simp [Watching.initEvent]
  · funext p
    exact (happly p).1

theorem scan_exact (tree : Walk mainPath) {w : Watching} (hempty : w.pushed = [])
    (horder : Enumerates order w.paths) :
    ScanExact w.paths tree (Watching.scan tree.toListing order w) := by
  have happly := fun p => @Watching.scan_apply mainPath tree.toListing p order horder.nodup w hempty
    horder.complete
  have hmem := mem_events fun p => (happly p).2
  have hsplit : (Watching.scan tree.toListing order w).events =
      (Watching.gone tree.toListing (fun p => (w.paths p).isSome) order).map (fun p => (p, .erased)) ++
        tree.entries.filterMap fun e =>
          (Watching.scanEvent (w.paths e.1) (some e.2)).map fun st => (e.1, st) := by
    rw [Watching.events, Watching.scan_pushed, hempty, List.nil_append, List.map_append, events_erased,
      events_found]
  have hgone : ∀ x ∈ (Watching.gone tree.toListing (fun p => (w.paths p).isSome) order).map
      (fun p => (p, FileStatus.erased)), x.2 = .erased := by
    intro x hx
    obtain ⟨p, -, rfl⟩ := List.mem_map.mp hx
    rfl
  have hfound : ∀ x ∈ tree.entries.filterMap (fun e =>
      (Watching.scanEvent (w.paths e.1) (some e.2)).map fun st => (e.1, st)), x.2 ≠ .erased := by
    intro x hx
    obtain ⟨e, -, he⟩ := List.mem_filterMap.mp hx
    obtain ⟨st, hst, rfl⟩ := Option.map_eq_some_iff.mp he
    rintro rfl
    cases htime : w.paths e.1 <;> simp [Watching.scanEvent, htime] at hst
  refine ⟨nodup_events fun p => (happly p).2, fun p => ?_, fun p => ?_, fun p => ?_, ?_, ?_, ?_⟩
  · rw [hmem]
    cases w.paths p <;> cases tree.find p <;> simp [Watching.scanEvent]
  · rw [hmem]
    cases w.paths p <;> cases tree.find p <;> simp [Watching.scanEvent]
  · rw [hmem]
    cases w.paths p <;> cases tree.find p <;> simp [Watching.scanEvent]
  · rw [hsplit, List.pairwise_append]
    refine ⟨List.pairwise_of_forall_mem_list fun x hx _ _ _ => hgone x hx,
      List.pairwise_of_forall_mem_list fun _ _ y hy h => absurd h (hfound y hy),
      fun x hx _ _ _ => hgone x hx⟩
  · rw [hsplit, List.pairwise_append]
    refine ⟨List.pairwise_of_forall_mem_list fun x hx _ _ h => ?_, ?_, fun x hx _ _ h => ?_⟩
    · rw [hgone x hx] at h
      cases h
    · rw [List.pairwise_filterMap]
      refine tree.topDown.imp fun {e e'} hbelow x hx y hy _ _ => ?_
      obtain ⟨st, -, rfl⟩ := Option.map_eq_some_iff.mp hx
      obtain ⟨st', -, rfl⟩ := Option.map_eq_some_iff.mp hy
      exact hbelow
    · rw [hgone x hx] at h
      cases h
  · funext p
    exact (happly p).1

end Passes

/-- The folder "/d/b" with the file "/d/b/a" in it. -/
def nestedFolder : Walk [47, 100] where
  entries := [([47, 100, 47, 98], ⟨1, none⟩), ([47, 100, 47, 98, 47, 97], ⟨2, some [104, 105]⟩)]
  nodup := by decide
  below := by decide
  plain := by decide
  parents := by decide

end BackupManager.Client
