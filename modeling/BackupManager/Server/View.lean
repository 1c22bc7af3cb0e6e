import BackupManager.Server.RowDecoding

/-! The view of a user's table that a client starts from: the hash of each path that its newest
row does not delete. One call of `addAction` changes the view of its path and of no other. -/
namespace BackupManager.Server
open ByteStream Protocol Table

/-- The loop of `getInitailizationEntries` never throws. -/
theorem getInitailizationEntries_rows (rows : List Row) {last : Step Row}
    (hlast : ∀ r, last ≠ .row r) :
    getInitailizationEntries (rows.map .row ++ [last]) =
      .ok (SortedMap.insertList .empty
        (rows.map fun r => (cString r.filename, cString r.hash))) := by
  rw [getInitailizationEntries, stepLoop_rows _ _ _ hlast, SortedMap.insertList, List.foldl_map]
  generalize (SortedMap.empty : HashMap) = m
  induction rows generalizing m with
  | nil => rfl
  | cons r rows ih => exact ih _

/-- Every name and every hash is the C string it is read back as. -/
def Clean (table : UserTable) : Prop := ∀ r ∈ table.rows, 0 ∉ r.filename ∧ 0 ∉ r.hash

/-- The hash of a path. -/
def view (table : UserTable) (filename : Bytes) : Option Bytes :=
  ((selectInitialization table .deletePath).find? fun r => r.filename = filename).map Row.hash

section View

variable {table table' : UserTable} {c : AddAction} {k h : Bytes}

theorem view_eq_some_iff :
    view table k = some h ↔
      ∃ r ∈ selectInitialization table .deletePath, r.filename = k ∧ r.hash = h := by
  unfold view
  rw [Option.map_eq_some_iff]
  constructor
  · intro hview
    obtain ⟨r, hr, hhash⟩ := hview
    exact ⟨r, List.mem_of_find?_eq_some hr, by simpa using List.find?_some hr, hhash⟩
  · intro hrow
    obtain ⟨r, hr, rfl, rfl⟩ := hrow
    have hsome : ((selectInitialization table .deletePath).find? fun r' =>
        r'.filename = r.filename).isSome = true := by
      rw [List.find?_isSome]
      exact ⟨r, hr, by simp⟩
    obtain ⟨r', hr'⟩ := Option.isSome_iff_exists.mp hsome
    have hname : r'.filename = r.filename := by simpa using List.find?_some hr'
    have hnodup : ((selectInitialization table .deletePath).map Row.filename).Nodup :=
      (selectInitialization_sorted table .deletePath).imp ne_of_lt
    have heq : r' = r :=
      List.inj_on_of_nodup_map hnodup (List.mem_of_find?_eq_some hr') hr hname
    exact ⟨r', hr', by rw [heq]⟩

theorem mem_rows_of_select {r : Row} (hr : r ∈ selectInitialization table .deletePath) :
    r ∈ table.rows := by
  rw [selectInitialization, mem_orderByFilename] at hr
  exact (mem_current.mp hr).1

/-- The map that `getInitailizationEntries` returns is the view. -/
theorem getInitailizationEntries_view (hclean : Clean table) :
    ∃ m, getInitailizationEntries (complete (selectInitialization table .deletePath)) = .ok m ∧
      ∀ k h, (k, h) ∈ m.entries ↔ view table k = some h := by
  have hentries : (selectInitialization table .deletePath).map
      (fun r => (cString r.filename, cString r.hash)) =
        (selectInitialization table .deletePath).map fun r => (r.filename, r.hash) := by
    apply List.map_congr_left
    intro r hr
    have hr := hclean r (mem_rows_of_select hr)
    rw [cString_of_not_mem hr.1, cString_of_not_mem hr.2]
  have hsorted : (((selectInitialization table .deletePath).map fun r =>
      (r.filename, r.hash)).map Prod.fst).Pairwise (· < ·) := by
    rw [List.map_map]
    exact selectInitialization_sorted table .deletePath
  refine ⟨_, getInitailizationEntries_rows _ done_ne_row, fun k h => ?_⟩
  rw [hentries, SortedMap.insertList_empty hsorted, List.mem_map, view_eq_some_iff]
  simp only [Prod.mk.injEq]

/-- The newest call decides the view of its path. -/
theorem view_addAction (hday : ∀ r ∈ table.rows, r.timestamp ≤ c.timestamp)
    (hadd : addAction table c = some table') :
    view table' = Function.update (view table) c.filename
      (if c.action = .deletePath then none else some c.hash) := by
  have hselect : ∀ r, r ∈ selectInitialization table' .deletePath ↔
      r = c.row ∧ c.action ≠ .deletePath ∨
        r ∈ selectInitialization table .deletePath ∧ r.filename ≠ c.filename := by
    intro r
    have hkeep : (decide (c.row.action ≠ .deletePath) = true) = (c.action ≠ .deletePath) :=
      propext decide_eq_true_iff
    have hname : c.row.filename = c.filename := rfl
    rw [selectInitialization, selectInitialization, mem_orderByFilename, mem_orderByFilename,
      addAction_rows hadd,
      mem_current_upsert_of_newest (r := c.row) rfl fun y hy _ => hday y hy, hkeep, hname]
  funext k
  ext h
  rw [view_eq_some_iff]
  by_cases hk : k = c.filename
  · rw [hk, Function.update_self]
    constructor
    · intro hrow
      obtain ⟨r, hr, hname, hhash⟩ := hrow
      rcases (hselect r).mp hr with hnew | hold
      · rw [if_neg hnew.2, ← hhash, hnew.1]
        rfl
      · exact absurd hname hold.2
    · intro hsome
      by_cases hdelete : c.action = .deletePath
      · rw [if_pos hdelete] at hsome
        exact absurd hsome (by simp)
      · rw [if_neg hdelete, Option.some.injEq] at hsome
        exact ⟨c.row, (hselect c.row).mpr (Or.inl ⟨rfl, hdelete⟩), rfl, hsome⟩
  · rw [Function.update_of_ne hk, view_eq_some_iff]
    constructor
    · intro hrow
      obtain ⟨r, hr, hname, hhash⟩ := hrow
      rcases (hselect r).mp hr with hnew | hold
      · rw [hnew.1] at hname
        exact absurd hname.symm hk
      · exact ⟨r, hold.1, hname, hhash⟩
    · intro hrow
      obtain ⟨r, hr, hname, hhash⟩ := hrow
      exact ⟨r, (hselect r).mpr (Or.inr ⟨hr, by rw [hname]; exact hk⟩), hname, hhash⟩

/-- A date that no row is after selects what the newest rows are. -/
theorem selectRestore_of_last {deleteCode : ActionType} {date : Bytes}
    (h : ∀ r ∈ table.rows, r.timestamp ≤ date) :
    selectRestore table deleteCode date = selectInitialization table deleteCode := by
  have hadmits : ∀ f, newest Row.filename Row.timestamp table.rows (fun t => decide (t ≤ date)) f =
      newest Row.filename Row.timestamp table.rows (fun _ => true) f := by
    intro f
    unfold newest
    congr 2
    apply List.filter_congr
    intro r hr
    simp [h r hr]
  unfold selectRestore selectInitialization current
  simp only [hadmits]

theorem clean_addAction (hclean : Clean table) (hname : 0 ∉ c.filename) (hhash : 0 ∉ c.hash)
    (hadd : addAction table c = some table') : Clean table' := by
  intro r hr
  rw [addAction_rows hadd, mem_upsert] at hr
  rcases hr with rfl | hr
  · exact ⟨hname, hhash⟩
  · exact hclean r hr.1

end View
end BackupManager.Server
