import Mathlib.Data.List.Sort
import Mathlib.Order.Basic

/-! Ordered maps as sorted association lists, with the insertion of `std::map`: a key that is
present keeps its value. -/
namespace BackupManager.Table

structure SortedMap (K V : Type) [LinearOrder K] where
  entries : List (K × V)
  sorted : (entries.map Prod.fst).Pairwise (· < ·)

namespace SortedMap

variable {K V : Type} [LinearOrder K]

instance [DecidableEq V] : DecidableEq (SortedMap K V) := fun m m' =>
  decidable_of_iff (m.entries = m'.entries) (by cases m; cases m'; simp)

@[ext] theorem ext {m m' : SortedMap K V} (h : m.entries = m'.entries) : m = m' := by
  cases m; cases m'; simp_all

def empty : SortedMap K V := ⟨[], .nil⟩

def insertEntry (k : K) (v : V) : List (K × V) → List (K × V)
  | [] => [(k, v)]
  | (k', v') :: rest =>
    if k < k' then (k, v) :: (k', v') :: rest
    else if k = k' then (k', v') :: rest
    else (k', v') :: insertEntry k v rest

theorem mem_keys_insertEntry {k x : K} {v : V} {l : List (K × V)} :
    x ∈ (insertEntry k v l).map Prod.fst ↔ x = k ∨ x ∈ l.map Prod.fst := by
  induction l with
  | nil => simp [insertEntry]
  | cons e l ih =>
    obtain ⟨k', v'⟩ := e
    unfold insertEntry
    split
    · simp
    · split
      · next h => simp [h]
      · rw [List.map_cons, List.mem_cons, ih, List.map_cons, List.mem_cons]
        exact or_left_comm

theorem sorted_insertEntry {k : K} {v : V} {l : List (K × V)}
    (h : (l.map Prod.fst).Pairwise (· < ·)) :
    ((insertEntry k v l).map Prod.fst).Pairwise (· < ·) := by
  induction l with
  | nil => simp [insertEntry]
  | cons e l ih =>
    obtain ⟨k', v'⟩ := e
    rw [List.map_cons, List.pairwise_cons] at h
    unfold insertEntry
    split
    · next hlt =>
      rw [List.map_cons, List.pairwise_cons, List.map_cons, List.pairwise_cons]
      refine ⟨?_, h⟩
      intro x hx
      rcases List.mem_cons.mp hx with rfl | hx
      · exact hlt
      · exact hlt.trans (h.1 x hx)
    · next hge =>
      split
      · rwa [List.map_cons, List.pairwise_cons]
      · next hne =>
        rw [List.map_cons, List.pairwise_cons]
        refine ⟨?_, ih h.2⟩
        intro x hx
        rcases mem_keys_insertEntry.mp hx with rfl | hx
        · exact lt_of_le_of_ne (not_lt.mp hge) (Ne.symm hne)
        · exact h.1 x hx

/-- `map.insert(pair)`. -/
def insert (m : SortedMap K V) (k : K) (v : V) : SortedMap K V :=
  ⟨insertEntry k v m.entries, sorted_insertEntry m.sorted⟩

def keys (m : SortedMap K V) : List K := m.entries.map Prod.fst

/-- `map.erase(key)`. -/
def erase (m : SortedMap K V) (k : K) : SortedMap K V :=
  ⟨m.entries.filter (fun e => e.1 ≠ k), m.sorted.sublist (List.filter_sublist.map Prod.fst)⟩

/-- `map[key] = value`. -/
def assign (m : SortedMap K V) (k : K) (v : V) : SortedMap K V := (m.erase k).insert k v

/-- `map.find(key)`. -/
def find? (m : SortedMap K V) (k : K) : Option V :=
  (m.entries.find? (fun e => e.1 = k)).map Prod.snd

theorem mem_keys_insert {m : SortedMap K V} {k x : K} {v : V} :
    x ∈ (m.insert k v).keys ↔ x = k ∨ x ∈ m.keys := mem_keys_insertEntry

theorem mem_insertEntry {k : K} {v : V} {e : K × V} {l : List (K × V)}
    (h : e ∈ insertEntry k v l) : e = (k, v) ∨ e ∈ l := by
  induction l with
  | nil => exact Or.inl (List.mem_singleton.mp h)
  | cons e' l ih =>
    obtain ⟨k', v'⟩ := e'
    unfold insertEntry at h
    split at h
    · exact List.mem_cons.mp h
    · split at h
      · exact Or.inr h
      · rcases List.mem_cons.mp h with h | h
        · exact Or.inr (List.mem_cons.mpr (Or.inl h))
        · exact (ih h).imp_right (List.mem_cons_of_mem _)

/-- An insertion brings in one entry at most. -/
theorem mem_entries_insert {m : SortedMap K V} {k : K} {v : V} {e : K × V}
    (h : e ∈ (m.insert k v).entries) : e = (k, v) ∨ e ∈ m.entries := mem_insertEntry h

theorem nodup_keys (m : SortedMap K V) : m.keys.Nodup := m.sorted.imp ne_of_lt

/-- A key above all others goes to the end. -/
theorem insert_entries_of_lt {m : SortedMap K V} {k : K} {v : V} (h : ∀ x ∈ m.keys, x < k) :
    (m.insert k v).entries = m.entries ++ [(k, v)] := by
  have key : ∀ l : List (K × V), (∀ x ∈ l.map Prod.fst, x < k) →
      insertEntry k v l = l ++ [(k, v)] := by
    intro l hl
    induction l with
    | nil => rfl
    | cons e l ih =>
      have he : e.1 < k := hl e.1 (by simp)
      rw [insertEntry, if_neg (not_lt.mpr he.le), if_neg he.ne', ih fun x hx => hl x (by simp_all)]
      rfl
  exact key m.entries h

/-! What is found under a key after each write. -/

theorem find?_erase_of_ne {m : SortedMap K V} {k x : K} (h : x ≠ k) :
    (m.erase k).find? x = m.find? x := by
  unfold find? erase
  rw [List.find?_filter]
  congr 2
  funext e
  by_cases he : e.1 = x
  · simp [he, h]
  · simp [he]

private theorem find?_insertEntry_of_ne {k x : K} {v : V} {l : List (K × V)} (h : x ≠ k) :
    (insertEntry k v l).find? (fun e => e.1 = x) = l.find? (fun e => e.1 = x) := by
  induction l with
  | nil => simp [insertEntry, h.symm]
  | cons e l ih =>
    obtain ⟨k', v'⟩ := e
    unfold insertEntry
    split
    · rw [List.find?_cons_of_neg (by simpa using h.symm)]
    · split
      · rfl
      · rw [List.find?_cons, List.find?_cons, ih]

private theorem find?_insertEntry_self {k : K} {v : V} {l : List (K × V)}
    (h : k ∉ l.map Prod.fst) :
    (insertEntry k v l).find? (fun e => e.1 = k) = some (k, v) := by
  induction l with
  | nil => simp [insertEntry]
  | cons e l ih =>
    obtain ⟨k', v'⟩ := e
    rw [List.map_cons, List.mem_cons, not_or] at h
    unfold insertEntry
    split
    · simp
    · rw [if_neg h.1, List.find?_cons_of_neg (by simpa using Ne.symm h.1), ih h.2]

theorem find?_assign_of_ne {m : SortedMap K V} {k x : K} {v : V} (h : x ≠ k) :
    (m.assign k v).find? x = m.find? x := by
  rw [← find?_erase_of_ne (m := m) h]
  exact congrArg (Option.map Prod.snd) (find?_insertEntry_of_ne h)

theorem find?_assign_self (m : SortedMap K V) (k : K) (v : V) : (m.assign k v).find? k = some v := by
  have hmissing : k ∉ (m.erase k).entries.map Prod.fst := by
    simp [erase]
  exact congrArg (Option.map Prod.snd) (find?_insertEntry_self hmissing)

/-! The entries after each write. -/

theorem mem_entries_erase {m : SortedMap K V} {k : K} {e : K × V} :
    e ∈ (m.erase k).entries ↔ e ∈ m.entries ∧ e.1 ≠ k := by
  unfold erase
  rw [List.mem_filter, decide_eq_true_eq]

theorem find?_eq_some_iff {m : SortedMap K V} {k : K} {v : V} :
    m.find? k = some v ↔ (k, v) ∈ m.entries := by
  unfold find?
  rw [Option.map_eq_some_iff]
  constructor
  · rintro ⟨e, he, rfl⟩
    have hkey : e.1 = k := by simpa using List.find?_some he
    rw [← hkey]
    exact List.mem_of_find?_eq_some he
  · intro hmem
    have hsome : (m.entries.find? fun e => e.1 = k).isSome = true := by
      rw [List.find?_isSome]
      exact ⟨(k, v), hmem, by simp⟩
    obtain ⟨e, he⟩ := Option.isSome_iff_exists.mp hsome
    have hkey : e.1 = k := by simpa using List.find?_some he
    exact ⟨e, he, congrArg Prod.snd (List.inj_on_of_nodup_map m.nodup_keys
      (List.mem_of_find?_eq_some he) hmem hkey)⟩

theorem mem_entries_assign {m : SortedMap K V} {k : K} {v : V} {e : K × V} :
    e ∈ (m.assign k v).entries ↔ e = (k, v) ∨ e ∈ m.entries ∧ e.1 ≠ k := by
  obtain ⟨x, w⟩ := e
  rw [← find?_eq_some_iff, ← find?_eq_some_iff]
  by_cases hx : x = k
  · rw [hx, find?_assign_self]
    simp [eq_comm]
  · rw [find?_assign_of_ne hx]
    simp [hx]

/-- The insertions one by one. -/
def insertList (m : SortedMap K V) (entries : List (K × V)) : SortedMap K V :=
  entries.foldl (fun m e => m.insert e.1 e.2) m

/-- The insertions bring in nothing else. -/
theorem mem_entries_insertList {m : SortedMap K V} {entries : List (K × V)} {e : K × V}
    (h : e ∈ (m.insertList entries).entries) : e ∈ m.entries ∨ e ∈ entries := by
  induction entries generalizing m with
  | nil => exact Or.inl h
  | cons e' entries ih =>
    rcases ih h with hmem | hmem
    · rcases mem_entries_insert hmem with rfl | hold
      · exact Or.inr List.mem_cons_self
      · exact Or.inl hold
    · exact Or.inr (List.mem_cons_of_mem e' hmem)

/-- Entries that come in the order of their keys are kept as they come. -/
theorem insertList_entries {m : SortedMap K V} {entries : List (K × V)}
    (hsorted : (entries.map Prod.fst).Pairwise (· < ·))
    (hm : ∀ x ∈ m.keys, ∀ e ∈ entries, x < e.1) :
    (m.insertList entries).entries = m.entries ++ entries := by
  induction entries generalizing m with
  | nil => simp [insertList]
  | cons e entries ih =>
    have hcons : m.insertList (e :: entries) = (m.insert e.1 e.2).insertList entries := rfl
    rw [List.map_cons, List.pairwise_cons] at hsorted
    have hkeys : ∀ x ∈ (m.insert e.1 e.2).keys, ∀ e' ∈ entries, x < e'.1 := by
      intro x hx e' he'
      rcases mem_keys_insert.mp hx with h | h
      · rw [h]
        exact hsorted.1 _ (List.mem_map_of_mem he')
      · exact hm x h e' (List.mem_cons_of_mem e he')
    rw [hcons, ih hsorted.2 hkeys, insert_entries_of_lt fun x hx => hm x hx e List.mem_cons_self]
    simp

/-- Into the empty map nothing is lost. -/
theorem insertList_empty {entries : List (K × V)}
    (hsorted : (entries.map Prod.fst).Pairwise (· < ·)) :
    (empty.insertList entries).entries = entries := by
  rw [insertList_entries hsorted (by simp [empty, keys])]
  rfl

end SortedMap
end BackupManager.Table
