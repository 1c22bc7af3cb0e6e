import Mathlib.Data.List.Induction
import Mathlib.Data.List.Nodup
import Mathlib.Order.MinMax

/-! Dated versions of named things, kept in a table keyed by name and stamp. Writing a version
replaces the one with the same key; reading takes, for each name, the version with the greatest
admitted stamp. The table is compared with the sequence of writes it comes from. -/
namespace BackupManager.Table

variable {R F T : Type} [DecidableEq F] [LinearOrder T] (name : R → F) (stamp : R → T)

def SameKey (r r' : R) : Prop := name r = name r' ∧ stamp r = stamp r'

instance (r r' : R) : Decidable (SameKey name stamp r r') := inferInstanceAs (Decidable (_ ∧ _))

/-- Replace the version with the key of `r`, or add `r` when there is none. -/
def upsert (rows : List R) (r : R) : List R :=
  if rows.any (fun x => SameKey name stamp x r) then
    rows.map (fun x => if SameKey name stamp x r then r else x)
  else rows ++ [r]

/-- The table that a sequence of writes leaves. -/
def replay (writes : List R) : List R := writes.foldl (upsert name stamp) []

/-- The greatest admitted stamp of a name. -/
def newest (rows : List R) (admits : T → Bool) (f : F) : Option T :=
  ((rows.filter (fun r => name r = f ∧ admits (stamp r))).map stamp).max?

/-- The rows that carry the newest admitted stamp of their name, less those `keep` rejects. -/
def current (rows : List R) (admits : T → Bool) (keep : R → Bool) : List R :=
  rows.filter (fun r => keep r && newest name stamp rows admits (name r) == some (stamp r))

/-- What reading means for a sequence of writes: the last write of the name among those with the
greatest admitted stamp. -/
def lastWrite (writes : List R) (admits : T → Bool) (f : F) : Option R :=
  (writes.filter (fun r => name r = f ∧ newest name stamp writes admits f = some (stamp r))).getLast?

variable {name stamp}

theorem newest_eq_some_iff {rows : List R} {admits : T → Bool} {f : F} {t : T} :
    newest name stamp rows admits f = some t ↔
      (∃ r ∈ rows, name r = f ∧ admits (stamp r) = true ∧ stamp r = t) ∧
      ∀ r ∈ rows, name r = f → admits (stamp r) = true → stamp r ≤ t := by
  rw [newest, List.max?_eq_some_iff]
  simp only [List.mem_map, List.mem_filter, decide_eq_true_eq, and_assoc, forall_exists_index,
    and_imp]
  refine and_congr_right fun _ => ⟨fun h r hr hn ha => h _ r hr hn ha rfl, ?_⟩
  rintro h _ r hr hn ha rfl
  exact h r hr hn ha

theorem admits_of_newest {rows : List R} {admits : T → Bool} {f : F} {t : T}
    (h : newest name stamp rows admits f = some t) : admits t = true := by
  obtain ⟨⟨r, -, -, ha, rfl⟩, -⟩ := newest_eq_some_iff.mp h
  exact ha

/-- The newest stamp depends on the names and admitted stamps that occur, and on nothing else. -/
theorem newest_congr {rows rows' : List R} {admits : T → Bool} {f : F}
    (h : ∀ t, admits t = true →
      ((∃ r ∈ rows, name r = f ∧ stamp r = t) ↔ ∃ r ∈ rows', name r = f ∧ stamp r = t)) :
    newest name stamp rows admits f = newest name stamp rows' admits f := by
  have hle : ∀ {xs ys : List R} {t : T},
      (∀ t, admits t = true → (∃ r ∈ xs, name r = f ∧ stamp r = t) →
        ∃ r ∈ ys, name r = f ∧ stamp r = t) →
      (∀ t, admits t = true → (∃ r ∈ ys, name r = f ∧ stamp r = t) →
        ∃ r ∈ xs, name r = f ∧ stamp r = t) →
      newest name stamp xs admits f = some t → newest name stamp ys admits f = some t := by
    intro xs ys t hxy hyx hx
    obtain ⟨⟨r, hr, hn, ha, rfl⟩, hmax⟩ := newest_eq_some_iff.mp hx
    refine newest_eq_some_iff.mpr ⟨?_, ?_⟩
    · obtain ⟨r', hr', hn', hs⟩ := hxy _ ha ⟨r, hr, hn, rfl⟩
      exact ⟨r', hr', hn', hs ▸ ha, hs⟩
    · intro y hy hyn hya
      obtain ⟨x, hxm, hxn, hs⟩ := hyx _ hya ⟨y, hy, hyn, rfl⟩
      exact hs ▸ hmax x hxm hxn (hs ▸ hya)
  ext t
  exact ⟨hle (fun t ha => (h t ha).mp) (fun t ha => (h t ha).mpr),
    hle (fun t ha => (h t ha).mpr) (fun t ha => (h t ha).mp)⟩

/-- One row for each key. -/
def Keyed (name : R → F) (stamp : R → T) (rows : List R) : Prop :=
  (rows.map (fun r => (name r, stamp r))).Nodup

theorem upsert_of_exists {rows : List R} {r : R} (h : ∃ x ∈ rows, SameKey name stamp x r) :
    upsert name stamp rows r = rows.map (fun x => if SameKey name stamp x r then r else x) := by
  obtain ⟨x, hx, hk⟩ := h
  exact if_pos (List.any_eq_true.mpr ⟨x, hx, decide_eq_true hk⟩)

theorem upsert_of_fresh {rows : List R} {r : R} (h : ∀ x ∈ rows, ¬SameKey name stamp x r) :
    upsert name stamp rows r = rows ++ [r] := by
  refine if_neg fun hany => ?_
  obtain ⟨x, hx, hk⟩ := List.any_eq_true.mp hany
  exact h x hx (of_decide_eq_true hk)

omit [DecidableEq F] [LinearOrder T] in
theorem Keyed.append_singleton {rows : List R} (h : Keyed name stamp rows) {r : R}
    (hr : ∀ x ∈ rows, ¬SameKey name stamp x r) : Keyed name stamp (rows ++ [r]) := by
  rw [Keyed, List.map_append, List.nodup_append]
  refine ⟨h, by simp, ?_⟩
  intro a ha b hb hab
  obtain ⟨x, hx, hxk⟩ := List.mem_map.mp ha
  rw [List.map_singleton, List.mem_singleton] at hb
  rw [hab, hb, Prod.mk.injEq] at hxk
  exact hr x hx ⟨hxk.1, hxk.2⟩

omit [DecidableEq F] [LinearOrder T] in
/-- Rewriting rows without touching their keys. -/
theorem Keyed.map {rows : List R} (h : Keyed name stamp rows) {g : R → R}
    (hg : ∀ x ∈ rows, SameKey name stamp (g x) x) : Keyed name stamp (rows.map g) := by
  have hkeys : (rows.map g).map (fun r => (name r, stamp r)) =
      rows.map (fun r => (name r, stamp r)) := by
    rw [List.map_map]
    exact List.map_congr_left fun x hx => Prod.ext (hg x hx).1 (hg x hx).2
  rw [Keyed, hkeys]
  exact h

theorem mem_upsert {rows : List R} {r x : R} :
    x ∈ upsert name stamp rows r ↔ x = r ∨ x ∈ rows ∧ ¬SameKey name stamp x r := by
  by_cases hr : ∃ y ∈ rows, SameKey name stamp y r
  · rw [upsert_of_exists hr, List.mem_map]
    constructor
    · rintro ⟨z, hz, rfl⟩
      by_cases hzk : SameKey name stamp z r
      · simp [hzk]
      · simp [hzk, hz]
    · obtain ⟨y, hy, hk⟩ := hr
      rintro (rfl | ⟨hx, hxk⟩)
      · exact ⟨y, hy, by simp [hk]⟩
      · exact ⟨x, hx, by simp [hxk]⟩
  · have hfresh : ∀ y ∈ rows, ¬SameKey name stamp y r := fun y hy hk => hr ⟨y, hy, hk⟩
    rw [upsert_of_fresh hfresh, List.mem_append, List.mem_singleton]
    constructor
    · rintro (hx | rfl)
      · exact Or.inr ⟨hx, hfresh x hx⟩
      · exact Or.inl rfl
    · rintro (rfl | ⟨hx, -⟩)
      · exact Or.inr rfl
      · exact Or.inl hx

omit [DecidableEq F] [LinearOrder T] in
theorem Keyed.eq_of_sameKey {rows : List R} (h : Keyed name stamp rows) {r r' : R} (hr : r ∈ rows)
    (hr' : r' ∈ rows) (hk : SameKey name stamp r r') : r = r' :=
  List.inj_on_of_nodup_map h hr hr' (by simp [hk.1, hk.2])

theorem replay_append_singleton (writes : List R) (r : R) :
    replay name stamp (writes ++ [r]) = upsert name stamp (replay name stamp writes) r := by
  simp [replay]

/-- The table holds the last write of each key. -/
theorem mem_replay_iff {writes : List R} {r : R} :
    r ∈ replay name stamp writes ↔
      ((writes.filter (fun x => SameKey name stamp x r)).getLast? = some r) := by
  induction writes using List.reverseRecOn with
  | nil => simp [replay]
  | append_singleton writes x ih =>
    rw [replay_append_singleton, mem_upsert, ih, List.filter_append]
    by_cases hk : SameKey name stamp x r
    · have hk' : SameKey name stamp r x := ⟨hk.1.symm, hk.2.symm⟩
      simp [hk, hk', eq_comm]
    · have hk' : ¬SameKey name stamp r x := fun h => hk ⟨h.1.symm, h.2.symm⟩
      have hne : r ≠ x := by rintro rfl; exact hk ⟨rfl, rfl⟩
      simp [hk, hk', hne]

/-- The same keys occur in the table and among the writes. -/
theorem exists_replay_iff {writes : List R} {f : F} {t : T} :
    (∃ r ∈ replay name stamp writes, name r = f ∧ stamp r = t) ↔
      ∃ r ∈ writes, name r = f ∧ stamp r = t := by
  induction writes using List.reverseRecOn with
  | nil => simp [replay]
  | append_singleton writes x ih =>
    rw [replay_append_singleton]
    constructor
    · rintro ⟨r, hr, hk⟩
      rcases mem_upsert.mp hr with rfl | ⟨hr, -⟩
      · exact ⟨r, by simp, hk⟩
      · obtain ⟨r', hr', hk'⟩ := ih.mp ⟨r, hr, hk⟩
        exact ⟨r', by simp [hr'], hk'⟩
    · rintro ⟨r, hr, hk⟩
      by_cases hx : name x = f ∧ stamp x = t
      · exact ⟨x, mem_upsert.mpr (Or.inl rfl), hx⟩
      · have hr' : r ∈ writes := by
          rcases List.mem_append.mp hr with hr | hr
          · exact hr
          · rw [List.mem_singleton] at hr
            exact absurd (hr ▸ hk) hx
        obtain ⟨r', hr', hk'⟩ := ih.mpr ⟨r, hr', hk⟩
        refine ⟨r', mem_upsert.mpr (Or.inr ⟨hr', ?_⟩), hk'⟩
        rintro ⟨hn, hs⟩
        exact hx ⟨hn.symm.trans hk'.1, hs.symm.trans hk'.2⟩

theorem newest_replay (writes : List R) (admits : T → Bool) (f : F) :
    newest name stamp (replay name stamp writes) admits f = newest name stamp writes admits f :=
  newest_congr fun _ _ => exists_replay_iff

theorem mem_current {rows : List R} {admits : T → Bool} {keep : R → Bool} {r : R} :
    r ∈ current name stamp rows admits keep ↔
      r ∈ rows ∧ keep r = true ∧ newest name stamp rows admits (name r) = some (stamp r) := by
  simp [current]

/-- Reading the table gives, for each name, the last write with the greatest admitted stamp,
unless that write is one to leave out. -/
theorem mem_current_replay {writes : List R} {admits : T → Bool} {keep : R → Bool} {r : R} :
    r ∈ current name stamp (replay name stamp writes) admits keep ↔
      keep r = true ∧ lastWrite name stamp writes admits (name r) = some r := by
  rw [mem_current, newest_replay, mem_replay_iff, lastWrite]
  by_cases hn : newest name stamp writes admits (name r) = some (stamp r)
  · have hfilter : writes.filter (fun x => name x = name r ∧
          newest name stamp writes admits (name r) = some (stamp x)) =
        writes.filter (fun x => SameKey name stamp x r) := by
      refine List.filter_congr fun x _ => ?_
      simp [hn, SameKey, eq_comm]
    rw [hfilter]
    simp only [hn, and_true]
    exact and_comm
  · simp only [hn, and_false, false_iff, not_and]
    intro _ hlast
    have hmem := List.mem_of_getLast? hlast
    simp only [List.mem_filter, decide_eq_true_eq] at hmem
    exact hn hmem.2.2

theorem Keyed.current_unique {rows : List R} (h : Keyed name stamp rows) {admits : T → Bool}
    {keep : R → Bool} {r r' : R} (hr : r ∈ current name stamp rows admits keep)
    (hr' : r' ∈ current name stamp rows admits keep) (hn : name r = name r') : r = r' := by
  obtain ⟨hm, -, hs⟩ := mem_current.mp hr
  obtain ⟨hm', -, hs'⟩ := mem_current.mp hr'
  rw [hn, hs', Option.some.injEq] at hs
  exact h.eq_of_sameKey hm hm' ⟨hn, hs.symm⟩

/-- At most one row is read for each name. -/
theorem Keyed.nodup_current {rows : List R} (h : Keyed name stamp rows) (admits : T → Bool)
    (keep : R → Bool) : ((current name stamp rows admits keep).map name).Nodup := by
  have hcur : (current name stamp rows admits keep).Nodup := (List.Nodup.of_map _ h).filter _
  exact hcur.map_on fun r hr r' hr' hn => h.current_unique hr hr' hn

/-- A write whose stamp is not admitted changes nothing of what is read. -/
theorem current_upsert_of_not_admitted {rows : List R} {admits : T → Bool} {keep : R → Bool} {r : R}
    (h : admits (stamp r) = false) :
    current name stamp (upsert name stamp rows r) admits keep =
      current name stamp rows admits keep := by
  have hnew : ∀ f, newest name stamp (upsert name stamp rows r) admits f =
      newest name stamp rows admits f := by
    intro f
    refine newest_congr fun t ht => ⟨?_, ?_⟩
    · rintro ⟨x, hx, hk⟩
      rcases mem_upsert.mp hx with rfl | ⟨hx, -⟩
      · rw [← hk.2, h] at ht
        exact absurd ht (by simp)
      · exact ⟨x, hx, hk⟩
    · rintro ⟨x, hx, hk⟩
      refine ⟨x, mem_upsert.mpr (Or.inr ⟨hx, ?_⟩), hk⟩
      rintro ⟨-, hs⟩
      rw [← hk.2, hs, h] at ht
      exact absurd ht (by simp)
  have hout : ∀ x, stamp x = stamp r →
      (newest name stamp rows admits (name x) == some (stamp x)) = false := by
    intro x hx
    rw [beq_eq_false_iff_ne]
    intro heq
    rw [hx] at heq
    rw [admits_of_newest heq] at h
    exact absurd h (by simp)
  simp only [current, hnew]
  unfold upsert
  split
  · rw [List.filter_map]
    have hcomp : rows.filter ((fun r => keep r &&
          newest name stamp rows admits (name r) == some (stamp r)) ∘
            fun x => if SameKey name stamp x r then r else x) =
        rows.filter (fun r => keep r && newest name stamp rows admits (name r) == some (stamp r)) := by
      refine List.filter_congr fun x _ => ?_
      by_cases hx : SameKey name stamp x r
      · simp [hx, hout r rfl, hout x hx.2]
      · simp [hx]
    rw [hcomp]
    refine (List.map_congr_left fun x hx => ?_).trans (List.map_id _)
    by_cases hxk : SameKey name stamp x r
    · simp [hout x hxk.2] at hx
    · simp [hxk]
  · simp [hout r rfl]

/-- A write that is not older than any other is read for its name, and changes nothing of what is
read for other names. -/
theorem mem_current_upsert_of_newest {rows : List R} {admits : T → Bool} {keep : R → Bool} {r x : R}
    (hadmits : admits (stamp r) = true)
    (hnewest : ∀ y ∈ rows, name y = name r → stamp y ≤ stamp r) :
    x ∈ current name stamp (upsert name stamp rows r) admits keep ↔
      x = r ∧ keep r = true ∨
        x ∈ current name stamp rows admits keep ∧ name x ≠ name r := by
  have hself : newest name stamp (upsert name stamp rows r) admits (name r) = some (stamp r) := by
    refine newest_eq_some_iff.mpr ⟨⟨r, mem_upsert.mpr (Or.inl rfl), rfl, hadmits, rfl⟩, ?_⟩
    intro y hy hn _
    rcases mem_upsert.mp hy with rfl | ⟨hy, -⟩
    · exact le_refl _
    · exact hnewest y hy hn
  have hother : ∀ f, f ≠ name r → newest name stamp (upsert name stamp rows r) admits f =
      newest name stamp rows admits f := by
    intro f hf
    refine newest_congr fun t _ => exists_congr fun y => ?_
    rw [mem_upsert]
    constructor
    · rintro ⟨rfl | ⟨hy, -⟩, hn, ht⟩
      · exact absurd hn.symm hf
      · exact ⟨hy, hn, ht⟩
    · rintro ⟨hy, hn, ht⟩
      refine ⟨Or.inr ⟨hy, ?_⟩, hn, ht⟩
      rintro ⟨hk, -⟩
      exact hf (hn.symm.trans hk)
  rw [mem_current, mem_upsert]
  constructor
  · rintro ⟨rfl | ⟨hx, hk⟩, hkeep, hnew⟩
    · exact Or.inl ⟨rfl, hkeep⟩
    · have hne : name x ≠ name r := by
        intro hn
        rw [hn, hself, Option.some.injEq] at hnew
        exact hk ⟨hn, hnew.symm⟩
      rw [hother _ hne] at hnew
      exact Or.inr ⟨mem_current.mpr ⟨hx, hkeep, hnew⟩, hne⟩
  · rintro (⟨rfl, hkeep⟩ | ⟨hx, hne⟩)
    · exact ⟨Or.inl rfl, hkeep, hself⟩
    · obtain ⟨hx, hkeep, hnew⟩ := mem_current.mp hx
      refine ⟨Or.inr ⟨hx, fun hk => hne hk.1⟩, hkeep, ?_⟩
      rwa [hother _ hne]

end BackupManager.Table
