import Mathlib.Data.List.Nodup
import Mathlib.Logic.Function.Basic

/-! Folds over elements with distinct keys, where a step changes only the part of the state that
belongs to its key: such a part is changed by its own element and by no other. -/
namespace BackupManager.Table

variable {E K S T : Type} {key : E → K} {f : S → E → S} {part : S → T} {k : K}

/-- Elements of other keys leave the part alone. -/
theorem foldl_part_of_not_mem (hother : ∀ s e, key e ≠ k → part (f s e) = part s) {l : List E}
    (hl : k ∉ l.map key) (s : S) : part (l.foldl f s) = part s := by
  induction l generalizing s with
  | nil => rfl
  | cons e l ih =>
    rw [List.map_cons, List.mem_cons, not_or] at hl
    rw [List.foldl_cons, ih hl.2, hother s e (Ne.symm hl.1)]

/-- The part is changed by the one element that has its key. -/
theorem foldl_part_of_mem (g : E → T → T) (hother : ∀ s e, key e ≠ k → part (f s e) = part s)
    (hself : ∀ s e, key e = k → part (f s e) = g e (part s)) {l : List E}
    (hnodup : (l.map key).Nodup) {e : E} (he : e ∈ l) (hk : key e = k) (s : S) :
    part (l.foldl f s) = g e (part s) := by
  induction l generalizing s with
  | nil => exact absurd he List.not_mem_nil
  | cons e' l ih =>
    rw [List.map_cons, List.nodup_cons] at hnodup
    rw [List.foldl_cons]
    rcases List.mem_cons.mp he with rfl | he
    · have hnot : k ∉ l.map key := hk ▸ hnodup.1
      rw [foldl_part_of_not_mem hother hnot, hself s e hk]
    · have hne : key e' ≠ k := by
        intro heq
        apply hnodup.1
        rw [heq, ← hk]
        exact List.mem_map_of_mem he
      rw [ih hnodup.2 he, hother s e' hne]

/-- A part is the fold over the elements of its key. -/
theorem foldl_part_filter [DecidableEq K] (g : T → E → T) (hother : ∀ s e, key e ≠ k → part (f s e) = part s)
    (hself : ∀ s e, key e = k → part (f s e) = g (part s) e) (l : List E) (s : S) :
    part (l.foldl f s) = (l.filter fun e => key e = k).foldl g (part s) := by
  induction l generalizing s with
  | nil => rfl
  | cons e l ih =>
    rw [List.foldl_cons, ih, List.filter_cons]
    by_cases hk : key e = k
    · rw [if_pos (by simpa using hk), List.foldl_cons, hself s e hk]
    · rw [if_neg (by simpa using hk), hother s e hk]

end BackupManager.Table
