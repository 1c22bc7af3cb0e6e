import Mathlib.Data.List.Nodup
import Mathlib.Logic.Function.Basic

/-! Partial maps over paths in which the parent of every entry is a directory, and the sequences of
edits that keep a map so at each step. The edits need not all succeed. -/
namespace BackupManager.FileTree

variable {P H : Type} [DecidableEq P]

inductive Edit (P : Type) where
  | makeDirectory (path : P)
  | write (path : P)
  | remove (path : P)
  deriving DecidableEq

def Edit.path : Edit P → P
  | .makeDirectory path => path
  | .write path => path
  | .remove path => path

variable (up : P → Option P) (dir : H)

/-- The parent of an entry is an entry, and a directory. -/
def UpClosed (v : P → Option H) : Prop := ∀ p, v p ≠ none → ∀ q ∈ up p, v q = some dir

/-- What an edit may come to: a write may be left out, and writes what it likes. -/
def Applies : Edit P → (P → Option H) → (P → Option H) → Prop
  | .makeDirectory p, v, v' => v' = Function.update v p (some dir)
  | .write p, v, v' => v' = v ∨ ∃ h, v' = Function.update v p (some h)
  | .remove p, v, v' => v' = Function.update v p none

/-- However the edits turn out, the map is parent-closed after each, and `final` holds after the
last. -/
def KeepsParents (final : (P → Option H) → Prop) : (P → Option H) → List (Edit P) → Prop
  | v, [] => final v
  | v, e :: edits => ∀ v', Applies dir e v v' → UpClosed up dir v' ∧ KeepsParents final v' edits

variable {up dir} {v v' : P → Option H} {p : P} {final : (P → Option H) → Prop}

section Closed

variable (h : UpClosed up dir v) (hup : ∀ p, up p ≠ some p)

include h

theorem UpClosed.makeDirectory (hparent : ∀ q ∈ up p, v q = some dir) :
    UpClosed up dir (Function.update v p (some dir)) := by
  intro y hy q hq
  by_cases hqp : q = p
  · rw [hqp, Function.update_self]
  · rw [Function.update_of_ne hqp]
    by_cases hyp : y = p
    · exact hparent q (hyp ▸ hq)
    · rw [Function.update_of_ne hyp] at hy
      exact h y hy q hq

theorem UpClosed.remove (hchild : ∀ y, v y ≠ none → up y ≠ some p) :
    UpClosed up dir (Function.update v p none) := by
  intro y hy q hq
  have hyp : y ≠ p := by
    rintro rfl
    exact hy (Function.update_self _ _ _)
  rw [Function.update_of_ne hyp] at hy
  have hqp : q ≠ p := by
    rintro rfl
    exact hchild y hy hq
  rw [Function.update_of_ne hqp]
  exact h y hy q hq

include hup

theorem UpClosed.write (hparent : ∀ q ∈ up p, v q = some dir)
    (hchild : ∀ y, v y ≠ none → up y ≠ some p) (x : H) :
    UpClosed up dir (Function.update v p (some x)) := by
  intro y hy q hq
  by_cases hyp : y = p
  · have hqp : q ≠ p := by
      rintro rfl
      exact hup q (hyp ▸ hq)
    rw [Function.update_of_ne hqp]
    exact hparent q (hyp ▸ hq)
  · rw [Function.update_of_ne hyp] at hy
    have hqp : q ≠ p := by
      rintro rfl
      exact hchild y hy hq
    rw [Function.update_of_ne hqp]
    exact h y hy q hq

end Closed

theorem Applies.of_ne {e : Edit P} (h : Applies dir e v v') {y : P} (hy : e.path ≠ y) :
    v' y = v y := by
  cases e with
  | makeDirectory p =>
    rw [h]
    exact Function.update_of_ne hy.symm _ _
  | write p =>
    rcases h with rfl | ⟨x, rfl⟩
    · rfl
    · exact Function.update_of_ne hy.symm _ _
  | remove p =>
    rw [h]
    exact Function.update_of_ne hy.symm _ _

/-- One sequence of edits after another. -/
theorem KeepsParents.append {middle : (P → Option H) → Prop} {edits later : List (Edit P)}
    (h : KeepsParents up dir middle v edits)
    (hlater : ∀ v', middle v' → KeepsParents up dir final v' later) :
    KeepsParents up dir final v (edits ++ later) := by
  induction edits generalizing v with
  | nil => exact hlater v h
  | cons e edits ih =>
    intro v' happlies
    obtain ⟨hclosed, hrest⟩ := h v' happlies
    exact ⟨hclosed, ih hrest⟩

section Sequences

variable (hclosed : UpClosed up dir v) (hup : ∀ p, up p ≠ some p)

include hclosed hup

/-- Removals in which children come before their parents. -/
theorem keepsParents_removals {paths : List P} (hall : ∀ y, v y ≠ none → ∀ p ∈ paths, up y = some p → y ∈ paths)
    (hordered : paths.Pairwise fun p q => v q ≠ none → up q ≠ some p)
    (hfinal : ∀ v', UpClosed up dir v' → (∀ y ∈ paths, v' y = none) →
      (∀ y, y ∉ paths → v' y = v y) → final v') :
    KeepsParents up dir final v (paths.map .remove) := by
  induction paths generalizing v with
  | nil => exact hfinal v hclosed (by simp) fun _ _ => rfl
  | cons p paths ih =>
    rw [List.pairwise_cons] at hordered
    rintro v' rfl
    have hchild : ∀ y, v y ≠ none → up y ≠ some p := by
      intro y hy hyp
      rcases List.mem_cons.mp (hall y hy p List.mem_cons_self hyp) with rfl | hmem
      · exact hup y hyp
      · exact hordered.1 y hmem hy hyp
    have hstill : ∀ y, Function.update v p none y ≠ none → y ≠ p ∧ v y ≠ none := by
      intro y hy
      have hyp : y ≠ p := by
        rintro rfl
        exact hy (Function.update_self _ _ _)
      rw [Function.update_of_ne hyp] at hy
      exact ⟨hyp, hy⟩
    have hremoved := hclosed.remove hchild
    refine ⟨hremoved, ih hremoved ?_ ?_ ?_⟩
    · intro y hy x hx hyx
      obtain ⟨hyp, hv⟩ := hstill y hy
      exact (List.mem_cons.mp (hall y hv x (List.mem_cons_of_mem p hx) hyx)).resolve_left hyp
    · exact hordered.2.imp fun himp hq => himp (hstill _ hq).2
    · intro v' hclosed' hnone hsame
      apply hfinal v' hclosed'
      · intro y hy
        rcases List.mem_cons.mp hy with rfl | hmem
        · by_cases hlater : y ∈ paths
          · exact hnone y hlater
          · rw [hsame y hlater, Function.update_self]
        · exact hnone y hmem
      · intro y hy
        rw [List.mem_cons, not_or] at hy
        rw [hsame y hy.2, Function.update_of_ne hy.1]

/-- Directories and files that are made after their parents; no file takes the place of a parent. -/
theorem keepsParents_additions {edits : List (Edit P)} (hadds : ∀ e ∈ edits, ∀ p, e ≠ .remove p)
    (hnodup : (edits.map Edit.path).Nodup)
    (hparents : ∀ before e after, edits = before ++ e :: after → ∀ q ∈ up e.path,
      .makeDirectory q ∈ before ∨ v q = some dir ∧ ∀ x ∈ before, x.path ≠ q)
    (hfiles : ∀ p, .write p ∈ edits → (∀ y, v y ≠ none → up y ≠ some p) ∧
      ∀ e ∈ edits, up e.path ≠ some p)
    (hfinal : ∀ v', UpClosed up dir v' → (∀ y, y ∉ edits.map Edit.path → v' y = v y) →
      final v') :
    KeepsParents up dir final v edits := by
  induction edits generalizing v with
  | nil => exact hfinal v hclosed fun _ _ => rfl
  | cons e edits ih =>
    rw [List.map_cons, List.nodup_cons] at hnodup
    intro v' happlies
    have hparent : ∀ q ∈ up e.path, v q = some dir := by
      intro q hq
      rcases hparents [] e edits rfl q hq with hmade | hold
      · exact absurd hmade List.not_mem_nil
      · exact hold.1
    have hclosed' : UpClosed up dir v' := by
      cases e with
      | makeDirectory p =>
        rw [happlies]
        exact hclosed.makeDirectory hparent
      | write p =>
        rcases happlies with rfl | ⟨x, rfl⟩
        · exact hclosed
        · exact hclosed.write hup hparent (hfiles p List.mem_cons_self).1 x
      | remove p => exact absurd rfl (hadds _ List.mem_cons_self p)
    refine ⟨hclosed', ih hclosed' (fun x hx => hadds x (List.mem_cons_of_mem e hx)) hnodup.2 ?_ ?_ ?_⟩
    · intro before x after hsplit q hq
      rcases hparents (e :: before) x after (by rw [hsplit]; rfl) q hq with hmade | ⟨hold, huntouched⟩
      · rcases List.mem_cons.mp hmade with rfl | hmem
        · right
          refine ⟨by rw [happlies]; exact Function.update_self _ _ _, fun y hy heq => ?_⟩
          apply hnodup.1
          rw [hsplit]
          exact List.mem_map.mpr ⟨y, List.mem_append_left _ hy, heq⟩
        · exact Or.inl hmem
      · right
        refine ⟨?_, fun y hy => huntouched y (List.mem_cons_of_mem e hy)⟩
        rw [happlies.of_ne (huntouched e List.mem_cons_self), hold]
    · intro p hp
      obtain ⟨hold, hlater⟩ := hfiles p (List.mem_cons_of_mem e hp)
      refine ⟨fun y hy => ?_, fun x hx => hlater x (List.mem_cons_of_mem e hx)⟩
      by_cases hye : e.path = y
      · rw [← hye]
        exact hlater e List.mem_cons_self
      · rw [happlies.of_ne hye] at hy
        exact hold y hy
    · intro v'' hclosed'' hsame
      apply hfinal v'' hclosed''
      intro y hy
      rw [List.map_cons, List.mem_cons, not_or] at hy
      rw [hsame y hy.2, happlies.of_ne (Ne.symm hy.1)]

end Sequences
end BackupManager.FileTree
