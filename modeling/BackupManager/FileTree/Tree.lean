import Mathlib.Data.List.Infix
import Mathlib.Data.Option.Basic

/-! Trees of directories and files, addressed by the names from the root down; the resolution of
paths in them, and the removal and the move of a subtree. -/
namespace BackupManager.FileTree

variable {N F D : Type}

inductive Node (F D : Type) where
  | file (data : F)
  | directory (data : D)
  deriving DecidableEq, Repr

/-- What stands at each location. -/
abbrev Tree (N F D : Type) : Type := List N → Option (Node F D)

def Node.IsDirectory : Node F D → Prop
  | .file _ => False
  | .directory _ => True

instance : DecidablePred (Node.IsDirectory : Node F D → Prop)
  | .file _ => .isFalse id
  | .directory _ => .isTrue trivial

def IsDirectory (t : Tree N F D) (x : List N) : Prop := ∃ n ∈ t x, n.IsDirectory

instance (t : Tree N F D) : DecidablePred (IsDirectory t) := fun x =>
  match h : t x with
  | none => .isFalse fun ⟨n, hn, _⟩ => by simp [h] at hn
  | some n => decidable_of_iff n.IsDirectory
      ⟨fun hd => ⟨n, h, hd⟩, fun ⟨n', hn', hd⟩ => by rw [h, Option.mem_some_iff] at hn'; rwa [hn']⟩

def Node.kind : Node F D → Node Unit Unit
  | .file _ => .file ()
  | .directory _ => .directory ()

/-- The tree without its data. -/
def kinds (t : Tree N F D) : Tree N Unit Unit := fun x => (t x).map Node.kind

@[simp] theorem isDirectory_kinds {t : Tree N F D} {x : List N} :
    IsDirectory (kinds t) x ↔ IsDirectory t x := by
  unfold IsDirectory kinds
  cases t x with
  | none => simp
  | some n => cases n <;> simp [Node.kind, Node.IsDirectory]

theorem isDirectory_congr {t t' : Tree N F D} (h : kinds t = kinds t') {x : List N} :
    IsDirectory t x ↔ IsDirectory t' x := by
  rw [← isDirectory_kinds, h, isDirectory_kinds]

@[simp] theorem kinds_eq_none {t : Tree N F D} {x : List N} : kinds t x = none ↔ t x = none :=
  Option.map_eq_none_iff

theorem IsDirectory.ne_none {t : Tree N F D} {x : List N} (h : IsDirectory t x) : t x ≠ none := by
  obtain ⟨n, hn, -⟩ := h
  rw [Option.mem_def.mp hn]
  simp

/-- One step of a path: `..`, `.` or a name. -/
inductive Component (N : Type) where
  | up
  | stay
  | name (n : N)
  deriving DecidableEq, Repr

section Resolution

variable [DecidableEq N]

/-- Where a step leads. -/
def Component.target (x : List N) : Component N → List N
  | .up => x.dropLast
  | .stay => x
  | .name n => x ++ [n]

/-- A step is made from a directory; the working directory can be left even when it has been
removed. -/
def Component.Leaves (t : Tree N F D) (cwd x : List N) (c : Component N) : Prop :=
  IsDirectory t x ∨ c = .up ∧ x = cwd

instance (t : Tree N F D) (cwd x : List N) : DecidablePred (Component.Leaves t cwd x) :=
  fun _ => inferInstanceAs (Decidable (_ ∨ _ ∧ _))

def enter (t : Tree N F D) (cwd x : List N) (c : Component N) : Option (List N) :=
  if c.Leaves t cwd x then some (c.target x) else none

/-- The location of a path, which need not exist. -/
def resolve (t : Tree N F D) (cwd : List N) : List N → List (Component N) → Option (List N)
  | x, [] => some x
  | x, c :: cs => (enter t cwd x c).bind fun y => resolve t cwd y cs

/-- Every step of a path is made from one of these directories. -/
def Walks (directories : List N → Prop) (cwd : List N) : List N → List (Component N) → Prop
  | _, [] => True
  | x, c :: cs => (directories x ∨ c = .up ∧ x = cwd) ∧ Walks directories cwd (c.target x) cs

instance instDecidableWalks (directories : List N → Prop) [DecidablePred directories] (cwd : List N) :
    ∀ x cs, Decidable (Walks directories cwd x cs)
  | _, [] => .isTrue trivial
  | x, c :: cs =>
    have := instDecidableWalks directories cwd (c.target x) cs
    inferInstanceAs (Decidable ((_ ∨ _ ∧ _) ∧ _))

omit [DecidableEq N] in
theorem Walks.mono {d d' : List N → Prop} {cwd x : List N} {cs : List (Component N)}
    (hd : ∀ y, d y → d' y) (h : Walks d cwd x cs) : Walks d' cwd x cs := by
  induction cs generalizing x with
  | nil => trivial
  | cons c cs ih => exact ⟨h.1.imp_left (hd x), ih h.2⟩

/-- The tree without everything from a location on. -/
def prune (t : Tree N F D) (root : List N) : Tree N F D :=
  fun x => if root <+: x then none else t x

/-- A removal that has not been completed: the root and a part of what is below it are left. -/
def prunePart (t : Tree N F D) (root : List N) (left : List N → Bool) : Tree N F D :=
  fun x => if root <+: x ∧ x ≠ root ∧ left x = false then none else t x

/-- The tree once the subtree at `source` stands at `target`. -/
def move (t : Tree N F D) (source target : List N) : Tree N F D :=
  fun x => if target <+: x then t (source ++ x.drop target.length)
    else if source <+: x then none else t x

variable {t t' : Tree N F D} {cwd x y root : List N} {cs : List (Component N)}

theorem prune_outside (h : ¬root <+: x) : prune t root x = t x := if_neg h

theorem prune_inside (h : root <+: x) : prune t root x = none := if_pos h

theorem isDirectory_prune : IsDirectory (prune t root) x ↔ ¬root <+: x ∧ IsDirectory t x := by
  unfold IsDirectory
  by_cases h : root <+: x
  · simp [prune_inside h, h]
  · simp [prune_outside h, h]

theorem enter_eq_some {c : Component N} :
    enter t cwd x c = some y ↔ c.Leaves t cwd x ∧ c.target x = y := by
  unfold enter
  split
  · next h => simp [h]
  · next h => simp [h]

/-- A path resolves where its steps lead by their names, as long as each is made from a directory. -/
theorem resolve_eq_some : resolve t cwd x cs = some y ↔
    Walks (IsDirectory t) cwd x cs ∧ cs.foldl Component.target x = y := by
  induction cs generalizing x with
  | nil => simp [resolve, Walks]
  | cons c cs ih =>
    rw [resolve, Walks, List.foldl_cons, and_assoc, ← ih, enter]
    split
    · next hleaves => exact (and_iff_right hleaves).symm
    · next hleaves => exact iff_of_false (by simp) fun h => hleaves h.1

/-- A path that resolves goes on resolving to the same location while no directory is removed. -/
theorem resolve_mono (hmono : ∀ x, IsDirectory t x → IsDirectory t' x)
    (h : resolve t cwd x cs = some y) : resolve t' cwd x cs = some y := by
  induction cs generalizing x with
  | nil => exact h
  | cons c cs ih =>
    obtain ⟨z, hz, hrest⟩ := Option.bind_eq_some_iff.mp h
    rw [enter_eq_some] at hz
    exact Option.bind_eq_some_iff.mpr
      ⟨z, enter_eq_some.mpr ⟨hz.1.imp_left (hmono x), hz.2⟩, ih hrest⟩

/-- What a removal does to a path that resolved before depends on the removed location only. -/
theorem resolve_prune (hmono : ∀ x, IsDirectory t x → IsDirectory t' x)
    (h : resolve t cwd x cs = some y) :
    resolve (prune t' root) cwd x cs = resolve (prune t root) cwd x cs := by
  induction cs generalizing x with
  | nil => rfl
  | cons c cs ih =>
    obtain ⟨z, hz, hrest⟩ := Option.bind_eq_some_iff.mp h
    rw [enter_eq_some] at hz
    have hleaves : c.Leaves (prune t' root) cwd x ↔ c.Leaves (prune t root) cwd x := by
      unfold Component.Leaves
      by_cases hcwd : c = .up ∧ x = cwd
      · simp [hcwd]
      · have hdir : IsDirectory t x := hz.1.resolve_right hcwd
        rw [isDirectory_prune, isDirectory_prune]
        exact or_congr_left (and_congr_right fun _ => ⟨fun _ => hdir, fun _ => hmono x hdir⟩)
    unfold resolve enter
    by_cases hc : c.Leaves (prune t root) cwd x
    · rw [if_pos hc, if_pos (hleaves.mpr hc), Option.bind_some, Option.bind_some, hz.2]
      exact ih hrest
    · rw [if_neg hc, if_neg fun h => hc (hleaves.mp h)]
      rfl

end Resolution
end BackupManager.FileTree
