import BackupManager.FileTree.Tree

/-! Trees with symbolic links, and the resolution of a path through the links. -/
namespace BackupManager.FileTree

variable {N F D : Type}

/-- A file, or a symbolic link to a path from the root or from where the link stands. -/
inductive Linked (N F : Type) where
  | data (value : F)
  | link (absolute : Bool) (target : List (Component N))
  deriving DecidableEq, Repr

abbrev LinkTree (N F D : Type) : Type := Tree N (Linked N F) D

/-- What a path leads to. -/
inductive StatResult (F D : Type) where
  | file (value : F)
  | directory (value : D)
  | missing
  /-- There are more links than the system follows, or a directory on the way may not be searched. -/
  | error
  deriving DecidableEq, Repr

/-- A path up to its end, or up to its first link. -/
inductive PathWalk (N : Type) where
  | ends (x : List N)
  | missing
  | denied
  | jump (x : List N) (cs : List (Component N))
  deriving DecidableEq, Repr

/-- A directory that may be searched. -/
def Searches (search : D → Bool) (t : LinkTree N F D) (x : List N) : Prop :=
  ∃ value, t x = some (.directory value) ∧ search value = true

section Resolution

variable (search : D → Bool) (t : LinkTree N F D)

def walk : List N → List (Component N) → PathWalk N
  | x, [] => .ends x
  | x, c :: cs =>
    match t x with
    | some (.directory value) =>
      if search value then
        match c with
        | .up => walk x.dropLast cs
        | .stay => walk x cs
        | .name n =>
          match t (x ++ [n]) with
          | none => .missing
          | some (.file (.link absolute target)) => .jump (if absolute then [] else x) (target ++ cs)
          | some _ => walk (x ++ [n]) cs
      else .denied
    | _ => .missing

def StatResult.ofNode : Option (Node (Linked N F) D) → StatResult F D
  | some (.file (.data value)) => .file value
  | some (.directory value) => .directory value
  | _ => .missing

/-- The resolution of a path, which follows at most so many links. -/
def follow : ℕ → List N → List (Component N) → StatResult F D
  | 0, x, cs =>
    match walk search t x cs with
    | .ends y => .ofNode (t y)
    | .missing => .missing
    | .denied | .jump _ _ => .error
  | links + 1, x, cs =>
    match walk search t x cs with
    | .ends y => .ofNode (t y)
    | .missing => .missing
    | .denied => .error
    | .jump y cs' => follow links y cs'

/-- `stat` of a path of names from the root. -/
def stat (links : ℕ) (x : List N) : StatResult F D := follow search t links [] (x.map .name)

/-- Every directory on the way to a location is one itself, no link, and may be searched. -/
def Reachable (x : List N) : Prop := ∀ y, y <+: x → y ≠ x → Searches search t y

variable {search t} {x y : List N}

theorem Searches.isDirectory (h : Searches search t x) : IsDirectory t x := by
  obtain ⟨value, hvalue, -⟩ := h
  exact ⟨_, hvalue, trivial⟩

theorem walk_names {names : List N}
    (hdirs : ∀ z, z <+: names → z ≠ names → Searches search t (x ++ z))
    (hlink : ∀ absolute target, t (x ++ names) ≠ some (.file (.link absolute target)))
    (hend : t (x ++ names) ≠ none) : walk search t x (names.map .name) = .ends (x ++ names) := by
  induction names generalizing x with
  | nil => rw [List.append_nil, List.map_nil, walk]
  | cons n names ih =>
    obtain ⟨value, hvalue, hsearch⟩ : Searches search t x := by
      have hdir := hdirs [] List.nil_prefix (by simp)
      rwa [List.append_nil] at hdir
    have happend : x ++ n :: names = (x ++ [n]) ++ names := by simp
    have hrest : walk search t (x ++ [n]) (names.map .name) = .ends (x ++ n :: names) := by
      rw [happend] at hlink hend ⊢
      refine ih (fun z hz hne => ?_) hlink hend
      have hdir := hdirs (n :: z) (List.cons_prefix_cons.mpr ⟨rfl, hz⟩) (by simpa using hne)
      rwa [show x ++ n :: z = (x ++ [n]) ++ z by simp] at hdir
    rw [List.map_cons, walk, hvalue]
    dsimp only
    rw [if_pos hsearch]
    cases hn : t (x ++ [n]) with
    | none =>
      exfalso
      by_cases hnames : names = []
      · rw [hnames] at hend
        exact hend hn
      · have hdir := hdirs [n] (by simp) (by simpa using Ne.symm hnames)
        exact hdir.isDirectory.ne_none hn
    | some node =>
      cases node with
      | directory value => exact hrest
      | file entry =>
        cases entry with
        | data value => exact hrest
        | link absolute target =>
          exfalso
          by_cases hnames : names = []
          · rw [hnames] at hlink
            exact hlink absolute target hn
          · obtain ⟨value, hdir, -⟩ := hdirs [n] (by simp) (by simpa using Ne.symm hnames)
            rw [hn] at hdir
            exact absurd hdir (by simp)

/-- What stands at a location that is reached without links is what its path leads to. -/
theorem stat_reachable (links : ℕ) (hreach : Reachable search t x) (hend : t x ≠ none)
    (hlink : ∀ absolute target, t x ≠ some (.file (.link absolute target))) :
    stat search t links x = .ofNode (t x) := by
  have hwalk : walk search t [] (x.map .name) = .ends x := walk_names hreach hlink hend
  unfold stat
  cases links with
  | zero => rw [follow, hwalk]
  | succ links => rw [follow, hwalk]

end Resolution
end BackupManager.FileTree
