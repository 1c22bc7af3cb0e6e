import BackupManager.Client.SendAction
import BackupManager.Client.StagedEntries

/-! The paths of the watched folder: as the directory iterator gives them, as they are sent, and where
a restore puts them. -/
namespace BackupManager.Client
open ByteStream FileTree

/-- What the file system says of a path; the empty path does not exist. -/
structure Folders where
  isThere : Bytes → Bool
  isDirectory : Bytes → Bool
  isThere_nil : isThere [] = false

/-- `create_account_backup_folder`: the first line that names a directory; `none` when the lines end
before. -/
def createAccountBackupFolder (folders : Folders) : List Bytes → Option Bytes
  | [] => none
  | line :: lines =>
    if !folders.isThere line || !folders.isDirectory line then
      createAccountBackupFolder folders lines
    else some line

/-- `operator/` of a path. -/
def joinPath (p q : Bytes) : Bytes :=
  if q.head? = some slash then q
  else if p = [] ∨ p.getLast? = some slash then p ++ q
  else p ++ slash :: q

/-- What a directory can hold. -/
structure IsName (n : Bytes) : Prop where
  ne_nil : n ≠ []
  no_slash : slash ∉ n
  ne_stay : n ≠ [46]
  ne_up : n ≠ [46, 46]

/-- The path that `recursive_directory_iterator` gives for the entry with these names. -/
def watchedPath (mainPath : Bytes) (names : Location) : Bytes := names.foldl joinPath mainPath

/-- The names, each after a separator. -/
def separated (names : Location) : Bytes := names.flatMap (slash :: ·)

/-- The stripped path stands below the staging directory under its own names, and no other entry of
the watched folder stands there. -/
structure StaysInside (mainPath : Bytes) (names : Location) (stripped : Bytes) : Prop where
  inside : components (tmpDir ++ stripped) = components tmpDir ++ names.map .name
  alone : ∀ names', names' ≠ [] → (∀ n ∈ names', IsName n) → ∀ stripped',
    erasePart mainPath (watchedPath mainPath names') = some stripped' →
    components (tmpDir ++ stripped') = components (tmpDir ++ stripped) →
    watchedPath mainPath names' = watchedPath mainPath names

section Joined

variable {mainPath p n : Bytes} {names : Location}

theorem joinPath_name (hn : IsName n) (hp : p ≠ []) (hlast : p.getLast? ≠ some slash) :
    joinPath p n = p ++ slash :: n := by
  have hhead : ¬n.head? = some slash := fun h => hn.no_slash (List.mem_of_head? h)
  rw [joinPath, if_neg hhead, if_neg (not_or.mpr ⟨hp, hlast⟩)]

theorem joinPath_slash (hn : IsName n) (hlast : p.getLast? = some slash) : joinPath p n = p ++ n := by
  have hhead : ¬n.head? = some slash := fun h => hn.no_slash (List.mem_of_head? h)
  rw [joinPath, if_neg hhead, if_pos (Or.inr hlast)]

theorem getLast?_append_name (hn : IsName n) (p : Bytes) : (p ++ n).getLast? ≠ some slash := by
  rw [List.getLast?_append_of_ne_nil p hn.ne_nil]
  exact fun h => hn.no_slash (List.mem_of_getLast? h)

theorem watchedPath_eq (hmain : mainPath ≠ []) (hlast : mainPath.getLast? ≠ some slash)
    (hnames : ∀ n ∈ names, IsName n) : watchedPath mainPath names = mainPath ++ separated names := by
  induction names generalizing mainPath with
  | nil => simp [watchedPath, separated]
  | cons n names ih =>
    have hn := hnames n List.mem_cons_self
    have hjoin := joinPath_name hn hmain hlast
    have hrest : ∀ n ∈ names, IsName n := fun n hn => hnames n (List.mem_cons_of_mem _ hn)
    have hend : (joinPath mainPath n).getLast? ≠ some slash := by
      rw [hjoin, List.append_cons]
      exact getLast?_append_name hn _
    have hwatched : watchedPath mainPath (n :: names) = watchedPath (joinPath mainPath n) names := rfl
    rw [hwatched, ih (by rw [hjoin]; simp) hend hrest, hjoin, List.append_assoc]
    rfl

/-- Where the main path ends with a separator, the first name has none. -/
theorem watchedPath_of_slash (hlast : mainPath.getLast? = some slash) (hn : IsName n)
    (hnames : ∀ n ∈ names, IsName n) :
    watchedPath mainPath (n :: names) = mainPath ++ (n ++ separated names) := by
  have hjoin := joinPath_slash hn hlast
  have hwatched : watchedPath mainPath (n :: names) = watchedPath (mainPath ++ n) names := by
    rw [← hjoin]
    rfl
  rw [hwatched, watchedPath_eq (by simp [hn.ne_nil]) (getLast?_append_name hn _) hnames,
    List.append_assoc]

theorem components_name (hn : IsName n) : components (slash :: n) = [.name n] := by
  have hsplit : (slash :: n).splitOn slash = [[], n] := by
    have h := List.splitOn_append_cons_self (a := slash) [] n
    rw [List.splitOn_eq_singleton hn.no_slash] at h
    exact h
  unfold components
  rw [hsplit]
  simp [hn.ne_nil, hn.ne_stay, hn.ne_up]

theorem components_separated (path : Bytes) (hnames : ∀ n ∈ names, IsName n) :
    components (path ++ separated names) = components path ++ names.map .name := by
  induction names generalizing path with
  | nil => simp [separated]
  | cons n names ih =>
    have hpath : path ++ separated (n :: names) = (path ++ slash :: n) ++ separated names := by
      simp [separated]
    rw [hpath, ih _ (fun n hn => hnames n (List.mem_cons_of_mem _ hn)), components_append,
      components_name (hnames n List.mem_cons_self), List.append_assoc]
    rfl

/-- A name that is put behind the staging directory without a separator makes another name. -/
theorem components_beside (hn : IsName n) :
    components (tmpDir ++ n) = [.up, .name (tmpDir.drop 3 ++ n)] := by
  have hname : IsName (tmpDir.drop 3 ++ n) := by
    have htmp : slash ∉ tmpDir.drop 3 := by decide
    refine ⟨by simp [hn.ne_nil], ?_, ?_, ?_⟩
    · rw [List.mem_append, not_or]
      exact ⟨htmp, hn.no_slash⟩
    · exact fun h => absurd (congrArg List.length h) (by simp [tmpDir])
    · exact fun h => absurd (congrArg List.length h) (by simp [tmpDir])
  have hpath : tmpDir ++ n = [46, 46] ++ slash :: (tmpDir.drop 3 ++ n) := rfl
  rw [hpath, components_append, components_name hname]
  rfl

theorem separated_injective {names names' : Location} (hnames : ∀ n ∈ names, IsName n)
    (hnames' : ∀ n ∈ names', IsName n)
    (h : components (tmpDir ++ separated names) = components (tmpDir ++ separated names')) :
    names = names' := by
  rw [components_separated _ hnames, components_separated _ hnames', List.append_cancel_left_eq] at h
  exact List.map_injective_iff.mpr (fun _ _ => Component.name.inj) h

end Joined

theorem ne_nil_of_accepted {folders : Folders} {lines : List Bytes} {mainPath : Bytes}
    (h : createAccountBackupFolder folders lines = some mainPath) : mainPath ≠ [] := by
  rintro rfl
  induction lines with
  | nil => exact absurd h (by simp [createAccountBackupFolder])
  | cons line lines ih =>
    unfold createAccountBackupFolder at h
    split at h
    · exact ih h
    · next hthere =>
      obtain rfl := Option.some.inj h
      exact hthere (by simp [folders.isThere_nil])

/-- The stripped path always gives the watched path back; a restore puts it at its own place below the
staging directory exactly when the main path does not end with a separator. -/
theorem path_translation (folders : Folders) (lines : List Bytes) (mainPath : Bytes)
    (haccepted : createAccountBackupFolder folders lines = some mainPath) (names : Location)
    (hne : names ≠ []) (hnames : ∀ n ∈ names, IsName n) :
    ∃ stripped, erasePart mainPath (watchedPath mainPath names) = some stripped ∧
      mainPath ++ stripped = watchedPath mainPath names ∧
      (StaysInside mainPath names stripped ↔ mainPath.getLast? ≠ some slash) := by
  have hmain := ne_nil_of_accepted haccepted
  by_cases hlast : mainPath.getLast? = some slash
  · cases names with
    | nil => exact absurd rfl hne
    | cons n names =>
      have hn := hnames n List.mem_cons_self
      have hrest : ∀ n ∈ names, IsName n := fun n hn => hnames n (List.mem_cons_of_mem _ hn)
      have hwatched := watchedPath_of_slash hlast hn hrest
      refine ⟨n ++ separated names, ?_, hwatched.symm, fun hstays => ?_, fun h => absurd hlast h⟩
      · rw [hwatched, erasePart_append]
      -- one name is lost to the name of the staging directory
      · have hinside := hstays.inside
        rw [← List.append_assoc, components_separated _ hrest, components_beside hn] at hinside
        have hlength := congrArg List.length hinside
        have htmp : (components tmpDir).length = 2 := by decide
        simp only [List.length_append, List.length_map, List.length_cons, List.length_nil, htmp] at hlength
        omega
  · have hwatched := watchedPath_eq hmain hlast hnames
    refine ⟨separated names, ?_, hwatched.symm, fun _ => hlast, fun _ => ⟨?_, ?_⟩⟩
    · rw [hwatched, erasePart_append]
    · exact components_separated tmpDir hnames
    · intro names' hne' hnames' stripped' hstripped' hsame
      have hwatched' := watchedPath_eq hmain hlast hnames'
      rw [hwatched', erasePart_append, Option.some.injEq] at hstripped'
      rw [← hstripped'] at hsame
      rw [separated_injective hnames' hnames hsame]

section Samples

/-- Every path is a directory, but the empty one. -/
def everyFolder : Folders := ⟨fun p => p ≠ [], fun _ => true, by decide⟩

theorem path_translation_plain : ∃ stripped,
    erasePart [slash, 100] (watchedPath [slash, 100] [[97], [98]]) = some stripped ∧
      [slash, 100] ++ stripped = watchedPath [slash, 100] [[97], [98]] ∧
      (StaysInside [slash, 100] [[97], [98]] stripped ↔ [slash, 100].getLast? ≠ some slash) :=
  path_translation everyFolder [[slash, 100]] [slash, 100] (by decide) [[97], [98]] (by decide) (by
    intro n hn
    rcases List.mem_cons.mp hn with rfl | hn
    · constructor <;> decide
    · obtain rfl := List.mem_singleton.mp hn
      constructor <;> decide)

/-- With a separator at the end of the main path, a file `a` is restored beside the staging
directory. -/
theorem path_translation_trailing_slash : ¬∀ (folders : Folders) (lines : List Bytes) (mainPath : Bytes),
    createAccountBackupFolder folders lines = some mainPath → ∀ names : Location, names ≠ [] →
    (∀ n ∈ names, IsName n) → ∃ stripped,
      erasePart mainPath (watchedPath mainPath names) = some stripped ∧
      mainPath ++ stripped = watchedPath mainPath names ∧ StaysInside mainPath names stripped := by
  intro hinside
  have hname : ∀ n ∈ [[(97 : UInt8)]], IsName n := by
    intro n hn
    obtain rfl := List.mem_singleton.mp hn
    constructor <;> decide
  obtain ⟨stripped, hstripped, -, hstays⟩ := hinside everyFolder [[slash, 100, slash]] [slash, 100, slash]
    (by decide) [[97]] (by decide) hname
  have h : some stripped = some [97] := hstripped.symm.trans (by decide)
  rw [Option.some.injEq] at h
  have hinside := hstays.inside
  rw [h] at hinside
  exact absurd hinside (by decide)

end Samples
end BackupManager.Client
