import BackupManager.ByteStream.OutputBuffer
import BackupManager.Client.AllOrNothing

/-! The staging of the entries: what it needs of the kinds of what stands, and what it leaves. -/
namespace BackupManager.Client
open ByteStream Protocol FileTree Prog Host

/-- The names that a path consists of. -/
def Entry.location (e : Entry) : Location :=
  (components e.path).filterMap fun
    | .name n => some n
    | _ => none

/-- The path of an entry is a `/` and names. -/
structure Entry.Named (e : Entry) : Prop where
  slash : e.path.head? = some slash
  names : components e.path = e.location.map .name
  ne_nil : e.location ≠ []

instance (e : Entry) : Decidable e.Named :=
  decidable_of_iff (e.path.head? = some slash ∧ components e.path = e.location.map .name ∧
      e.location ≠ []) ⟨fun h => ⟨h.1, h.2.1, h.2.2⟩, fun h => ⟨h.slash, h.names, h.ne_nil⟩⟩

/-- What a listing shows of a node: a directory, or a file with its content. -/
def Host.shown : HostNode → Option Bytes
  | .file data => some data.content
  | .directory _ => none

/-- What an entry should show. -/
def Entry.shown (e : Entry) : Option Bytes := if e.isDirectory = 1 then none else some e.content

/-- What stands at a location, without times and permissions. -/
def listing (t : HostTree) (x : Location) : Option (Option Bytes) := (t x).map Host.shown

/-- The kinds of what stands, and the calls that have been made. -/
structure Standing where
  kinds : Tree Bytes Unit Unit
  calls : Operation → ℕ

def FileSystem.standing (fs : FileSystem) : Standing := ⟨kinds fs.tree, fs.calls⟩

namespace Host

variable (h : Host) (p : Standing) (e : Entry)

/-- Where an entry is staged. -/
def place : Location := h.target (tmpDir ++ e.path)

/-- The stream of a received file gets open. -/
def Opens : Prop :=
  h.fails .openFile (p.calls .openFile) = false ∧ ¬IsDirectory p.kinds (h.place e)

instance : Decidable (h.Opens p e) := inferInstanceAs (Decidable (_ ∧ _))

/-- How often the content of a file goes through to it before it is closed. -/
def passes (content : Bytes) : ℕ := OutputBuffer.passes h.keeps [] (pieces maxMsgSize content)

/-- What is left to be written when the file is closed. -/
def waiting (content : Bytes) : Bytes :=
  OutputBuffer.waiting h.keeps [] (pieces maxMsgSize content)

/-- What the calls on an entry find: its parent, nothing of the wrong kind, and no fault. -/
structure CanStage : Prop where
  walks : Walks (IsDirectory p.kinds) h.cwd h.cwd (components (tmpDir ++ e.path))
  folder : e.isDirectory = 1 → h.fails .createDirectory (p.calls .createDirectory) = false ∧
    p.kinds (h.place e) ≠ some (.file ())
  opened : e.isDirectory ≠ 1 → h.Opens p e →
    ∀ k < h.passes e.content, h.fails .write (p.calls .write + k) = false
  unopened : e.isDirectory ≠ 1 → ¬h.Opens p e → p.kinds (h.place e) ≠ none
  lastWriteTime : h.fails .lastWriteTime (p.calls .lastWriteTime) = false
  permissions : h.fails .permissions (p.calls .permissions) = false

/-- The calls for an entry. -/
def callsFor : Operation → ℕ
  | .createDirectory => if e.isDirectory = 1 then 1 else 0
  | .openFile => if e.isDirectory = 1 then 0 else 1
  | .write => if e.isDirectory ≠ 1 ∧ h.Opens p e then h.passes e.content else 0
  | .close => if e.isDirectory ≠ 1 ∧ h.Opens p e ∧ h.waiting e.content ≠ [] then 1 else 0
  | .lastWriteTime => 1
  | .permissions => 1

/-- The content of a file whose closing is the call of this number. -/
def stored (n : ℕ) (content : Bytes) : Bytes :=
  OutputBuffer.through h.keeps [] (pieces maxMsgSize content) ++
    h.reached .close n (h.waiting content)

/-- What stands once an entry is staged. -/
def after : Standing where
  kinds :=
    if e.isDirectory = 1 then Function.update p.kinds (h.place e) (some (.directory ()))
    else if h.Opens p e then Function.update p.kinds (h.place e) (some (.file ())) else p.kinds
  calls op := p.calls op + h.callsFor p e op

/-- The entries can be staged one after the other. -/
def Stageable : Standing → List Entry → Prop
  | _, [] => True
  | p, e :: es => h.CanStage p e ∧ Stageable (h.after p e) es

end Host

theorem components_append (path rest : Bytes) :
    components (path ++ slash :: rest) = components path ++ components (slash :: rest) := by
  have hsplit := List.splitOn_append_cons_self (a := slash) path rest
  have hrest : (slash :: rest).splitOn slash = [] ++ List.splitOn slash ([] : Bytes) ++
      rest.splitOn slash := List.splitOn_append_cons_self (a := slash) [] rest
  unfold components
  rw [hsplit, hrest]
  simp

section Places

variable {h : Host} {fs fs' : FileSystem} {e : Entry}

theorem target_tmpDir : h.target tmpDir = h.staging := by
  have hcomponents : components tmpDir = [.up, .name (tmpDir.drop 3)] := by decide
  have hhead : ¬tmpDir.head? = some slash := by decide
  unfold Host.target
  rw [hcomponents, if_neg hhead]
  rfl

/-- A named entry is staged below the staging directory, under its own names. -/
theorem place_named (he : e.Named) : h.place e = h.staging ++ e.location := by
  obtain ⟨rest, hpath⟩ : ∃ rest, e.path = slash :: rest := by
    have hslash := he.slash
    cases hp : e.path with
    | nil => simp [hp] at hslash
    | cons c rest =>
      rw [hp, List.head?_cons, Option.some.injEq] at hslash
      exact ⟨rest, by rw [hslash]⟩
  have hhead : ¬(tmpDir ++ e.path).head? = some slash := by
    show ¬some (46 : UInt8) = some slash
    decide
  have htmp : ¬tmpDir.head? = some slash := by decide
  have hstaging : (components tmpDir).foldl Component.target h.cwd = h.staging := by
    have htarget := target_tmpDir (h := h)
    unfold Host.target at htarget
    rwa [if_neg htmp] at htarget
  have hnames : ∀ (names x : Location), (names.map Component.name).foldl Component.target x =
      x ++ names := by
    intro names
    induction names with
    | nil => exact fun x => (List.append_nil x).symm
    | cons n names ih =>
      intro x
      rw [List.map_cons, List.foldl_cons, ih]
      exact List.append_assoc _ _ _
  unfold Host.place Host.target
  rw [if_neg hhead, hpath, components_append, ← hpath, List.foldl_append, hstaging, he.names, hnames]

theorem locate_place : h.locate fs (tmpDir ++ e.path) = some (h.place e) ↔
    Walks (IsDirectory fs.tree) h.cwd h.cwd (components (tmpDir ++ e.path)) := by
  have hhead : ¬(tmpDir ++ e.path).head? = some slash := by
    show ¬some (46 : UInt8) = some slash
    decide
  have hne : tmpDir ++ e.path ≠ [] := by
    show (46 : UInt8) :: _ ≠ []
    simp
  unfold Host.place
  rw [locate_eq_target, and_iff_right hne, if_neg hhead]

theorem attempt_eq_some {φ : Type} {f : φ → Bool × φ} {w w' : φ} :
    attempt f w = some w' ↔ f w = (true, w') := by
  unfold attempt
  cases f w with
  | mk ok w₁ => cases ok <;> simp

theorem kinds_update {t : HostTree} {l : Location} {node : HostNode} :
    kinds (Function.update t l (some node)) = Function.update (kinds t) l (some node.kind) := by
  funext x
  unfold kinds
  by_cases hx : x = l
  · rw [hx, Function.update_self, Function.update_self]
    rfl
  · rw [Function.update_of_ne hx, Function.update_of_ne hx]

end Places

section Calls

variable {h : Host} {fs fs' : FileSystem} {e : Entry} {op : Operation}
  {change : Option HostNode → Option HostNode}

/-- A change of the data of a node, which only a missing node prevents. -/
structure Retouches (change : Option HostNode → Option HostNode) : Prop where
  missing : change none = none
  changes : ∀ n, ∃ n', change (some n) = some n' ∧ n'.kind = n.kind ∧ shown n' = shown n

theorem retouches_lastWriteTime (time : ℤ) : Retouches (Host.lastWriteTime time) := by
  constructor
  · rfl
  · intro n
    cases n with
    | file data => exact ⟨_, rfl, rfl, rfl⟩
    | directory permissions => exact ⟨_, rfl, rfl, rfl⟩

theorem retouches_permissions (mode : ℤ) : Retouches (Host.permissions mode) := by
  constructor
  · rfl
  · intro n
    cases n with
    | file data => exact ⟨_, rfl, rfl, rfl⟩
    | directory permissions => exact ⟨_, rfl, rfl, rfl⟩

/-- A call that leaves kinds and contents. -/
structure Touched (op : Operation) (fs fs' : FileSystem) : Prop where
  kinds : kinds fs'.tree = kinds fs.tree
  listing : listing fs'.tree = listing fs.tree
  calls : fs'.calls = Function.update fs.calls op (fs.calls op + 1)

theorem listing_update {t : HostTree} {l : Location} {node : HostNode} :
    listing (Function.update t l (some node)) =
      Function.update (listing t) l (some (shown node)) := by
  funext x
  unfold listing
  by_cases hx : x = l
  · rw [hx, Function.update_self, Function.update_self]
    rfl
  · rw [Function.update_of_ne hx, Function.update_of_ne hx]

theorem attempt_edit : attempt (h.edit op change (tmpDir ++ e.path)) fs = some fs' ↔
    h.fails op (fs.calls op) = false ∧
      Walks (IsDirectory fs.tree) h.cwd h.cwd (components (tmpDir ++ e.path)) ∧
      ∃ node, change (fs.tree (h.place e)) = some node ∧ fs' = { fs.count op with
        tree := Function.update fs.tree (h.place e) (some node) } := by
  rw [attempt_eq_some, edit_eq_true, ← locate_place]
  rfl

theorem exists_attempt_edit : (∃ fs', attempt (h.edit op change (tmpDir ++ e.path)) fs = some fs') ↔
    h.fails op (fs.calls op) = false ∧
      Walks (IsDirectory fs.tree) h.cwd h.cwd (components (tmpDir ++ e.path)) ∧
      ∃ node, change (fs.tree (h.place e)) = some node := by
  constructor
  · intro hsome
    obtain ⟨fs', hfs'⟩ := hsome
    obtain ⟨hfails, hwalks, node, hnode, -⟩ := attempt_edit.mp hfs'
    exact ⟨hfails, hwalks, node, hnode⟩
  · intro hall
    obtain ⟨hfails, hwalks, node, hnode⟩ := hall
    exact ⟨_, attempt_edit.mpr ⟨hfails, hwalks, node, hnode, rfl⟩⟩

theorem Retouches.exists_attempt (hchange : Retouches change) :
    (∃ fs', attempt (h.edit op change (tmpDir ++ e.path)) fs = some fs') ↔
      h.fails op (fs.calls op) = false ∧
      Walks (IsDirectory fs.tree) h.cwd h.cwd (components (tmpDir ++ e.path)) ∧
      fs.tree (h.place e) ≠ none := by
  have hnode : (∃ node, change (fs.tree (h.place e)) = some node) ↔
      fs.tree (h.place e) ≠ none := by
    cases hn : fs.tree (h.place e) with
    | none => simp [hchange.missing]
    | some n =>
      obtain ⟨n', hn', -⟩ := hchange.changes n
      exact iff_of_true ⟨n', hn'⟩ (by simp)
  rw [exists_attempt_edit, hnode]

theorem Retouches.touched (hchange : Retouches change)
    (hrun : attempt (h.edit op change (tmpDir ++ e.path)) fs = some fs') :
    Touched op fs fs' := by
  obtain ⟨-, -, node, hnode, rfl⟩ := attempt_edit.mp hrun
  have hsame : ∃ n, fs.tree (h.place e) = some n ∧ node.kind = n.kind ∧
      shown node = shown n := by
    cases hn : fs.tree (h.place e) with
    | none =>
      rw [hn, hchange.missing] at hnode
      exact absurd hnode (by simp)
    | some n =>
      obtain ⟨n', hn', hkind, hshown⟩ := hchange.changes n
      rw [hn, hn', Option.some.injEq] at hnode
      subst hnode
      exact ⟨n, rfl, hkind, hshown⟩
  obtain ⟨n, hn, hkind, hshown⟩ := hsame
  constructor
  · dsimp only
    rw [kinds_update, hkind, Function.update_eq_self_iff]
    unfold FileTree.kinds
    rw [hn]
    rfl
  · dsimp only
    rw [listing_update, hshown, Function.update_eq_self_iff]
    unfold Client.listing
    rw [hn]
    rfl
  · rfl

/-- A folder is made, or found. -/
theorem attempt_createDirectory :
    (∃ fs', attempt (h.edit .createDirectory h.createDirectory (tmpDir ++ e.path)) fs = some fs') ↔
      h.fails .createDirectory (fs.calls .createDirectory) = false ∧
      Walks (IsDirectory fs.tree) h.cwd h.cwd (components (tmpDir ++ e.path)) ∧
      kinds fs.tree (h.place e) ≠ some (.file ()) := by
  have hnode : (∃ node, h.createDirectory (fs.tree (h.place e)) = some node) ↔
      kinds fs.tree (h.place e) ≠ some (.file ()) := by
    unfold kinds
    cases fs.tree (h.place e) with
    | none => simp [Host.createDirectory]
    | some n => cases n <;> simp [Host.createDirectory, Node.kind]
  rw [exists_attempt_edit, hnode]

theorem attempted_createDirectory (hrun : attempt
      (h.edit .createDirectory h.createDirectory (tmpDir ++ e.path)) fs = some fs') :
    kinds fs'.tree = Function.update (kinds fs.tree) (h.place e) (some (.directory ())) ∧
      listing fs'.tree = Function.update (listing fs.tree) (h.place e) (some none) ∧
      fs'.calls = Function.update fs.calls .createDirectory (fs.calls .createDirectory + 1) := by
  obtain ⟨-, -, node, hnode, rfl⟩ := attempt_edit.mp hrun
  have hdir := createDirectory_isDirectory node hnode
  cases node with
  | file data => exact hdir.elim
  | directory permissions => exact ⟨kinds_update, listing_update, rfl⟩

end Calls

section Streams

variable {h : Host} {e : Entry} {content : Bytes} {fs fs' : FileSystem}

/-- A stream is open at the place of the entry, on a file with this content. -/
structure Streaming (h : Host) (e : Entry) (content : Bytes) (fs : FileSystem) : Prop where
  walks : Walks (IsDirectory fs.tree) h.cwd h.cwd (components (tmpDir ++ e.path))
  file : ∃ data, fs.tree (h.place e) = some (.file data) ∧ data.content = content

/-- A call on an open stream changes its file only. -/
structure Streamed (h : Host) (e : Entry) (op : Operation) (n : ℕ) (fs fs' : FileSystem) : Prop where
  kinds : kinds fs'.tree = kinds fs.tree
  elsewhere : ∀ x, x ≠ h.place e → listing fs'.tree x = listing fs.tree x
  calls : fs'.calls = Function.update fs.calls op (fs.calls op + n)

theorem Streamed.refl (op : Operation) (fs : FileSystem) : Streamed h e op 0 fs fs :=
  ⟨rfl, fun _ _ => rfl, (Function.update_eq_self op fs.calls).symm⟩

theorem Streamed.trans {op : Operation} {n m : ℕ} {fs'' : FileSystem} (h₁ : Streamed h e op n fs fs')
    (h₂ : Streamed h e op m fs' fs'') : Streamed h e op (n + m) fs fs'' := by
  constructor
  · exact h₂.kinds.trans h₁.kinds
  · exact fun x hx => (h₂.elsewhere x hx).trans (h₁.elsewhere x hx)
  · rw [h₂.calls, h₁.calls, Function.update_self, Function.update_idem, Nat.add_assoc]

theorem Streaming.listing (hs : Streaming h e content fs) :
    listing fs.tree (h.place e) = some (some content) := by
  obtain ⟨data, hdata, rfl⟩ := hs.file
  unfold Client.listing
  rw [hdata]
  rfl

/-- A call that writes: what reaches the file is added to its content. -/
theorem Streaming.append (hs : Streaming h e content fs) (op : Operation) (bytes : Bytes) :
    ∃ fs', h.append op bytes (tmpDir ++ e.path) fs = (!h.fails op (fs.calls op), fs') ∧
      Streaming h e (content ++ h.reached op (fs.calls op) bytes) fs' ∧
      fs'.pending = fs.pending ∧ Streamed h e op 1 fs fs' := by
  obtain ⟨data, hdata, rfl⟩ := hs.file
  have hlocate : h.locate (fs.count op) (tmpDir ++ e.path) = some (h.place e) :=
    locate_place.mpr hs.walks
  -- the file once it is written to
  obtain ⟨node, hnode⟩ : ∃ node : HostNode, node = .file { data with
      content := data.content ++ h.reached op (fs.calls op) bytes, lastWriteTime := h.now } :=
    ⟨_, rfl⟩
  have hextend : h.extend (h.reached op (fs.calls op) bytes) ((fs.count op).tree (h.place e)) =
      some node := by
    rw [show (fs.count op).tree = fs.tree from rfl, hdata, hnode]
    rfl
  have halter : h.alter (h.extend (h.reached op (fs.calls op) bytes)) (tmpDir ++ e.path)
      (fs.count op) = some { fs.count op with
        tree := Function.update fs.tree (h.place e) (some node) } :=
    alter_eq_some.mpr ⟨hlocate, node, hextend, rfl⟩
  have hkinds : kinds (Function.update fs.tree (h.place e) (some node)) = kinds fs.tree := by
    rw [kinds_update, Function.update_eq_self_iff, hnode]
    unfold kinds
    rw [hdata]
    rfl
  refine ⟨{ fs.count op with tree := Function.update fs.tree (h.place e) (some node) }, ?_,
    ⟨?_, ?_⟩, rfl, ⟨hkinds, fun x hx => ?_, rfl⟩⟩
  · unfold Host.append
    rw [halter]
  · exact hs.walks.mono fun y hy => (isDirectory_congr hkinds).mpr hy
  · rw [hnode]
    exact ⟨_, Function.update_self _ _ _, rfl⟩
  · unfold Client.listing
    dsimp only
    rw [Function.update_of_ne hx]

/-- A chunk that is written waits in the buffer or is in the file. -/
theorem Streaming.write_kept {chunk : Bytes}
    (hkeeps : h.keeps fs.pending.length chunk.length = true) :
    attempt (h.write (tmpDir ++ e.path) chunk) fs =
      some { fs with pending := fs.pending ++ chunk } := by
  rw [attempt_eq_some]
  unfold Host.write
  rw [if_pos hkeeps]

theorem Streaming.write_through (hs : Streaming h e content fs) {chunk : Bytes}
    (hkeeps : ¬h.keeps fs.pending.length chunk.length = true) :
    (h.fails .write (fs.calls .write) = true →
      attempt (h.write (tmpDir ++ e.path) chunk) fs = none) ∧
    (h.fails .write (fs.calls .write) = false → ∃ fs',
      attempt (h.write (tmpDir ++ e.path) chunk) fs = some fs' ∧
      Streaming h e (content ++ (fs.pending ++ chunk)) fs' ∧ fs'.pending = [] ∧
      Streamed h e .write 1 fs fs') := by
  obtain ⟨fs', happend, hstreaming, -, hstreamed⟩ := hs.append .write (fs.pending ++ chunk)
  constructor
  · intro hfails
    unfold attempt Host.write
    rw [if_neg hkeeps, happend, hfails]
    rfl
  · intro hfails
    have hreached : h.reached .write (fs.calls .write) (fs.pending ++ chunk) =
        fs.pending ++ chunk := by
      unfold Host.reached
      rw [hfails]
      exact if_neg (by simp)
    rw [hreached] at hstreaming
    refine ⟨{ fs' with pending := [] }, ?_, ⟨hstreaming.walks, hstreaming.file⟩, rfl,
      ⟨hstreamed.kinds, hstreamed.elsewhere, hstreamed.calls⟩⟩
    rw [attempt_eq_some]
    unfold Host.write
    rw [if_neg hkeeps, happend, hfails]
    rfl

/-- The chunks of a content, one after the other. -/
theorem Streaming.chunks (chunks : List Bytes) (hs : Streaming h e content fs) :
    (∀ fs', chunks.foldlM (fun w chunk => attempt (h.write (tmpDir ++ e.path) chunk) w) fs = some fs' →
      Streaming h e (content ++ OutputBuffer.through h.keeps fs.pending chunks) fs' ∧
      fs'.pending = OutputBuffer.waiting h.keeps fs.pending chunks ∧
      Streamed h e .write (OutputBuffer.passes h.keeps fs.pending chunks) fs fs') ∧
    ((∃ fs', chunks.foldlM (fun w chunk => attempt (h.write (tmpDir ++ e.path) chunk) w) fs =
        some fs') ↔
      ∀ k < OutputBuffer.passes h.keeps fs.pending chunks,
        h.fails .write (fs.calls .write + k) = false) := by
  induction chunks generalizing fs content with
  | nil =>
    constructor
    · intro fs' hfold
      cases hfold
      rw [OutputBuffer.through, List.append_nil]
      exact ⟨hs, rfl, .refl _ _⟩
    · exact iff_of_true ⟨fs, rfl⟩ fun k hk => absurd hk (Nat.not_lt_zero k)
  | cons chunk chunks ih =>
    rw [List.foldlM_cons, OutputBuffer.through, OutputBuffer.waiting, OutputBuffer.passes]
    by_cases hkeeps : h.keeps fs.pending.length chunk.length = true
    · rw [Streaming.write_kept hkeeps, if_pos hkeeps, if_pos hkeeps, if_pos hkeeps]
      have hnext : Streaming h e content { fs with pending := fs.pending ++ chunk } :=
        ⟨hs.walks, hs.file⟩
      obtain ⟨hruns, hexists⟩ := ih hnext
      refine ⟨fun fs' hfold => ?_, hexists⟩
      obtain ⟨hstreaming, hpending, hstreamed⟩ := hruns fs' hfold
      exact ⟨hstreaming, hpending, ⟨hstreamed.kinds, hstreamed.elsewhere, hstreamed.calls⟩⟩
    · rw [if_neg hkeeps, if_neg hkeeps, if_neg hkeeps]
      obtain ⟨hthrows, hworks⟩ := hs.write_through hkeeps
      cases hfails : h.fails .write (fs.calls .write) with
      | true =>
        rw [hthrows hfails]
        refine ⟨fun fs' hfold => absurd hfold (by simp), iff_of_false (by simp) fun hall => ?_⟩
        have hfirst := hall 0 (Nat.succ_pos _)
        rw [Nat.add_zero, hfails] at hfirst
        exact absurd hfirst (by simp)
      | false =>
        obtain ⟨fs₁, hwrite, hstreaming₁, hpending₁, hstreamed₁⟩ := hworks hfails
        obtain ⟨hruns, hexists⟩ := ih hstreaming₁
        rw [hpending₁] at hruns hexists
        have hcalls : fs₁.calls .write = fs.calls .write + 1 := by
          rw [hstreamed₁.calls, Function.update_self]
        rw [hwrite]
        refine ⟨fun fs' hfold => ?_, hexists.trans ?_⟩
        · obtain ⟨hstreaming, hpending, hstreamed⟩ := hruns fs' hfold
          refine ⟨?_, hpending, ?_⟩
          · rw [← List.append_assoc]
            exact hstreaming
          · rw [Nat.add_comm]
            exact hstreamed₁.trans hstreamed
        · rw [hcalls]
          constructor
          · intro hall k hk
            cases k with
            | zero => exact hfails
            | succ k =>
              have hlater := hall k (by omega)
              rwa [Nat.add_right_comm, Nat.add_assoc] at hlater
          · intro hall k hk
            have hlater := hall (k + 1) (by omega)
            rwa [Nat.add_right_comm, Nat.add_assoc]

/-- The destructor writes what waits, or a part of it. -/
theorem Streaming.closeFile (hs : Streaming h e content fs) :
    Streaming h e (content ++ h.reached .close (fs.calls .close) fs.pending)
        (h.closeFile (tmpDir ++ e.path) fs) ∧
      Streamed h e .close (if fs.pending = [] then 0 else 1) fs
        (h.closeFile (tmpDir ++ e.path) fs) := by
  unfold Host.closeFile
  by_cases hpending : fs.pending = []
  · have hreached : h.reached .close (fs.calls .close) [] = [] := by
      unfold Host.reached
      simp
    rw [if_pos hpending, if_pos hpending, hpending, hreached, List.append_nil]
    exact ⟨hs, .refl _ _⟩
  · obtain ⟨fs', happend, hstreaming, -, hstreamed⟩ := hs.append .close fs.pending
    rw [if_neg hpending, if_neg hpending, happend]
    exact ⟨⟨hstreaming.walks, hstreaming.file⟩,
      ⟨hstreamed.kinds, hstreamed.elsewhere, hstreamed.calls⟩⟩

/-- The file of an entry gets open. -/
theorem openFile_opens (hwalks : Walks (IsDirectory fs.tree) h.cwd h.cwd (components (tmpDir ++ e.path)))
    (hopens : h.Opens fs.standing e) :
    ∃ fs', h.ops.openFile (tmpDir ++ e.path) fs = (true, fs') ∧ Streaming h e [] fs' ∧
      fs'.pending = [] ∧
      kinds fs'.tree = Function.update (kinds fs.tree) (h.place e) (some (.file ())) ∧
      (∀ x, x ≠ h.place e → listing fs'.tree x = listing fs.tree x) ∧
      fs'.calls = Function.update fs.calls .openFile (fs.calls .openFile + 1) := by
  obtain ⟨hfails, hdir⟩ := hopens
  obtain ⟨data, hnode, hempty⟩ : ∃ data, h.openFile (fs.tree (h.place e)) = some (.file data) ∧
      data.content = [] := by
    rw [FileSystem.standing, isDirectory_kinds] at hdir
    cases hn : fs.tree (h.place e) with
    | none => exact ⟨_, rfl, rfl⟩
    | some n =>
      cases n with
      | file data => exact ⟨_, rfl, rfl⟩
      | directory permissions => exact absurd ⟨_, hn, trivial⟩ hdir
  have hrun : h.ops.openFile (tmpDir ++ e.path) fs = (true,
      { { fs with pending := [] }.count .openFile with
        tree := Function.update fs.tree (h.place e) (some (.file data)) }) := by
    apply edit_eq_true.mpr
    exact ⟨hfails, locate_place.mpr hwalks, .file data, hnode, rfl⟩
  refine ⟨_, hrun, ⟨?_, data, Function.update_self _ _ _, hempty⟩, rfl, kinds_update, fun x hx => ?_,
    rfl⟩
  · refine hwalks.mono fun y hy => ?_
    by_cases hyl : y = h.place e
    · rw [FileSystem.standing, isDirectory_kinds] at hdir
      rw [hyl] at hy
      exact absurd hy hdir
    · obtain ⟨n, hn, hisdir⟩ := hy
      exact ⟨n, (Function.update_of_ne hyl _ _).trans hn, hisdir⟩
  · unfold Client.listing
    dsimp only
    rw [Function.update_of_ne hx]

/-- Nothing but a count changes where it does not. -/
theorem openFile_fails (hno : ¬(Walks (IsDirectory fs.tree) h.cwd h.cwd
      (components (tmpDir ++ e.path)) ∧ h.Opens fs.standing e)) :
    h.ops.openFile (tmpDir ++ e.path) fs = (false, { fs with pending := [] }.count .openFile) := by
  cases hrun : h.ops.openFile (tmpDir ++ e.path) fs with
  | mk ok fs' =>
    cases ok with
    | false => rw [edit_eq_false hrun]
    | true =>
      exfalso
      obtain ⟨hfails, hlocate, node, hnode, -⟩ := edit_eq_true.mp hrun
      refine hno ⟨locate_place.mp hlocate, hfails, fun hdir => ?_⟩
      rw [FileSystem.standing, isDirectory_kinds] at hdir
      obtain ⟨n, hn, hisdir⟩ := hdir
      rw [show ({ fs with pending := [] } : FileSystem).tree = fs.tree from rfl,
        show h.target (tmpDir ++ e.path) = h.place e from rfl, Option.mem_def.mp hn] at hnode
      cases n with
      | file data => exact hisdir.elim
      | directory permissions => exact absurd hnode (by simp [Host.openFile])

end Streams

section Entries

variable {h : Host} {e : Entry} {fs fs' : FileSystem}

/-- What a listing shows once an entry is staged. -/
def Host.listed (h : Host) (fs : FileSystem) (e : Entry) : Location → Option (Option Bytes) :=
  if e.isDirectory = 1 then Function.update (listing fs.tree) (h.place e) (some none)
  else if h.Opens fs.standing e then
    Function.update (listing fs.tree) (h.place e)
      (some (some (h.stored (fs.calls .close) e.content)))
  else listing fs.tree

/-- The folder or the file of an entry is there, before its time and its permissions. -/
structure Stored (h : Host) (e : Entry) (fs fs' : FileSystem) : Prop where
  kinds : kinds fs'.tree = (h.after fs.standing e).kinds
  listing : listing fs'.tree = h.listed fs e
  calls : ∀ op, op ≠ .lastWriteTime → op ≠ .permissions →
    fs'.calls op = fs.calls op + h.callsFor fs.standing e op
  times : fs'.calls .lastWriteTime = fs.calls .lastWriteTime
  modes : fs'.calls .permissions = fs.calls .permissions

variable (h fs) in
/-- What a folder needs, and what it leaves. -/
theorem storePath_folder (hdir : e.isDirectory = 1) :
    ((∃ fs', storePath h.ops (tmpDir ++ e.path) e.isDirectory e.content fs = some fs') ↔
      h.fails .createDirectory (fs.calls .createDirectory) = false ∧
      Walks (IsDirectory fs.tree) h.cwd h.cwd (components (tmpDir ++ e.path)) ∧
      kinds fs.tree (h.place e) ≠ some (.file ())) ∧
    ∀ fs', storePath h.ops (tmpDir ++ e.path) e.isDirectory e.content fs = some fs' →
      Stored h e fs fs' := by
  unfold storePath
  rw [if_pos hdir]
  refine ⟨attempt_createDirectory, fun fs' hrun => ?_⟩
  obtain ⟨hkinds, hlisting, hcalls⟩ := attempted_createDirectory hrun
  constructor
  · rw [hkinds, Host.after, if_pos hdir]
    rfl
  · rw [hlisting, Host.listed, if_pos hdir]
  · intro op htimes hmodes
    rw [hcalls]
    cases op <;> simp_all [Host.callsFor]
  · rw [hcalls]
    rfl
  · rw [hcalls]
    rfl

/-- What a file needs whose stream gets open, and what it leaves. -/
theorem storePath_opened (hfile : e.isDirectory ≠ 1)
    (hwalks : Walks (IsDirectory fs.tree) h.cwd h.cwd (components (tmpDir ++ e.path)))
    (hopens : h.Opens fs.standing e) :
    ((∃ fs', storePath h.ops (tmpDir ++ e.path) e.isDirectory e.content fs = some fs') ↔
      ∀ k < h.passes e.content, h.fails .write (fs.calls .write + k) = false) ∧
    ∀ fs', storePath h.ops (tmpDir ++ e.path) e.isDirectory e.content fs = some fs' →
      Stored h e fs fs' := by
  obtain ⟨fs₁, hopen, hstreaming, hpending, hkinds₁, helsewhere₁, hcalls₁⟩ :=
    openFile_opens hwalks hopens
  have hwrites : fs₁.calls .write = fs.calls .write := by
    rw [hcalls₁]
    rfl
  obtain ⟨hruns, hexists⟩ := hstreaming.chunks (pieces maxMsgSize e.content)
  rw [hpending] at hruns hexists
  rw [hwrites] at hexists
  unfold storePath storeFile
  rw [if_neg hfile, hopen]
  dsimp only
  rw [if_pos rfl]
  constructor
  · refine Iff.trans ?_ hexists
    unfold writeAll
    constructor
    · intro hsome
      obtain ⟨fs', hfs'⟩ := hsome
      obtain ⟨fs₂, hfs₂, -⟩ := Option.map_eq_some_iff.mp hfs'
      exact ⟨fs₂, hfs₂⟩
    · intro hsome
      obtain ⟨fs₂, hfs₂⟩ := hsome
      exact ⟨_, Option.map_eq_some_iff.mpr ⟨fs₂, hfs₂, rfl⟩⟩
  · intro fs' hrun
    obtain ⟨fs₂, hfs₂, rfl⟩ := Option.map_eq_some_iff.mp hrun
    obtain ⟨hstreaming₂, hpending₂, hstreamed₂⟩ := hruns fs₂ hfs₂
    obtain ⟨hstreaming₃, hstreamed₃⟩ := hstreaming₂.closeFile
    have hcloses : fs₂.calls .close = fs.calls .close := by
      rw [hstreamed₂.calls, hcalls₁]
      rfl
    rw [hpending₂, hcloses, List.nil_append] at hstreaming₃
    rw [hpending₂] at hstreamed₃
    have hafter : h.listed fs e = Function.update (listing fs.tree) (h.place e)
        (some (some (h.stored (fs.calls .close) e.content))) := by
      rw [Host.listed, if_neg hfile, if_pos hopens]
    constructor
    · show kinds (h.closeFile _ fs₂).tree = _
      rw [hstreamed₃.kinds, hstreamed₂.kinds, hkinds₁, Host.after, if_neg hfile, if_pos hopens]
      rfl
    · funext x
      show Client.listing (h.closeFile _ fs₂).tree x = _
      rw [hafter]
      by_cases hx : x = h.place e
      · rw [hx, Function.update_self, hstreaming₃.listing]
        rfl
      · rw [Function.update_of_ne hx, hstreamed₃.elsewhere x hx, hstreamed₂.elsewhere x hx,
          helsewhere₁ x hx]
    · intro op htimes hmodes
      show (h.closeFile _ fs₂).calls op = _
      rw [hstreamed₃.calls, hstreamed₂.calls, hcalls₁]
      have hwaiting : OutputBuffer.waiting h.keeps [] (pieces maxMsgSize e.content) = [] ↔
          ¬h.waiting e.content ≠ [] := not_not.symm
      cases op <;> simp_all [Host.callsFor, Host.passes]
    · show (h.closeFile _ fs₂).calls .lastWriteTime = _
      rw [hstreamed₃.calls, hstreamed₂.calls, hcalls₁]
      rfl
    · show (h.closeFile _ fs₂).calls .permissions = _
      rw [hstreamed₃.calls, hstreamed₂.calls, hcalls₁]
      rfl

/-- A file whose stream does not get open is dropped. -/
theorem storePath_unopened (hfile : e.isDirectory ≠ 1)
    (hno : ¬(Walks (IsDirectory fs.tree) h.cwd h.cwd (components (tmpDir ++ e.path)) ∧
      h.Opens fs.standing e)) :
    storePath h.ops (tmpDir ++ e.path) e.isDirectory e.content fs =
      some ({ fs with pending := [] }.count .openFile) := by
  unfold storePath storeFile
  rw [if_neg hfile, openFile_fails hno]
  rfl

theorem stored_unopened (hfile : e.isDirectory ≠ 1) (hopens : ¬h.Opens fs.standing e) :
    Stored h e fs ({ fs with pending := [] }.count .openFile) := by
  constructor
  · rw [Host.after, if_neg hfile, if_neg hopens]
    rfl
  · rw [Host.listed, if_neg hfile, if_neg hopens]
    rfl
  · intro op htimes hmodes
    show Function.update fs.calls .openFile (fs.calls .openFile + 1) op = _
    cases op <;> simp_all [Host.callsFor]
  · rfl
  · rfl

/-- How an entry arrives on the files. -/
structure Arrives (h : Host) (e : Entry) (fs fs' : FileSystem) : Prop where
  standing : fs'.standing = h.after fs.standing e
  listing : listing fs'.tree = h.listed fs e

/-- Its time and its permissions come last. -/
theorem Stored.arrives {fs₁ fs₂ : FileSystem} (hstored : Stored h e fs fs₁)
    (htime : Touched .lastWriteTime fs₁ fs₂) (hmode : Touched .permissions fs₂ fs') :
    Arrives h e fs fs' := by
  constructor
  · have hkinds : FileTree.kinds fs'.tree = (h.after fs.standing e).kinds := by
      rw [hmode.kinds, htime.kinds, hstored.kinds]
    have hcalls : fs'.calls = (h.after fs.standing e).calls := by
      funext op
      show fs'.calls op = fs.calls op + h.callsFor fs.standing e op
      rw [hmode.calls, htime.calls]
      by_cases hop : op = .permissions
      · rw [hop, Function.update_self, Function.update_of_ne (by simp), hstored.modes]
        rfl
      · rw [Function.update_of_ne hop]
        by_cases hop' : op = .lastWriteTime
        · rw [hop', Function.update_self, hstored.times]
          rfl
        · rw [Function.update_of_ne hop', hstored.calls op hop' hop]
    show Standing.mk _ _ = _
    rw [hkinds, hcalls]
  · rw [hmode.listing, htime.listing, hstored.listing]

theorem replayEntry_eq_some : replayEntry h.ops fs e = some fs' ↔ ∃ fs₁ fs₂,
    storePath h.ops (tmpDir ++ e.path) e.isDirectory e.content fs = some fs₁ ∧
      attempt (h.edit .lastWriteTime (Host.lastWriteTime e.lastWriteTime) (tmpDir ++ e.path)) fs₁ =
        some fs₂ ∧
      attempt (h.edit .permissions (Host.permissions e.permissions) (tmpDir ++ e.path)) fs₂ =
        some fs' := by
  unfold replayEntry
  constructor
  · intro hrun
    obtain ⟨fs₁, hstore, hrun⟩ := Option.bind_eq_some_iff.mp hrun
    obtain ⟨fs₂, htime, hmode⟩ := Option.bind_eq_some_iff.mp hrun
    exact ⟨fs₁, fs₂, hstore, htime, hmode⟩
  · rintro ⟨fs₁, fs₂, hstore, htime, hmode⟩
    exact Option.bind_eq_some_iff.mpr ⟨fs₁, hstore, Option.bind_eq_some_iff.mpr ⟨fs₂, htime, hmode⟩⟩

/-- Once the folder or the file is dealt with, its time and its permissions can be set where
something stands. -/
theorem exists_touched {fs₁ : FileSystem}
    (htimes : fs₁.calls .lastWriteTime = fs.calls .lastWriteTime)
    (hmodes : fs₁.calls .permissions = fs.calls .permissions) :
    (∃ fs₂ fs',
      attempt (h.edit .lastWriteTime (Host.lastWriteTime e.lastWriteTime) (tmpDir ++ e.path)) fs₁ =
        some fs₂ ∧
      attempt (h.edit .permissions (Host.permissions e.permissions) (tmpDir ++ e.path)) fs₂ =
        some fs') ↔
      (Walks (IsDirectory fs₁.tree) h.cwd h.cwd (components (tmpDir ++ e.path)) ∧
        kinds fs₁.tree (h.place e) ≠ none) ∧
      h.fails .lastWriteTime (fs.calls .lastWriteTime) = false ∧
      h.fails .permissions (fs.calls .permissions) = false := by
  have htime := retouches_lastWriteTime e.lastWriteTime
  have hmode := retouches_permissions e.permissions
  rw [← htimes, ← hmodes]
  constructor
  · rintro ⟨fs₂, fs', hfs₂, hfs'⟩
    have htouched := htime.touched hfs₂
    obtain ⟨hfails, hwalks, hthere⟩ := htime.exists_attempt.mp ⟨fs₂, hfs₂⟩
    obtain ⟨hfails', -⟩ := hmode.exists_attempt.mp ⟨fs', hfs'⟩
    rw [htouched.calls, Function.update_of_ne (by simp)] at hfails'
    exact ⟨⟨hwalks, fun hnone => hthere (kinds_eq_none.mp hnone)⟩, hfails, hfails'⟩
  · rintro ⟨⟨hwalks, hthere⟩, hfails, hfails'⟩
    obtain ⟨fs₂, hfs₂⟩ := htime.exists_attempt.mpr
      ⟨hfails, hwalks, fun hnone => hthere (kinds_eq_none.mpr hnone)⟩
    have htouched := htime.touched hfs₂
    have hdirs : ∀ y, IsDirectory fs₁.tree y → IsDirectory fs₂.tree y :=
      fun y hy => (isDirectory_congr htouched.kinds).mpr hy
    have hthere₂ : fs₂.tree (h.place e) ≠ none := by
      intro hnone
      rw [← kinds_eq_none, htouched.kinds] at hnone
      exact hthere hnone
    have hcalls : fs₂.calls .permissions = fs₁.calls .permissions := by
      rw [htouched.calls]
      rfl
    rw [← hcalls] at hfails'
    obtain ⟨fs', hfs'⟩ := hmode.exists_attempt.mpr ⟨hfails', hwalks.mono hdirs, hthere₂⟩
    exact ⟨fs₂, fs', hfs₂, hfs'⟩

/-- No directory goes away. -/
theorem isDirectory_after {p : Standing} {x : Location} (hx : IsDirectory p.kinds x) :
    IsDirectory (h.after p e).kinds x := by
  obtain ⟨n, hn, hdir⟩ := hx
  unfold Host.after
  dsimp only
  split
  · by_cases hxl : x = h.place e
    · rw [hxl]
      exact ⟨.directory (), Function.update_self _ _ _, trivial⟩
    · exact ⟨n, (Function.update_of_ne hxl _ _).trans hn, hdir⟩
  · split
    · next hopens =>
      have hxl : x ≠ h.place e := by
        rintro rfl
        exact hopens.2 ⟨n, hn, hdir⟩
      exact ⟨n, (Function.update_of_ne hxl _ _).trans hn, hdir⟩
    · exact ⟨n, hn, hdir⟩

/-- Something stands at the place of an entry afterwards. -/
theorem after_place_ne_none {p : Standing} : (h.after p e).kinds (h.place e) ≠ none ↔
    (e.isDirectory ≠ 1 → ¬h.Opens p e → p.kinds (h.place e) ≠ none) := by
  unfold Host.after
  dsimp only
  split
  · next hdir => simp [hdir]
  · next hfile =>
    split
    · next hopens => simp [hopens]
    · next hopens => simp [hfile, hopens]

theorem Stored.exists_touched {fs₁ : FileSystem} (hstored : Stored h e fs fs₁)
    (hwalks : Walks (IsDirectory fs.tree) h.cwd h.cwd (components (tmpDir ++ e.path))) :
    (∃ fs₂ fs',
      attempt (h.edit .lastWriteTime (Host.lastWriteTime e.lastWriteTime) (tmpDir ++ e.path)) fs₁ =
        some fs₂ ∧
      attempt (h.edit .permissions (Host.permissions e.permissions) (tmpDir ++ e.path)) fs₂ =
        some fs') ↔
      (e.isDirectory ≠ 1 → ¬h.Opens fs.standing e → fs.standing.kinds (h.place e) ≠ none) ∧
      h.fails .lastWriteTime (fs.calls .lastWriteTime) = false ∧
      h.fails .permissions (fs.calls .permissions) = false := by
  have hwalks₁ : Walks (IsDirectory fs₁.tree) h.cwd h.cwd (components (tmpDir ++ e.path)) := by
    refine hwalks.mono fun y hy => ?_
    have hafter : IsDirectory (h.after fs.standing e).kinds y :=
      isDirectory_after (isDirectory_kinds.mpr hy)
    rwa [← hstored.kinds, isDirectory_kinds] at hafter
  rw [Client.exists_touched hstored.times hstored.modes, and_iff_right hwalks₁, hstored.kinds,
    after_place_ne_none]

/-- What stands after an entry with a parent has been stored. -/
theorem stored_of_storePath
    (hwalks : Walks (IsDirectory fs.tree) h.cwd h.cwd (components (tmpDir ++ e.path)))
    (hstore : storePath h.ops (tmpDir ++ e.path) e.isDirectory e.content fs = some fs') :
    Stored h e fs fs' := by
  by_cases hdir : e.isDirectory = 1
  · exact (storePath_folder h fs hdir).2 fs' hstore
  · by_cases hopens : h.Opens fs.standing e
    · exact (storePath_opened hdir hwalks hopens).2 fs' hstore
    · rw [storePath_unopened hdir fun hboth => hopens hboth.2, Option.some.injEq] at hstore
      exact hstore ▸ stored_unopened hdir hopens

/-- A folder is made, and a file that gets open is written; one that does not is passed over. -/
theorem exists_storePath
    (hwalks : Walks (IsDirectory fs.tree) h.cwd h.cwd (components (tmpDir ++ e.path))) :
    (∃ fs', storePath h.ops (tmpDir ++ e.path) e.isDirectory e.content fs = some fs') ↔
      (e.isDirectory = 1 → h.fails .createDirectory (fs.calls .createDirectory) = false ∧
        kinds fs.tree (h.place e) ≠ some (.file ())) ∧
      (e.isDirectory ≠ 1 → h.Opens fs.standing e →
        ∀ k < h.passes e.content, h.fails .write (fs.calls .write + k) = false) := by
  by_cases hdir : e.isDirectory = 1
  · rw [(storePath_folder h fs hdir).1]
    simp [hdir, hwalks]
  · by_cases hopens : h.Opens fs.standing e
    · rw [(storePath_opened hdir hwalks hopens).1]
      simp [hdir, hopens]
    · rw [storePath_unopened hdir fun hboth => hopens hboth.2]
      simp [hdir, hopens]

/-- Without a parent nothing is created, and the time cannot be set. -/
theorem walks_of_replayEntry (hrun : replayEntry h.ops fs e = some fs') :
    Walks (IsDirectory fs.tree) h.cwd h.cwd (components (tmpDir ++ e.path)) := by
  obtain ⟨fs₁, fs₂, hstore, htime, hmode⟩ := replayEntry_eq_some.mp hrun
  by_cases hdir : e.isDirectory = 1
  · exact ((storePath_folder h fs hdir).1.mp ⟨fs₁, hstore⟩).2.1
  · by_contra hno
    rw [storePath_unopened hdir fun hboth => hno hboth.1, Option.some.injEq] at hstore
    rw [← hstore] at htime
    exact hno ((Client.exists_touched (h := h) (e := e) rfl rfl).mp ⟨fs₂, fs', htime, hmode⟩).1.1

/-- An entry is staged exactly where its calls find what they need. -/
theorem exists_replayEntry :
    (∃ fs', replayEntry h.ops fs e = some fs') ↔ h.CanStage fs.standing e := by
  have hwalks_kinds : Walks (IsDirectory fs.standing.kinds) h.cwd h.cwd
      (components (tmpDir ++ e.path)) ↔
      Walks (IsDirectory fs.tree) h.cwd h.cwd (components (tmpDir ++ e.path)) :=
    ⟨.mono fun _ => isDirectory_kinds.mp, .mono fun _ => isDirectory_kinds.mpr⟩
  constructor
  · intro hstaged
    obtain ⟨fs', hrun⟩ := hstaged
    have hwalks := walks_of_replayEntry hrun
    obtain ⟨fs₁, fs₂, hstore, htime, hmode⟩ := replayEntry_eq_some.mp hrun
    have hstored := stored_of_storePath hwalks hstore
    obtain ⟨hfolder, hopened⟩ := (exists_storePath hwalks).mp ⟨fs₁, hstore⟩
    obtain ⟨hthere, htimes, hmodes⟩ :=
      (hstored.exists_touched hwalks).mp ⟨fs₂, fs', htime, hmode⟩
    exact ⟨hwalks_kinds.mpr hwalks, hfolder, hopened, hthere, htimes, hmodes⟩
  · intro hcan
    have hwalks := hwalks_kinds.mp hcan.walks
    obtain ⟨fs₁, hstore⟩ := (exists_storePath hwalks).mpr ⟨hcan.folder, hcan.opened⟩
    have hstored := stored_of_storePath hwalks hstore
    obtain ⟨fs₂, fs', htime, hmode⟩ := (hstored.exists_touched hwalks).mpr
      ⟨hcan.unopened, hcan.lastWriteTime, hcan.permissions⟩
    exact ⟨fs', replayEntry_eq_some.mpr ⟨fs₁, fs₂, hstore, htime, hmode⟩⟩

theorem arrives_replayEntry (hrun : replayEntry h.ops fs e = some fs') : Arrives h e fs fs' := by
  obtain ⟨fs₁, fs₂, hstore, htime, hmode⟩ := replayEntry_eq_some.mp hrun
  have hstored := stored_of_storePath (walks_of_replayEntry hrun) hstore
  exact hstored.arrives ((retouches_lastWriteTime _).touched htime)
    ((retouches_permissions _).touched hmode)

/-- The replay comes to its end exactly where the entries can be staged. -/
theorem exists_replay {es : List Entry} :
    (∃ fs', replay h.ops es fs = some fs') ↔ h.Stageable fs.standing es := by
  induction es generalizing fs with
  | nil => exact iff_of_true ⟨fs, rfl⟩ trivial
  | cons e es ih =>
    rw [replay_cons, Host.Stageable, ← exists_replayEntry]
    constructor
    · rintro ⟨fs', hrun⟩
      obtain ⟨fs₁, hentry, hrest⟩ := Option.bind_eq_some_iff.mp hrun
      refine ⟨⟨fs₁, hentry⟩, ?_⟩
      rw [← (arrives_replayEntry hentry).standing]
      exact ih.mp ⟨fs', hrest⟩
    · rintro ⟨⟨fs₁, hentry⟩, hrest⟩
      rw [← (arrives_replayEntry hentry).standing] at hrest
      obtain ⟨fs', hrun⟩ := ih.mpr hrest
      exact ⟨fs', Option.bind_eq_some_iff.mpr ⟨fs₁, hentry, hrun⟩⟩

theorem isDirectory_replay {es : List Entry} (hrun : replay h.ops es fs = some fs') {x : Location}
    (hx : IsDirectory fs.tree x) : IsDirectory fs'.tree x := by
  induction es generalizing fs with
  | nil =>
    rw [replay_nil, Option.some.injEq] at hrun
    rwa [← hrun]
  | cons e es ih =>
    rw [replay_cons] at hrun
    obtain ⟨fs₁, hentry, hrest⟩ := Option.bind_eq_some_iff.mp hrun
    refine ih hrest ?_
    have hafter : IsDirectory (h.after fs.standing e).kinds x :=
      isDirectory_after (isDirectory_kinds.mpr hx)
    rw [← (arrives_replayEntry hentry).standing] at hafter
    exact isDirectory_kinds.mp hafter

end Entries
end BackupManager.Client
