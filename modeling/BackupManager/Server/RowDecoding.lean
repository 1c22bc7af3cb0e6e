import Mathlib.Algebra.Order.BigOperators.Group.List
import Mathlib.Data.Set.List
import BackupManager.Digest.Streaming
import BackupManager.Server.Columns
import BackupManager.Server.History
import BackupManager.Server.ClientHandler

/-! `getRestoreEntries` as the inverse of `addAction`: which stored rows it gives back. -/
namespace BackupManager.Server
open ByteStream Digest Protocol Table

/-- The answer of a statement that delivered all of its rows. -/
def complete {ρ : Type} (rows : List ρ) : List (Step ρ) := rows.map .row ++ [.done]

/-- The loop looks at rows only: whatever other code ends them, it returns. -/
theorem stepLoop_rows {ρ M : Type} (body : M → ρ → Except String M) (m : M) (rows : List ρ)
    {last : Step ρ} (hlast : ∀ r, last ≠ .row r) :
    stepLoop body m (rows.map .row ++ [last]) = rows.foldlM body m := by
  induction rows generalizing m with
  | nil =>
    cases last with
    | row r => exact absurd rfl (hlast r)
    | done => rfl
    | error code => rfl
  | cons r rows ih =>
    rw [List.map_cons, List.cons_append, stepLoop, List.foldlM_cons]
    cases body m r with
    | error what => rfl
    | ok m' => exact ih m'

/-- The map after inserting the files one by one. -/
def insertAll (m : RestoreMap) (files : List File) : RestoreMap :=
  m.insertList (files.map fun f => (f.filename, f))

/-- The query returns exactly when every row decodes, and then with every file inserted. -/
theorem getRestoreEntries_rows {rows : List Row} {last : Step Row} (hlast : ∀ r, last ≠ .row r)
    {m : RestoreMap} :
    getRestoreEntries (rows.map .row ++ [last]) = .ok m ↔
      ∃ files : List File, rows.map restoreFile = files.map .ok ∧ m = insertAll .empty files := by
  rw [getRestoreEntries, stepLoop_rows _ _ _ hlast]
  generalize (SortedMap.empty : RestoreMap) = m₀
  induction rows generalizing m₀ with
  | nil =>
    constructor
    · intro h
      exact ⟨[], rfl, (Except.ok.inj h).symm⟩
    · intro h
      obtain ⟨files, hfiles, rfl⟩ := h
      have hnil : files = [] := List.map_eq_nil_iff.mp hfiles.symm
      rw [hnil]
      rfl
  | cons r rows ih =>
    rw [List.foldlM_cons, List.map_cons]
    cases hr : restoreFile r with
    | error what =>
      constructor
      · intro h
        exact absurd h (by simp [bind, Except.bind])
      · intro h
        obtain ⟨files, hfiles, -⟩ := h
        cases files with
        | nil => exact absurd hfiles (by simp)
        | cons f files => exact absurd (List.cons.inj hfiles).1 (by simp)
    | ok f =>
      refine (ih (m₀.insert f.filename f)).trans ?_
      constructor
      · intro h
        obtain ⟨files, hfiles, hm⟩ := h
        exact ⟨f :: files, by rw [hfiles, List.map_cons], hm⟩
      · intro h
        obtain ⟨files, hfiles, hm⟩ := h
        cases files with
        | nil => exact absurd hfiles (by simp)
        | cons f' files =>
          obtain ⟨hf, hrest⟩ := List.cons.inj hfiles
          rw [← Except.ok.inj hf] at hm
          exact ⟨files, hrest, hm⟩

/-- Files that come in the order of their names are kept as they come. -/
theorem insertAll_empty {files : List File}
    (hsorted : (files.map File.filename).Pairwise (· < ·)) :
    (insertAll .empty files).entries = files.map (fun f => (f.filename, f)) :=
  SortedMap.insertList_empty (by rw [List.map_map]; exact hsorted)

/-- Every entry stands under the name of its file. -/
theorem mem_entries_insertAll {files : List File} {k : Bytes} {f : File}
    (h : (k, f) ∈ (insertAll .empty files).entries) : k = f.filename ∧ f ∈ files := by
  rcases SortedMap.mem_entries_insertList h with hempty | hmem
  · exact absurd hempty (by simp [SortedMap.empty])
  · obtain ⟨f', hf', heq⟩ := List.mem_map.mp hmem
    rw [← (Prod.mk.inj heq).1, ← (Prod.mk.inj heq).2]
    exact ⟨rfl, hf'⟩

/-- The list of names is kept by shortening its members only when no member is shortened. -/
theorem length_of_subset_map {names : List Bytes} {cut : Bytes → Bytes} (hnodup : names.Nodup)
    (hcut : ∀ x, (cut x).length ≤ x.length) (hsub : names ⊆ names.map cut) :
    ∀ x ∈ names, (cut x).length = x.length := by
  have hperm : names.Perm (names.map cut) :=
    (List.subperm_of_subset hnodup hsub).perm_of_length_le (by simp)
  have hsum : (names.map List.length).sum = (names.map fun x => (cut x).length).sum := by
    have h := (hperm.map List.length).sum_nat
    rwa [List.map_map] at h
  intro x hx
  by_contra hne
  have hlt := List.sum_lt_sum (fun x => (cut x).length) List.length (fun y _ => hcut y)
    ⟨x, hx, lt_of_le_of_ne (hcut x) hne⟩
  exact absurd hsum (ne_of_gt hlt)

/-- What the client sent for one path, as far as its row depends on it. -/
structure Request where
  filename : Bytes
  utf8 : ∃ n, Utf8 filename n
  timestamp : Bytes
  /-- The bytes of a file; `none` for a folder. -/
  content : Option Bytes
  /-- The size of a file is an `int`. -/
  small : ∀ bytes ∈ content, (bytes.length : ℤ) ≤ Istream.intMax
  lastWriteTime : ℤ
  permissions : ℤ
  mode : 0 ≤ permissions ∧ permissions ≤ 0xFFFF

/-- The call that the handler makes for the request. -/
def Request.call (hash : Bytes → Bytes) (r : Request) : AddAction :=
  match r.content with
  | some content => readFileCall hash r.filename r.timestamp (showInt r.lastWriteTime)
      (showInt r.permissions) content content.length
  | none => createFolderCall r.filename r.timestamp (showInt r.lastWriteTime) (showInt r.permissions)

/-- The entry the request should come back as. -/
def Request.file (r : Request) : File :=
  match r.content with
  | some content => ⟨content.length, 0, r.filename, content, r.lastWriteTime, r.permissions⟩
  | none => ⟨0, 1, r.filename, [], r.lastWriteTime, r.permissions⟩

/-- The text of a SHA-256 digest: 64 hexadecimal digits. -/
def IsDigest (text : Bytes) : Prop :=
  text.length = 64 ∧ ∀ b ∈ text, isDigit b = true ∨ 97 ≤ b ∧ b ≤ 102

theorem IsDigest.not_mem_zero {text : Bytes} (h : IsDigest text) : 0 ∉ text := by
  intro h0
  rcases h.2 0 h0 with hd | hd
  · exact absurd hd (by decide)
  · exact absurd hd.1 (by decide)

theorem IsDigest.cString {text : Bytes} (h : IsDigest text) : cString text = text :=
  cString_of_not_mem h.not_mem_zero

theorem IsDigest.ne_dirHash {text : Bytes} (h : IsDigest text) : text ≠ dirHash := by
  intro hdir
  have hlen := h.1
  rw [hdir] at hlen
  exact absurd hlen (by decide)

section Requests

variable {hash : Bytes → Bytes} (hhash : ∀ content, IsDigest (hash content))
variable {requests : List Request} {date : Bytes}

@[simp] theorem Request.call_filename (r : Request) : (r.call hash).filename = r.filename := by
  unfold call
  split <;> rfl

theorem Request.call_action (r : Request) : (r.call hash).action ≠ .deletePath := by
  unfold call
  split <;> simp [readFileCall, createFolderCall]

theorem Request.file_filename (r : Request) : r.file.filename = r.filename := by
  unfold file
  split <;> rfl

include hhash in
/-- How one stored row decodes: the name is cut to its number of characters, and a time outside
the range of an `int` throws. -/
theorem restoreFile_request (r : Request) :
    restoreFile (r.call hash).row =
      if InInt r.lastWriteTime then
        .ok { r.file with filename := r.filename.take (sqliteLength r.filename) }
      else .error "stoi" := by
  have hmode : InInt r.permissions :=
    ⟨le_trans (by decide) r.mode.1, le_trans r.mode.2 (by decide)⟩
  have hdir : cString dirHash = dirHash := by decide
  by_cases ht : InInt r.lastWriteTime
  · rw [if_pos ht]
    unfold Request.call Request.file
    cases r.content with
    | none =>
      simp [restoreFile, createFolderCall, AddAction.row, stoi_showInt, ht, hmode, hdir, pure,
        Except.pure]
    | some content =>
      simp [restoreFile, readFileCall, AddAction.row, AddAction.Sized, stoi_showInt, ht, hmode,
        (hhash content).cString, (hhash content).ne_dirHash, pure, Except.pure, bind, Except.bind]
  · rw [if_neg ht]
    unfold Request.call
    cases r.content with
    | none => simp [restoreFile, createFolderCall, AddAction.row, stoi_showInt, ht, throw,
        throwThe, MonadExceptOf.throw]
    | some content => simp [restoreFile, readFileCall, AddAction.row, AddAction.Sized, stoi_showInt, ht, throw,
        throwThe, MonadExceptOf.throw]

/-- The request is the one that decides its path at the date. -/
def Latest (hash : Bytes → Bytes) (requests : List Request) (date : Bytes) (r : Request) : Prop :=
  r ∈ requests ∧
    lastCall (requests.map (Request.call hash)) (fun t => decide (t ≤ date)) r.filename =
      some (r.call hash)

theorem mem_select_iff_latest {table : UserTable}
    (h : addActions .empty (requests.map (Request.call hash)) = some table) (row : Row) :
    row ∈ selectRestore table .deletePath date ↔
      ∃ r, Latest hash requests date r ∧ row = (r.call hash).row := by
  rw [mem_selectRestore_iff h]
  constructor
  · intro hrow
    obtain ⟨c, hc, -, hrow⟩ := hrow
    obtain ⟨hmem, hname⟩ := mem_of_lastCall hc
    obtain ⟨r, hr, rfl⟩ := List.mem_map.mp hmem
    rw [← hname, Request.call_filename] at hc
    exact ⟨r, ⟨hr, hc⟩, hrow⟩
  · intro hrow
    obtain ⟨r, hr, rfl⟩ := hrow
    have hname : (r.call hash).row.filename = r.filename := r.call_filename
    rw [hname]
    exact ⟨r.call hash, hr.2, r.call_action, rfl⟩

/-- The restore of the date gives back the latest request of each path, and nothing else. -/
def GivesBack (hash : Bytes → Bytes) (requests : List Request) (date : Bytes)
    (steps : List (Step Row)) : Prop :=
  ∃ m, getRestoreEntries steps = .ok m ∧
    ∀ k f, (k, f) ∈ m.entries ↔ ∃ r, Latest hash requests date r ∧ k = r.filename ∧ f = r.file

theorem done_ne_row {ρ : Type} (r : ρ) : Step.done ≠ .row r := by simp

section GivesBack

variable {table : UserTable} (h : addActions .empty (requests.map (Request.call hash)) = some table)

include hhash h

theorem files_decoded {files : List File}
    (hfiles : (selectRestore table .deletePath date).map restoreFile = files.map .ok) (f : File) :
    f ∈ files ↔ ∃ r, Latest hash requests date r ∧ InInt r.lastWriteTime ∧
      f = { r.file with filename := r.filename.take (sqliteLength r.filename) } := by
  have hmem : f ∈ files ↔ .ok f ∈ (selectRestore table .deletePath date).map restoreFile := by
    rw [hfiles, List.mem_map]
    simp
  rw [hmem, List.mem_map]
  constructor
  · intro hf
    obtain ⟨row, hrow, hf⟩ := hf
    obtain ⟨r, hr, rfl⟩ := (mem_select_iff_latest h _).mp hrow
    rw [restoreFile_request hhash] at hf
    split at hf
    · next ht => exact ⟨r, hr, ht, (Except.ok.inj hf).symm⟩
    · exact absurd hf (by simp)
  · intro hf
    obtain ⟨r, hr, ht, rfl⟩ := hf
    refine ⟨_, (mem_select_iff_latest h _).mpr ⟨r, hr, rfl⟩, ?_⟩
    rw [restoreFile_request hhash, if_pos ht]

/-- A time outside the range of an `int` leaves no answer. -/
theorem inInt_of_givesBack
    (hback : GivesBack hash requests date (complete (selectRestore table .deletePath date)))
    {r : Request} (hr : Latest hash requests date r) : InInt r.lastWriteTime := by
  obtain ⟨m, hm, -⟩ := hback
  obtain ⟨files, hfiles, -⟩ := (getRestoreEntries_rows done_ne_row).mp hm
  have hrow := (mem_select_iff_latest h _).mpr ⟨r, hr, rfl⟩
  have hmem := List.mem_map_of_mem (f := restoreFile) hrow
  by_contra ht
  rw [hfiles, restoreFile_request hhash, if_neg ht] at hmem
  exact absurd hmem (by simp)

/-- No name is shortened: the names that come back are as many as the names that were stored. -/
theorem plain_of_givesBack
    (hback : GivesBack hash requests date (complete (selectRestore table .deletePath date)))
    {r : Request} (hr : Latest hash requests date r) : PlainAscii r.filename := by
  obtain ⟨m, hm, hentries⟩ := hback
  obtain ⟨files, hfiles, rfl⟩ := (getRestoreEntries_rows done_ne_row).mp hm
  have hname : ∀ {r : Request}, Latest hash requests date r →
      r.filename ∈ (selectRestore table .deletePath date).map Row.filename := by
    intro r hr
    have hrow := (mem_select_iff_latest h _).mpr ⟨r, hr, rfl⟩
    exact List.mem_map.mpr ⟨_, hrow, r.call_filename⟩
  have hsub : (selectRestore table .deletePath date).map Row.filename ⊆
      ((selectRestore table .deletePath date).map Row.filename).map
        (fun name => name.take (sqliteLength name)) := by
    intro k hk
    obtain ⟨row, hrow, rfl⟩ := List.mem_map.mp hk
    obtain ⟨r, hr, rfl⟩ := (mem_select_iff_latest h _).mp hrow
    obtain ⟨hkey, hfile⟩ := mem_entries_insertAll ((hentries _ _).mpr ⟨r, hr, rfl, rfl⟩)
    obtain ⟨r', hr', -, hcut⟩ := (files_decoded hhash h hfiles _).mp hfile
    have hcut' : r.file.filename = r'.filename.take (sqliteLength r'.filename) := by rw [hcut]
    exact List.mem_map.mpr ⟨r'.filename, hname hr',
      hcut'.symm.trans (hkey.symm.trans r.call_filename.symm)⟩
  have hnodup : ((selectRestore table .deletePath date).map Row.filename).Nodup :=
    (selectRestore_sorted table _ date).imp ne_of_lt
  have hlen := length_of_subset_map hnodup
    (fun name => (List.take_sublist _ name).length_le) hsub r.filename (hname hr)
  obtain ⟨n, hutf8⟩ := r.utf8
  rw [List.length_take] at hlen
  exact plain_of_length_le hutf8 (by omega)

theorem givesBack_of_plain
    (hplain : ∀ r, Latest hash requests date r → PlainAscii r.filename ∧ InInt r.lastWriteTime) :
    GivesBack hash requests date (complete (selectRestore table .deletePath date)) := by
  have hdecode : ∀ {r : Request}, Latest hash requests date r →
      restoreFile (r.call hash).row = .ok r.file := by
    intro r hr
    rw [restoreFile_request hhash, if_pos (hplain r hr).2, sqliteLength_of_plain (hplain r hr).1,
      List.take_length, ← r.file_filename]
  have hrange : (selectRestore table .deletePath date).map restoreFile ∈
      Set.range (List.map Except.ok) := by
    rw [Set.range_list_map]
    intro e he
    obtain ⟨row, hrow, rfl⟩ := List.mem_map.mp he
    obtain ⟨r, hr, rfl⟩ := (mem_select_iff_latest h _).mp hrow
    exact ⟨r.file, (hdecode hr).symm⟩
  obtain ⟨files, hfiles⟩ := hrange
  have hnames : files.map File.filename =
      (selectRestore table .deletePath date).map Row.filename := by
    have hsome := congrArg (List.map fun e : Except String File => e.toOption.map File.filename)
      hfiles
    rw [List.map_map, List.map_map] at hsome
    refine List.map_injective_iff.mpr (Option.some_injective Bytes) ?_
    rw [List.map_map, List.map_map]
    refine hsome.trans (List.map_congr_left fun row hrow => ?_)
    obtain ⟨r, hr, rfl⟩ := (mem_select_iff_latest h _).mp hrow
    rw [Function.comp_apply, hdecode hr, Function.comp_apply]
    exact congrArg some (r.file_filename.trans r.call_filename.symm)
  have hsorted : (files.map File.filename).Pairwise (· < ·) := by
    rw [hnames]
    exact selectRestore_sorted table _ date
  refine ⟨insertAll .empty files, (getRestoreEntries_rows done_ne_row).mpr
    ⟨files, hfiles.symm, rfl⟩, fun k f => ?_⟩
  rw [insertAll_empty hsorted, List.mem_map]
  constructor
  · intro hf
    obtain ⟨f', hf', heq⟩ := hf
    obtain ⟨r, hr, -, hcut⟩ := (files_decoded hhash h hfiles.symm f').mp hf'
    rw [sqliteLength_of_plain (hplain r hr).1, List.take_length, ← r.file_filename] at hcut
    obtain ⟨hk, rfl⟩ := Prod.mk.inj heq
    exact ⟨r, hr, by rw [← hk, hcut, r.file_filename], hcut⟩
  · intro hf
    obtain ⟨r, hr, rfl, rfl⟩ := hf
    have hmem := (files_decoded hhash h hfiles.symm r.file).mpr ⟨r, hr, (hplain r hr).2, by
      rw [sqliteLength_of_plain (hplain r hr).1, List.take_length, ← r.file_filename]⟩
    exact ⟨r.file, hmem, by rw [r.file_filename]⟩

end GivesBack
end Requests

/-- `getRestoreEntries` undoes `addAction` exactly when every name is plain ASCII and every time
fits an `int`. -/
theorem row_decoding {hash : Bytes → Bytes} (hhash : ∀ content, IsDigest (hash content))
    (requests : List Request) (date : Bytes) :
    ∃ table, addActions .empty (requests.map (Request.call hash)) = some table ∧
      (GivesBack hash requests date (complete (selectRestore table .deletePath date)) ↔
        ∀ r, Latest hash requests date r → PlainAscii r.filename ∧ InInt r.lastWriteTime) := by
  obtain ⟨table, h, -⟩ := addActions_rows (requests.map (Request.call hash)) .empty
  refine ⟨table, h, ?_, ?_⟩
  · intro hback r hr
    exact ⟨plain_of_givesBack hhash h hback hr, inInt_of_givesBack hhash h hback hr⟩
  · exact givesBack_of_plain hhash h

theorem isDigest_shortDigest (content : Bytes) : IsDigest (shortDigest content) := by
  constructor
  · exact length_shortDigest content
  · intro b hb
    exact of_mem_hexText hb

/-- The file `a` of 2024-05-01. -/
def plainRequest : Request where
  filename := [97]
  utf8 := ⟨1, .one (by decide) .nil⟩
  timestamp := [50, 48, 50, 52, 45, 48, 53, 45, 48, 49]
  content := some [104, 105]
  small := by decide
  lastWriteTime := 1714521600
  permissions := 420
  mode := by decide

/-- The file `é` of the same day. -/
def accentedRequest : Request :=
  { plainRequest with
    filename := [0xC3, 0xA9]
    utf8 := ⟨1, .two (by decide) (by decide) (by decide) .nil⟩ }

theorem row_decoding_plain :
    ∃ table, addActions .empty ([plainRequest].map (Request.call shortDigest)) = some table ∧
      GivesBack shortDigest [plainRequest] plainRequest.timestamp
        (complete (selectRestore table .deletePath plainRequest.timestamp)) := by
  obtain ⟨table, h, hiff⟩ := row_decoding isDigest_shortDigest [plainRequest] plainRequest.timestamp
  refine ⟨table, h, hiff.mpr fun r hr => ?_⟩
  have hr : r = plainRequest := List.mem_singleton.mp hr.1
  rw [hr]
  constructor
  · decide
  · decide

/-- The two bytes of `é` are one character, so half of the name comes back. -/
theorem row_decoding_accented :
    ∃ table, addActions .empty ([accentedRequest].map (Request.call shortDigest)) = some table ∧
      ¬GivesBack shortDigest [accentedRequest] accentedRequest.timestamp
        (complete (selectRestore table .deletePath accentedRequest.timestamp)) := by
  obtain ⟨table, h, -⟩ := addActions_rows ([accentedRequest].map (Request.call shortDigest)) .empty
  refine ⟨table, h, fun hback => ?_⟩
  have hlatest : Latest shortDigest [accentedRequest] accentedRequest.timestamp accentedRequest :=
    ⟨by simp, by decide⟩
  have hplain := plain_of_givesBack isDigest_shortDigest h hback hlatest
  exact absurd hplain (by decide)

end BackupManager.Server
