import BackupManager.Client.FileWatcher
import BackupManager.Protocol.RestoreStream

/-! The initial status: what `send_file_hash` of the server writes after a login, taken by
`get_init_file_from_server` of the client. -/
namespace BackupManager.Protocol
open ByteStream Client Server Table

/-- What `send_file_hash` writes for one file. -/
def statusBytes (e : Bytes × Bytes) : Bytes :=
  field intMaxNDigit e.1.length ++ e.1 ++ [newline] ++ field intMaxNDigit e.2.length ++ e.2 ++ [newline]

/-- `send_file_hash`; a zero ends the initialization. -/
def sendFileHash (m : HashMap) : Bytes := m.entries.flatMap statusBytes ++ field intMaxNDigit 0

/-- The map of the client, full path to hash. -/
abbrev InitMap := SortedMap Bytes Bytes

open Prog

section Reading

variable {σ : Type}

/-- At most `n` rounds of the loop of `get_init_file_from_server`. -/
def initRounds (mainPath : Bytes) : ℕ → ℤ → Bytes → Bytes → InitMap → Prog σ InitMap
  | 0, _, _, _, _ => fun s => (.waits, s)
  | n + 1, size, path, hash, initMap =>
    if size = 0 then pure initMap
    else do
      let path ← recvLine (sizeOfInt (intSucc size)) path
      let size ← recvInt intMaxNDigit size
      read (sizeOfInt (intSucc size))
      let hash ← getWord hash
      let initMap := initMap.insert (mainPath ++ path) hash
      let size ← recvInt intMaxNDigit size
      initRounds mainPath n size path hash initMap

/-- `get_init_file_from_server`; every round takes bytes, so there are no more rounds than these. -/
def getInitFileFromServer (mainPath : Bytes) (uninit : ℤ) : Prog σ InitMap := fun s =>
  (do
    let size ← recvInt intMaxNDigit uninit
    initRounds mainPath (s.wire.length + 1) size [] [] .empty) s

end Reading

/-- A file name as `read_action` can have stored it; a text holds at most `1000000000` bytes. -/
structure IsFilename (name : Bytes) : Prop where
  ne_nil : name ≠ []
  line : newline ∉ name
  length : name.length ≤ 1000000000

/-- In either case. -/
def IsHexDigit (b : Byte) : Prop := isDigit b = true ∨ 97 ≤ b ∧ b ≤ 102 ∨ 65 ≤ b ∧ b ≤ 70

theorem isSpace_of_isHexDigit {b : Byte} (h : IsHexDigit b) : isSpace b = false := by
  rcases h with hdigit | hletter
  · exact Istream.isSpace_of_isDigit hdigit
  · have hlarge : 65 ≤ b.toNat := by
      rcases hletter with ⟨hlower, -⟩ | ⟨hupper, -⟩
      · have hlower : 97 ≤ b.toNat := UInt8.le_iff_toNat_le.mp hlower
        omega
      · exact UInt8.le_iff_toNat_le.mp hupper
    simp only [isSpace, Bool.or_eq_false_iff, Bool.and_eq_false_iff, beq_eq_false_iff_ne,
      decide_eq_false_iff_not, UInt8.le_iff_toNat_le, ne_eq, ← UInt8.toNat_inj]
    simp only [UInt8.reduceToNat]
    omega

/-- `dir`, or 64 hex digits. -/
def IsHash (hash : Bytes) : Prop := hash = dirHash ∨ hash.length = 64 ∧ ∀ b ∈ hash, IsHexDigit b

section Rounds

variable {σ : Type} {mainPath : Bytes}

/-- The bytes bound the rounds: more of them change nothing. -/
theorem initRounds_enough {n n' : ℕ} {s : Session σ} (hn : s.wire.length < n) (hn' : s.wire.length < n')
    (size : ℤ) (path hash : Bytes) (initMap : InitMap) :
    initRounds mainPath n size path hash initMap s = initRounds mainPath n' size path hash initMap s := by
  induction n generalizing n' s size path hash initMap with
  | zero => omega
  | succ n ih =>
    obtain ⟨n', rfl⟩ : ∃ k, n' = k + 1 := ⟨n' - 1, by omega⟩
    rw [initRounds, initRounds]
    split
    · rfl
    · refine bind_eq_bind fun path s₁ h₁ => bind_eq_bind fun size s₂ h₂ => bind_eq_bind fun _ s₃ h₃ =>
        bind_eq_bind fun hash s₄ h₄ => bind_eq_bind fun size s₅ h₅ => ?_
      obtain ⟨-, rfl, -⟩ := recvLine_returns h₁
      obtain ⟨hwidth, rfl, -⟩ := recvInt_returns h₂
      obtain ⟨-, rfl⟩ := read_returns h₃
      rw [getWord_apply, Prod.mk.injEq] at h₄
      obtain ⟨-, rfl⟩ := h₄
      obtain ⟨-, rfl, -⟩ := recvInt_returns h₅
      simp only [List.length_drop] at hwidth
      refine ih ?_ ?_ _ _ _ _
      · simp only [List.length_drop]
        omega
      · simp only [List.length_drop]
        omega

end Rounds

section RoundTrip

variable {σ : Type} {mainPath residue wire : Bytes} {closed : Bool} {world : σ}

theorem IsHash.word {hash : Bytes} (h : IsHash hash) :
    hash ≠ [] ∧ (∀ b ∈ hash, isSpace b = false) ∧ hash.length ≤ 64 := by
  rcases h with rfl | ⟨hlength, hdigits⟩
  · decide
  · refine ⟨?_, fun b hb => ?_, hlength.le⟩
    · rintro rfl
      exact absurd hlength (by decide)
    · exact isSpace_of_isHexDigit (hdigits b hb)

/-- The number of bytes of a text that is announced. -/
theorem recvInt_length {n : ℕ} (hn : n ≤ 1000000000) (hr : Blank residue) (old : ℤ) :
    recvInt intMaxNDigit old ⟨field intMaxNDigit n ++ wire, closed, .fresh residue, world⟩ =
      (.returns (n : ℤ), ⟨wire, closed, .fresh [newline], world⟩) := by
  have hint := inInt_natCast (n := n) (by omega)
  exact recvInt_field (fits_of_nonneg hint (by omega)) hint hr old

/-- From the size of an entry on, the loop takes the entries one by one, and ends at the zero. -/
theorem initRounds_apply {entries : List (Bytes × Bytes)}
    (hentries : ∀ e ∈ entries, IsFilename e.1 ∧ IsHash e.2) {n : ℕ} (hn : entries.length < n)
    (hr : Blank residue) (old : ℤ) (path hash : Bytes) (initMap : InitMap) :
    (do
      let size ← recvInt intMaxNDigit old
      initRounds mainPath n size path hash initMap : Prog σ InitMap)
        ⟨entries.flatMap statusBytes ++ (field intMaxNDigit 0 ++ wire), closed, .fresh residue, world⟩ =
      (.returns (initMap.insertList (entries.map fun e => (mainPath ++ e.1, e.2))),
        ⟨wire, closed, .fresh [newline], world⟩) := by
  obtain ⟨n, rfl⟩ : ∃ k, n = k + 1 := ⟨n - 1, by omega⟩
  induction entries generalizing n residue old path hash initMap with
  | nil =>
    rw [List.flatMap_nil, List.nil_append, bind_of_returns (recvInt_field (by decide) (by decide) hr old),
      initRounds, if_pos rfl]
    rfl
  | cons e entries ih =>
    obtain ⟨hname, hhash⟩ := hentries e List.mem_cons_self
    obtain ⟨hne, hspace, hlength⟩ := hhash.word
    have hpos : ¬(e.1.length : ℤ) = 0 := by
      have hlen := List.length_pos_of_ne_nil hname.ne_nil
      omega
    rw [List.length_cons] at hn
    obtain ⟨k, rfl⟩ : ∃ k, n = k + 1 := ⟨n - 1, by omega⟩
    have hbytes : (e :: entries).flatMap statusBytes ++ (field intMaxNDigit 0 ++ wire) =
        field intMaxNDigit e.1.length ++ (e.1 ++ newline :: (field intMaxNDigit e.2.length ++
          ((e.2 ++ [newline]) ++ (entries.flatMap statusBytes ++ (field intMaxNDigit 0 ++ wire))))) := by
      simp [statusBytes]
    have hread := read_append (e.2 ++ [newline])
      (entries.flatMap statusBytes ++ (field intMaxNDigit 0 ++ wire)) closed (.fresh [newline]) world
    rw [List.length_append, List.length_singleton] at hread
    have hword := @Istream.getWord_fresh e.2 [] hne hspace [newline] Blank.newline hash
    rw [hbytes, bind_of_returns (recvInt_length hname.length hr old), initRounds, if_neg hpos,
      bind_of_returns (recvLine_field (sizeOfInt_intSucc (by have := hname.length; omega)) hname.line path),
      bind_of_returns (recvInt_length (hlength.trans (by decide)) Blank.nil _),
      sizeOfInt_intSucc (by omega), bind_of_returns hread, bind_of_returns (getWord_apply _ _)]
    simp only [Istream.receive_fresh]
    rw [← List.append_assoc, hword]
    have hrest := ih (fun e he => hentries e (List.mem_cons_of_mem _ he)) Blank.newline
      (e.2.length : ℤ) e.1 e.2 (initMap.insert (mainPath ++ e.1) e.2) k (by omega)
    exact hrest

theorem length_le_flatMap (entries : List (Bytes × Bytes)) :
    entries.length ≤ (entries.flatMap statusBytes).length := by
  induction entries with
  | nil => simp
  | cons e entries ih =>
    rw [List.flatMap_cons, List.length_append, List.length_cons]
    simp only [statusBytes, List.length_append, List.length_singleton]
    omega

/-- The keys stay in order below the main path. -/
theorem sorted_below (m : HashMap) (mainPath : Bytes) :
    ((m.entries.map fun e => (mainPath ++ e.1, e.2)).map Prod.fst).Pairwise (· < ·) := by
  rw [List.map_map, List.pairwise_map]
  exact (List.pairwise_map.mp m.sorted).imp fun h => List.append_left_lt h

end RoundTrip

/-- The client gets exactly the map of the server, under its own main path, and the next response is
read from its first byte on. -/
theorem initial_status {σ : Type} (m : HashMap) (hm : ∀ e ∈ m.entries, IsFilename e.1 ∧ IsHash e.2)
    (mainPath : Bytes) (uninit : ℤ) (wire : Bytes) (closed : Bool) (world : σ) :
    ∃ (initMap : InitMap) (s : Session σ),
      getInitFileFromServer mainPath uninit
        ⟨sendFileHash m ++ wire, closed, .fresh [newline], world⟩ = (.returns initMap, s) ∧
      initMap.entries = m.entries.map (fun e => (mainPath ++ e.1, e.2)) ∧
      s = ⟨wire, closed, .fresh [newline], world⟩ ∧
      ∀ (index : ℤ) (status : ActionStatus) (rest : Bytes) (old old' : ℤ), 0 ≤ index → InInt index →
        wire = responseBytes index status ++ rest →
        (do
          let index ← recvInt intMaxNDigit old
          let status ← recvInt intMaxNDigit old'
          pure (index, status) : Prog σ (ℤ × ℤ)) s =
            (.returns (index, status.code), ⟨rest, closed, .fresh [newline], world⟩) := by
  refine ⟨SortedMap.empty.insertList (m.entries.map fun e => (mainPath ++ e.1, e.2)), _, ?_,
    SortedMap.insertList_empty (sorted_below m mainPath), rfl, ?_⟩
  · unfold getInitFileFromServer
    have hbytes : sendFileHash m ++ wire =
        m.entries.flatMap statusBytes ++ (field intMaxNDigit 0 ++ wire) := by
      rw [sendFileHash, List.append_assoc]
    have hlength := length_le_flatMap m.entries
    rw [hbytes]
    apply initRounds_apply hm ?_ Blank.newline
    simp only [List.length_append]
    omega
  · rintro index status rest old old' hpos hint rfl
    have hcode : status.code ≤ 1000000000 := by cases status <;> decide
    rw [responseBytes, List.append_assoc,
      bind_of_returns (recvInt_field (fits_of_nonneg hint hpos) hint Blank.newline old),
      bind_of_returns (recvInt_length hcode Blank.newline old')]
    rfl

/-- It is the initial status that the watcher starts from. -/
theorem find?_eq_initialStatus {m : HashMap} {initMap : InitMap} {mainPath : Bytes}
    (h : initMap.entries = m.entries.map fun e => (mainPath ++ e.1, e.2)) (p : Bytes) :
    initMap.find? p = initialStatus mainPath m p := by
  unfold SortedMap.find? initialStatus
  rw [h, List.find?_map, Option.map_map]
  refine congrArg (Option.map Prod.snd) (congrFun (congrArg List.find? ?_) m.entries)
  funext e
  simp

/-- A folder `/d` and a file whose name starts with a blank and a digit. -/
def sampleStatus : HashMap :=
  (SortedMap.empty.insert [47, 100] dirHash).insert [47, 100, 47, 32, 49] (List.replicate 64 102)

theorem initial_status_sample :
    ∃ (initMap : InitMap) (s : Session Unit),
      getInitFileFromServer [47, 109] 0 ⟨sendFileHash sampleStatus ++ [], true, .fresh [newline], ()⟩ =
        (.returns initMap, s) ∧ initMap.keys = [[47, 109, 47, 100], [47, 109, 47, 100, 47, 32, 49]] := by
  have hm : ∀ e ∈ sampleStatus.entries, IsFilename e.1 ∧ IsHash e.2 := by
    intro e he
    have hentries : sampleStatus.entries =
        [([47, 100], dirHash), ([47, 100, 47, 32, 49], List.replicate 64 102)] := by decide
    rw [hentries] at he
    rcases List.mem_cons.mp he with rfl | he
    · exact ⟨⟨by decide, by decide, by decide⟩, Or.inl rfl⟩
    · obtain rfl := List.mem_singleton.mp he
      refine ⟨⟨by decide, by decide, by decide⟩, Or.inr ⟨by decide, fun b hb => ?_⟩⟩
      obtain rfl := List.eq_of_mem_replicate hb
      exact Or.inr (Or.inl ⟨by decide, by decide⟩)
  obtain ⟨initMap, s, hrun, hentries, -, -⟩ := initial_status sampleStatus hm [47, 109] 0 [] true ()
  refine ⟨initMap, s, hrun, ?_⟩
  rw [SortedMap.keys, hentries]
  decide

end BackupManager.Protocol
