import BackupManager.Protocol.RequestDiscipline
import BackupManager.Server.History

/-! The times and permissions in the table: whose they are, once `send_action`, `read_action` and
`addAction` have handed them on. -/
namespace BackupManager.Protocol
open ByteStream Client Server Table

/-- The calls of `addAction` in a trace. -/
def storeCalls (trace : List Effect) : List AddAction :=
  trace.filterMap fun
    | .addAction c => some c
    | _ => none

/-- Whatever the table holds, the call leaves a row of this path with this time and these
permissions. -/
def Leaves (c : AddAction) (filename lastWriteTime permissions : Bytes) : Prop :=
  ∀ table table', addAction table c = some table' → ∃ r ∈ table'.rows, r.filename = filename ∧
    r.timestamp = c.timestamp ∧ r.lastWriteTime = lastWriteTime ∧ r.permissions = permissions

/-- The row of the action has the time and the permissions that its own path had when it was
sent. -/
def CarriesOwn (mainPath : Bytes) (x : Disk × Action) (c : AddAction) : Prop :=
  ∀ t ∈ x.1.lastWriteTime x.2.path, ∀ p ∈ x.1.permissions x.2.path,
    Leaves c (x.2.path.drop mainPath.length) (showInt t) (decimal p)

/-- The actions that are written. -/
def writtenOf (actions : List (Disk × Action)) : List (Disk × Action) :=
  actions.filter fun x => IsWritten x.1 x.2

/-- A session stores every action with the metadata of its own path. -/
def StoresOwn (b : Backend) (default : Action) (mainPath : Bytes) (responses : ResponseBuffer)
    (actions : List (Disk × Action)) (residue : Bytes) (closed : Bool) : Prop :=
  ∃ v s', readActions b ((writtenOf actions).length + 1)
      ⟨(sendActions default mainPath responses actions).writes.flatten, closed, .fresh residue, []⟩ =
        (.returns v, s') ∧
    List.Forall₂ (CarriesOwn mainPath) (writtenOf actions) (storeCalls s'.world)

/-- The metadata of the path are those of the main path. -/
def SharesMetadata (mainPath : Bytes) (x : Disk × Action) : Prop :=
  ∀ t ∈ x.1.lastWriteTime x.2.path, ∀ p ∈ x.1.permissions x.2.path,
    x.1.lastWriteTime mainPath = some t ∧ x.1.permissions mainPath = some p

section Rows

variable {c : AddAction} {filename lastWriteTime permissions : Bytes}

/-- One call leaves exactly what it binds. -/
theorem leaves_iff : Leaves c filename lastWriteTime permissions ↔
    c.filename = filename ∧ c.lastWriteTime = lastWriteTime ∧ c.permissions = permissions := by
  constructor
  · intro hleaves
    obtain ⟨table', htable⟩ := Option.isSome_iff_exists.mp (addAction_isSome .empty c)
    obtain ⟨r, hr, hname, -, htime, hmode⟩ := hleaves .empty table' htable
    rw [addAction_rows htable, mem_upsert] at hr
    rcases hr with rfl | ⟨hempty, -⟩
    · exact ⟨hname, htime, hmode⟩
    · exact absurd hempty List.not_mem_nil
  · rintro ⟨rfl, rfl, rfl⟩ table table' htable
    refine ⟨c.row, ?_, rfl, rfl, rfl, rfl⟩
    rw [addAction_rows htable]
    exact mem_upsert.mpr (Or.inl rfl)

end Rows

theorem decimal_injective {n m : ℕ} (h : decimal n = decimal m) : n = m := by
  rw [← evalDigits_decimal n, h, evalDigits_decimal]

theorem showInt_injective {z w : ℤ} (h : showInt z = showInt w) : z = w := by
  have hhead : ∀ n : ℕ, minusSign ∉ decimal n := by
    intro n hn
    exact absurd (isDigit_of_mem_decimal _ _ hn) (by decide)
  unfold showInt at h
  split at h
  · split at h
    · have habs := decimal_injective (List.cons.inj h).2
      omega
    · exact absurd (h ▸ List.mem_cons_self) (hhead _)
  · split at h
    · exact absurd (h.symm ▸ List.mem_cons_self) (hhead _)
    · have habs := decimal_injective h
      omega

section Sending

variable {default : Action} {mainPath : Bytes} {responses : ResponseBuffer}
  {actions : List (Disk × Action)}

theorem writtenOf_cons (disk : Disk) (action : Action) :
    writtenOf ((disk, action) :: actions) =
      if IsWritten disk action then (disk, action) :: writtenOf actions else writtenOf actions := by
  simp [writtenOf, List.filter_cons]

/-- Every action that is written becomes one upload. -/
theorem uploadsOf_written (mainPath : Bytes) (actions : List (Disk × Action)) (index : ℤ) :
    List.Forall₂ (fun x u => ∃ index, u = uploadOf mainPath x.1 x.2 index) (writtenOf actions)
      (uploadsOf mainPath index actions) := by
  induction actions generalizing index with
  | nil => exact .nil
  | cons x actions ih =>
    obtain ⟨disk, action⟩ := x
    rw [uploadsOf, writtenOf_cons]
    split
    · exact .cons ⟨index, rfl⟩ (ih _)
    · exact ih _

/-- What `send_action` has read before it writes. -/
theorem stat_of_written (hpath : ∀ x ∈ actions, OnPath mainPath x.2)
    (hkind : ∀ x ∈ actions, x.2.actionType = .createFolder ∨ x.2.actionType = .readFile)
    (hsent : (sendActions default mainPath responses actions).thrown = none) :
    ∀ x ∈ writtenOf actions, (x.1.lastWriteTime mainPath).isSome ∧
      (x.1.permissions mainPath).isSome := by
  induction actions generalizing responses with
  | nil => simp [writtenOf]
  | cons x actions ih =>
    obtain ⟨disk, action⟩ := x
    unfold sendActions at hsent
    dsimp only at hsent
    split at hsent
    · exact absurd hsent (by simp)
    · next hnone =>
      intro y hy
      rw [writtenOf, List.mem_filter, List.mem_cons] at hy
      obtain ⟨rfl | hy, hw⟩ := hy
      · rcases sendAction_cases default mainPath responses disk action with h | h
        · exact absurd (of_decide_eq_true hw) (h.2.1 hnone)
        · obtain ⟨-, -, message, hmessage, -⟩ := h
          have hp := hpath (disk, action) List.mem_cons_self
          obtain ⟨rest, hrest⟩ := hp.1
          unfold describe at hmessage
          rw [if_neg hp.2.1, ← hrest, erasePart_append] at hmessage
          dsimp only at hmessage
          rw [if_pos (hkind (disk, action) List.mem_cons_self)] at hmessage
          split at hmessage
          · next t p ht hmode => simp [ht, hmode]
          · exact absurd hmessage (by simp [throw, throwThe, MonadExceptOf.throw])
      · exact ih (fun z hz => hpath z (List.mem_cons_of_mem _ hz))
          (fun z hz => hkind z (List.mem_cons_of_mem _ hz)) hsent y
          (List.mem_filter.mpr ⟨hy, hw⟩)

/-- The call that an upload becomes leaves the metadata of the main path. -/
theorem carriesOwn_iff {x : Disk × Action} {index : ℤ} {time : Bytes} {hash : Bytes → Bytes}
    (hkind : x.2.actionType = .createFolder ∨ x.2.actionType = .readFile)
    (hstat : (x.1.lastWriteTime mainPath).isSome ∧ (x.1.permissions mainPath).isSome) :
    CarriesOwn mainPath x ((uploadOf mainPath x.1 x.2 index).call hash time) ↔
      SharesMetadata mainPath x := by
  obtain ⟨t, ht⟩ := Option.isSome_iff_exists.mp hstat.1
  obtain ⟨p, hp⟩ := Option.isSome_iff_exists.mp hstat.2
  have hne : x.2.actionType ≠ .deletePath := by
    rcases hkind with h | h <;> simp [h]
  have hcall : ((uploadOf mainPath x.1 x.2 index).call hash time).filename =
        x.2.path.drop mainPath.length ∧
      ((uploadOf mainPath x.1 x.2 index).call hash time).lastWriteTime = showInt t ∧
      ((uploadOf mainPath x.1 x.2 index).call hash time).permissions = decimal p := by
    unfold Upload.call uploadOf
    rw [ht, hp, if_neg hne, if_neg hne]
    rcases hkind with h | h <;> (rw [h]; exact ⟨rfl, rfl, rfl⟩)
  unfold CarriesOwn SharesMetadata
  simp only [leaves_iff, hcall, true_and, ht, hp, Option.some.injEq]
  constructor
  · intro h t' ht' p' hp'
    obtain ⟨htime, hmode⟩ := h t' ht' p' hp'
    exact ⟨showInt_injective htime, decimal_injective hmode⟩
  · intro h t' ht' p' hp'
    obtain ⟨htime, hmode⟩ := h t' ht' p' hp'
    exact ⟨by rw [htime], by rw [hmode]⟩

/-- The calls that served uploads have made. -/
theorem storeCalls_served {b : Backend} {before effects : List Effect} {uploads : List Upload}
    (hall : AllServed b before (uploads.map .store) effects) :
    List.Forall₂ (fun u c => ∃ time, c = u.call b.hash time) uploads (storeCalls effects) := by
  induction uploads generalizing before effects with
  | nil =>
    cases hall
    exact .nil
  | cons u uploads ih =>
    cases hall with
    | cons hserved hrest =>
      have hlater := ih hrest
      cases hserved with
      | stored h => exact .cons ⟨_, rfl⟩ hlater
      | notStored h => exact .cons ⟨_, rfl⟩ hlater

variable (b : Backend) (closed : Bool) {residue : Bytes}

/-- A session whose messages arrive as they were written makes the calls of its uploads. -/
theorem storeCalls_session (hpath : ∀ x ∈ actions, OnPath mainPath x.2)
    (hsent : (sendActions default mainPath responses actions).thrown = none)
    (ht : ∀ u ∈ uploadsOf mainPath responses.currentIndex actions, Transmissible u.message)
    (hr : Blank residue) :
    ∃ v s', readActions b ((writtenOf actions).length + 1)
        ⟨(sendActions default mainPath responses actions).writes.flatten, closed, .fresh residue,
          []⟩ = (.returns v, s') ∧
      List.Forall₂ (fun u c => ∃ time, c = u.call b.hash time)
        (uploadsOf mainPath responses.currentIndex actions) (storeCalls s'.world) := by
  have hupload := isUpload_uploadsOf hpath responses.inInt
  have hlength := (uploadsOf_written mainPath actions responses.currentIndex).length_eq
  have hwrites := sendActions_writes hpath hsent
  generalize uploadsOf mainPath responses.currentIndex actions = uploads at *
  have hrequests : ∀ r ∈ uploads.map ClientRequest.store, r.WellFormed := by
    intro r hmem
    obtain ⟨u, hu, rfl⟩ := List.mem_map.mp hmem
    exact ⟨(hupload u hu).message.readable (ht u hu), (hupload u hu).storable⟩
  have hbytes : (uploads.map ClientRequest.store).flatMap ClientRequest.bytes ++
      quitMessage.bytes = sessionBytes uploads := by
    rw [List.flatMap_map]
    rfl
  have hdisciplined : Disciplined b (uploads.map .store) quitMessage residue closed [] :=
    disciplined_requests hrequests (wellFormed_quitMessage.readable transmissible_quitMessage) rfl hr
  obtain ⟨s', effects, hrun, -, -, hall, hworld⟩ := hdisciplined
  rw [List.length_map, ← hlength, hbytes, ← hwrites] at hrun
  refine ⟨_, s', hrun, ?_⟩
  have hcalls : storeCalls s'.world = storeCalls effects := by
    rw [hworld, List.nil_append, storeCalls, List.filterMap_append]
    exact List.append_nil _
  rw [hcalls]
  exact storeCalls_served hall

/-- What a session stores of each of its actions. -/
theorem storesOwn_iff (hpath : ∀ x ∈ actions, OnPath mainPath x.2)
    (hkind : ∀ x ∈ actions, x.2.actionType = .createFolder ∨ x.2.actionType = .readFile)
    (hsent : (sendActions default mainPath responses actions).thrown = none)
    (ht : ∀ u ∈ uploadsOf mainPath responses.currentIndex actions, Transmissible u.message)
    (hr : Blank residue) : StoresOwn b default mainPath responses actions residue closed ↔
      ∀ x ∈ writtenOf actions, SharesMetadata mainPath x := by
  obtain ⟨v, s', hrun, hcalls⟩ := storeCalls_session b closed hpath hsent ht hr
  have hstat := stat_of_written hpath hkind hsent
  have huploads := uploadsOf_written mainPath actions responses.currentIndex
  have hstored : StoresOwn b default mainPath responses actions residue closed ↔
      List.Forall₂ (CarriesOwn mainPath) (writtenOf actions) (storeCalls s'.world) := by
    constructor
    · rintro ⟨v₁, s₁, hrun₁, hcarries⟩
      rw [hrun, Prod.mk.injEq] at hrun₁
      rwa [hrun₁.2]
    · exact fun hcarries => ⟨v, s', hrun, hcarries⟩
  have hwritten : ∀ x ∈ writtenOf actions, x.2.actionType = .createFolder ∨
      x.2.actionType = .readFile := fun x hx => hkind x (List.mem_of_mem_filter hx)
  rw [hstored]
  clear hstored hrun hsent ht hpath hkind
  generalize writtenOf actions = written at *
  generalize uploadsOf mainPath responses.currentIndex actions = uploads at *
  generalize storeCalls s'.world = calls at *
  induction huploads generalizing calls with
  | nil =>
    cases hcalls
    simp
  | cons hu _ ih =>
    cases hcalls with
    | cons hc hrest =>
      obtain ⟨index, rfl⟩ := hu
      obtain ⟨time, rfl⟩ := hc
      rw [List.forall₂_cons, List.forall_mem_cons]
      apply and_congr
      · exact carriesOwn_iff (hwritten _ List.mem_cons_self) (hstat _ List.mem_cons_self)
      · exact ih (fun x hx => hstat x (List.mem_cons_of_mem _ hx))
          (fun x hx => hwritten x (List.mem_cons_of_mem _ hx)) _ hrest

end Sending

/-- Each stored entry carries its own metadata when these are the metadata of the main path; in a
session whose messages arrive as they were written, not otherwise. -/
theorem stored_metadata (b : Backend) (default : Action) (mainPath : Bytes)
    (responses : ResponseBuffer) (actions : List (Disk × Action))
    (hpath : ∀ x ∈ actions, OnPath mainPath x.2)
    (hkind : ∀ x ∈ actions, x.2.actionType = .createFolder ∨ x.2.actionType = .readFile)
    (hsent : (sendActions default mainPath responses actions).thrown = none) (residue : Bytes)
    (hr : Blank residue) (closed : Bool) :
    ((∀ u ∈ uploadsOf mainPath responses.currentIndex actions, Transmissible u.message) ∧
        (∀ x ∈ writtenOf actions, SharesMetadata mainPath x) →
      StoresOwn b default mainPath responses actions residue closed) ∧
    ((∀ u ∈ uploadsOf mainPath responses.currentIndex actions, Transmissible u.message) →
      StoresOwn b default mainPath responses actions residue closed →
        ∀ x ∈ writtenOf actions, SharesMetadata mainPath x) := by
  constructor
  · rintro ⟨ht, hshares⟩
    exact (storesOwn_iff b closed hpath hkind hsent ht hr).mpr hshares
  · intro ht hstores
    exact (storesOwn_iff b closed hpath hkind hsent ht hr).mp hstores

section Samples

/-- A disk on which the file `/d/a` is older than the folder `/d` that holds it. -/
def olderDisk : Disk :=
  { sampleDisk with
    lastWriteTime path := some (if path = samplePath then 1714521600 else 5)
    time path t ht := by
      rw [← Option.mem_some_iff.mp ht]
      split <;> decide }

theorem stored_metadata_shared :
    StoresOwn sampleBackend (sampleAction []) samplePath .empty storedActions [newline] false := by
  refine (stored_metadata sampleBackend (sampleAction []) samplePath .empty storedActions
    (fun x hx => onPath_sampleActions x (List.mem_append_left _ hx)) (by decide) rfl [newline]
    Blank.newline false).1 ⟨?_, ?_⟩
  · intro u hu
    have huploads : uploadsOf samplePath 0 storedActions =
        [uploadOf samplePath sampleDisk (.ofStatus true (samplePath ++ [47, 98]) .created .created) 0,
          uploadOf samplePath sampleDisk (sampleAction [47, 98, 47, 97]) 1] := rfl
    rw [ResponseBuffer.empty, huploads] at hu
    rcases List.mem_cons.mp hu with rfl | hu
    · constructor <;> decide
    · rw [List.mem_singleton.mp hu]
      constructor <;> decide
  · intro x hx t ht p hp
    have hdisk : ∀ y ∈ storedActions, y.1 = sampleDisk := by simp [storedActions]
    rw [hdisk x (List.mem_of_mem_filter hx)] at ht hp ⊢
    exact ⟨ht, hp⟩

/-- The row of `/d/a` gets the time of `/d`. -/
theorem stored_metadata_older :
    ¬StoresOwn sampleBackend (sampleAction []) samplePath .empty
      [(olderDisk, sampleAction [47, 97])] [newline] false := by
  have hpath : ∀ x ∈ [(olderDisk, sampleAction [47, 97])], OnPath samplePath x.2 := by
    intro x hx
    rw [List.mem_singleton.mp hx]
    exact onPath_sampleAction [47, 97] (sampleDisk, sampleAction [47, 97])
      (List.mem_singleton_self _)
  have htransmissible : ∀ u ∈ uploadsOf samplePath 0 [(olderDisk, sampleAction [47, 97])],
      Transmissible u.message := by
    intro u hu
    rw [List.mem_singleton.mp hu]
    constructor <;> decide
  have hwritten : (olderDisk, sampleAction [47, 97]) ∈
      writtenOf [(olderDisk, sampleAction [47, 97])] := by
    rw [writtenOf_cons, if_pos (by decide)]
    exact List.mem_cons_self
  intro hstores
  have hshares := (storesOwn_iff sampleBackend false hpath (by decide) rfl htransmissible
    Blank.newline).mp hstores _ hwritten 5 (by decide) 420 (by decide)
  exact absurd hshares.1 (by decide)

end Samples
end BackupManager.Protocol
