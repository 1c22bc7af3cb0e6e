import BackupManager.Protocol.RequestStream
import BackupManager.Protocol.RestoreOutcome

/-! The server's side of the protocol when the database fails at will: every request is taken
whole, brings about one call of the database, and is answered twice. -/
namespace BackupManager.Protocol
open ByteStream Client Server

/-- A request that is not the quit frame. -/
inductive ClientRequest where
  | store (u : Upload)
  | restore (message : Message) (date : Bytes)
  deriving DecidableEq, Repr

namespace ClientRequest

def message : ClientRequest → Message
  | .store u => u.message
  | .restore message _ => message

def bytes : ClientRequest → Bytes
  | .store u => u.bytes
  | .restore message date => message.bytes ++ dateBlock date

/-- Text fields without line break; a file behind its size, a date behind its length. -/
def WellFormed : ClientRequest → Prop
  | .store u => Readable u.message ∧ Storable u
  | .restore message date => Readable message ∧ message.actionType = .restore ∧ IsDate date

end ClientRequest

/-- The trace of the handler when it calls the database for a request. -/
def calling (before : List Effect) (r : ClientRequest) : List Effect :=
  before ++ [.parsed (frameOf r.message), .response r.message.index .received]

/-- What the handler does about one request. -/
inductive Served (b : Backend) (before : List Effect) : ClientRequest → List Effect → Prop
  | stored {u : Upload} {time : Bytes}
    (h : b.addAction (calling before (.store u)) (u.call b.hash time) = true) :
    Served b before (.store u) [.parsed (frameOf u.message),
      .response u.message.index .received, .addAction (u.call b.hash time),
      .response u.message.index .completed]
  | notStored {u : Upload} {time : Bytes}
    (h : b.addAction (calling before (.store u)) (u.call b.hash time) = false) :
    Served b before (.store u) [.parsed (frameOf u.message),
      .response u.message.index .received, .addAction (u.call b.hash time),
      .response u.message.index .error]
  | restored {m : Message} {date : Bytes} {map : RestoreMap}
    (h : b.getRestoreEntries (calling before (.restore m date) ++ [.parsedDate date.length date])
      date = some map) :
    Served b before (.restore m date) [.parsed (frameOf m), .response m.index .received,
      .parsedDate date.length date, .getRestoreEntries date, .entries map,
      .response m.index .completed]
  | notRestored {m : Message} {date : Bytes}
    (h : b.getRestoreEntries (calling before (.restore m date) ++ [.parsedDate date.length date])
      date = none) :
    Served b before (.restore m date) [.parsed (frameOf m), .response m.index .received,
      .parsedDate date.length date, .getRestoreEntries date, .response m.index .error]

/-- One request after the other. -/
inductive AllServed (b : Backend) : List Effect → List ClientRequest → List Effect → Prop
  | nil (before : List Effect) : AllServed b before [] []
  | cons {before effects later : List Effect} {r : ClientRequest} {rs : List ClientRequest} :
    Served b before r effects → AllServed b (before ++ effects) rs later →
      AllServed b before (r :: rs) (effects ++ later)

/-- The loop takes exactly the bytes of the requests and of the quit frame, and serves them one by
one. -/
def Disciplined (b : Backend) (requests : List ClientRequest) (quit : Message) (residue : Bytes)
    (closed : Bool) (trace : List Effect) : Prop :=
  ∃ s' effects, readActions b (requests.length + 1)
      ⟨requests.flatMap ClientRequest.bytes ++ quit.bytes, closed, .fresh residue, trace⟩ =
        (.returns (List.replicate requests.length true ++ [false]), s') ∧
    s'.wire = [] ∧ s'.stream.buf = [] ∧ AllServed b trace requests effects ∧
    s'.world = trace ++ effects ++ [.parsed (frameOf quit), .response 0 .finish]

section Serving

variable {b : Backend} {residue wire : Bytes} {closed : Bool} {trace : List Effect}

theorem acknowledged_calling (trace : List Effect) {r : ClientRequest} (hr : r.WellFormed) :
    acknowledged trace (frameOf r.message) = calling trace r := by
  have hne : ¬(frameOf r.message).actionType = ActionType.quit.code := by
    intro hcode
    have hquit : r.message.actionType = .quit := ActionType.code_injective hcode
    cases r with
    | store u => rcases hr.2.stores with h | h | h <;> exact absurd (h.symm.trans hquit) (by decide)
    | restore m date => exact absurd (hr.2.1.symm.trans hquit) (by decide)
  unfold acknowledged
  rw [if_neg hne]
  rfl

/-- One round of the loop serves one request. -/
theorem readAction_request (b : Backend) (wire : Bytes) (closed : Bool) (trace : List Effect)
    {r : ClientRequest} (hr : r.WellFormed) (hresidue : Blank residue) :
    ∃ residue' effects, Blank residue' ∧ Served b trace r effects ∧
      readAction b ⟨r.bytes ++ wire, closed, .fresh residue, trace⟩ =
        (.returns true, ⟨wire, closed, .fresh residue', trace ++ effects⟩) := by
  have hack := acknowledged_calling trace hr
  cases r with
  | store u =>
    have hbytes : (ClientRequest.store u).bytes = u.message.bytes ++ u.tail := rfl
    have hround : readAction b ⟨(ClientRequest.store u).bytes ++ wire, closed, .fresh residue, trace⟩ =
        dispatch b (frameOf u.message)
          ⟨u.tail ++ wire, closed, .fresh [], calling trace (.store u)⟩ := by
      rw [hbytes, List.append_assoc, readAction, Prog.bind_of_returns (readFrame_bytes hr.1 hresidue),
        Prog.bind_of_returns (acknowledge_apply _ _)]
      exact congrArg (fun t => dispatch b (frameOf u.message) ⟨u.tail ++ wire, closed, .fresh [], t⟩)
        hack
    rw [hround, dispatch_storable b wire closed _ hr.2]
    generalize b.localDay (calling trace (.store u)) = time
    refine ⟨[], ?_⟩
    cases hok : b.addAction (calling trace (.store u)) (u.call b.hash time) with
    | true =>
      refine ⟨_, Blank.nil, .stored hok, ?_⟩
      rw [calling, List.append_assoc, if_pos rfl]
      rfl
    | false =>
      refine ⟨_, Blank.nil, .notStored hok, ?_⟩
      rw [calling, List.append_assoc, if_neg (by simp)]
      rfl
  | restore m date =>
    have hround : readAction b ⟨(ClientRequest.restore m date).bytes ++ wire, closed, .fresh residue, trace⟩ =
        dispatch b (frameOf m)
          ⟨dateBlock date ++ wire, closed, .fresh [], calling trace (.restore m date)⟩ := by
      rw [ClientRequest.bytes, List.append_assoc, readAction,
        Prog.bind_of_returns (readFrame_bytes hr.1 hresidue),
        Prog.bind_of_returns (acknowledge_apply _ _)]
      exact congrArg
        (fun t => dispatch b (frameOf m) ⟨dateBlock date ++ wire, closed, .fresh [], t⟩) hack
    have hkind : (frameOf m).actionType = ActionType.restore.code := by
      rw [frameOf, hr.2.1]
    rw [hround, dispatch_restore b hkind hr.2.2 Blank.nil]
    refine ⟨[newline], ?_⟩
    cases hmap : b.getRestoreEntries
        (calling trace (.restore m date) ++ [.parsedDate date.length date]) date with
    | some map =>
      refine ⟨_, Blank.newline, .restored hmap, ?_⟩
      rw [calling, List.append_assoc]
      rfl
    | none =>
      refine ⟨_, Blank.newline, .notRestored hmap, ?_⟩
      rw [calling, List.append_assoc]
      rfl

theorem readAction_quitFrame {quit : Message} (hquit : Readable quit)
    (htype : quit.actionType = .quit) (hresidue : Blank residue) :
    readAction b ⟨quit.bytes ++ wire, closed, .fresh residue, trace⟩ =
      (.returns false, ⟨wire, closed, .fresh [],
        trace ++ [.parsed (frameOf quit), .response 0 .finish]⟩) := by
  have hcode : (frameOf quit).actionType = ActionType.quit.code := by rw [frameOf, htype]
  have hack : acknowledged trace (frameOf quit) =
      trace ++ [.parsed (frameOf quit), .response 0 .finish] := by
    unfold acknowledged
    rw [if_pos hcode]
  rw [readAction, Prog.bind_of_returns (readFrame_bytes hquit hresidue),
    Prog.bind_of_returns (acknowledge_apply _ _), hack, dispatch,
    Prog.bind_of_returns (Prog.getWorld_apply _)]
  unfold Prog.tryCatch perform
  rw [hcode]
  rfl

theorem disciplined_requests {requests : List ClientRequest} {quit : Message}
    (hrequests : ∀ r ∈ requests, r.WellFormed) (hquit : Readable quit)
    (htype : quit.actionType = .quit) (hresidue : Blank residue) :
    Disciplined b requests quit residue closed trace := by
  induction requests generalizing residue trace with
  | nil =>
    have hworld : trace ++ [.parsed (frameOf quit), .response 0 .finish] =
        trace ++ [] ++ [.parsed (frameOf quit), .response 0 .finish] := by rw [List.append_nil]
    refine ⟨⟨[], closed, .fresh [], _⟩, [], ?_, rfl, rfl, .nil trace, hworld⟩
    rw [List.flatMap_nil, List.nil_append, ← List.append_nil quit.bytes, List.length_nil, readActions,
      Prog.bind_of_returns (readAction_quitFrame hquit htype hresidue)]
    rfl
  | cons r requests ih =>
    obtain ⟨residue₁, effects₁, hresidue₁, hserved, hround⟩ :=
      readAction_request b (requests.flatMap ClientRequest.bytes ++ quit.bytes) closed trace
        (hrequests r List.mem_cons_self) hresidue
    have hrest : Disciplined b requests quit residue₁ closed (trace ++ effects₁) :=
      ih (fun r' hr' => hrequests r' (List.mem_cons_of_mem r hr')) hresidue₁
    obtain ⟨s', effects, hrun, hwire, hbuf, hall, hworld⟩ := hrest
    refine ⟨s', effects₁ ++ effects, ?_, hwire, hbuf, .cons hserved hall, ?_⟩
    · rw [List.flatMap_cons, List.append_assoc, List.length_cons, readActions,
        Prog.bind_of_returns hround]
      exact Prog.bind_of_returns hrun _
    · rw [hworld, List.append_assoc trace effects₁ effects]

end Serving

/-- The server keeps the protocol whatever the database answers, as long as no file or date is
longer than an `int` that can be increased. -/
theorem request_discipline (b : Backend) (requests : List ClientRequest) (quit : Message)
    (hrequests : ∀ r ∈ requests, r.WellFormed) (hquit : Readable quit)
    (htype : quit.actionType = .quit) (residue : Bytes) (hresidue : Blank residue) (closed : Bool)
    (trace : List Effect) : Disciplined b requests quit residue closed trace :=
  disciplined_requests hrequests hquit htype hresidue

section Samples

def fileMessage : Message := ⟨.readFile, 0, [47, 97], blank, blank⟩

theorem readable_fileMessage : Readable fileMessage := by
  constructor <;> decide

/-- A folder, a file with two bytes, a restore that the database refuses, and a deletion. -/
def sampleRequests : List ClientRequest :=
  [.store ⟨⟨.createFolder, 0, [47, 98], blank, blank⟩, []⟩, .store ⟨fileMessage, [104, 105]⟩,
    .restore ⟨.restore, 7, blank, blank, blank⟩ sampleDate,
    .store ⟨⟨.deletePath, 8, [47, 98], blank, blank⟩, []⟩]

theorem request_discipline_sample :
    Disciplined sampleBackend sampleRequests quitMessage [newline] false [] := by
  have hfile : (ClientRequest.store ⟨fileMessage, [104, 105]⟩).WellFormed :=
    ⟨readable_fileMessage, by constructor <;> decide⟩
  apply request_discipline
  · intro r hr
    simp only [sampleRequests, List.mem_cons, List.not_mem_nil, or_false] at hr
    rcases hr with rfl | rfl | rfl | rfl
    · exact ⟨by constructor <;> decide, by constructor <;> decide⟩
    · exact hfile
    · exact ⟨by constructor <;> decide, rfl, isDate_sampleDate⟩
    · exact ⟨by constructor <;> decide, by constructor <;> decide⟩
  · exact wellFormed_quitMessage.readable transmissible_quitMessage
  · rfl
  · exact Blank.newline

/-- The largest size cannot be increased: `reserve` throws, the request is answered by an error
without any call of the database, and the content is taken for requests. -/
theorem readAction_largest {content : Bytes} (hlength : content.length = 2147483647) (wire : Bytes) :
    readAction sampleBackend ⟨Upload.bytes ⟨fileMessage, content⟩ ++ wire, false, .fresh [], []⟩ =
      (.returns true, ⟨content ++ wire, false, .fresh [],
        [.parsed (frameOf fileMessage), .response 0 .received, .response 0 .error]⟩) := by
  have hsize : Prog.recvInt intMaxNDigit 0 ⟨field intMaxNDigit content.length ++
      (content ++ wire), false, .fresh [], acknowledged [] (frameOf fileMessage)⟩ =
      (.returns (2147483647 : ℕ), ⟨content ++ wire, false, .fresh [newline],
        acknowledged [] (frameOf fileMessage)⟩) := by
    rw [hlength]
    exact Prog.recvInt_field (by decide) (by decide) Blank.nil 0
  have hbytes : Upload.bytes ⟨fileMessage, content⟩ ++ wire = fileMessage.bytes ++
      (field intMaxNDigit content.length ++ (content ++ wire)) := by
    have hcontent : Upload.bytes ⟨fileMessage, content⟩ =
        fileMessage.bytes ++ (field intMaxNDigit content.length ++ content) := rfl
    rw [hcontent, List.append_assoc, List.append_assoc]
  have hlarge : ((2147483647 : ℕ) : ℤ) < -1 ∨ ((2147483647 : ℕ) : ℤ) = Istream.intMax := by decide
  have hread : ∀ time, actionReadFile sampleBackend [47, 97] 0 time blank blank
      ⟨field intMaxNDigit content.length ++ (content ++ wire), false, .fresh [],
        acknowledged [] (frameOf fileMessage)⟩ =
      (.throws "vector::reserve", ⟨content ++ wire, false, .fresh [],
        acknowledged [] (frameOf fileMessage)⟩) := by
    intro time
    rw [actionReadFile, Prog.bind_of_returns hsize, Prog.bind_of_returns (Prog.ignore_apply _),
      if_pos hlarge]
    exact Prog.bind_of_throws rfl _
  rw [hbytes, readAction, Prog.bind_of_returns (readFrame_bytes readable_fileMessage Blank.nil),
    Prog.bind_of_returns (acknowledge_apply _ _), dispatch,
    Prog.bind_of_returns (Prog.getWorld_apply _)]
  have hperform : ∀ time, perform sampleBackend (frameOf fileMessage) time
      ⟨field intMaxNDigit content.length ++ (content ++ wire), false, .fresh [],
        acknowledged [] (frameOf fileMessage)⟩ = _ :=
    fun time => Prog.bind_of_throws (hread time) _
  unfold Prog.tryCatch
  rw [hperform]
  rfl

theorem not_disciplined_largest {content : Bytes} (hlength : content.length = 2147483647) :
    ¬Disciplined sampleBackend [.store ⟨fileMessage, content⟩] quitMessage [] false [] := by
  rintro ⟨s', effects, hrun, -, -, hall, hworld⟩
  rw [List.flatMap_singleton, List.length_singleton, readActions] at hrun
  obtain ⟨more, s₁, hread, hrest⟩ := Prog.bind_returns hrun
  have hround := (readAction_largest hlength quitMessage.bytes).symm.trans hread
  rw [Prod.mk.injEq, Outcome.returns.injEq] at hround
  have hprefix : s₁.world <+: s'.world := by
    rw [← hround.1, if_pos rfl] at hrest
    obtain ⟨rest, s₂, hlater, hrest⟩ := Prog.bind_returns hrest
    rw [Prog.pure_apply, Prod.mk.injEq] at hrest
    have hsteps := steps_readActions sampleBackend 1 s₁
    rw [hlater, hrest.2] at hsteps
    exact hsteps
  rw [← hround.2, hworld, List.nil_append] at hprefix
  cases hall with
  | cons hserved hnil =>
    cases hnil
    cases hserved with
    | stored h => simp at hprefix
    | notStored h => simp at hprefix

/-- A file of the largest size that an `int` can hold breaks the protocol. -/
theorem request_discipline_largest :
    ¬Disciplined sampleBackend [.store ⟨fileMessage, List.replicate 2147483647 0⟩] quitMessage []
      false [] :=
  not_disciplined_largest List.length_replicate

end Samples
end BackupManager.Protocol
