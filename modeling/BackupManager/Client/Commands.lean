import BackupManager.ByteStream.IsoDate
import BackupManager.Client.CleanExit
import BackupManager.Client.PathTranslation
import BackupManager.Transition.Simulation

/-! The input watcher and what the user enters: the commands, and the questions of `command_restore` and
`command_quit`. What is restored is what the user has asked for and confirmed. -/
namespace BackupManager.Client.Terminal
open ByteStream Protocol Transition Threads

/-- A line of the user, and what the file system says of paths once it is entered. -/
structure Entered where
  line : Bytes
  folders : Folders

/-- `boost::algorithm::to_lower_copy`, in the C locale. -/
def toLowerCopy (text : Bytes) : Bytes := text.map fun b => if 65 ≤ b && b ≤ 90 then b + 32 else b

/-- `r` or `q`. -/
def IsCommand (letter : Byte) (e : Entered) : Prop := toLowerCopy e.line = [letter]

/-- `y` or `yes`. -/
def SaysYes (e : Entered) : Prop := toLowerCopy e.line = [121] ∨ toLowerCopy e.line = [121, 101, 115]

/-- `n` or `no`. -/
def SaysNo (e : Entered) : Prop := toLowerCopy e.line = [110] ∨ toLowerCopy e.line = [110, 111]

def NamesDirectory (e : Entered) : Prop :=
  e.folders.isThere e.line = true ∧ e.folders.isDirectory e.line = true

instance (letter : Byte) : DecidablePred (IsCommand letter) := fun _ => inferInstanceAs (Decidable (_ = _))

instance : DecidablePred SaysYes := fun _ => inferInstanceAs (Decidable (_ ∨ _))

instance : DecidablePred SaysNo := fun _ => inferInstanceAs (Decidable (_ ∨ _))

/-- Where `command_restore` waits for a line. -/
inductive RestoreAt where
  | date
  | path (dateString : Bytes)
  | response (dateString pathString : Bytes)

/-- `command_restore`, from one line to where it waits for the next, or to its end with the action that it
pushes. `fromSimpleString` is `none` where Boost throws. -/
def commandRestore (fromSimpleString : Bytes → Option Date) (e : Entered) :
    RestoreAt → RestoreAt ⊕ Option Action
  | .date =>
    match fromSimpleString e.line with
    | some d => .inl (.path d.iso)
    | none => .inl .date
  | .path dateString =>
    if !e.folders.isThere e.line || !e.folders.isDirectory e.line then .inl (.path dateString)
    else .inl (.response dateString e.line)
  | .response dateString pathString =>
    if ¬SaysYes e ∧ ¬SaysNo e then .inl (.response dateString pathString)
    else .inr (if SaysYes e then some (.ofRestore dateString pathString) else none)

/-- `command_quit`, for one line; `none` goes on with the question. -/
def commandQuit (e : Entered) : Option Bool :=
  if ¬SaysYes e ∧ ¬SaysNo e then none else some (decide (SaysYes e))

/-- The threads of the client, with the question that the input watcher asks. -/
structure Attended where
  threads : Threads.State
  question : RestoreAt

inductive Event where
  /-- The user enters a line. -/
  | line (e : Entered)
  /-- `poll` comes back without one. -/
  | quiet
  /-- The file watcher comes upon a difference. -/
  | found (isDirectory : Bool) (path : Bytes) (fileStatus : FileStatus)
  /-- Any other move of a thread. -/
  | thread (m : Move)

/-- The moves that are decided by what is entered or found. -/
def Decided : Move → Bool
  | .poll _ | .answer _ | .confirm _ | .find _ => true
  | _ => false

section Steps

variable (fromSimpleString : Bytes → Option Date)

/-- What the input watcher does with a line: the move of its thread, if it is through with a command or a
question, and the question of `command_restore` that comes next. -/
def hear (s : Attended) (e : Entered) : Option (Option Move × RestoreAt) :=
  match s.threads.input with
  | .polling => some (some (.poll (if IsCommand 114 e then .restore
      else if IsCommand 113 e then .quit else .none)), .date)
  | .asking =>
    match commandRestore fromSimpleString e s.question with
    | .inl question => some (none, question)
    | .inr action => some (some (.answer action), .date)
  | .confirming =>
    match commandQuit e with
    | none => some (none, s.question)
    | some quit => some (some (.confirm quit), s.question)
  | _ => none

/-- The move that an event comes to. -/
def moveOf (s : Attended) : Event → Option (Option Move × RestoreAt)
  | .line e => hear fromSimpleString s e
  | .quiet => some (some (.poll .none), s.question)
  | .found isDirectory path fileStatus =>
    some (some (.find (.ofStatus isDirectory path fileStatus .created)), s.question)
  | .thread m => if Decided m then none else some (some m, s.question)

def step (s : Attended) (event : Event) : Option Attended :=
  (moveOf fromSimpleString s event).bind fun r =>
    match r.1 with
    | none => some ⟨s.threads, r.2⟩
    | some m => (Threads.step s.threads m).map fun threads => ⟨threads, r.2⟩

def start (default : Action) : Attended := ⟨Threads.start default, .date⟩

/-- What is seen of a run. -/
inductive Note where
  | entered (e : Entered)
  | deed (d : Deed)

def notes (s : Attended) (event : Event) : List Note :=
  (match event with
    | .line e => [.entered e]
    | _ => []) ++
  (match moveOf fromSimpleString s event with
    | some (some m, _) => (deeds s.threads m).map .deed
    | _ => [])

end Steps

def Note.entered? : Note → Option Entered
  | .entered e => some e
  | .deed _ => none

def Note.deed? : Note → Option Deed
  | .entered _ => none
  | .deed d => some d

/-- The lines, in the order in which they were entered. -/
def linesOf (l : List Note) : List Entered := l.filterMap Note.entered?

def deedsOf (l : List Note) : List Deed := l.filterMap Note.deed?

/-- The restores among the frames of the action consumer. -/
def sentRestores (frames : List (Option Action)) : List Action :=
  frames.filterMap fun frame => frame.filter fun action => action.actionType = .restore

/-- Lines that are no answer to a question, and the answer. -/
def Question (accepts : Entered → Prop) (lines : List Entered) (answer : Entered) : Prop :=
  ∃ wrong, lines = wrong ++ [answer] ∧ (∀ e ∈ wrong, ¬accepts e) ∧ accepts answer

/-- The lines of a command, and the restore that it asks for. -/
inductive Command (fromSimpleString : Bytes → Option Date) : List Entered → Option Action → Prop where
  | unknown {e : Entered} (restore : ¬IsCommand 114 e) (quit : ¬IsCommand 113 e) :
      Command fromSimpleString [e] none
  | restored {e date path answer : Entered} {dates paths answers : List Entered} {d : Date}
      (restore : IsCommand 114 e) (day : fromSimpleString date.line = some d)
      (dated : Question (fun e => (fromSimpleString e.line).isSome) dates date)
      (placed : Question NamesDirectory paths path)
      (answered : Question (fun e => SaysYes e ∨ SaysNo e) answers answer) (yes : SaysYes answer) :
      Command fromSimpleString (e :: (dates ++ paths ++ answers)) (some (.ofRestore d.iso path.line))
  | declined {e date path answer : Entered} {dates paths answers : List Entered}
      (restore : IsCommand 114 e)
      (dated : Question (fun e => (fromSimpleString e.line).isSome) dates date)
      (placed : Question NamesDirectory paths path)
      (answered : Question (fun e => SaysYes e ∨ SaysNo e) answers answer) (no : ¬SaysYes answer) :
      Command fromSimpleString (e :: (dates ++ paths ++ answers)) none
  | stays {e answer : Entered} {answers : List Entered} (quit : IsCommand 113 e)
      (answered : Question (fun e => SaysYes e ∨ SaysNo e) answers answer) (no : ¬SaysYes answer) :
      Command fromSimpleString (e :: answers) none

/-- Commands one after the other, and the restores that they ask for. -/
inductive Commands (fromSimpleString : Bytes → Option Date) : List Entered → List Action → Prop where
  | nil : Commands fromSimpleString [] []
  | snoc {lines l : List Entered} {restores : List Action} {restore : Option Action}
      (before : Commands fromSimpleString lines restores) (last : Command fromSimpleString l restore) :
      Commands fromSimpleString (lines ++ l) (restores ++ restore.toList)

/-- The lines of the command that quits. -/
def Quits (lines : List Entered) : Prop :=
  ∃ e answer answers, lines = e :: answers ∧ IsCommand 113 e ∧
    Question (fun e => SaysYes e ∨ SaysNo e) answers answer ∧ SaysYes answer

section Questions

variable {fromSimpleString : Bytes → Option Date} {e : Entered} {lines : List Entered}

/-- The lines of a restore command as far as its questions have been answered. -/
inductive Partway (fromSimpleString : Bytes → Option Date) : RestoreAt → List Entered → Prop where
  | date {e : Entered} {wrong : List Entered} (restore : IsCommand 114 e)
      (undated : ∀ e ∈ wrong, ¬(fromSimpleString e.line).isSome = true) :
      Partway fromSimpleString .date (e :: wrong)
  | path {e date : Entered} {dates wrong : List Entered} {d : Date} (restore : IsCommand 114 e)
      (day : fromSimpleString date.line = some d)
      (dated : Question (fun e => (fromSimpleString e.line).isSome) dates date)
      (unplaced : ∀ e ∈ wrong, ¬NamesDirectory e) :
      Partway fromSimpleString (.path d.iso) (e :: (dates ++ wrong))
  | response {e date path : Entered} {dates paths wrong : List Entered} {d : Date}
      (restore : IsCommand 114 e) (day : fromSimpleString date.line = some d)
      (dated : Question (fun e => (fromSimpleString e.line).isSome) dates date)
      (placed : Question NamesDirectory paths path)
      (unanswered : ∀ e ∈ wrong, ¬(SaysYes e ∨ SaysNo e)) :
      Partway fromSimpleString (.response d.iso path.line) (e :: (dates ++ paths ++ wrong))

/-- One more line that is refused. -/
theorem forall_mem_snoc {α : Type} {p : α → Prop} {l : List α} {a : α} (h : ∀ x ∈ l, p x) (ha : p a) :
    ∀ x ∈ l ++ [a], p x := by
  intro x hx
  rcases List.mem_append.mp hx with hl | hlast
  · exact h x hl
  · rwa [List.mem_singleton.mp hlast]

/-- A question is asked again, or the next one. -/
theorem Partway.next {question question' : RestoreAt} (h : Partway fromSimpleString question lines)
    (hnext : commandRestore fromSimpleString e question = .inl question') :
    Partway fromSimpleString question' (lines ++ [e]) := by
  cases h with
  | @date r wrong hr hwrong =>
    simp only [commandRestore] at hnext
    split at hnext
    next d hd =>
      cases hnext
      have hdates : Question (fun e => (fromSimpleString e.line).isSome = true) (wrong ++ [e]) e :=
        ⟨wrong, rfl, hwrong, by simp [hd]⟩
      have hempty : ∀ e ∈ ([] : List Entered), ¬NamesDirectory e := by simp
      have hpath := Partway.path hr hd hdates hempty
      rwa [List.append_nil] at hpath
    next hd =>
      cases hnext
      exact .date hr (forall_mem_snoc hwrong (by rw [hd]; simp))
  | @path r date dates wrong d hr hd hdates hwrong =>
    simp only [commandRestore] at hnext
    split at hnext
    next hno =>
      cases hnext
      have hrefused : ¬NamesDirectory e := fun hyes => by simp [hyes.1, hyes.2] at hno
      rw [List.cons_append, List.append_assoc]
      exact .path hr hd hdates (forall_mem_snoc hwrong hrefused)
    next hyes =>
      cases hnext
      have hpaths : Question NamesDirectory (wrong ++ [e]) e :=
        ⟨wrong, rfl, hwrong, by simpa [NamesDirectory] using hyes⟩
      have hempty : ∀ e ∈ ([] : List Entered), ¬(SaysYes e ∨ SaysNo e) := by simp
      have hresponse := Partway.response hr hd hdates hpaths hempty
      rwa [List.append_nil, ← List.append_assoc] at hresponse
  | @response r date path dates paths wrong d hr hd hdates hpaths hwrong =>
    simp only [commandRestore] at hnext
    split at hnext
    next hno =>
      cases hnext
      rw [List.cons_append, List.append_assoc]
      exact .response hr hd hdates hpaths (forall_mem_snoc hwrong (not_or.mpr hno))
    next => cases hnext

/-- The last question is answered. -/
theorem Partway.last {question : RestoreAt} {action : Option Action}
    (h : Partway fromSimpleString question lines)
    (hlast : commandRestore fromSimpleString e question = .inr action) :
    Command fromSimpleString (lines ++ [e]) action := by
  cases h with
  | date hr hwrong =>
    simp only [commandRestore] at hlast
    split at hlast <;> cases hlast
  | path hr hd hdates hwrong =>
    simp only [commandRestore] at hlast
    split at hlast <;> cases hlast
  | @response r date path dates paths wrong d hr hd hdates hpaths hwrong =>
    simp only [commandRestore] at hlast
    split at hlast
    next => cases hlast
    next hanswer =>
      have hsays : SaysYes e ∨ SaysNo e := by
        by_contra hno
        exact hanswer (not_or.mp hno)
      have hanswers : Question (fun e => SaysYes e ∨ SaysNo e) (wrong ++ [e]) e := ⟨wrong, rfl, hwrong, hsays⟩
      rw [List.cons_append, List.append_assoc]
      by_cases hyes : SaysYes e
      · rw [if_pos hyes] at hlast
        cases hlast
        exact .restored hr hd hdates hpaths hanswers hyes
      · rw [if_neg hyes] at hlast
        cases hlast
        exact .declined hr hdates hpaths hanswers hyes

/-- The lines of a quit command as long as its question is not answered. -/
def QuitPartway (lines : List Entered) : Prop :=
  ∃ e wrong, lines = e :: wrong ∧ IsCommand 113 e ∧ ∀ e ∈ wrong, ¬(SaysYes e ∨ SaysNo e)

theorem QuitPartway.next (h : QuitPartway lines) (hnext : commandQuit e = none) :
    QuitPartway (lines ++ [e]) := by
  obtain ⟨q, wrong, rfl, hq, hwrong⟩ := h
  unfold commandQuit at hnext
  split at hnext
  next hno => exact ⟨q, wrong ++ [e], rfl, hq, forall_mem_snoc hwrong (not_or.mpr hno)⟩
  next => cases hnext

theorem QuitPartway.last {quit : Bool} (h : QuitPartway lines) (hlast : commandQuit e = some quit) :
    if quit then Quits (lines ++ [e]) else Command fromSimpleString (lines ++ [e]) none := by
  obtain ⟨q, wrong, rfl, hq, hwrong⟩ := h
  unfold commandQuit at hlast
  split at hlast
  next => cases hlast
  next hanswer =>
    have hsays : SaysYes e ∨ SaysNo e := by
      by_contra hno
      exact hanswer (not_or.mp hno)
    have hanswers : Question (fun e => SaysYes e ∨ SaysNo e) (wrong ++ [e]) e := ⟨wrong, rfl, hwrong, hsays⟩
    cases hlast
    by_cases hyes : SaysYes e
    · rw [if_pos (decide_eq_true hyes)]
      exact ⟨q, e, wrong ++ [e], rfl, hq, hanswers, hyes⟩
    · rw [if_neg (by simpa using hyes)]
      exact .stays hq hanswers hyes

/-- Every restore that is asked for is dated and placed. -/
theorem Commands.restores {restores : List Action} (h : Commands fromSimpleString lines restores) :
    ∀ action ∈ restores, ∃ (d : Date) (path : Entered), path ∈ lines ∧ NamesDirectory path ∧
      action = .ofRestore d.iso path.line := by
  induction h with
  | nil => simp
  | snoc before last ih =>
    intro action haction
    rcases List.mem_append.mp haction with hold | hnew
    · obtain ⟨d, path, hmem, hpath, rfl⟩ := ih action hold
      exact ⟨d, path, List.mem_append_left _ hmem, hpath, rfl⟩
    · cases last with
      | restored hr hd hdates hpaths hanswers hyes =>
        obtain ⟨wrong, rfl, -, hpath⟩ := hpaths
        exact ⟨_, _, by simp, hpath, by simpa using hnew⟩
      | _ => exact absurd hnew (by simp)

end Questions

section Threads

variable {t t' : Threads.State} {m : Move}

/-- The moves that are not of the input watcher. -/
structure Aside (t t' : Threads.State) : Prop where
  input : t'.input = t.input
  flag : t'.hasExceptionOccurred = false → t.hasExceptionOccurred = false
  watcher : ∀ scan action, t'.watcher = .pushing scan action → t.watcher = .pushing scan action

theorem aside_stepWatcher (h : t.stepWatcher m = some t') (hm : Decided m = false) : Aside t t' := by
  cases m with
  | watcherPush =>
    simp only [State.stepWatcher] at h
    split at h
    next scan action hw =>
      obtain ⟨actions, -, rfl⟩ := Option.map_eq_some_iff.mp h
      exact ⟨rfl, id, by cases scan <;> simp⟩
    next => cases h
  | pass =>
    simp only [State.stepWatcher] at h
    split at h
    next hw => exact Option.some.inj h ▸ ⟨rfl, id, by simp⟩
    next hw => exact Option.some.inj h ▸ ⟨rfl, id, by simp⟩
    next => cases h
  | wake =>
    simp only [State.stepWatcher] at h
    split at h
    next hw => exact Option.some.inj h ▸ ⟨rfl, id, by cases t.running <;> simp⟩
    next => cases h
  | resume =>
    simp only [State.stepWatcher] at h
    split at h
    next hw =>
      split at h
      next => cases h
      next => exact Option.some.inj h ▸ ⟨rfl, id, by simp⟩
    next => cases h
  | find action => cases hm
  | _ => cases h

theorem aside_stepConsumer (h : t.stepConsumer m = some t') : Aside t t' := by
  cases m with
  | pop =>
    simp only [State.stepConsumer] at h
    split at h
    next hc =>
      obtain ⟨r, -, rfl⟩ := Option.map_eq_some_iff.mp h
      exact ⟨rfl, id, fun _ _ => id⟩
    next => cases h
  | send =>
    simp only [State.stepConsumer] at h
    split at h
    next action hc => exact Option.some.inj h ▸ ⟨rfl, id, fun _ _ => id⟩
    next => cases h
  | sendQuit =>
    simp only [State.stepConsumer] at h
    split at h
    next hc => exact Option.some.inj h ▸ ⟨rfl, id, fun _ _ => id⟩
    next => cases h
  | _ => cases h

theorem aside_stepResponse (h : t.stepResponse m = some t') : Aside t t' := by
  cases m with
  | responseCheck | read | handle | pause | restart =>
    simp only [State.stepResponse] at h
    repeat' split at h
    all_goals first
      | exact Option.some.inj h ▸ ⟨rfl, id, fun _ _ => id⟩
      | exact Option.some.inj h ▸ ⟨rfl, by simp, fun _ _ => id⟩
      | cases h
  | _ => cases h

theorem aside_join (h : t.join = some t') : Aside t t' := by
  unfold State.join at h
  split at h
  all_goals first
    | exact Option.some.inj h ▸ ⟨rfl, id, fun _ _ => id⟩
    | cases h

theorem aside_throws {party : Party} (h : t.throws party = some t') (hparty : party ≠ .input) :
    Aside t t' := by
  cases party with
  | watcher | consumer | response =>
    simp only [State.throws] at h
    split at h
    all_goals first
      | exact Option.some.inj h ▸ ⟨rfl, id, fun _ _ => id⟩
      | exact Option.some.inj h ▸ ⟨rfl, by simp, fun _ _ => id⟩
      | exact Option.some.inj h ▸ ⟨rfl, by simp, by simp⟩
      | cases h
  | input => exact absurd rfl hparty

/-- A move of another thread, or of none. -/
theorem aside_of_step (h : Threads.step t m = some t') (hm : Decided m = false)
    (howner : m.owner ≠ some .input) : Aside t t' := by
  cases m with
  | join => exact aside_join h
  | serve signal =>
    simp only [Threads.step] at h
    split at h
    next => cases h
    next => exact Option.some.inj h ▸ ⟨rfl, id, fun _ _ => id⟩
  | throws party => exact aside_throws h fun heq => howner (by rw [heq]; rfl)
  | cleanupThrows =>
    simp only [Threads.step, State.cleanupThrows] at h
    split at h
    next => exact Option.some.inj h ▸ ⟨rfl, by simp, fun _ _ => id⟩
    next => cases h
  | find | poll | answer | confirm => cases hm
  | inputPush | inputCheck => exact absurd rfl howner
  | watcherPush => exact aside_stepWatcher (m := .watcherPush) h hm
  | pass => exact aside_stepWatcher (m := .pass) h hm
  | wake => exact aside_stepWatcher (m := .wake) h hm
  | resume => exact aside_stepWatcher (m := .resume) h hm
  | pop => exact aside_stepConsumer (m := .pop) h
  | send => exact aside_stepConsumer (m := .send) h
  | sendQuit => exact aside_stepConsumer (m := .sendQuit) h
  | responseCheck => exact aside_stepResponse (m := .responseCheck) h
  | read => exact aside_stepResponse (m := .read) h
  | handle => exact aside_stepResponse (m := .handle) h
  | pause => exact aside_stepResponse (m := .pause) h
  | restart => exact aside_stepResponse (m := .restart) h

end Threads

/-- The restores among the queued actions. -/
def queuedRestores (l : List Deed) : List Action :=
  (Deed.queuedOf l).filter fun action => action.actionType = .restore

/-- What the lines come to, by where the input watcher stands. -/
def Stands (fromSimpleString : Bytes → Option Date) (s : Attended) (lines : List Entered)
    (restores : List Action) : Prop :=
  match s.threads.input with
  | .polling | .check => Commands fromSimpleString lines restores
  | .asking => ∃ before l, lines = before ++ l ∧ Commands fromSimpleString before restores ∧
      Partway fromSimpleString s.question l
  | .confirming => ∃ before l, lines = before ++ l ∧ Commands fromSimpleString before restores ∧
      QuitPartway l
  | .pushing action => Commands fromSimpleString lines (restores ++ [action])
  | .ended _ => s.threads.hasExceptionOccurred = false →
      ∃ before l, lines = before ++ l ∧ Commands fromSimpleString before restores ∧ Quits l

/-- The file watcher pushes no restore, and the input watcher those of the commands. -/
structure Follows (fromSimpleString : Bytes → Option Date) (s : Attended) (l : List Note) : Prop where
  differs : ∀ scan action, s.threads.watcher = .pushing scan action → action.actionType ≠ .restore
  stands : Stands fromSimpleString s (linesOf l) (queuedRestores (deedsOf l))

section Runs

variable {fromSimpleString : Bytes → Option Date} {s s' : Attended} {l : List Note}

theorem linesOf_append (l l' : List Note) : linesOf (l ++ l') = linesOf l ++ linesOf l' :=
  List.filterMap_append

theorem deedsOf_append (l l' : List Note) : deedsOf (l ++ l') = deedsOf l ++ deedsOf l' :=
  List.filterMap_append

theorem linesOf_deeds (d : List Deed) : linesOf (d.map .deed) = [] := by
  rw [linesOf, List.filterMap_map]
  exact List.filterMap_eq_nil_iff.mpr fun _ _ => rfl

theorem deedsOf_deeds (d : List Deed) : deedsOf (d.map .deed) = d := by
  rw [deedsOf, List.filterMap_map]
  exact List.filterMap_some

theorem queuedRestores_append (d d' : List Deed) :
    queuedRestores (d ++ d') = queuedRestores d ++ queuedRestores d' := by
  rw [queuedRestores, Deed.queuedOf_append, List.filter_append]
  rfl

theorem queuedRestores_deeds {t : Threads.State} {m : Move}
    (hdiffers : ∀ scan action, t.watcher = .pushing scan action → action.actionType ≠ .restore)
    (hm : m ≠ .inputPush) : queuedRestores (deeds t m) = [] := by
  cases m with
  | watcherPush =>
    unfold deeds
    cases hw : t.watcher with
    | pushing scan action =>
      have hrestore := hdiffers scan action hw
      simp [queuedRestores, Deed.queuedOf, hrestore]
    | _ => rfl
  | inputPush => exact absurd rfl hm
  | send =>
    unfold deeds
    cases t.consumer <;> rfl
  | sendQuit =>
    unfold deeds
    cases t.consumer <;> rfl
  | handle =>
    unfold deeds
    cases t.response with
    | handling signal => cases signal <;> rfl
    | _ => rfl
  | _ => rfl

/-- The input watcher has seen a line that comes to no move yet, or moves. -/
theorem step_eq_some_iff {event : Event} : step fromSimpleString s event = some s' ↔
    ∃ m question, moveOf fromSimpleString s event = some (m, question) ∧ s'.question = question ∧
      match m with
      | none => s'.threads = s.threads
      | some m => Threads.step s.threads m = some s'.threads := by
  obtain ⟨t', question'⟩ := s'
  unfold step
  rw [Option.bind_eq_some_iff]
  constructor
  · rintro ⟨⟨m, question⟩, hmove, hrest⟩
    refine ⟨m, question, hmove, ?_⟩
    cases m with
    | none =>
      cases hrest
      exact ⟨rfl, rfl⟩
    | some m =>
      obtain ⟨t, ht, heq⟩ := Option.map_eq_some_iff.mp hrest
      cases heq
      exact ⟨rfl, ht⟩
  · rintro ⟨m, question, hmove, rfl, hrest⟩
    refine ⟨(m, _), hmove, ?_⟩
    cases m with
    | none =>
      cases hrest
      rfl
    | some m => exact Option.map_eq_some_iff.mpr ⟨t', hrest, rfl⟩

theorem follows_start (default : Action) : Follows fromSimpleString (start default) [] :=
  ⟨fun _ _ h => absurd h (by simp [start, Threads.start]), Commands.nil⟩

/-- Where `poll` has come back. -/
def polled : Threads.Command → InputAt
  | .none => .check
  | .restore => .asking
  | .quit => .confirming

theorem step_poll {t : Threads.State} (h : t.input = .polling) (command : Threads.Command) :
    Threads.step t (.poll command) = some { t with input := polled command } := by
  show t.stepInput (.poll command) = _
  unfold State.stepInput
  rw [h]
  cases command <;> rfl

theorem step_answer {t : Threads.State} (h : t.input = .asking) (action : Option Action) :
    Threads.step t (.answer action) =
      some { t with input := action.elim .check .pushing } := by
  show t.stepInput (.answer action) = _
  unfold State.stepInput
  rw [h]
  cases action <;> rfl

theorem step_confirm {t : Threads.State} (h : t.input = .confirming) (quit : Bool) :
    Threads.step t (.confirm quit) =
      some { t with input := if quit then .ended false else .check } := by
  show t.stepInput (.confirm quit) = _
  unfold State.stepInput
  rw [h]

/-- No action is queued or sent on a line. -/
theorem notes_line (s : Attended) (e : Entered) :
    notes fromSimpleString s (.line e) = [.entered e] := by
  unfold notes
  simp only [moveOf, hear]
  cases s.threads.input with
  | asking => cases commandRestore fromSimpleString e s.question <;> rfl
  | confirming => cases commandQuit e <;> rfl
  | _ => rfl

theorem follows_polled (h : Follows fromSimpleString s l) (hinput : s.threads.input = .polling)
    (e : Entered) {t : Threads.State}
    (ht : Threads.step s.threads (.poll (if IsCommand 114 e then .restore
      else if IsCommand 113 e then .quit else .none)) = some t) :
    Stands fromSimpleString ⟨t, .date⟩ (linesOf l ++ [e]) (queuedRestores (deedsOf l)) := by
  have hstands := h.stands
  unfold Stands at hstands
  rw [hinput] at hstands
  rw [step_poll hinput] at ht
  rw [← Option.some.inj ht]
  by_cases hr : IsCommand 114 e
  · rw [if_pos hr]
    exact ⟨linesOf l, [e], rfl, hstands, .date hr (by simp)⟩
  · rw [if_neg hr]
    by_cases hq : IsCommand 113 e
    · rw [if_pos hq]
      exact ⟨linesOf l, [e], rfl, hstands, e, [], rfl, hq, by simp⟩
    · rw [if_neg hq]
      have hnone := hstands.snoc (.unknown hr hq)
      rwa [Option.toList_none, List.append_nil] at hnone

/-- A line has been entered. -/
theorem follows_line (h : Follows fromSimpleString s l) {e : Entered}
    (hstep : step fromSimpleString s (.line e) = some s') :
    Follows fromSimpleString s' (l ++ notes fromSimpleString s (.line e)) := by
  obtain ⟨m, question, hmove, rfl, hthreads⟩ := step_eq_some_iff.mp hstep
  have hlines : linesOf (l ++ [.entered e]) = linesOf l ++ [e] := linesOf_append _ _
  have hdeeds : deedsOf (l ++ [.entered e]) = deedsOf l :=
    (deedsOf_append _ _).trans (List.append_nil _)
  rw [notes_line]
  suffices hgoal : s'.threads.watcher = s.threads.watcher ∧
      Stands fromSimpleString s' (linesOf l ++ [e]) (queuedRestores (deedsOf l)) by
    refine ⟨fun scan action hw => h.differs scan action (hgoal.1 ▸ hw), ?_⟩
    rw [hlines, hdeeds]
    exact hgoal.2
  have hstands := h.stands
  unfold Stands at hstands
  simp only [moveOf, hear] at hmove
  obtain ⟨t', question'⟩ := s'
  cases hinput : s.threads.input with
  | polling =>
    rw [hinput] at hmove
    obtain ⟨rfl, rfl⟩ := Prod.mk.inj (Option.some.inj hmove)
    dsimp only at hthreads
    refine ⟨?_, follows_polled h hinput e hthreads⟩
    rw [step_poll hinput] at hthreads
    exact Option.some.inj hthreads ▸ rfl
  | asking =>
    rw [hinput] at hmove hstands
    dsimp only at hmove hstands
    obtain ⟨before, lines, hsplit, hbefore, hpart⟩ := hstands
    rw [hsplit, List.append_assoc]
    cases hrestore : commandRestore fromSimpleString e s.question with
    | inl question =>
      rw [hrestore] at hmove
      obtain ⟨rfl, rfl⟩ := Prod.mk.inj (Option.some.inj hmove)
      dsimp only at hthreads
      rw [hthreads]
      unfold Stands
      dsimp only
      rw [hinput]
      exact ⟨rfl, before, _, rfl, hbefore, hpart.next hrestore⟩
    | inr action =>
      rw [hrestore] at hmove
      obtain ⟨rfl, rfl⟩ := Prod.mk.inj (Option.some.inj hmove)
      dsimp only at hthreads
      rw [step_answer hinput] at hthreads
      rw [← Option.some.inj hthreads]
      have hcommands := hbefore.snoc (hpart.last hrestore)
      refine ⟨rfl, ?_⟩
      cases action with
      | none => exact (List.append_nil (queuedRestores (deedsOf l))) ▸ hcommands
      | some action => exact hcommands
  | confirming =>
    rw [hinput] at hmove hstands
    dsimp only at hmove hstands
    obtain ⟨before, lines, hsplit, hbefore, hpart⟩ := hstands
    rw [hsplit, List.append_assoc]
    cases hquit : commandQuit e with
    | none =>
      rw [hquit] at hmove
      obtain ⟨rfl, rfl⟩ := Prod.mk.inj (Option.some.inj hmove)
      dsimp only at hthreads
      rw [hthreads]
      unfold Stands
      dsimp only
      rw [hinput]
      exact ⟨rfl, before, _, rfl, hbefore, hpart.next hquit⟩
    | some quit =>
      rw [hquit] at hmove
      obtain ⟨rfl, rfl⟩ := Prod.mk.inj (Option.some.inj hmove)
      dsimp only at hthreads
      rw [step_confirm hinput] at hthreads
      rw [← Option.some.inj hthreads]
      refine ⟨rfl, ?_⟩
      have hlast : if quit then Quits (lines ++ [e])
          else Command fromSimpleString (lines ++ [e]) none := hpart.last hquit
      cases quit with
      | true => exact fun _ => ⟨before, _, rfl, hbefore, hlast⟩
      | false =>
        have hcommands := hbefore.snoc hlast
        exact (List.append_nil (queuedRestores (deedsOf l))) ▸ hcommands
  | pushing action =>
    rw [hinput] at hmove
    cases hmove
  | check =>
    rw [hinput] at hmove
    cases hmove
  | ended failed =>
    rw [hinput] at hmove
    cases hmove

/-- Nothing has been entered; the input watcher stands where it stood. -/
theorem Stands.aside {lines : List Entered} {restores : List Action}
    (h : Stands fromSimpleString s lines restores) (hquestion : s'.question = s.question)
    (haside : Aside s.threads s'.threads) : Stands fromSimpleString s' lines restores := by
  unfold Stands at h ⊢
  rw [haside.input, hquestion]
  cases hinput : s.threads.input with
  | ended failed =>
    rw [hinput] at h
    exact fun hflag => h (haside.flag hflag)
  | _ =>
    rw [hinput] at h
    exact h

/-- What is seen of a move that no line belongs to. -/
theorem notes_move {event : Event} (hline : ∀ e, event ≠ .line e) {m : Move} {question : RestoreAt}
    (hmove : moveOf fromSimpleString s event = some (some m, question)) :
    notes fromSimpleString s event = (deeds s.threads m).map .deed := by
  unfold notes
  rw [hmove]
  cases event with
  | line e => exact absurd rfl (hline e)
  | _ => rfl

theorem follows_quiet (h : Follows fromSimpleString s l)
    (hstep : step fromSimpleString s .quiet = some s') :
    Follows fromSimpleString s' (l ++ notes fromSimpleString s .quiet) := by
  obtain ⟨m, question, hmove, hquestion, hthreads⟩ := step_eq_some_iff.mp hstep
  rw [notes_move (by simp) rfl]
  obtain ⟨rfl, rfl⟩ := Prod.mk.inj (Option.some.inj hmove)
  have hinput : s.threads.input = .polling := by
    have hrun : s.threads.stepInput (.poll .none) = some s'.threads := hthreads
    simp only [State.stepInput] at hrun
    split at hrun
    next hinput _ => exact hinput
    next heq => cases heq
    next heq => cases heq
    next => cases hrun
  have hstands := h.stands
  unfold Stands at hstands
  rw [hinput] at hstands
  dsimp only at hthreads
  rw [step_poll hinput] at hthreads
  have hafter := (Option.some.inj hthreads).symm
  have hnone : deeds s.threads (.poll .none) = [] := rfl
  rw [hnone, List.map_nil, List.append_nil]
  refine ⟨fun scan action hw => h.differs scan action (by rwa [hafter] at hw), ?_⟩
  unfold Stands
  rw [hafter]
  exact hstands

theorem follows_found (h : Follows fromSimpleString s l) {isDirectory : Bool} {path : Bytes}
    {fileStatus : FileStatus}
    (hstep : step fromSimpleString s (.found isDirectory path fileStatus) = some s') :
    Follows fromSimpleString s'
      (l ++ notes fromSimpleString s (.found isDirectory path fileStatus)) := by
  obtain ⟨m, question, hmove, hquestion, hthreads⟩ := step_eq_some_iff.mp hstep
  rw [notes_move (by simp) rfl]
  obtain ⟨rfl, rfl⟩ := Prod.mk.inj (Option.some.inj hmove)
  have hnone : deeds s.threads (.find (.ofStatus isDirectory path fileStatus .created)) = [] := rfl
  rw [hnone, List.map_nil, List.append_nil]
  have htype : (Action.ofStatus isDirectory path fileStatus .created).actionType ≠ .restore := by
    cases fileStatus <;> cases isDirectory <;> simp [Action.ofStatus, actionTypeOf]
  have hrun : s.threads.stepWatcher (.find (.ofStatus isDirectory path fileStatus .created)) =
    some s'.threads := hthreads
  have hafter : ∃ scan, s'.threads = { s.threads with
      watcher := .pushing scan (.ofStatus isDirectory path fileStatus .created) } := by
    simp only [State.stepWatcher] at hrun
    split at hrun
    next => exact ⟨false, (Option.some.inj hrun).symm⟩
    next => exact ⟨true, (Option.some.inj hrun).symm⟩
    next => cases hrun
  obtain ⟨scan, hafter⟩ := hafter
  refine ⟨fun scan' action hw => ?_, ?_⟩
  · rw [hafter] at hw
    cases hw
    exact htype
  · have hstands := h.stands
    unfold Stands at hstands ⊢
    rw [hafter, hquestion]
    exact hstands

/-- A restore that has been confirmed is queued, or the loop goes on, or the thread fails. -/
theorem follows_input (h : Follows fromSimpleString s l) {m : Move} (hm : Decided m = false)
    (howner : m.owner = some .input) {t : Threads.State}
    (hthreads : Threads.step s.threads m = some t) :
    Follows fromSimpleString ⟨t, s.question⟩ (l ++ (deeds s.threads m).map .deed) := by
  have hstands := h.stands
  unfold Stands at hstands
  have hlines : linesOf (l ++ (deeds s.threads m).map .deed) = linesOf l := by
    rw [linesOf_append, linesOf_deeds, List.append_nil]
  have hrestores : queuedRestores (deedsOf (l ++ (deeds s.threads m).map .deed)) =
      queuedRestores (deedsOf l) ++ queuedRestores (deeds s.threads m) := by
    rw [deedsOf_append, deedsOf_deeds, queuedRestores_append]
  cases m with
  | inputPush =>
    have hrun : s.threads.stepInput .inputPush = some t := hthreads
    simp only [State.stepInput] at hrun
    split at hrun
    next action hinput =>
      obtain ⟨actions, -, rfl⟩ := Option.map_eq_some_iff.mp hrun
      rw [hinput] at hstands
      dsimp only at hstands
      have hrestore : action.actionType = .restore := by
        obtain ⟨d, path, -, -, rfl⟩ := hstands.restores action (by simp)
        rfl
      have hqueued : queuedRestores (deeds s.threads .inputPush) = [action] := by
        unfold deeds
        rw [hinput]
        simp [queuedRestores, Deed.queuedOf, hrestore]
      refine ⟨h.differs, ?_⟩
      rw [hlines, hrestores, hqueued]
      exact hstands
    next => cases hrun
  | inputCheck =>
    have hrun : s.threads.stepInput .inputCheck = some t := hthreads
    simp only [State.stepInput] at hrun
    split at hrun
    next hinput =>
      rw [hinput] at hstands
      rw [← Option.some.inj hrun]
      refine ⟨h.differs, ?_⟩
      have hnone : queuedRestores (deeds s.threads .inputCheck) = [] := rfl
      rw [hlines, hrestores, hnone, List.append_nil]
      unfold Stands
      dsimp only at hstands ⊢
      cases hflag : s.threads.hasExceptionOccurred with
      | true => exact fun hno => absurd hno (by simp)
      | false => exact hstands
    next => cases hrun
  | throws party =>
    obtain rfl : party = .input := Option.some.inj howner
    have hrun : s.threads.throws .input = some t := hthreads
    have hafter : t = { s.threads with hasExceptionOccurred := true, input := .ended true } := by
      simp only [State.throws] at hrun
      split at hrun <;> first | exact (Option.some.inj hrun).symm | cases hrun
    rw [hafter]
    exact ⟨h.differs, fun hno => absurd hno (by simp)⟩
  | find | poll | answer | confirm => cases hm
  | _ => cases howner

theorem follows_thread (h : Follows fromSimpleString s l) {m : Move}
    (hstep : step fromSimpleString s (.thread m) = some s') :
    Follows fromSimpleString s' (l ++ notes fromSimpleString s (.thread m)) := by
  obtain ⟨m', question, hmove, hquestion, hthreads⟩ := step_eq_some_iff.mp hstep
  have hdecided : Decided m = false := by
    rw [← Bool.not_eq_true]
    intro hyes
    simp [moveOf, hyes] at hmove
  have hmove' : moveOf fromSimpleString s (.thread m) = some (some m, s.question) := by
    simp [moveOf, hdecided]
  rw [hmove'] at hmove
  obtain ⟨rfl, rfl⟩ := Prod.mk.inj (Option.some.inj hmove)
  rw [notes_move (by simp) hmove']
  obtain ⟨t', question'⟩ := s'
  cases hquestion
  by_cases howner : m.owner = some .input
  · exact follows_input h hdecided howner hthreads
  · have haside := aside_of_step hthreads hdecided howner
    have hm : m ≠ .inputPush := fun heq => howner (by rw [heq]; rfl)
    refine ⟨fun scan action hw => h.differs scan action (haside.watcher scan action hw), ?_⟩
    rw [linesOf_append, linesOf_deeds, List.append_nil, deedsOf_append, deedsOf_deeds,
      queuedRestores_append, queuedRestores_deeds h.differs hm, List.append_nil]
    exact h.stands.aside rfl haside

theorem follows_run {default : Action} {events : List Event}
    (hrun : run (step fromSimpleString) (start default) events = some s) :
    Follows fromSimpleString s
      (outputs (step fromSimpleString) (notes fromSimpleString) (start default) events) := by
  have hfollows : Follows fromSimpleString s ([] ++
      outputs (step fromSimpleString) (notes fromSimpleString) (start default) events) :=
    run_outputs (I := Follows fromSimpleString) (fun s e s' l h hstep => by
      cases e with
      | line e => exact follows_line h hstep
      | quiet => exact follows_quiet h hstep
      | found => exact follows_found h hstep
      | thread m => exact follows_thread h hstep) (follows_start default) hrun
  rwa [List.nil_append] at hfollows

/-- The threads do in the larger system what they do in the smaller one. -/
theorem simulates_threads : Simulates (step fromSimpleString)
    (fun s event => (notes fromSimpleString s event).filterMap Note.deed?) Threads.step deeds
    Attended.threads := by
  intro s event s' hstep
  obtain ⟨m, question, hmove, -, hthreads⟩ := step_eq_some_iff.mp hstep
  have hnotes : (notes fromSimpleString s event).filterMap Note.deed? =
      m.elim [] (deeds s.threads) := by
    unfold notes
    rw [hmove]
    cases m with
    | none => cases event <;> rfl
    | some m =>
      cases event with
      | line e => exact deedsOf_deeds _
      | _ => exact deedsOf_deeds _
  cases m with
  | none => exact .inl ⟨hthreads, hnotes⟩
  | some m => exact .inr ⟨m, hthreads, hnotes.symm⟩

theorem restores_written (disks : ℕ → Disk) (queued : List Action) :
    (written disks queued).filter (fun action => action.actionType = .restore) =
      queued.filter fun action => action.actionType = .restore := by
  have hall : ∀ (l : List Action) (k : ℕ),
      (((l.zipIdx k).filter fun x => decide (IsWritten (disks x.2) x.1)).map Prod.fst).filter
        (fun action => action.actionType = .restore) =
          l.filter fun action => action.actionType = .restore := by
    intro l
    induction l with
    | nil => exact fun _ => rfl
    | cons action rest ih =>
      intro k
      by_cases hwritten : IsWritten (disks k) action
      · simp [List.zipIdx_cons, List.filter_cons, hwritten, ih]
      · have hother : action.actionType ≠ .restore := fun hrestore =>
          hwritten (by simp [IsWritten, hrestore])
        simp [List.zipIdx_cons, hwritten, hother, ih]
  exact hall queued 0

theorem sentRestores_frames (actions : List Action) :
    sentRestores (actions.map some ++ [none]) =
      actions.filter fun action => action.actionType = .restore := by
  induction actions with
  | nil => rfl
  | cons action rest ih =>
    rw [List.map_cons, List.cons_append, sentRestores, List.filterMap_cons]
    by_cases hrestore : action.actionType = .restore
    · simpa [Option.filter, hrestore, sentRestores] using ih
    · simpa [Option.filter, hrestore, sentRestores] using ih

end Runs

/-- From the keyboard to the socket: when the main thread has joined all threads without an exception, the
user has entered commands and then quit, and the restores among the frames that were written are those
that the commands have asked for and confirmed, in their order, each with the ISO text of a date and the
path of a directory. -/
theorem confirmed_restores (fromSimpleString : Bytes → Option Date) (default : Action)
    (events : List Event) (s : Attended)
    (hrun : run (step fromSimpleString) (start default) events = some s)
    (hmain : s.threads.main = .joinResponse) (hresponse : s.threads.response = .ended false) :
    let seen := outputs (step fromSimpleString) (notes fromSimpleString) (start default) events
    ∃ commands quit restores, linesOf seen = commands ++ quit ∧
      Commands fromSimpleString commands restores ∧ Quits quit ∧
      (∀ disks, sentRestores (Deed.framesOf disks (deedsOf seen)) = restores) ∧
      ∀ action ∈ restores, ∃ (d : Date) (path : Entered), path ∈ commands ∧ NamesDirectory path ∧
        action = .ofRestore d.iso path.line := by
  intro seen
  obtain ⟨moves, hmoves, hdeeds⟩ := simulates_threads.run hrun
  rw [outputs_filterMap] at hdeeds
  obtain ⟨hjoins, htidy⟩ := tidy_run hmoves
  have hflag := hjoins.unharmed hmain hresponse
  obtain ⟨hinput, -, hconsumer⟩ := hjoins.response hmain
  have hstands := (follows_run hrun).stands
  unfold Stands at hstands
  rw [hinput] at hstands
  obtain ⟨commands, quit, hlines, hcommands, hquit⟩ := hstands hflag
  have hseen : outputs Threads.step deeds (Threads.start default) moves = deedsOf seen := hdeeds
  have hframes := (htidy.quits hconsumer hflag).2
  rw [hseen] at hframes
  have hsent : ∀ disks,
      sentRestores (Deed.framesOf disks (deedsOf seen)) = queuedRestores (deedsOf seen) := by
    intro disks
    rw [framesOf_eq hframes, sentRestores_frames, restores_written]
    rfl
  exact ⟨commands, quit, _, hlines, hcommands, hquit, hsent, hcommands.restores⟩

/-- Only `/r` is there. -/
def sampleFolders : Folders := ⟨fun path => path = [47, 114], fun path => path = [47, 114], rfl⟩

/-- Boost takes `2023-7-4` for a date, and none of the other lines. -/
def sampleDate (text : Bytes) : Option Date :=
  if text = [50, 48, 50, 51, 45, 55, 45, 52] then
    some ⟨2023, 7, 4, by decide, by decide, by decide⟩
  else none

/-- The user mistypes everything once, restores the fourth of July to `/r`, and quits. -/
def restoringEvents : List Event :=
  let enter line := Event.line ⟨line, sampleFolders⟩
  [enter [120], .thread .inputCheck, .quiet, .thread .inputCheck, enter [82], enter [53], enter
    [50, 48, 50, 51, 45, 55, 45, 52], enter [47], enter [47, 114], enter [109], enter [89],
    .thread .inputPush, .thread .inputCheck, enter [113], enter [], enter [121, 101, 115], .thread .join,
    .thread .pass, .thread .wake, .thread .join, .thread .pop, .thread .send, .thread .pop,
    .thread .sendQuit, .thread .join, .thread .responseCheck, .thread (.serve .other),
    .thread (.serve .finish), .thread .read, .thread .read, .thread .handle, .thread .responseCheck]

theorem confirmed_restores_sample :
    ∃ s, run (step sampleDate) (start (.ofRestore [] [])) restoringEvents = some s ∧
      let seen := outputs (step sampleDate) (notes sampleDate) (start (.ofRestore [] [])) restoringEvents
      ∃ commands quit restores, linesOf seen = commands ++ quit ∧ Commands sampleDate commands restores ∧
        Quits quit ∧ (∀ disks, sentRestores (Deed.framesOf disks (deedsOf seen)) = restores) ∧
        ∀ action ∈ restores, ∃ (d : Date) (path : Entered), path ∈ commands ∧ NamesDirectory path ∧
          action = .ofRestore d.iso path.line :=
  ⟨_, rfl, confirmed_restores sampleDate (.ofRestore [] []) restoringEvents _ rfl rfl rfl⟩

end BackupManager.Client.Terminal
