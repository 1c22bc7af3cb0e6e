import BackupManager.Client.Action
import BackupManager.Transition.Run

/-! The list of pending actions. The action consumer, the server and the response consumer drive one
map, with requests and responses as decoded messages on two channels. -/
namespace BackupManager.Client
open Protocol Table Transition

/-- What is known of an action that was given an index: whether it was ignored, and the responses
that were processed for it. -/
structure Tracked where
  index : ℤ
  action : Action
  ignored : Bool
  responses : List ActionStatus

/-- Not ignored, and no completion was processed. -/
def Tracked.Pending (e : Tracked) : Prop := e.ignored = false ∧ .completed ∉ e.responses

instance : DecidablePred Tracked.Pending := fun _ => inferInstanceAs (Decidable (_ ∧ _))

/-- The action with the status of the last response processed for it. -/
def Tracked.shown (e : Tracked) : Action := { e.action with st := e.responses.getLast?.getD .sent }

def Tracked.answer (index : ℤ) (st : ActionStatus) (e : Tracked) : Tracked :=
  if e.index = index then { e with responses := e.responses ++ [st] } else e

def Tracked.ignore (index : ℤ) (e : Tracked) : Tracked :=
  if e.index = index then { e with ignored := true } else e

structure Exchange where
  /-- The actions still to be popped. -/
  todo : List Action
  /-- The action that `send_action` has given its index. -/
  held : Option (ℤ × Action)
  quitSent : Bool
  responses : ResponseBuffer
  requests : List (ℤ × ActionType)
  /-- The request that was received and is being executed. -/
  executing : Option ℤ
  stopped : Bool
  replies : List (ℤ × ActionStatus)
  /-- The response consumer has not read `finish`. -/
  listening : Bool
  /-- The actions that were added, in order. -/
  ledger : List Tracked

inductive ExchangeEvent where
  | add
  /-- The rest of `send_action`, for a file of this kind. -/
  | send (oversize : Bool)
  | quit
  | receive
  | execute (ok : Bool)
  | process
  deriving DecidableEq, Repr

namespace Exchange

def start (actions : List Action) : Exchange where
  todo := actions
  held := none
  quitSent := false
  responses := .empty
  requests := []
  executing := none
  stopped := false
  replies := []
  listening := true
  ledger := []

def add (s : Exchange) : Option Exchange :=
  match s.held, s.todo with
  | none, action :: todo =>
    let added := s.responses.add action
    some { s with
      todo := todo
      held := some (added.1, action)
      responses := added.2
      ledger := s.ledger ++ [⟨added.1, action, false, []⟩] }
  | _, _ => none

/-- What `send_action` does with the index: it forgets an ignored action, marks a file that is too
large, and sends the others. -/
def send (default : Action) (oversize : Bool) (s : Exchange) : Option Exchange :=
  match s.held with
  | none => none
  | some (index, action) =>
    if action.actionType = .ignore then
      some { s with
        held := none
        responses := s.responses.completed index
        ledger := s.ledger.map (Tracked.ignore index) }
    else if action.actionType = .readFile ∧ oversize then
      some { s with
        held := none
        responses := s.responses.signalError default index
        ledger := s.ledger.map (Tracked.answer index .error) }
    else some { s with held := none, requests := s.requests ++ [(index, action.actionType)] }

/-- The quit frame has the index 0. -/
def quit (s : Exchange) : Option Exchange :=
  if s.todo = [] ∧ s.held.isNone ∧ s.quitSent = false then
    some { s with quitSent := true, requests := s.requests ++ [(0, .quit)] }
  else none

/-- The server reads a request. -/
def receive (s : Exchange) : Option Exchange :=
  match s.stopped, s.executing, s.requests with
  | false, none, (index, actionType) :: requests =>
    if actionType = .quit then
      some { s with requests := requests, stopped := true, replies := s.replies ++ [(0, .finish)] }
    else
      some { s with
        requests := requests
        executing := some index
        replies := s.replies ++ [(index, .received)] }
  | _, _, _ => none

def execute (ok : Bool) (s : Exchange) : Option Exchange :=
  s.executing.map fun index =>
    { s with
      executing := none
      replies := s.replies ++ [(index, if ok then .completed else .error)] }

/-- The `switch` of the response consumer. -/
def respond (default : Action) (index : ℤ) (st : ActionStatus) (s : Exchange) : Exchange :=
  match st with
  | .completed => { s with
      responses := s.responses.completed index
      ledger := s.ledger.map (Tracked.answer index st) }
  | .received => { s with
      responses := s.responses.receive default index
      ledger := s.ledger.map (Tracked.answer index st) }
  | .error => { s with
      responses := s.responses.signalError default index
      ledger := s.ledger.map (Tracked.answer index st) }
  | _ => s

def process (default : Action) (s : Exchange) : Option Exchange :=
  match s.listening, s.replies with
  | true, (index, st) :: replies =>
    some (respond default index st { s with replies := replies, listening := st ≠ .finish })
  | _, _ => none

def step (default : Action) (s : Exchange) : ExchangeEvent → Option Exchange
  | .add => s.add
  | .send oversize => s.send default oversize
  | .quit => s.quit
  | .receive => s.receive
  | .execute ok => s.execute ok
  | .process => s.process default

/-- The pending list is exact: the indices are distinct, the entries that the next response or the
next shortcut changes are there, and the items are the actions that are pending. -/
structure Exact (s : Exchange) : Prop where
  distinct : (s.ledger.map Tracked.index).Nodup
  replied : ∀ r ∈ s.replies.head?, r.2 = .received ∨ r.2 = .error →
    s.responses.responseMap.find? r.1 ≠ none
  shortcut : ∀ h ∈ s.held, s.responses.responseMap.find? h.1 ≠ none
  pending : s.responses.getAll.Perm ((s.ledger.filter Tracked.Pending).map Tracked.shown)

/-- The indices that the responses finish. -/
def finals (replies : List (ℤ × ActionStatus)) : List ℤ :=
  (replies.filter fun r => r.2 = .completed ∨ r.2 = .error).map Prod.fst

/-- The indices whose last response is not processed, in the order of these responses. -/
def unfinished (s : Exchange) : List ℤ :=
  finals s.replies ++ (s.executing.toList ++
    ((s.requests.filter fun r => r.2 ≠ .quit).map Prod.fst ++ s.held.toList.map Prod.fst))

/-- After `received` the last response is still to come. -/
def Orderly (executing : Option ℤ) : List (ℤ × ActionStatus) → Prop
  | [] => True
  | r :: replies => (r.2 = .received → r.1 ∈ finals replies ++ executing.toList) ∧
      Orderly executing replies

/-- The map and the ledger agree. -/
def Stored (b : ResponseBuffer) (ledger : List Tracked) : Prop :=
  ∀ x, x ∈ b.responseMap.entries ↔ ∃ e ∈ ledger, e.Pending ∧ x = (e.index, e.shown)

/-- The action of this index is pending. -/
def Live (ledger : List Tracked) (index : ℤ) : Prop := ∃ e ∈ ledger, e.index = index ∧ e.Pending

structure Invariant (s : Exchange) : Prop where
  numbered : s.ledger.map Tracked.index = (List.range s.ledger.length).map wrapInt
  next : s.responses.currentIndex = wrapInt s.ledger.length
  bounded : s.ledger.length + s.todo.length ≤ 2 ^ 32
  stored : Stored s.responses s.ledger
  nodup : s.unfinished.Nodup
  live : ∀ index ∈ s.unfinished, Live s.ledger index
  orderly : Orderly s.executing s.replies

section Ledger

variable {b : ResponseBuffer} {ledger : List Tracked} {index : ℤ} {st : ActionStatus} {e e₀ : Tracked}

@[simp] theorem index_answer : (e.answer index st).index = e.index := by
  unfold Tracked.answer
  split <;> rfl

@[simp] theorem index_ignore : (e.ignore index).index = e.index := by
  unfold Tracked.ignore
  split <;> rfl

theorem map_index_answer : (ledger.map (Tracked.answer index st)).map Tracked.index =
    ledger.map Tracked.index := by
  rw [List.map_map]
  exact List.map_congr_left fun _ _ => index_answer

theorem map_index_ignore : (ledger.map (Tracked.ignore index)).map Tracked.index =
    ledger.map Tracked.index := by
  rw [List.map_map]
  exact List.map_congr_left fun _ _ => index_ignore

theorem answer_of_ne (h : e.index ≠ index) : e.answer index st = e := if_neg h

theorem ignore_of_ne (h : e.index ≠ index) : e.ignore index = e := if_neg h

theorem pending_answer (hst : st ≠ .completed) (h : e.Pending) : (e.answer index st).Pending := by
  unfold Tracked.answer
  split
  · refine ⟨h.1, ?_⟩
    rw [List.mem_append, List.mem_singleton, not_or]
    exact ⟨h.2, hst.symm⟩
  · exact h

theorem shown_answer_self (h : e.index = index) : (e.answer index st).shown = { e.shown with st := st } := by
  unfold Tracked.answer Tracked.shown
  rw [if_pos h, List.getLast?_append]
  rfl

theorem Live.map {i : ℤ} (h : Live ledger i) {f : Tracked → Tracked}
    (hindex : ∀ e, (f e).index = e.index) (hkept : ∀ e, e.index = i → e.Pending → (f e).Pending) :
    Live (ledger.map f) i := by
  obtain ⟨e, he, rfl, hpending⟩ := h
  exact ⟨f e, List.mem_map_of_mem he, hindex e, hkept e rfl hpending⟩

/-- There is one entry for an index. -/
theorem eq_of_index (hnodup : (ledger.map Tracked.index).Nodup) (he : e ∈ ledger) (he₀ : e₀ ∈ ledger)
    (h : e.index = e₀.index) : e = e₀ := List.inj_on_of_nodup_map hnodup he he₀ h

theorem Stored.find (h : Stored b ledger) (he : e ∈ ledger) (hpending : e.Pending) :
    b.responseMap.find? e.index = some e.shown :=
  SortedMap.find?_eq_some_iff.mpr ((h _).mpr ⟨e, he, hpending, rfl⟩)

/-- An index is found as long as it is pending. -/
theorem Stored.ne_none (h : Stored b ledger) (hlive : Live ledger index) :
    b.responseMap.find? index ≠ none := by
  obtain ⟨e, he, rfl, hpending⟩ := hlive
  rw [h.find he hpending]
  exact Option.some_ne_none _

theorem Stored.add (h : Stored b ledger) (hfresh : ∀ e ∈ ledger, e.index ≠ b.currentIndex)
    (action : Action) :
    Stored (b.add action).2 (ledger ++ [⟨b.currentIndex, action, false, []⟩]) := by
  have hnew : (⟨b.currentIndex, action, false, []⟩ : Tracked).Pending :=
    ⟨rfl, List.not_mem_nil⟩
  intro x
  rw [ResponseBuffer.add, SortedMap.mem_entries_assign, h x]
  constructor
  · rintro (rfl | ⟨⟨e, he, hpending, rfl⟩, -⟩)
    · exact ⟨_, List.mem_append_right _ List.mem_cons_self, hnew, rfl⟩
    · exact ⟨e, List.mem_append_left _ he, hpending, rfl⟩
  · rintro ⟨e, he, hpending, rfl⟩
    rcases List.mem_append.mp he with hold | hlast
    · exact Or.inr ⟨⟨e, hold, hpending, rfl⟩, hfresh e hold⟩
    · rw [List.mem_singleton.mp hlast]
      exact Or.inl rfl

/-- A status is set for an index that is pending. -/
theorem Stored.setStatus (h : Stored b ledger) (hnodup : (ledger.map Tracked.index).Nodup)
    (hlive : Live ledger index) (hst : st ≠ .completed) (default : Action) :
    Stored (b.setStatus default index st) (ledger.map (Tracked.answer index st)) := by
  obtain ⟨e₀, he₀, rfl, hpending₀⟩ := hlive
  intro x
  rw [ResponseBuffer.setStatus, h.find he₀ hpending₀, Option.getD_some,
    SortedMap.mem_entries_assign, h x]
  constructor
  · rintro (rfl | ⟨⟨e, he, hpending, rfl⟩, hne⟩)
    · refine ⟨_, List.mem_map_of_mem he₀, pending_answer hst hpending₀, ?_⟩
      rw [index_answer, shown_answer_self rfl]
    · refine ⟨_, List.mem_map_of_mem he, pending_answer hst hpending, ?_⟩
      rw [answer_of_ne hne]
  · rintro ⟨e', he', hpending, rfl⟩
    obtain ⟨e, he, rfl⟩ := List.mem_map.mp he'
    by_cases hindex : e.index = e₀.index
    · rw [eq_of_index hnodup he he₀ hindex, index_answer, shown_answer_self rfl]
      exact Or.inl rfl
    · rw [answer_of_ne hindex] at hpending ⊢
      exact Or.inr ⟨⟨e, he, hpending, rfl⟩, hindex⟩

/-- What is erased is no longer pending, whatever `f` notes about it. -/
theorem Stored.completed (h : Stored b ledger) {f : Tracked → Tracked}
    (hself : ∀ e, e.index = index → ¬(f e).Pending)
    (hother : ∀ e, e.index ≠ index → f e = e) : Stored (b.completed index) (ledger.map f) := by
  intro x
  rw [ResponseBuffer.completed, SortedMap.mem_entries_erase, h x]
  constructor
  · rintro ⟨⟨e, he, hpending, rfl⟩, hne⟩
    refine ⟨_, List.mem_map_of_mem he, ?_, ?_⟩
    · rwa [hother e hne]
    · rw [hother e hne]
  · rintro ⟨e', he', hpending, rfl⟩
    obtain ⟨e, he, rfl⟩ := List.mem_map.mp he'
    by_cases hne : e.index = index
    · exact absurd hpending (hself e hne)
    · rw [hother e hne] at hpending ⊢
      exact ⟨⟨e, he, hpending, rfl⟩, hne⟩

theorem not_pending_answer (h : e.index = index) : ¬(e.answer index .completed).Pending := by
  unfold Tracked.answer
  rw [if_pos h]
  exact fun hpending => hpending.2 (List.mem_append_right _ List.mem_cons_self)

theorem not_pending_ignore (h : e.index = index) : ¬(e.ignore index).Pending := by
  unfold Tracked.ignore
  rw [if_pos h]
  exact fun hpending => absurd hpending.1 (by simp)

end Ledger

section Channels

variable {s s' : Exchange} {replies : List (ℤ × ActionStatus)} {executing executing' : Option ℤ}
  {r : ℤ × ActionStatus}

theorem finals_append (replies : List (ℤ × ActionStatus)) (r : ℤ × ActionStatus) :
    finals (replies ++ [r]) =
      finals replies ++ if r.2 = .completed ∨ r.2 = .error then [r.1] else [] := by
  unfold finals
  rw [List.filter_append, List.map_append, List.filter_singleton]
  split <;> simp_all

theorem finals_cons (replies : List (ℤ × ActionStatus)) (r : ℤ × ActionStatus) :
    finals (r :: replies) =
      (if r.2 = .completed ∨ r.2 = .error then [r.1] else []) ++ finals replies := by
  unfold finals
  rw [List.filter_cons]
  split <;> simp_all

/-- The server's next response, when what it promises stays the same. -/
theorem Orderly.append (h : Orderly executing replies)
    (hkept : ∀ l, ∀ i ∈ finals l ++ executing.toList, i ∈ finals (l ++ [r]) ++ executing'.toList)
    (hnew : r.2 = .received → r.1 ∈ executing'.toList) : Orderly executing' (replies ++ [r]) := by
  induction replies with
  | nil => exact ⟨fun hr => List.mem_append_right _ (hnew hr), trivial⟩
  | cons r' replies ih => exact ⟨fun hr => hkept replies _ (h.1 hr), ih h.2⟩

theorem Invariant.index_nodup (h : s.Invariant) : (s.ledger.map Tracked.index).Nodup := by
  rw [h.numbered]
  apply List.Nodup.map_on _ List.nodup_range
  intro k hk l hl heq
  have hbound := h.bounded
  rw [List.mem_range] at hk hl
  exact wrapInt_injective (by omega) (by omega) heq

theorem Invariant.exact (h : s.Invariant) : s.Exact := by
  have hlive : ∀ index ∈ s.unfinished, s.responses.responseMap.find? index ≠ none :=
    fun index hindex => h.stored.ne_none (h.live index hindex)
  constructor
  case distinct => exact h.index_nodup
  case replied =>
    intro r hr hst
    apply hlive
    have horderly := h.orderly
    unfold unfinished
    cases hreplies : s.replies with
    | nil =>
      rw [hreplies] at hr
      exact absurd hr (by simp)
    | cons r' replies =>
      rw [hreplies] at hr horderly
      obtain rfl : r' = r := by simpa using hr
      rw [finals_cons]
      rcases hst with hst | hst
      · have hmem := horderly.1 hst
        rw [if_neg (by simp [hst]), List.nil_append, ← List.append_assoc]
        exact List.mem_append_left _ hmem
      · rw [if_pos (Or.inr hst)]
        exact List.mem_append_left _ List.mem_cons_self
  case shortcut =>
    intro x hx
    apply hlive
    unfold unfinished
    rw [Option.mem_def.mp hx]
    simp
  case pending =>
    have hpairs : s.responses.responseMap.entries.Perm
        ((s.ledger.filter Tracked.Pending).map fun e => (e.index, e.shown)) := by
      rw [List.perm_ext_iff_of_nodup]
      · intro x
        rw [h.stored x, List.mem_map]
        constructor
        · rintro ⟨e, he, hpending, rfl⟩
          exact ⟨e, List.mem_filter.mpr ⟨he, by simpa using hpending⟩, rfl⟩
        · rintro ⟨e, he, rfl⟩
          obtain ⟨he, hpending⟩ := List.mem_filter.mp he
          exact ⟨e, he, by simpa using hpending, rfl⟩
      · exact List.Nodup.of_map Prod.fst s.responses.responseMap.nodup_keys
      · apply List.Nodup.of_map Prod.fst
        rw [List.map_map]
        exact (h.index_nodup.sublist (List.filter_sublist.map _))
    have hitems := hpairs.map Prod.snd
    rwa [List.map_map] at hitems

/-- The new index has not been given before. -/
theorem Invariant.fresh (h : s.Invariant) (hroom : s.ledger.length < 2 ^ 32) :
    ∀ e ∈ s.ledger, e.index ≠ s.responses.currentIndex := by
  intro e he heq
  have hmem : e.index ∈ (List.range s.ledger.length).map wrapInt := by
    rw [← h.numbered]
    exact List.mem_map_of_mem he
  obtain ⟨k, hk, hindex⟩ := List.mem_map.mp hmem
  rw [heq, h.next] at hindex
  rw [List.mem_range] at hk
  have hlength := wrapInt_injective (by omega) hroom hindex
  omega

theorem Invariant.add (h : s.Invariant) (hstep : s.add = some s') : s'.Invariant := by
  unfold Exchange.add at hstep
  split at hstep
  case h_2 => exact absurd hstep (by simp)
  case h_1 action todo hheld htodo =>
    obtain rfl := Option.some.inj hstep
    have hbound := h.bounded
    rw [htodo, List.length_cons] at hbound
    have hfresh := h.fresh (by omega)
    have hopen : s.unfinished = finals s.replies ++ (s.executing.toList ++
        (s.requests.filter fun r => r.2 ≠ .quit).map Prod.fst) := by
      unfold unfinished
      rw [hheld]
      simp
    have hopen' : Exchange.unfinished { s with
        todo := todo
        held := some ((s.responses.add action).1, action)
        responses := (s.responses.add action).2
        ledger := s.ledger ++ [⟨(s.responses.add action).1, action, false, []⟩] } =
          s.unfinished ++ [s.responses.currentIndex] := by
      rw [hopen]
      simp [unfinished, ResponseBuffer.add]
    constructor
    case numbered =>
      dsimp only
      rw [List.map_append, h.numbered, List.length_append, List.length_singleton, List.range_succ,
        List.map_append, List.map_singleton, List.map_singleton]
      exact congrArg (fun i => _ ++ [i]) h.next
    case next =>
      dsimp only
      rw [List.length_append, List.length_singleton, wrapInt_succ, ← h.next]
      rfl
    case bounded =>
      dsimp only
      rw [List.length_append, List.length_singleton]
      omega
    case stored => exact h.stored.add hfresh action
    case nodup =>
      rw [hopen', List.nodup_append]
      refine ⟨h.nodup, List.nodup_singleton _, fun i hi j hj heq => ?_⟩
      obtain ⟨e, he, hindex, -⟩ := h.live i hi
      rw [List.mem_singleton.mp hj] at heq
      exact hfresh e he (hindex.trans heq)
    case live =>
      intro i hi
      rw [hopen', List.mem_append, List.mem_singleton] at hi
      rcases hi with hi | rfl
      · obtain ⟨e, he, hlive⟩ := h.live i hi
        exact ⟨e, List.mem_append_left _ he, hlive⟩
      · exact ⟨_, List.mem_append_right _ List.mem_cons_self, rfl, rfl, List.not_mem_nil⟩
    case orderly => exact h.orderly

theorem numbered_map {f : Tracked → Tracked} (h : s.Invariant)
    (hindex : (s.ledger.map f).map Tracked.index = s.ledger.map Tracked.index) :
    (s.ledger.map f).map Tracked.index = (List.range (s.ledger.map f).length).map wrapInt := by
  rw [hindex, h.numbered, List.length_map]

/-- A shortcut: the held action leaves, and its entry is changed. -/
theorem Invariant.shortcut (h : s.Invariant) {index : ℤ} {action : Action}
    (hheld : s.held = some (index, action)) {b : ResponseBuffer} {f : Tracked → Tracked}
    (hindex : ∀ e, (f e).index = e.index) (hother : ∀ e, e.index ≠ index → f e = e)
    (hcurrent : b.currentIndex = s.responses.currentIndex) (hstored : Stored b (s.ledger.map f)) :
    Invariant { s with held := none, responses := b, ledger := s.ledger.map f } := by
  have hopen : s.unfinished =
      Exchange.unfinished { s with held := none, responses := b, ledger := s.ledger.map f } ++
        [index] := by
    simp [unfinished, hheld]
  have hsplit := h.nodup
  rw [hopen, List.nodup_append] at hsplit
  have hmap : (s.ledger.map f).map Tracked.index = s.ledger.map Tracked.index := by
    rw [List.map_map]
    exact List.map_congr_left fun e _ => hindex e
  constructor
  case numbered => exact numbered_map h hmap
  case next =>
    dsimp only
    rw [hcurrent, h.next, List.length_map]
  case bounded =>
    dsimp only
    rw [List.length_map]
    exact h.bounded
  case stored => exact hstored
  case nodup => exact hsplit.1
  case live =>
    intro i hi
    have hlive := h.live i (hopen ▸ List.mem_append_left _ hi)
    apply hlive.map hindex
    intro e he hpending
    have hne : e.index ≠ index := by
      rw [he]
      exact hsplit.2.2 i hi index List.mem_cons_self
    rwa [hother e hne]
  case orderly => exact h.orderly

theorem Invariant.held_live (h : s.Invariant) {index : ℤ} {action : Action}
    (hheld : s.held = some (index, action)) : Live s.ledger index := by
  apply h.live
  unfold unfinished
  rw [hheld]
  simp

/-- A step that leaves the map, the ledger and the list of actions alone. -/
theorem Invariant.frame (h : s.Invariant) (hledger : s'.ledger = s.ledger)
    (hresponses : s'.responses = s.responses) (htodo : s'.todo = s.todo)
    (hopen : s'.unfinished.Sublist s.unfinished) (horderly : Orderly s'.executing s'.replies) :
    s'.Invariant := by
  constructor
  case numbered =>
    rw [hledger]
    exact h.numbered
  case next =>
    rw [hledger, hresponses]
    exact h.next
  case bounded =>
    rw [hledger, htodo]
    exact h.bounded
  case stored =>
    rw [hledger, hresponses]
    exact h.stored
  case nodup => exact h.nodup.sublist hopen
  case live =>
    intro i hi
    rw [hledger]
    exact h.live i (hopen.subset hi)
  case orderly => exact horderly

theorem Invariant.send (h : s.Invariant) {default : Action} {oversize : Bool}
    (hstep : s.send default oversize = some s') : s'.Invariant := by
  unfold Exchange.send at hstep
  split at hstep
  case h_1 => exact absurd hstep (by simp)
  case h_2 index action hheld =>
    have hlive := h.held_live hheld
    split at hstep
    case isTrue =>
      obtain rfl := Option.some.inj hstep
      refine h.shortcut hheld (fun _ => index_ignore) (fun _ => ignore_of_ne) rfl ?_
      exact h.stored.completed (fun _ => not_pending_ignore) fun _ => ignore_of_ne
    case isFalse =>
      split at hstep
      case isTrue =>
        obtain rfl := Option.some.inj hstep
        refine h.shortcut hheld (fun _ => index_answer) (fun _ => answer_of_ne) rfl ?_
        exact h.stored.setStatus h.index_nodup hlive (by simp) default
      case isFalse =>
        obtain rfl := Option.some.inj hstep
        refine h.frame rfl rfl rfl ?_ h.orderly
        simp only [unfinished, List.filter_append, List.map_append, hheld, List.append_assoc]
        apply List.Sublist.append_left
        apply List.Sublist.append_left
        apply List.Sublist.append_left
        rw [Option.toList_none, List.map_nil, List.append_nil]
        exact List.filter_sublist.map Prod.fst

theorem Invariant.quit (h : s.Invariant) (hstep : s.quit = some s') : s'.Invariant := by
  unfold Exchange.quit at hstep
  rw [Option.ite_none_right_eq_some] at hstep
  obtain rfl := Option.some.inj hstep.2
  refine h.frame rfl rfl rfl ?_ h.orderly
  simp [unfinished]

theorem Invariant.receive (h : s.Invariant) (hstep : s.receive = some s') : s'.Invariant := by
  unfold Exchange.receive at hstep
  split at hstep
  case h_2 => exact absurd hstep (by simp)
  case h_1 index actionType requests hstopped hexecuting hrequests =>
    have horderly := h.orderly
    rw [hexecuting] at horderly
    split at hstep
    case isTrue hquit =>
      obtain rfl := Option.some.inj hstep
      refine h.frame rfl rfl rfl ?_ ?_
      · simp [unfinished, hrequests, hquit, finals_append]
      · dsimp only
        rw [hexecuting]
        apply horderly.append
        · intro l i hi
          rw [finals_append]
          simpa using hi
        · exact fun hr => absurd hr (by simp)
    case isFalse hquit =>
      obtain rfl := Option.some.inj hstep
      refine h.frame rfl rfl rfl ?_ ?_
      · simp [unfinished, hrequests, hexecuting, hquit, finals_append]
      · apply horderly.append
        · intro l i hi
          rw [finals_append]
          simp only [Option.toList_none, List.append_nil] at hi
          exact List.mem_append_left _ (List.mem_append_left _ hi)
        · exact fun _ => List.mem_cons_self

theorem Invariant.execute (h : s.Invariant) {ok : Bool} (hstep : s.execute ok = some s') :
    s'.Invariant := by
  obtain ⟨index, hexecuting, rfl⟩ := Option.map_eq_some_iff.mp hstep
  have horderly := h.orderly
  rw [hexecuting] at horderly
  have hfinal : (if ok then ActionStatus.completed else .error) = .completed ∨
      (if ok then ActionStatus.completed else .error) = .error := by
    cases ok
    · exact Or.inr rfl
    · exact Or.inl rfl
  refine h.frame rfl rfl rfl ?_ ?_
  · simp [unfinished, hexecuting, finals_append]
  · apply horderly.append
    · intro l i hi
      rw [finals_append, if_pos hfinal]
      simpa using hi
    · intro hr
      rcases hfinal with hst | hst
      · exact absurd (hst.symm.trans hr) (by simp)
      · exact absurd (hst.symm.trans hr) (by simp)

/-- The last response for an index is processed. -/
theorem Invariant.finish (h : s.Invariant) {index : ℤ} {st : ActionStatus}
    {replies : List (ℤ × ActionStatus)} (hreplies : s.replies = (index, st) :: replies)
    (hst : st = .completed ∨ st = .error) {b : ResponseBuffer}
    (hcurrent : b.currentIndex = s.responses.currentIndex)
    (hstored : Stored b (s.ledger.map (Tracked.answer index st))) (listening : Bool) :
    Invariant { s with
      replies := replies
      listening := listening
      responses := b
      ledger := s.ledger.map (Tracked.answer index st) } := by
  have hopen : s.unfinished = index :: Exchange.unfinished { s with
      replies := replies
      listening := listening
      responses := b
      ledger := s.ledger.map (Tracked.answer index st) } := by
    unfold unfinished
    rw [hreplies, finals_cons, if_pos hst]
    rfl
  have hsplit := h.nodup
  rw [hopen, List.nodup_cons] at hsplit
  have horderly := h.orderly
  rw [hreplies] at horderly
  constructor
  case numbered => exact numbered_map h map_index_answer
  case next =>
    dsimp only
    rw [hcurrent, h.next, List.length_map]
  case bounded =>
    dsimp only
    rw [List.length_map]
    exact h.bounded
  case stored => exact hstored
  case nodup => exact hsplit.2
  case live =>
    intro i hi
    have hlive := h.live i (hopen ▸ List.mem_cons_of_mem _ hi)
    apply hlive.map (fun _ => index_answer)
    intro e he hpending
    have hne : e.index ≠ index := by
      rw [he]
      rintro rfl
      exact hsplit.1 hi
    rwa [answer_of_ne hne]
  case orderly => exact horderly.2

/-- A response after which another is to come. -/
theorem Invariant.acknowledge (h : s.Invariant) {index : ℤ} {replies : List (ℤ × ActionStatus)}
    (hreplies : s.replies = (index, .received) :: replies) (default : Action) (listening : Bool) :
    Invariant { s with
      replies := replies
      listening := listening
      responses := s.responses.receive default index
      ledger := s.ledger.map (Tracked.answer index .received) } := by
  have hopen : s.unfinished = Exchange.unfinished { s with
      replies := replies
      listening := listening
      responses := s.responses.receive default index
      ledger := s.ledger.map (Tracked.answer index .received) } := by
    unfold unfinished
    rw [hreplies, finals_cons, if_neg (by simp)]
    rfl
  have horderly := h.orderly
  rw [hreplies] at horderly
  have hlive : Live s.ledger index := by
    apply h.live
    rw [hopen]
    unfold unfinished
    rw [← List.append_assoc]
    exact List.mem_append_left _ (horderly.1 rfl)
  constructor
  case numbered => exact numbered_map h map_index_answer
  case next =>
    dsimp only
    rw [List.length_map]
    exact h.next
  case bounded =>
    dsimp only
    rw [List.length_map]
    exact h.bounded
  case stored => exact h.stored.setStatus h.index_nodup hlive (by simp) default
  case nodup => exact hopen ▸ h.nodup
  case live =>
    intro i hi
    have hold := h.live i (hopen ▸ hi)
    exact hold.map (fun _ => index_answer) fun _ _ hpending => pending_answer (by simp) hpending
  case orderly => exact horderly.2

theorem Invariant.process (h : s.Invariant) {default : Action}
    (hstep : s.process default = some s') : s'.Invariant := by
  unfold Exchange.process at hstep
  split at hstep
  case h_2 => exact absurd hstep (by simp)
  case h_1 index st replies hlistening hreplies =>
    obtain rfl := Option.some.inj hstep
    have hskip (hst : ¬(st = .completed ∨ st = .error)) (horderly : Orderly s.executing replies) :
        Invariant { s with replies := replies, listening := st ≠ .finish } := by
      refine h.frame rfl rfl rfl ?_ horderly
      unfold unfinished
      rw [hreplies, finals_cons, if_neg hst]
      exact List.Sublist.refl _
    have horderly := h.orderly
    rw [hreplies] at horderly
    cases st with
    | completed =>
      dsimp only [respond]
      refine h.finish (b := s.responses.completed index) hreplies (Or.inl rfl) rfl ?_ _
      exact h.stored.completed (fun _ => not_pending_answer) fun _ => answer_of_ne
    | error =>
      have hlive : Live s.ledger index := by
        apply h.live
        unfold unfinished
        rw [hreplies, finals_cons, if_pos (Or.inr rfl)]
        exact List.mem_append_left _ List.mem_cons_self
      dsimp only [respond]
      refine h.finish (b := s.responses.signalError default index) hreplies (Or.inr rfl) rfl ?_ _
      exact h.stored.setStatus h.index_nodup hlive (by simp) default
    | received => exact h.acknowledge hreplies default _
    | created => exact hskip (by simp) horderly.2
    | sent => exact hskip (by simp) horderly.2
    | finish => exact hskip (by simp) horderly.2

theorem Invariant.step (h : s.Invariant) {default : Action} {e : ExchangeEvent}
    (hstep : s.step default e = some s') : s'.Invariant := by
  cases e with
  | add => exact h.add hstep
  | send oversize => exact h.send hstep
  | quit => exact h.quit hstep
  | receive => exact h.receive hstep
  | execute ok => exact h.execute hstep
  | process => exact h.process hstep

theorem invariant_start {actions : List Action} (hcount : actions.length ≤ 2 ^ 32) :
    (start actions).Invariant := by
  constructor
  case numbered => rfl
  case next => exact wrapInt_zero.symm
  case bounded => simpa [start] using hcount
  case stored => simp [Stored, start, ResponseBuffer.empty, SortedMap.empty]
  case nodup => exact List.nodup_nil
  case live => exact fun i hi => absurd hi List.not_mem_nil
  case orderly => trivial

end Channels

end Exchange

open Exchange in
/-- The pending list is exact in every reachable state, as long as the actions are not more than
the values of an `int`. -/
theorem pending_list (default : Action) (actions : List Action) (hcount : actions.length ≤ 2 ^ 32)
    (events : List ExchangeEvent) (s : Exchange)
    (hrun : run (Exchange.step default) (start actions) events = some s) : s.Exact :=
  (run_keeps (fun _ _ _ h hstep => h.step hstep) (invariant_start hcount) hrun).exact

section Samples

/-- A folder that was modified; such an action is not sent. -/
def ignoredAction : Action := .ofStatus true [47] .modified .created

/-- A new file. -/
def createdAction (letter : UInt8) : Action := .ofStatus false [letter] .created .created

/-- One action is ignored, one is too large, one is sent and received. -/
def threeActions : List ExchangeEvent :=
  [.add, .send false, .add, .send true, .add, .send false, .receive, .process]

def afterThree : Exchange :=
  ((run (Exchange.step ignoredAction) (.start [ignoredAction, createdAction 97, createdAction 98])
    threeActions).getD (.start []))

theorem pending_list_three :
    afterThree.responses.getAll.Perm [{ createdAction 97 with st := .error },
      { createdAction 98 with st := .received }] :=
  (pending_list ignoredAction [ignoredAction, createdAction 97, createdAction 98] (by decide)
    threeActions afterThree rfl).pending

/-- Every action is added and ignored. -/
def rounds : ℕ → List ExchangeEvent
  | 0 => []
  | n + 1 => .add :: .send false :: rounds n

theorem ignored_round {s : Exchange} {todo : List Action} (hheld : s.held = none)
    (htodo : s.todo = ignoredAction :: todo) :
    ∃ s₁ s₂, s.step ignoredAction .add = some s₁ ∧ s₁.step ignoredAction (.send false) = some s₂ ∧
      s₂.held = none ∧ s₂.todo = todo ∧
      s₂.ledger.map Tracked.index = s.ledger.map Tracked.index ++ [s.responses.currentIndex] ∧
      s₂.responses.currentIndex = ByteStream.Prog.intSucc s.responses.currentIndex := by
  have hadd : s.step ignoredAction .add = some { s with
      todo := todo
      held := some (s.responses.currentIndex, ignoredAction)
      responses := (s.responses.add ignoredAction).2
      ledger := s.ledger ++ [⟨s.responses.currentIndex, ignoredAction, false, []⟩] } := by
    rw [Exchange.step, Exchange.add, hheld, htodo]
    rfl
  refine ⟨_, _, hadd, rfl, rfl, rfl, ?_, rfl⟩
  rw [Exchange.map_index_ignore, List.map_append]
  rfl

theorem run_ignored (n : ℕ) {k : ℕ} {s : Exchange} (hheld : s.held = none)
    (htodo : s.todo = List.replicate n ignoredAction)
    (hnumbered : s.ledger.map Tracked.index = (List.range k).map wrapInt)
    (hnext : s.responses.currentIndex = wrapInt k) :
    ∃ s', run (Exchange.step ignoredAction) s (rounds n) = some s' ∧
      s'.ledger.map Tracked.index = (List.range (k + n)).map wrapInt := by
  induction n generalizing k s with
  | zero => exact ⟨s, rfl, hnumbered⟩
  | succ n ih =>
    obtain ⟨s₁, s₂, hadd, hsend, hheld', htodo', hledger, hindex⟩ := ignored_round hheld htodo
    have hnumbered' : s₂.ledger.map Tracked.index = (List.range (k + 1)).map wrapInt := by
      rw [hledger, hnumbered, hnext, List.range_succ, List.map_append, List.map_singleton]
    have hnext' : s₂.responses.currentIndex = wrapInt (k + 1) := by
      rw [hindex, hnext, wrapInt_succ]
    obtain ⟨s', hrun, hindices⟩ := ih hheld' htodo' hnumbered' hnext'
    refine ⟨s', ?_, ?_⟩
    · exact run_cons_eq_some.mpr ⟨s₁, hadd, run_cons_eq_some.mpr ⟨s₂, hsend, hrun⟩⟩
    · rw [hindices, Nat.add_right_comm, Nat.add_assoc]

/-- After `2 ^ 32` actions the indices begin again. -/
theorem pending_list_wrapped : ¬∀ (default : Action) (actions : List Action)
    (events : List ExchangeEvent) (s : Exchange),
    run (Exchange.step default) (.start actions) events = some s → s.Exact := by
  intro h
  have hdistinct (n : ℕ) : ((List.range n).map wrapInt).Nodup := by
    obtain ⟨s, hrun, hindices⟩ := run_ignored n (k := 0)
      (s := .start (List.replicate n ignoredAction)) rfl rfl rfl wrapInt_zero.symm
    have hexact := (h _ _ _ s hrun).distinct
    rwa [hindices, Nat.zero_add] at hexact
  have hfirst : 0 ∈ List.range (2 ^ 32 + 1) := List.mem_range.mpr (by decide)
  have hlast : 2 ^ 32 ∈ List.range (2 ^ 32 + 1) := List.mem_range.mpr (by decide)
  have hwrapped : wrapInt 0 = wrapInt (2 ^ 32) := by decide
  have heq := List.inj_on_of_nodup_map (hdistinct (2 ^ 32 + 1)) hfirst hlast hwrapped
  exact absurd heq (by decide)

end Samples

end BackupManager.Client
