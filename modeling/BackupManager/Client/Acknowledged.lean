import BackupManager.Client.PendingList

/-! The pending list against what the server has done: an action that the list no longer shows has been
carried out, whenever the run is cut, and after the last response the list holds what has failed. -/
namespace BackupManager.Client.Exchange
open Protocol Table Transition

def finalOf (ok : Bool) : ActionStatus := if ok then .completed else .error

/-- The requests that the server executes, with the outcome of each. -/
def executions (s : Exchange) : ExchangeEvent → List (ℤ × Bool)
  | .execute ok => s.executing.toList.map fun index => (index, ok)
  | _ => []

/-- The indices of the requests that were carried out, in the order in which they were. -/
def carriedOut (done : List (ℤ × Bool)) : List ℤ := (done.filter Prod.snd).map Prod.fst

/-- The indices that are still to be executed. -/
def coming (s : Exchange) : List ℤ :=
  s.executing.toList ++ ((s.requests.filter fun r => r.2 ≠ .quit).map Prod.fst ++
    s.held.toList.map Prod.fst)

/-- Both responses to a request. -/
def answersOf (d : ℤ × Bool) : List (ℤ × ActionStatus) := [(d.1, .received), (d.1, finalOf d.2)]

/-- All responses that the server has written. -/
def written (done : List (ℤ × Bool)) (s : Exchange) : List (ℤ × ActionStatus) :=
  done.flatMap answersOf ++ (s.executing.toList.map fun index => (index, .received)) ++
    if s.stopped then [(0, .finish)] else []

/-- The statuses that were processed for an index. -/
def answersTo (index : ℤ) (seen : List (ℤ × ActionStatus)) : List ActionStatus :=
  (seen.filter fun r => r.1 = index ∧ r.2 ≠ .finish).map Prod.snd

/-- What has become of an entry of the ledger. -/
inductive Accounted (travelling : List ℤ) (seen : List (ℤ × ActionStatus)) (e : Tracked) : Prop where
  | requested (travels : e.index ∈ travelling) (kept : e.ignored = false)
      (answers : e.responses = answersTo e.index seen) : Accounted travelling seen e
  | ignored (stays : e.index ∉ travelling) (dropped : e.ignored = true) : Accounted travelling seen e
  | oversize (stays : e.index ∉ travelling) (kept : e.ignored = false)
      (answers : e.responses = [.error]) : Accounted travelling seen e

/-- The books of a run: what was executed and what is to be executed stands in the order of the ledger,
and the client has processed the first of the responses. -/
structure Audit (done : List (ℤ × Bool)) (seen : List (ℤ × ActionStatus)) (s : Exchange) : Prop where
  ordered : (done.map Prod.fst ++ s.coming).Sublist (s.ledger.map Tracked.index)
  written : written done s = seen ++ s.replies
  entries : ∀ e ∈ s.ledger, Accounted (done.map Prod.fst ++ s.coming) seen e
  quits : s.quitSent = true → s.todo = [] ∧ s.held = none
  requests : ∃ l : List (ℤ × ActionType), (∀ r ∈ l, r.2 ≠ .quit) ∧
    s.requests = l ++ if s.quitSent && !s.stopped then [(0, .quit)] else []
  stops : s.stopped = true → s.quitSent = true ∧ s.requests = [] ∧ s.executing = none
  listens : s.listening = false ↔ ∃ index, (index, .finish) ∈ seen
  actions : ∀ action ∈ s.todo ++ s.held.toList.map Prod.snd, action.actionType ≠ .quit

section Lists

variable {done : List (ℤ × Bool)} {seen : List (ℤ × ActionStatus)} {s : Exchange} {index : ℤ}
  {st : ActionStatus}

theorem finalOf_ne (ok : Bool) : finalOf ok ≠ .finish ∧ finalOf ok ≠ .received := by
  cases ok <;> exact ⟨nofun, nofun⟩

theorem mem_carriedOut : index ∈ carriedOut done ↔ (index, true) ∈ done := by
  simp [carriedOut]

/-- A response belongs to a request that is executed, or is the last one. -/
theorem mem_written (h : (index, st) ∈ written done s) :
    (st = .finish ∧ index = 0 ∧ s.stopped = true) ∨ (st = .received ∧ index ∈ s.executing) ∨
      ∃ ok, (index, ok) ∈ done ∧ (st = .received ∨ st = finalOf ok) := by
  rw [written, List.mem_append, List.mem_append, List.mem_flatMap, List.mem_map] at h
  rcases h with (⟨d, hd, hanswer⟩ | ⟨i, hi, heq⟩) | hlast
  · rcases List.mem_cons.mp hanswer with heq | hrest
    · obtain ⟨rfl, rfl⟩ := Prod.mk.inj heq
      exact Or.inr (Or.inr ⟨d.2, hd, Or.inl rfl⟩)
    · obtain ⟨rfl, rfl⟩ := Prod.mk.inj (List.mem_singleton.mp hrest)
      exact Or.inr (Or.inr ⟨d.2, hd, Or.inr rfl⟩)
  · obtain ⟨rfl, rfl⟩ := Prod.mk.inj heq
    exact Or.inr (Or.inl ⟨rfl, Option.mem_toList.mp hi⟩)
  · split at hlast
    · next hstopped =>
      obtain ⟨rfl, rfl⟩ := Prod.mk.inj (List.mem_singleton.mp hlast)
      exact Or.inl ⟨rfl, rfl, hstopped⟩
    · cases hlast

/-- Only a request that has got as far as the server is answered. -/
theorem mem_of_written (h : (index, st) ∈ written done s) (hst : st ≠ .finish) :
    index ∈ done.map Prod.fst ++ s.coming := by
  rcases mem_written h with ⟨hfinish, -⟩ | ⟨-, hexecuting⟩ | ⟨ok, hok, -⟩
  · exact absurd hfinish hst
  · exact List.mem_append_right _ (List.mem_append_left _ (Option.mem_toList.mpr hexecuting))
  · exact List.mem_append_left _ (List.mem_map.mpr ⟨(index, ok), hok, rfl⟩)

theorem answersTo_append (index : ℤ) (seen : List (ℤ × ActionStatus)) (r : ℤ × ActionStatus) :
    answersTo index (seen ++ [r]) =
      answersTo index seen ++ if r.1 = index ∧ r.2 ≠ .finish then [r.2] else [] := by
  rw [answersTo, List.filter_append, List.map_append, answersTo]
  by_cases h : r.1 = index ∧ r.2 ≠ .finish
  · rw [if_pos h, List.filter_cons_of_pos (by simpa using h)]
    rfl
  · rw [if_neg h, List.filter_cons_of_neg (by simpa using h)]
    rfl

theorem answersTo_of_not_mem (h : ∀ st, st ≠ .finish → (index, st) ∉ seen) : answersTo index seen = [] := by
  rw [answersTo, List.map_eq_nil_iff, List.filter_eq_nil_iff]
  rintro ⟨i, st⟩ hr
  rw [decide_eq_true_eq]
  rintro ⟨rfl, hst⟩
  exact h st hst hr

theorem mem_snoc_of_ne {index' : ℤ} {l l' : List ℤ} (h : index ≠ index') :
    index ∈ l ++ l' ↔ index ∈ l ++ (l' ++ [index']) := by simp [h]

/-- An entry is accounted for in the same way as long as the lists say the same about its index. -/
theorem Accounted.congr {travelling travelling' : List ℤ} {seen' : List (ℤ × ActionStatus)} {e : Tracked}
    (h : Accounted travelling seen e) (htravels : e.index ∈ travelling ↔ e.index ∈ travelling')
    (hanswers : e.index ∈ travelling → answersTo e.index seen = answersTo e.index seen') :
    Accounted travelling' seen' e := by
  cases h with
  | requested travels kept answers =>
    exact .requested (htravels.mp travels) kept (answers.trans (hanswers travels))
  | ignored stays dropped => exact .ignored (fun hmem => stays (htravels.mpr hmem)) dropped
  | oversize stays kept answers => exact .oversize (fun hmem => stays (htravels.mpr hmem)) kept answers

end Lists

section Steps

variable {done : List (ℤ × Bool)} {seen : List (ℤ × ActionStatus)} {s s' : Exchange} {index : ℤ}

/-- An index that is still held has had no response. -/
theorem Audit.answersTo_held (h : Audit done seen s) (hnodup : (done.map Prod.fst ++ s.coming).Nodup)
    {action : Action} (hheld : s.held = some (index, action)) : answersTo index seen = [] := by
  apply answersTo_of_not_mem
  intro st hst hmem
  have hwritten : (index, st) ∈ Exchange.written done s := by
    rw [h.written]
    exact List.mem_append_left _ hmem
  have hcoming : s.coming = s.executing.toList ++
      (s.requests.filter fun r => r.2 ≠ .quit).map Prod.fst ++ [index] := by
    simp [coming, hheld]
  rw [hcoming, ← List.append_assoc, List.nodup_append] at hnodup
  rcases mem_written hwritten with ⟨hfinish, -⟩ | ⟨-, hexecuting⟩ | ⟨ok, hok, -⟩
  · exact hst hfinish
  · exact hnodup.2.2 index (List.mem_append_right _ (List.mem_append_left _
      (Option.mem_toList.mpr hexecuting))) index List.mem_cons_self rfl
  · exact hnodup.2.2 index (List.mem_append_left _ (List.mem_map.mpr ⟨(index, ok), hok, rfl⟩)) index
      List.mem_cons_self rfl

theorem audit_start {actions : List Action} (hquit : ∀ action ∈ actions, action.actionType ≠ .quit) :
    Audit [] [] (start actions) where
  ordered := List.Sublist.refl _
  written := rfl
  entries := by simp [start]
  quits := nofun
  requests := ⟨[], by simp, rfl⟩
  stops := nofun
  listens := by simp [start]
  actions := by simpa [start] using hquit

theorem Audit.add (h : Audit done seen s)
    (hfresh : ∀ e ∈ s.ledger, e.index ≠ s.responses.currentIndex) (hstep : s.add = some s') :
    Audit done seen s' := by
  unfold Exchange.add at hstep
  split at hstep
  case h_2 => cases hstep
  case h_1 action todo hheld htodo =>
    have hafter := Option.some.inj hstep
    have hindices : s.responses.currentIndex ∉ done.map Prod.fst ++ s.coming := by
      intro hmem
      obtain ⟨e, he, hindex⟩ := List.mem_map.mp (h.ordered.subset hmem)
      exact hfresh e he hindex
    have hcoming : s'.coming = s.coming ++ [s.responses.currentIndex] := by
      rw [← hafter]
      simp [coming, hheld, ResponseBuffer.add]
    have hledger : s'.ledger = s.ledger ++ [⟨s.responses.currentIndex, action, false, []⟩] := by
      rw [← hafter]
      rfl
    have hwritten : Exchange.written done s' = Exchange.written done s := by
      rw [← hafter]
      rfl
    have hquits : s.quitSent = false := by
      rw [← Bool.not_eq_true]
      intro hquit
      rw [(h.quits hquit).1] at htodo
      cases htodo
    refine ⟨?_, ?_, fun e he => ?_, fun hquit => ?_, ?_, ?_, ?_, ?_⟩
    · rw [hcoming, ← List.append_assoc, hledger, List.map_append]
      exact h.ordered.append (List.Sublist.refl _)
    · rw [hwritten, h.written, ← hafter]
    · rw [hledger, List.mem_append, List.mem_singleton] at he
      rcases he with hold | rfl
      · refine (h.entries e hold).congr ?_ fun _ => rfl
        rw [hcoming]
        exact mem_snoc_of_ne (hfresh e hold)
      · refine .requested (by simp [hcoming]) rfl (answersTo_of_not_mem fun st hst hmem => ?_).symm
        have hshown : (s.responses.currentIndex, st) ∈ Exchange.written done s := by
          rw [h.written]
          exact List.mem_append_left _ hmem
        exact hindices (mem_of_written hshown hst)
    · rw [← hafter] at hquit
      rw [hquits] at hquit
      cases hquit
    · rw [← hafter]
      exact h.requests
    · rw [← hafter]
      exact h.stops
    · rw [← hafter]
      exact h.listens
    · intro a ha
      apply h.actions a
      rw [← hafter] at ha
      simpa [htodo, hheld, or_comm] using ha

/-- An action leaves `send_action` without a request. -/
theorem Audit.shortcut (h : Audit done seen s) (hnodup : (done.map Prod.fst ++ s.coming).Nodup)
    {action : Action} (hheld : s.held = some (index, action)) {f : Tracked → Tracked}
    {responses : ResponseBuffer} (hindex : ∀ e, (f e).index = e.index)
    (hother : ∀ e, e.index ≠ index → f e = e)
    (hself : ∀ e travelling, e.index = index → e.index ∉ travelling → e.ignored = false →
      e.responses = [] → Accounted travelling seen (f e)) :
    Audit done seen { s with held := none, responses := responses, ledger := s.ledger.map f } := by
  have hcoming : s.coming = Exchange.coming { s with
      held := none
      responses := responses
      ledger := s.ledger.map f } ++ [index] := by
    simp [coming, hheld]
  have hledger : (s.ledger.map f).map Tracked.index = s.ledger.map Tracked.index := by
    rw [List.map_map]
    exact List.map_congr_left fun e _ => hindex e
  rw [hcoming, ← List.append_assoc, List.nodup_append] at hnodup
  refine ⟨?_, h.written, fun e' he' => ?_, fun hquit => ⟨(h.quits hquit).1, rfl⟩, h.requests, h.stops,
    h.listens, fun a ha => ?_⟩
  · have hordered := h.ordered
    rw [hcoming, ← List.append_assoc] at hordered
    dsimp only
    rw [hledger]
    exact (List.sublist_append_left _ _).trans hordered
  · obtain ⟨e, he, rfl⟩ := List.mem_map.mp he'
    have hentry := h.entries e he
    by_cases hsame : e.index = index
    · have hstays : e.index ∉ done.map Prod.fst ++ Exchange.coming { s with
          held := none
          responses := responses
          ledger := s.ledger.map f } := by
        intro hmem
        exact hnodup.2.2 e.index hmem index List.mem_cons_self hsame
      have htravels : e.index ∈ done.map Prod.fst ++ s.coming := by
        rw [hcoming, hsame]
        simp
      cases hentry with
      | requested travels kept answers =>
        rw [hsame, h.answersTo_held (by rwa [hcoming, ← List.append_assoc, List.nodup_append]) hheld]
          at answers
        exact hself e _ hsame hstays kept answers
      | ignored stays dropped => exact absurd htravels stays
      | oversize stays kept answers => exact absurd htravels stays
    · rw [hother e hsame]
      refine hentry.congr ?_ fun _ => rfl
      rw [hcoming]
      exact (mem_snoc_of_ne hsame).symm
  · exact h.actions a (List.mem_append_left _ (by simpa using ha))

theorem Audit.send (h : Audit done seen s) (hnodup : (done.map Prod.fst ++ s.coming).Nodup)
    {default : Action} {oversize : Bool} (hstep : s.send default oversize = some s') :
    Audit done seen s' := by
  unfold Exchange.send at hstep
  split at hstep
  case h_1 => cases hstep
  case h_2 index action hheld =>
    split at hstep
    case isTrue =>
      rw [← Option.some.inj hstep]
      refine h.shortcut hnodup hheld (fun _ => index_ignore) (fun _ => ignore_of_ne)
        fun e travelling hsame hstays hkept hanswers => ?_
      refine .ignored (by rwa [index_ignore]) ?_
      rw [Tracked.ignore, if_pos hsame]
    case isFalse =>
      split at hstep
      case isTrue =>
        rw [← Option.some.inj hstep]
        refine h.shortcut hnodup hheld (fun _ => index_answer) (fun _ => answer_of_ne)
          fun e travelling hsame hstays hkept hanswers => ?_
        refine .oversize (by rwa [index_answer]) ?_ ?_
        · rw [Tracked.answer, if_pos hsame]
          exact hkept
        · rw [Tracked.answer, if_pos hsame]
          simp [hanswers]
      case isFalse =>
        have hafter := Option.some.inj hstep
        have hquits : s.quitSent = false := by
          rw [← Bool.not_eq_true]
          intro hquit
          rw [(h.quits hquit).2] at hheld
          cases hheld
        have htype : action.actionType ≠ .quit := h.actions action (by simp [hheld])
        have hcoming : s'.coming = s.coming := by
          rw [← hafter]
          simp [coming, hheld, htype]
        obtain ⟨l, hl, hrequests⟩ := h.requests
        rw [hquits, Bool.false_and, if_neg Bool.false_ne_true, List.append_nil] at hrequests
        refine ⟨?_, ?_, fun e he => ?_, fun hquit => ?_, ?_, fun hstopped => ?_, ?_, fun a ha => ?_⟩
        · rw [hcoming, ← hafter]
          exact h.ordered
        · rw [← hafter]
          exact h.written
        · rw [hcoming]
          rw [← hafter] at he
          exact h.entries e he
        · rw [← hafter, hquits] at hquit
          cases hquit
        · refine ⟨l ++ [(index, action.actionType)], fun r hr => ?_, ?_⟩
          · rcases List.mem_append.mp hr with hold | hlast
            · exact hl r hold
            · rw [List.mem_singleton.mp hlast]
              exact htype
          · rw [← hafter]
            simp [hquits, hrequests]
        · rw [← hafter] at hstopped
          have hquit := (h.stops hstopped).1
          rw [hquits] at hquit
          cases hquit
        · rw [← hafter]
          exact h.listens
        · rw [← hafter] at ha
          exact h.actions a (List.mem_append_left _ (by simpa using ha))

theorem Audit.quit (h : Audit done seen s) (hstep : s.quit = some s') : Audit done seen s' := by
  unfold Exchange.quit at hstep
  rw [Option.ite_none_right_eq_some] at hstep
  obtain ⟨⟨htodo, hheld, hquits⟩, hafter⟩ := hstep
  have hafter := Option.some.inj hafter
  have hcoming : s'.coming = s.coming := by
    rw [← hafter]
    simp [coming]
  obtain ⟨l, hl, hrequests⟩ := h.requests
  have hstopped : s.stopped = false := by
    rw [← Bool.not_eq_true]
    intro hstopped
    rw [(h.stops hstopped).1] at hquits
    cases hquits
  refine ⟨?_, ?_, fun e he => ?_, fun _ => ?_, ⟨l, hl, ?_⟩, fun h' => ?_, ?_, fun a ha => ?_⟩
  · rw [hcoming, ← hafter]
    exact h.ordered
  · rw [← hafter]
    exact h.written
  · rw [hcoming]
    rw [← hafter] at he
    exact h.entries e he
  · rw [← hafter]
    exact ⟨htodo, Option.isNone_iff_eq_none.mp hheld⟩
  · rw [← hafter]
    simp [hrequests, hquits, hstopped]
  · rw [← hafter, hstopped] at h'
    cases h'
  · rw [← hafter]
    exact h.listens
  · rw [← hafter] at ha
    exact h.actions a ha

theorem Audit.receive (h : Audit done seen s) (hstep : s.receive = some s') : Audit done seen s' := by
  unfold Exchange.receive at hstep
  split at hstep
  case h_2 => cases hstep
  case h_1 index actionType requests hstopped hexecuting hrequests =>
    obtain ⟨l, hl, hshape⟩ := h.requests
    rw [hstopped, Bool.not_false, Bool.and_true] at hshape
    split at hstep
    case isTrue hquit =>
      have hafter := Option.some.inj hstep
      -- the quit frame is the only one left
      have hlast : requests = [] ∧ s.quitSent = true := by
        rw [hrequests] at hshape
        cases l with
        | cons r l =>
          have heq := (List.cons.inj hshape).1
          exact absurd hquit (by rw [← heq] at hl; exact hl _ List.mem_cons_self)
        | nil =>
          cases hsent : s.quitSent with
          | false => simp [hsent] at hshape
          | true =>
            rw [hsent] at hshape
            exact ⟨(List.cons.inj hshape).2, rfl⟩
      have hcoming : s'.coming = s.coming := by
        rw [← hafter]
        simp [coming, hrequests, hquit]
      refine ⟨?_, ?_, fun e he => ?_, ?_, ⟨[], by simp, ?_⟩, fun _ => ?_, ?_, ?_⟩
      · rw [hcoming, ← hafter]
        exact h.ordered
      · have hwritten := h.written
        rw [← hafter, ← List.append_assoc, ← hwritten]
        simp [Exchange.written, hstopped, hexecuting]
      · rw [hcoming]
        rw [← hafter] at he
        exact h.entries e he
      · rw [← hafter]
        exact h.quits
      · rw [← hafter]
        simp [hlast.1]
      · rw [← hafter]
        exact ⟨hlast.2, hlast.1, hexecuting⟩
      · rw [← hafter]
        exact h.listens
      · rw [← hafter]
        exact h.actions
    case isFalse hquit =>
      have hafter := Option.some.inj hstep
      have hcoming : s'.coming = s.coming := by
        rw [← hafter]
        simp [coming, hrequests, hquit, hexecuting]
      refine ⟨?_, ?_, fun e he => ?_, ?_, ?_, fun hstop => ?_, ?_, ?_⟩
      · rw [hcoming, ← hafter]
        exact h.ordered
      · have hwritten := h.written
        rw [← hafter, ← List.append_assoc, ← hwritten]
        simp [Exchange.written, hstopped, hexecuting]
      · rw [hcoming]
        rw [← hafter] at he
        exact h.entries e he
      · rw [← hafter]
        exact h.quits
      · rw [hrequests] at hshape
        cases l with
        | nil =>
          cases hsent : s.quitSent with
          | false => simp [hsent] at hshape
          | true =>
            rw [hsent] at hshape
            have heq := (List.cons.inj hshape).1
            exact absurd (congrArg Prod.snd heq) hquit
        | cons r l =>
          refine ⟨l, fun r' hr' => hl r' (List.mem_cons_of_mem _ hr'), ?_⟩
          rw [← hafter]
          dsimp only
          rw [hstopped, Bool.not_false, Bool.and_true]
          exact (List.cons.inj hshape).2
      · rw [← hafter, hstopped] at hstop
        cases hstop
      · rw [← hafter]
        exact h.listens
      · rw [← hafter]
        exact h.actions

theorem Audit.execute (h : Audit done seen s) {ok : Bool} (hstep : s.execute ok = some s') :
    Audit (done ++ executions s (.execute ok)) seen s' := by
  obtain ⟨index, hexecuting, hafter⟩ := Option.map_eq_some_iff.mp hstep
  have hexecutions : executions s (.execute ok) = [(index, ok)] := by
    rw [executions, hexecuting]
    rfl
  have hstopped : s.stopped = false := by
    rw [← Bool.not_eq_true]
    intro hstopped
    rw [(h.stops hstopped).2.2] at hexecuting
    cases hexecuting
  have htravelling : (done ++ [(index, ok)]).map Prod.fst ++ s'.coming =
      done.map Prod.fst ++ s.coming := by
    rw [← hafter]
    simp [coming, hexecuting]
  rw [hexecutions]
  refine ⟨?_, ?_, fun e he => ?_, ?_, ?_, fun hstop => ?_, ?_, ?_⟩
  · rw [htravelling, ← hafter]
    exact h.ordered
  · have hwritten := h.written
    rw [← hafter, ← List.append_assoc, ← hwritten]
    simp [Exchange.written, hstopped, hexecuting, answersOf, finalOf]
  · rw [htravelling]
    rw [← hafter] at he
    exact h.entries e he
  · rw [← hafter]
    exact h.quits
  · rw [← hafter]
    exact h.requests
  · rw [← hafter, hstopped] at hstop
    cases hstop
  · rw [← hafter]
    exact h.listens
  · rw [← hafter]
    exact h.actions

/-- The client notes a response. -/
theorem Audit.answered (h : Audit done seen s) {st : ActionStatus} {replies : List (ℤ × ActionStatus)}
    (hreplies : s.replies = (index, st) :: replies) (hst : st ≠ .finish) (responses : ResponseBuffer)
    {listening : Bool} (hlistening : s.listening = listening) :
    Audit done (seen ++ [(index, st)]) { s with
      replies := replies
      listening := listening
      responses := responses
      ledger := s.ledger.map (Tracked.answer index st) } := by
  have hwritten : (index, st) ∈ Exchange.written done s := by
    rw [h.written, hreplies]
    simp
  refine ⟨?_, ?_, fun e' he' => ?_, h.quits, h.requests, h.stops, ?_, h.actions⟩
  · dsimp only
    rw [map_index_answer]
    exact h.ordered
  · rw [List.append_assoc, List.singleton_append, ← hreplies]
    exact h.written
  · obtain ⟨e, he, rfl⟩ := List.mem_map.mp he'
    have hentry := h.entries e he
    by_cases hsame : e.index = index
    · have htravels : e.index ∈ done.map Prod.fst ++ s.coming := by
        rw [hsame]
        exact mem_of_written hwritten hst
      cases hentry with
      | requested travels kept answers =>
        refine .requested (by rwa [index_answer]) ?_ ?_
        · rw [Tracked.answer, if_pos hsame]
          exact kept
        · rw [index_answer, answersTo_append, if_pos ⟨hsame.symm, hst⟩, Tracked.answer, if_pos hsame,
            ← answers]
      | ignored stays dropped => exact absurd htravels stays
      | oversize stays kept answers => exact absurd htravels stays
    · rw [answer_of_ne hsame]
      refine hentry.congr Iff.rfl fun _ => ?_
      rw [answersTo_append, if_neg (fun heq => hsame heq.1.symm), List.append_nil]
  · rw [← hlistening, h.listens]
    simp [Ne.symm hst]

theorem Audit.process (h : Audit done seen s) {default : Action}
    (hstep : s.process default = some s') : ∃ r, Audit done (seen ++ [r]) s' := by
  unfold Exchange.process at hstep
  split at hstep
  case h_2 => cases hstep
  case h_1 index st replies hlistening hreplies =>
    have hafter := Option.some.inj hstep
    have hwritten : (index, st) ∈ Exchange.written done s := by
      rw [h.written, hreplies]
      simp
    refine ⟨(index, st), ?_⟩
    cases st with
    | received =>
      rw [← hafter]
      exact h.answered hreplies nofun _ hlistening
    | completed =>
      rw [← hafter]
      exact h.answered hreplies nofun _ hlistening
    | error =>
      rw [← hafter]
      exact h.answered hreplies nofun _ hlistening
    | finish =>
      rw [← hafter]
      refine ⟨h.ordered, ?_, fun e he => ?_, h.quits, h.requests, h.stops, ?_, h.actions⟩
      · rw [List.append_assoc]
        exact h.written.trans (by rw [hreplies]; rfl)
      · refine (h.entries e he).congr Iff.rfl fun _ => ?_
        rw [answersTo_append, if_neg (fun heq => heq.2 rfl), List.append_nil]
      · simp [respond]
    | created | sent =>
      rcases mem_written hwritten with ⟨hfinish, -⟩ | ⟨hreceived, -⟩ | ⟨ok, -, hreceived | hfinal⟩
      · cases hfinish
      · cases hreceived
      · cases hreceived
      · cases ok <;> cases hfinal

/-- The books can be kept over every step. -/
theorem Audit.step (h : Audit done seen s) (hinv : s.Invariant) {default : Action} {e : ExchangeEvent}
    (hstep : s.step default e = some s') : ∃ seen', Audit (done ++ executions s e) seen' s' := by
  have hnodup := hinv.index_nodup.sublist h.ordered
  cases e with
  | add =>
    have hadd : s.add = some s' := hstep
    have hroom : s.ledger.length < 2 ^ 32 := by
      have hbounded := hinv.bounded
      unfold Exchange.add at hadd
      split at hadd
      case h_1 action todo hheld htodo =>
        rw [htodo, List.length_cons] at hbounded
        omega
      case h_2 => cases hadd
    exact ⟨seen, by simpa [executions] using h.add (hinv.fresh hroom) hadd⟩
  | send oversize => exact ⟨seen, by simpa [executions] using h.send hnodup hstep⟩
  | quit => exact ⟨seen, by simpa [executions] using h.quit hstep⟩
  | receive => exact ⟨seen, by simpa [executions] using h.receive hstep⟩
  | execute ok => exact ⟨seen, h.execute hstep⟩
  | process =>
    obtain ⟨r, hr⟩ := h.process hstep
    exact ⟨_, by simpa [executions] using hr⟩

/-- A response that was processed tells what was executed. -/
theorem Audit.of_answer (h : Audit done seen s) {e : Tracked}
    (he : e.responses = answersTo e.index seen) {ok : Bool} (hanswer : finalOf ok ∈ e.responses) :
    (e.index, ok) ∈ done := by
  rw [he, answersTo, List.mem_map] at hanswer
  obtain ⟨⟨index, st⟩, hr, rfl⟩ := hanswer
  obtain ⟨hseen, hindex⟩ := List.mem_filter.mp hr
  rw [decide_eq_true_eq] at hindex
  obtain ⟨rfl, -⟩ := hindex
  have hwritten : (e.index, finalOf ok) ∈ Exchange.written done s := by
    rw [h.written]
    exact List.mem_append_left _ hseen
  rcases mem_written hwritten with ⟨hfinish, -⟩ | ⟨hreceived, -⟩ | ⟨ok', hok', hreceived | hfinal⟩
  · exact absurd hfinish (finalOf_ne ok).1
  · exact absurd hreceived (finalOf_ne ok).2
  · exact absurd hreceived (finalOf_ne ok).2
  · have hsame : ok = ok' := by
      cases ok <;> cases ok' <;> first | rfl | cases hfinal
    rwa [hsame]

/-- What was executed was executed once. -/
theorem Audit.outcome_unique (h : Audit done seen s) (hinv : s.Invariant) {ok ok' : Bool}
    (hok : (index, ok) ∈ done) (hok' : (index, ok') ∈ done) : ok = ok' := by
  have hnodup := (hinv.index_nodup.sublist h.ordered).of_append_left
  exact (Prod.mk.inj (List.inj_on_of_nodup_map hnodup hok hok' rfl)).2

/-- The responses to a request of which all have been processed. -/
theorem answersTo_done {ok : Bool} (hnodup : (done.map Prod.fst).Nodup) (hok : (index, ok) ∈ done) :
    answersTo index (done.flatMap answersOf ++ [(0, .finish)]) = [.received, finalOf ok] := by
  rw [answersTo_append, if_neg (fun h => h.2 rfl), List.append_nil]
  induction done with
  | nil => cases hok
  | cons d done ih =>
    rw [List.map_cons, List.nodup_cons] at hnodup
    rw [List.flatMap_cons]
    have hrest : ∀ index, index ∉ done.map Prod.fst → answersTo index (done.flatMap answersOf) = [] := by
      intro index hindex
      apply answersTo_of_not_mem
      intro st hst hmem
      obtain ⟨d', hd', hanswer⟩ := List.mem_flatMap.mp hmem
      apply hindex
      refine List.mem_map.mpr ⟨d', hd', ?_⟩
      simp only [answersOf, List.mem_cons, Prod.mk.injEq, List.not_mem_nil, or_false] at hanswer
      rcases hanswer with ⟨heq, -⟩ | ⟨heq, -⟩ <;> exact heq.symm
    have hsplit : answersTo index (answersOf d ++ done.flatMap answersOf) =
        answersTo index (answersOf d) ++ answersTo index (done.flatMap answersOf) := by
      rw [answersTo, List.filter_append, List.map_append]
      rfl
    rw [hsplit]
    rcases List.mem_cons.mp hok with rfl | hlater
    · rw [hrest index hnodup.1, List.append_nil]
      simp [answersTo, answersOf, (finalOf_ne ok).1]
    · have hne : d.1 ≠ index := by
        rintro rfl
        exact hnodup.1 (List.mem_map.mpr ⟨_, hlater, rfl⟩)
      rw [ih hnodup.2 hlater]
      simp [answersTo, answersOf, hne]

/-- Once the client has read `finish`, every response has been processed, and nothing is on its way. -/
theorem Audit.finished (h : Audit done seen s) (hfinish : s.listening = false) :
    seen = done.flatMap answersOf ++ [(0, .finish)] ∧ s.coming = [] ∧ s.todo = [] := by
  obtain ⟨i, hi⟩ := h.listens.mp hfinish
  have hmem : (i, .finish) ∈ Exchange.written done s := by
    rw [h.written]
    exact List.mem_append_left _ hi
  have hstopped : s.stopped = true := by
    rcases mem_written hmem with ⟨-, -, hstopped⟩ | ⟨hreceived, -⟩ | ⟨ok, -, hreceived | hfinal⟩
    · exact hstopped
    · cases hreceived
    · cases hreceived
    · exact absurd hfinal.symm (finalOf_ne ok).1
  obtain ⟨hquits, hrequests, hexecuting⟩ := h.stops hstopped
  obtain ⟨htodo, hheld⟩ := h.quits hquits
  have hwritten := h.written
  have hall : Exchange.written done s = done.flatMap answersOf ++ [(0, .finish)] := by
    simp [Exchange.written, hexecuting, hstopped]
  refine ⟨?_, by simp [coming, hrequests, hexecuting, hheld], htodo⟩
  -- `finish` stands at the end of the responses only, and it has been processed
  have hreplies : s.replies = [] := by
    rcases List.eq_nil_or_concat s.replies with hnil | ⟨replies, r, hsplit⟩
    · exact hnil
    · rw [hall, hsplit, List.concat_eq_append, ← List.append_assoc] at hwritten
      have hearlier := (List.append_inj' hwritten rfl).1
      have hearly : (i, .finish) ∈ done.flatMap answersOf := by
        rw [hearlier]
        exact List.mem_append_left _ hi
      obtain ⟨d, -, hanswer⟩ := List.mem_flatMap.mp hearly
      simp only [answersOf, List.mem_cons, Prod.mk.injEq, List.not_mem_nil, or_false] at hanswer
      rcases hanswer with ⟨-, hreceived⟩ | ⟨-, hfinal⟩
      · cases hreceived
      · exact absurd hfinal.symm (finalOf_ne d.2).1
  rw [hreplies, List.append_nil, hall] at hwritten
  exact hwritten.symm

/-- What a run that keeps the invariant and the books comes to. -/
theorem audit_run {default : Action} {actions : List Action} {events : List ExchangeEvent}
    (hcount : actions.length ≤ 2 ^ 32) (hquit : ∀ action ∈ actions, action.actionType ≠ .quit)
    (hrun : run (Exchange.step default) (start actions) events = some s) :
    s.Invariant ∧
      ∃ seen, Audit (outputs (Exchange.step default) executions (start actions) events) seen s := by
  have hbegin : (start actions).Invariant ∧ ∃ seen, Audit [] seen (start actions) :=
    ⟨invariant_start hcount, [], audit_start hquit⟩
  refine run_outputs (I := fun s done => s.Invariant ∧ ∃ seen, Audit done seen s)
    (fun s e s' done h hstep => ?_) hbegin hrun
  obtain ⟨hinv, seen, haudit⟩ := h
  exact ⟨hinv.step hstep, haudit.step hinv hstep⟩

/-- The pending list and the requests that were carried out. -/
structure Truthful (stored : List ℤ) (s : Exchange) : Prop where
  /-- In the order in which the actions were added, and each once. -/
  ordered : stored.Sublist (s.ledger.map Tracked.index)
  /-- Nothing leaves the list without being carried out, but what was ignored. -/
  unlisted : ∀ e ∈ s.ledger, e.ignored = false → e.index ∉ stored → e.shown ∈ s.responses.getAll
  /-- What was carried out is never shown as an error. -/
  kept : ∀ e ∈ s.ledger, e.index ∈ stored → e.ignored = false ∧ e.shown.st ≠ .error
  /-- After the last response the list shows what was not carried out, as errors. -/
  finished : s.listening = false → s.todo = [] ∧
    s.responses.getAll.Perm ((s.ledger.filter fun e => decide (e.ignored = false ∧ e.index ∉ stored)).map
      Tracked.shown) ∧ ∀ a ∈ s.responses.getAll, a.st = .error

theorem Audit.not_error (h : Audit done seen s) (hinv : s.Invariant) {e : Tracked} (he : e ∈ s.ledger)
    (hstored : (e.index, true) ∈ done) : e.ignored = false ∧ e.shown.st ≠ .error := by
  have htravels : e.index ∈ done.map Prod.fst ++ s.coming :=
    List.mem_append_left _ (List.mem_map.mpr ⟨_, hstored, rfl⟩)
  cases h.entries e he with
  | requested travels kept answers =>
    refine ⟨kept, fun herror => ?_⟩
    have hlast : ActionStatus.error ∈ e.responses := by
      unfold Tracked.shown at herror
      cases hget : e.responses.getLast? with
      | none =>
        rw [hget] at herror
        cases herror
      | some st =>
        rw [hget] at herror
        have hst : st = .error := herror
        rw [← hst]
        exact List.mem_of_getLast? hget
    have hfailed : (e.index, false) ∈ done := h.of_answer answers hlast
    exact Bool.false_ne_true (h.outcome_unique hinv hfailed hstored)
  | ignored stays dropped => exact absurd htravels stays
  | oversize stays kept answers => exact absurd htravels stays

/-- An entry that is not pending any more was carried out, unless it was ignored. -/
theorem Audit.of_not_pending (h : Audit done seen s) {e : Tracked} (he : e ∈ s.ledger)
    (hkept : e.ignored = false) (hnot : ¬e.Pending) : (e.index, true) ∈ done := by
  have hcompleted : ActionStatus.completed ∈ e.responses := by
    by_contra hnone
    exact hnot ⟨hkept, hnone⟩
  cases h.entries e he with
  | requested travels kept answers => exact h.of_answer answers hcompleted
  | ignored stays dropped =>
    rw [hkept] at dropped
    cases dropped
  | oversize stays kept answers =>
    rw [answers] at hcompleted
    simp at hcompleted

/-- After `finish` an entry that was kept is either carried out and gone, or failed. -/
theorem Audit.settled (h : Audit done seen s) (hinv : s.Invariant) (hfinish : s.listening = false)
    {e : Tracked} (he : e ∈ s.ledger) (hkept : e.ignored = false) :
    ((e.index, true) ∈ done ∧ ¬e.Pending) ∨
      ((e.index, true) ∉ done ∧ e.Pending ∧ e.shown.st = .error) := by
  obtain ⟨hseen, hcoming, -⟩ := h.finished hfinish
  have hnodup := (hinv.index_nodup.sublist h.ordered).of_append_left
  cases h.entries e he with
  | requested travels kept answers =>
    rw [hcoming, List.append_nil, List.mem_map] at travels
    obtain ⟨⟨index, ok⟩, hok, hindex⟩ := travels
    have hindex : index = e.index := hindex
    rw [hindex] at hok
    rw [hseen, answersTo_done hnodup hok] at answers
    cases ok with
    | true => exact Or.inl ⟨hok, fun hpending => hpending.2 (by simp [answers, finalOf])⟩
    | false =>
      refine Or.inr ⟨fun hstored => ?_, ⟨kept, by simp [answers, finalOf]⟩, ?_⟩
      · exact Bool.false_ne_true (h.outcome_unique hinv hok hstored)
      · simp [Tracked.shown, answers, finalOf]
  | ignored stays dropped =>
    rw [hkept] at dropped
    cases dropped
  | oversize stays kept answers =>
    refine Or.inr ⟨fun hstored => ?_, ⟨kept, by simp [answers]⟩, by simp [Tracked.shown, answers]⟩
    exact stays (List.mem_append_left _ (List.mem_map.mpr ⟨_, hstored, rfl⟩))

end Steps

/-- Whenever the connection is cut, every action that was not carried out and not ignored is still on the
pending list; and when the client ends after `finish`, the list holds exactly these, as errors. -/
theorem acknowledged (default : Action) (actions : List Action) (hcount : actions.length ≤ 2 ^ 32)
    (hquit : ∀ action ∈ actions, action.actionType ≠ .quit) (events : List ExchangeEvent)
    (s : Exchange) (hrun : run (Exchange.step default) (start actions) events = some s) :
    Truthful (carriedOut (outputs (Exchange.step default) executions (start actions) events)) s := by
  obtain ⟨hinv, seen, haudit⟩ := audit_run hcount hquit hrun
  have hexact := hinv.exact.pending
  constructor
  case ordered =>
    refine List.Sublist.trans ?_ haudit.ordered
    exact (List.filter_sublist.map Prod.fst).trans (List.sublist_append_left _ _)
  case unlisted =>
    intro e he hkept hnot
    apply hexact.symm.subset
    apply List.mem_map_of_mem
    refine List.mem_filter.mpr ⟨he, ?_⟩
    rw [decide_eq_true_eq]
    by_contra hpending
    exact hnot (mem_carriedOut.mpr (haudit.of_not_pending he hkept hpending))
  case kept =>
    intro e he hstored
    exact haudit.not_error hinv he (mem_carriedOut.mp hstored)
  case finished =>
    intro hfinish
    have hsettled := fun e he hkept => @Audit.settled _ _ s haudit hinv hfinish e he hkept
    have hpending : ∀ e ∈ s.ledger, (e.Pending ↔ e.ignored = false ∧ e.index ∉
        carriedOut (outputs (Exchange.step default) executions (start actions) events)) := by
      intro e he
      rw [mem_carriedOut]
      constructor
      · intro hpending
        refine ⟨hpending.1, fun hstored => ?_⟩
        rcases hsettled e he hpending.1 with ⟨-, hgone⟩ | ⟨hnot, -⟩
        · exact hgone hpending
        · exact hnot hstored
      · rintro ⟨hkept, hnot⟩
        rcases hsettled e he hkept with ⟨hstored, -⟩ | ⟨-, hpending, -⟩
        · exact absurd hstored hnot
        · exact hpending
    refine ⟨(haudit.finished hfinish).2.2, ?_, fun a ha => ?_⟩
    · rwa [List.filter_congr fun e he => decide_eq_decide.mpr (hpending e he)] at hexact
    · obtain ⟨e, he, rfl⟩ := List.mem_map.mp (hexact.subset ha)
      obtain ⟨he, hpending⟩ := List.mem_filter.mp he
      rw [decide_eq_true_eq] at hpending
      rcases hsettled e he hpending.1 with ⟨-, hgone⟩ | ⟨-, -, herror⟩
      · exact absurd hpending hgone
      · exact herror

/-- One file is stored, another one is refused, and the user quits. -/
theorem acknowledged_two : ∃ s,
    run (Exchange.step ignoredAction) (start [createdAction 97, createdAction 98])
      [.add, .send false, .add, .send false, .quit, .receive, .execute true, .receive, .execute false,
        .receive, .process, .process, .process, .process, .process] = some s ∧
    s.responses.getAll = [{ createdAction 98 with st := .error }] ∧
    Truthful (carriedOut (outputs (Exchange.step ignoredAction) executions
      (start [createdAction 97, createdAction 98])
      [.add, .send false, .add, .send false, .quit, .receive, .execute true, .receive, .execute false,
        .receive, .process, .process, .process, .process, .process])) s :=
  ⟨_, rfl, rfl, acknowledged ignoredAction [createdAction 97, createdAction 98] (by decide) (by decide) _ _
    rfl⟩

end BackupManager.Client.Exchange
