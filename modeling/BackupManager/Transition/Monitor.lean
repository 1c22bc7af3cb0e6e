import Mathlib.Logic.Function.Basic
import BackupManager.Transition.Run

/-! Monitors: methods that share a state under one mutex, and wait on one condition variable until their
predicate holds. The steps are those of the threads at the mutex and at the condition variable; what they
come to is a system whose steps are whole calls. -/
namespace BackupManager.Transition

/-- What a call does to the state once its wait is over, `none` where its predicate is false, and whether
it ends with `notify_all`. -/
structure Monitor (C Q : Type) where
  body : C → Q → Option Q
  notifies : C → Q → Bool

namespace Monitor

variable {T C Q : Type}

/-- Where a thread is. -/
inductive Point (C : Type) where
  | outside
  /-- It waits for the mutex, at first or after it was woken. -/
  | entering (call : C)
  /-- Before the predicate, with the mutex. -/
  | testing (call : C)
  /-- The wait is over. -/
  | passed (call : C)
  /-- On the condition variable, without the mutex. -/
  | asleep (call : C)
  /-- The state is changed; `notify_all` may be still to come. -/
  | finishing (notify : Bool)
  deriving DecidableEq, Repr

namespace Point

/-- The thread has the mutex. -/
def holds : Point C → Bool
  | .testing _ | .passed _ | .finishing _ => true
  | _ => false

def wake : Point C → Point C
  | .asleep call => .entering call
  | point => point

@[simp] theorem holds_wake (point : Point C) : point.wake.holds = point.holds := by cases point <;> rfl

theorem wake_ne_asleep (point : Point C) (call : C) : point.wake ≠ .asleep call := by
  cases point <;> exact nofun

theorem eq_passed_of_wake {point : Point C} {call : C} (h : point.wake = .passed call) :
    point = .passed call := by
  cases point with
  | asleep => cases h
  | _ => exact h

end Point

structure State (T C Q : Type) where
  point : T → Point C
  mutex : Option T
  shared : Q

inductive Event (T C : Type) where
  | call (t : T) (call : C)
  | acquire (t : T)
  | test (t : T)
  | act (t : T)
  | notify (t : T)
  | release (t : T)
  /-- A thread wakes without a notification. -/
  | spurious (t : T)
  deriving DecidableEq, Repr

/-- No thread has called a method. -/
def start (q : Q) : State T C Q := ⟨fun _ => .outside, none, q⟩

/-- `notify_all`. -/
def State.wakes (s : State T C Q) : State T C Q := { s with point := fun u => (s.point u).wake }

@[simp] theorem State.mutex_wakes (s : State T C Q) : s.wakes.mutex = s.mutex := rfl

variable [DecidableEq T]

def State.goes (s : State T C Q) (t : T) (point : Point C) : State T C Q :=
  { s with point := Function.update s.point t point }

@[simp] theorem State.point_goes (s : State T C Q) (t : T) (point : Point C) :
    (s.goes t point).point t = point := Function.update_self _ _ _

@[simp] theorem State.mutex_goes (s : State T C Q) (t : T) (point : Point C) :
    (s.goes t point).mutex = s.mutex := rfl

@[simp] theorem State.shared_goes (s : State T C Q) (t : T) (point : Point C) :
    (s.goes t point).shared = s.shared := rfl

theorem State.point_goes_of_ne {t u : T} (h : u ≠ t) (s : State T C Q) (point : Point C) :
    (s.goes t point).point u = s.point u := Function.update_of_ne h _ _

variable (m : Monitor C Q)

def step (s : State T C Q) : Event T C → Option (State T C Q)
  | .call t call => match s.point t with
    | .outside => some (s.goes t (.entering call))
    | _ => none
  | .acquire t => match s.point t, s.mutex with
    | .entering call, none => some { s.goes t (.testing call) with mutex := some t }
    | _, _ => none
  | .test t => match s.point t with
    | .testing call =>
      if (m.body call s.shared).isSome then some (s.goes t (.passed call))
      else some { s.goes t (.asleep call) with mutex := none }
    | _ => none
  | .act t => match s.point t with
    | .passed call => (m.body call s.shared).map fun q =>
        { s.goes t (.finishing (m.notifies call s.shared)) with shared := q }
    | _ => none
  | .notify t => match s.point t with
    | .finishing true => some (s.wakes.goes t (.finishing false))
    | _ => none
  | .release t => match s.point t with
    | .finishing false => some { s.goes t .outside with mutex := none }
    | _ => none
  | .spurious t => match s.point t with
    | .asleep call => some (s.goes t (.entering call))
    | _ => none

/-- A call as one step, which is enabled when its wait is over. -/
def atomic (q : Q) (call : T × C) : Option Q := m.body call.2 q

/-- The call whose body is carried out. -/
def performed (s : State T C Q) : Event T C → List (T × C)
  | .act t => match s.point t with
    | .passed call => [(t, call)]
    | _ => []
  | _ => []

/-- A body that is not followed by a notification does not end the wait of any other call. -/
def Notifies (m : Monitor C Q) : Prop :=
  ∀ call q q', m.body call q = some q' → m.notifies call q = false →
    ∀ call', m.body call' q = none → m.body call' q' = none

variable {m} {s s' : State T C Q} {e : Event T C} {q : Q}

/-- What a step does to the thread that takes it, and to the others. -/
inductive Moved (m : Monitor C Q) (s s' : State T C Q) : List (T × C) → Prop where
  /-- Without the mutex, and without going to sleep. -/
  | enters (t : T) (call : C) (free : (s.point t).holds = false)
      (after : s' = s.goes t (.entering call)) : Moved m s s' []
  | acquires (t : T) (call : C) (free : s.mutex = none) (point : s.point t = .entering call)
      (after : s' = { s.goes t (.testing call) with mutex := some t }) : Moved m s s' []
  | passes (t : T) (call : C) (point : s.point t = .testing call)
      (ready : (m.body call s.shared).isSome = true) (after : s' = s.goes t (.passed call)) :
      Moved m s s' []
  | sleeps (t : T) (call : C) (point : s.point t = .testing call) (waits : m.body call s.shared = none)
      (after : s' = { s.goes t (.asleep call) with mutex := none }) : Moved m s s' []
  | acts (t : T) (call : C) (q : Q) (point : s.point t = .passed call)
      (body : m.body call s.shared = some q)
      (after : s' = { s.goes t (.finishing (m.notifies call s.shared)) with shared := q }) :
      Moved m s s' [(t, call)]
  | notifies (t : T) (point : s.point t = .finishing true)
      (after : s' = s.wakes.goes t (.finishing false)) : Moved m s s' []
  | releases (t : T) (point : s.point t = .finishing false)
      (after : s' = { s.goes t .outside with mutex := none }) : Moved m s s' []

theorem moved_of_step (h : m.step s e = some s') : Moved m s s' (performed s e) := by
  cases e with
  | call t call =>
    simp only [step] at h
    split at h
    next hpoint => exact .enters t call (by rw [hpoint]; rfl) (Option.some.inj h).symm
    next => cases h
  | acquire t =>
    simp only [step] at h
    split at h
    next call hpoint hfree => exact .acquires t call hfree hpoint (Option.some.inj h).symm
    next => cases h
  | test t =>
    simp only [step] at h
    split at h
    next call hpoint =>
      split at h
      next hready => exact .passes t call hpoint hready (Option.some.inj h).symm
      next hwaits =>
        exact .sleeps t call hpoint (by simpa using hwaits) (Option.some.inj h).symm
    next => cases h
  | act t =>
    simp only [step] at h
    split at h
    next call hpoint =>
      obtain ⟨q, hbody, hafter⟩ := Option.map_eq_some_iff.mp h
      have hperformed : performed s (.act t) = [(t, call)] := by
        rw [performed, hpoint]
      rw [hperformed]
      exact .acts t call q hpoint hbody hafter.symm
    next => cases h
  | notify t =>
    simp only [step] at h
    split at h
    next hpoint => exact .notifies t hpoint (Option.some.inj h).symm
    next => cases h
  | release t =>
    simp only [step] at h
    split at h
    next hpoint => exact .releases t hpoint (Option.some.inj h).symm
    next => cases h
  | spurious t =>
    simp only [step] at h
    split at h
    next call hpoint => exact .enters t call (by rw [hpoint]; rfl) (Option.some.inj h).symm
    next => cases h

/-- The mutex has one holder, a wait that is over stays over, and who sleeps has to: the predicate is
false, unless the holder of the mutex is about to notify. -/
structure Inv (m : Monitor C Q) (s : State T C Q) : Prop where
  holder : ∀ t, (s.point t).holds = true ↔ s.mutex = some t
  passed : ∀ t call, s.point t = .passed call → (m.body call s.shared).isSome = true
  asleep : ∀ t call, s.point t = .asleep call →
    m.body call s.shared = none ∨ ∃ u, s.point u = .finishing true

omit [DecidableEq T] in
theorem inv_start : Inv m (start q : State T C Q) :=
  ⟨by simp [start, Point.holds], nofun, nofun⟩

omit [DecidableEq T] in
/-- Two threads that have the mutex are one. -/
theorem Inv.eq_of_holds (h : Inv m s) {t u : T} (ht : (s.point t).holds = true)
    (hu : (s.point u).holds = true) : u = t :=
  Option.some.inj (((h.holder u).mp hu).symm.trans ((h.holder t).mp ht))

omit [DecidableEq T] in
/-- Nobody holds a mutex that is free. -/
theorem Inv.not_holds (h : Inv m s) (hfree : s.mutex = none) (t : T) : (s.point t).holds = false := by
  rw [← Bool.not_eq_true]
  intro ht
  rw [(h.holder t).mp ht] at hfree
  cases hfree

/-- A thread moves, and the mutex goes with it; the others stay where they are. -/
theorem holder_goes {t : T} {point : Point C} {mutex : Option T}
    (hothers : ∀ u, u ≠ t → ((s.point u).holds = true ↔ mutex = some u))
    (hself : point.holds = true ↔ mutex = some t) (u : T) :
    ((s.goes t point).point u).holds = true ↔ mutex = some u := by
  by_cases hu : u = t
  · rw [hu, State.point_goes]
    exact hself
  · rw [State.point_goes_of_ne hu]
    exact hothers u hu

/-- Who is where in a state in which one thread has moved. -/
theorem goes_eq {t u : T} {point point' : Point C} (h : (s.goes t point).point u = point') :
    u = t ∧ point = point' ∨ u ≠ t ∧ s.point u = point' := by
  by_cases hu : u = t
  · rw [hu, State.point_goes] at h
    exact Or.inl ⟨hu, h⟩
  · rw [State.point_goes_of_ne hu] at h
    exact Or.inr ⟨hu, h⟩

/-- Whoever is about to notify stays so while another thread moves. -/
theorem notifier_goes {t u : T} (hne : s.point t ≠ .finishing true) (hu : s.point u = .finishing true)
    (point : Point C) : (s.goes t point).point u = .finishing true := by
  have hut : u ≠ t := by
    rintro rfl
    exact hne hu
  rwa [State.point_goes_of_ne hut]

/-- One thread moves without changing the state that is shared, and not to or from `finishing true`. -/
theorem Inv.goes (h : Inv m s) {t : T} {point : Point C} {mutex : Option T}
    (hne : s.point t ≠ .finishing true)
    (hothers : ∀ u, u ≠ t → ((s.point u).holds = true ↔ mutex = some u))
    (hself : point.holds = true ↔ mutex = some t)
    (hpassed : ∀ call, point = .passed call → (m.body call s.shared).isSome = true)
    (hasleep : ∀ call, point = .asleep call → m.body call s.shared = none) :
    Inv m { s.goes t point with mutex := mutex } := by
  refine ⟨holder_goes hothers hself, fun u call hu => ?_, fun u call hu => ?_⟩
  · rcases goes_eq hu with ⟨-, hpoint⟩ | ⟨-, hpoint⟩
    · exact hpassed call hpoint
    · exact h.passed u call hpoint
  · rcases goes_eq hu with ⟨-, hpoint⟩ | ⟨-, hpoint⟩
    · exact Or.inl (hasleep call hpoint)
    · rcases h.asleep u call hpoint with hwaits | ⟨u', hu'⟩
      · exact Or.inl hwaits
      · exact Or.inr ⟨u', notifier_goes hne hu' point⟩

theorem inv_moved (hm : m.Notifies) (h : Inv m s) {calls : List (T × C)} (hmoved : Moved m s s' calls) :
    Inv m s' := by
  cases hmoved with
  | enters t call free after =>
    rw [after]
    have hne : s.point t ≠ .finishing true := by
      intro hpoint
      rw [hpoint] at free
      cases free
    have hmutex : s.mutex ≠ some t := by
      rw [ne_eq, ← h.holder, free]
      exact Bool.false_ne_true
    exact h.goes hne (fun u _ => h.holder u) (by simp [Point.holds, hmutex]) nofun nofun
  | acquires t call free point after =>
    rw [after]
    refine h.goes (by simp [point]) (fun u hu => ?_) (by simp [Point.holds]) nofun nofun
    simp [h.not_holds free u, Ne.symm hu]
  | passes t call point ready after =>
    rw [after]
    have hmutex : s.mutex = some t := (h.holder t).mp (by rw [point]; rfl)
    refine h.goes (by simp [point]) (fun u _ => h.holder u) (by simp [Point.holds, hmutex])
      (fun call' hcall => ?_) nofun
    rw [← Point.passed.inj hcall]
    exact ready
  | sleeps t call point waits after =>
    rw [after]
    have hholds : (s.point t).holds = true := by
      rw [point]
      rfl
    refine h.goes (by simp [point]) (fun u hu => ?_) (by simp [Point.holds]) nofun
      (fun call' hcall => ?_)
    · have hfree : ¬(s.point u).holds = true := fun hu' => hu (h.eq_of_holds hholds hu')
      simp [hfree]
    · rw [← Point.asleep.inj hcall]
      exact waits
  | acts t call q point body after =>
    rw [after]
    have hholds : (s.point t).holds = true := by
      rw [point]
      rfl
    have hmutex := (h.holder t).mp hholds
    refine ⟨holder_goes (fun u _ => h.holder u) (by simp [Point.holds, hmutex]),
      fun u call' hu => ?_, fun u call' hu => ?_⟩
    · rcases goes_eq hu with ⟨-, hpoint⟩ | ⟨hne, hpoint⟩
      · cases hpoint
      · exact absurd (h.eq_of_holds hholds (by rw [hpoint]; rfl)) hne
    · rcases goes_eq hu with ⟨-, hpoint⟩ | ⟨-, hpoint⟩
      · cases hpoint
      · cases hnotifies : m.notifies call s.shared with
        | true => exact Or.inr ⟨t, by rw [← hnotifies]; exact State.point_goes s t _⟩
        | false =>
          -- nobody else is about to notify, since `t` has the mutex
          rcases h.asleep u call' hpoint with hwaits | ⟨u', hu'⟩
          · exact Or.inl (hm call s.shared q body hnotifies call' hwaits)
          · obtain rfl := h.eq_of_holds hholds (u := u') (by rw [hu']; rfl)
            rw [point] at hu'
            cases hu'
  | notifies t point after =>
    rw [after]
    have hmutex : s.mutex = some t := (h.holder t).mp (by rw [point]; rfl)
    have hwoken : Inv m s.wakes := by
      refine ⟨fun u => ?_, fun u call hu => ?_, fun u call hu => ?_⟩
      · rw [State.wakes, Point.holds_wake]
        exact h.holder u
      · exact h.passed u call (Point.eq_passed_of_wake hu)
      · exact absurd hu (Point.wake_ne_asleep _ call)
    refine ⟨holder_goes (fun u _ => hwoken.holder u) (by simp [Point.holds, hmutex]),
      fun u call hu => ?_, fun u call hu => ?_⟩
    · rcases goes_eq hu with ⟨-, hpoint⟩ | ⟨-, hpoint⟩
      · cases hpoint
      · exact hwoken.passed u call hpoint
    · rcases goes_eq hu with ⟨-, hpoint⟩ | ⟨-, hpoint⟩
      · cases hpoint
      · exact absurd hpoint (Point.wake_ne_asleep _ call)
  | releases t point after =>
    rw [after]
    have hholds : (s.point t).holds = true := by
      rw [point]
      rfl
    refine h.goes (by simp [point]) (fun u hu => ?_) (by simp [Point.holds]) nofun nofun
    have hfree : ¬(s.point u).holds = true := fun hu' => hu (h.eq_of_holds hholds hu')
    simp [hfree]

theorem inv_step (hm : m.Notifies) (h : Inv m s) (hstep : m.step s e = some s') : Inv m s' :=
  inv_moved hm h (moved_of_step hstep)

theorem inv_run (hm : m.Notifies) {events : List (Event T C)}
    (hrun : run m.step (start q) events = some s) : Inv m s :=
  run_keeps (fun _ _ _ => inv_step hm) inv_start hrun

/-- What is performed is carried out. -/
theorem shared_moved {calls : List (T × C)} (h : Moved m s s' calls) :
    run m.atomic s.shared calls = some s'.shared := by
  cases h with
  | acts t call q point body after =>
    rw [after]
    simp [run, atomic, body]
  | enters t call free after => rw [after]; rfl
  | acquires t call free point after => rw [after]; rfl
  | passes t call point ready after => rw [after]; rfl
  | sleeps t call point waits after => rw [after]; rfl
  | notifies t point after => rw [after]; rfl
  | releases t point after => rw [after]; rfl

/-- The calls of a run are carried out one after the other. -/
theorem shared_run {events : List (Event T C)} (hrun : run m.step s events = some s') :
    run m.atomic s.shared (outputs m.step performed s events) = some s'.shared := by
  have hbegin : run (m.atomic (T := T)) s.shared [] = some s.shared := rfl
  refine run_outputs (I := fun s' calls => run m.atomic s.shared calls = some s'.shared)
    (fun s₁ e s₂ calls hcalls hstep => ?_) hbegin hrun
  rw [run_append, hcalls]
  exact shared_moved (moved_of_step hstep)

/-- No wakeup is lost: while the mutex is free, only those sleep whose predicate is false. -/
theorem body_of_asleep (hm : m.Notifies) {events : List (Event T C)}
    (hrun : run m.step (start q) events = some s) (hfree : s.mutex = none) {t : T} {call : C}
    (hasleep : s.point t = .asleep call) : m.body call s.shared = none := by
  have hinv := inv_run hm hrun
  rcases hinv.asleep t call hasleep with hwaits | ⟨u, hu⟩
  · exact hwaits
  · have hholds := hinv.not_holds hfree u
    rw [hu] at hholds
    cases hholds

/-- The thread of a step that goes on with a call. -/
def Event.goesOn : Event T C → Option T
  | .acquire t | .test t | .act t | .notify t | .release t => some t
  | .call _ _ | .spurious _ => none

/-- The monitor never blocks by itself: a call that is in it can go on unless it sleeps, or another one
that has the mutex can. -/
theorem exists_step (hm : m.Notifies) {events : List (Event T C)}
    (hrun : run m.step (start q) events = some s) {t : T} (hinside : s.point t ≠ .outside)
    (hawake : ∀ call, s.point t ≠ .asleep call) :
    ∃ e, e.goesOn ≠ none ∧ (m.step s e).isSome = true := by
  have hinv := inv_run hm hrun
  have hholder : ∀ u, (s.point u).holds = true → ∃ e, e.goesOn ≠ none ∧ (m.step s e).isSome = true := by
    intro u hu
    cases hpoint : s.point u with
    | testing call =>
      refine ⟨.test u, by simp [Event.goesOn], ?_⟩
      simp only [step, hpoint]
      split <;> rfl
    | passed call =>
      refine ⟨.act u, by simp [Event.goesOn], ?_⟩
      simp only [step, hpoint, Option.isSome_map]
      exact hinv.passed u call hpoint
    | finishing notify =>
      cases notify with
      | true => exact ⟨.notify u, by simp [Event.goesOn], by simp [step, hpoint]⟩
      | false => exact ⟨.release u, by simp [Event.goesOn], by simp [step, hpoint]⟩
    | outside | entering | asleep =>
      rw [hpoint] at hu
      cases hu
  cases hmutex : s.mutex with
  | some u => exact hholder u ((hinv.holder u).mpr hmutex)
  | none =>
    cases hpoint : s.point t with
    | outside => exact absurd hpoint hinside
    | asleep call => exact absurd hpoint (hawake call)
    | entering call => exact ⟨.acquire t, by simp [Event.goesOn], by simp [step, hpoint, hmutex]⟩
    | testing | passed | finishing => exact hholder t (by rw [hpoint]; rfl)

/-- Nobody who is inside can go on. -/
def Blocked (m : Monitor C Q) (s : State T C Q) : Prop :=
  ∀ e : Event T C, e.goesOn ≠ none → m.step s e = none

/-- A monitor in which nobody can go on is free, and whoever is inside sleeps. -/
theorem asleep_of_blocked (hm : m.Notifies) {events : List (Event T C)}
    (hrun : run m.step (start q) events = some s) (hblocked : m.Blocked s) :
    s.mutex = none ∧ ∀ t, s.point t = .outside ∨ ∃ call, s.point t = .asleep call := by
  have hpoint : ∀ t, s.point t = .outside ∨ ∃ call, s.point t = .asleep call := by
    intro t
    by_contra hnot
    rw [not_or, not_exists] at hnot
    obtain ⟨e, hgoes, hstep⟩ := exists_step hm hrun hnot.1 hnot.2
    rw [hblocked e hgoes] at hstep
    cases hstep
  refine ⟨?_, hpoint⟩
  cases hmutex : s.mutex with
  | none => rfl
  | some u =>
    have hholds := ((inv_run hm hrun).holder u).mpr hmutex
    rcases hpoint u with hout | ⟨call, hasleep⟩
    · rw [hout] at hholds
      cases hholds
    · rw [hasleep] at hholds
      cases hholds

end Monitor
end BackupManager.Transition
