import Mathlib.Data.Option.Basic

/-! Runs of a system given by a partial step function: an event that is not enabled ends the run.
An invariant of the steps that meet a condition is an invariant of the runs whose steps all do. -/
namespace BackupManager.Transition

variable {S E : Type} (step : S → E → Option S)

/-- The state after a sequence of events, if all of them are enabled in turn. -/
def run : S → List E → Option S
  | s, [] => some s
  | s, e :: events => (step s e).bind fun s' => run s' events

/-- Every step of the run meets the condition. -/
def Meets (good : S → E → Prop) : S → List E → Prop
  | _, [] => True
  | s, e :: events => good s e ∧ ∀ s' ∈ step s e, Meets good s' events

instance Meets.decidable (good : S → E → Prop) [∀ s e, Decidable (good s e)] :
    ∀ s events, Decidable (Meets step good s events)
  | _, [] => .isTrue trivial
  | s, e :: events =>
    have (s' : S) : Decidable (Meets step good s' events) := Meets.decidable good s' events
    inferInstanceAs (Decidable (good s e ∧ ∀ s' ∈ step s e, Meets step good s' events))

variable {step}

theorem run_cons_eq_some {s s'' : S} {e : E} {events : List E} :
    run step s (e :: events) = some s'' ↔ ∃ s', step s e = some s' ∧ run step s' events = some s'' :=
  Option.bind_eq_some_iff

theorem run_append (s : S) (events events' : List E) :
    run step s (events ++ events') = (run step s events).bind fun s' => run step s' events' := by
  induction events generalizing s with
  | nil => rfl
  | cons e events ih =>
    rw [List.cons_append, run, run, Option.bind_assoc]
    congr 1
    funext s'
    exact ih s'

/-- What the steps keep, the runs keep. -/
theorem run_invariant {I : S → Prop} {good : S → E → Prop}
    (hstep : ∀ s e s', I s → good s e → step s e = some s' → I s') {s s' : S} {events : List E}
    (hs : I s) (hgood : Meets step good s events) (hrun : run step s events = some s') : I s' := by
  induction events generalizing s with
  | nil =>
    have heq : s = s' := Option.some.inj hrun
    rwa [← heq]
  | cons e events ih =>
    obtain ⟨s₁, hs₁, hrest⟩ := run_cons_eq_some.mp hrun
    exact ih (hstep s e s₁ hs hgood.1 hs₁) (hgood.2 s₁ hs₁) hrest

theorem meets_of_forall {good : S → E → Prop} (h : ∀ s e, good s e) (s : S) (events : List E) :
    Meets step good s events := by
  induction events generalizing s with
  | nil => trivial
  | cons e events ih => exact ⟨h s e, fun s' _ => ih s'⟩

/-- A condition on the events alone. -/
theorem meets_of_mem {good : E → Prop} {events : List E} (h : ∀ e ∈ events, good e) (s : S) :
    Meets step (fun _ e => good e) s events := by
  induction events generalizing s with
  | nil => trivial
  | cons e events ih =>
    exact ⟨h e List.mem_cons_self, fun s' _ => ih (fun e he => h e (List.mem_cons_of_mem _ he)) s'⟩

theorem Meets.cons {good : S → E → Prop} {s s' : S} {e : E} {events : List E} (he : good s e)
    (h : step s e = some s') (hrest : Meets step good s' events) :
    Meets step good s (e :: events) := by
  refine ⟨he, fun s₁ hs₁ => ?_⟩
  have heq : s' = s₁ := Option.some.inj (h.symm.trans hs₁)
  rwa [← heq]

theorem Meets.and {good also : S → E → Prop} {s : S} {events : List E}
    (h : Meets step good s events) (h' : Meets step also s events) :
    Meets step (fun s e => good s e ∧ also s e) s events := by
  induction events generalizing s with
  | nil => trivial
  | cons e events ih =>
    exact ⟨⟨h.1, h'.1⟩, fun s' hs' => ih (h.2 s' hs') (h'.2 s' hs')⟩

/-- An invariant of all steps is one of all runs. -/
theorem run_keeps {I : S → Prop} (hstep : ∀ s e s', I s → step s e = some s' → I s') {s s' : S}
    {events : List E} (hs : I s) (hrun : run step s events = some s') : I s' :=
  run_invariant (fun s e s' h (_ : True) => hstep s e s' h) hs
    (meets_of_forall (fun _ _ => trivial) s events) hrun

section Outputs

variable {O : Type}

/-- What the steps of a run put out. -/
def outputs (step : S → E → Option S) (out : S → E → List O) : S → List E → List O
  | _, [] => []
  | s, e :: events =>
    match step s e with
    | some s' => out s e ++ outputs step out s' events
    | none => []

theorem outputs_append (out : S → E → List O) {s s' : S} {events : List E}
    (hrun : run step s events = some s') (events' : List E) :
    outputs step out s (events ++ events') =
      outputs step out s events ++ outputs step out s' events' := by
  induction events generalizing s with
  | nil =>
    rw [← Option.some.inj hrun]
    rfl
  | cons e events ih =>
    obtain ⟨s₁, hs₁, hrest⟩ := run_cons_eq_some.mp hrun
    rw [List.cons_append, outputs, outputs, hs₁]
    dsimp only
    rw [ih hrest, List.append_assoc]

/-- An invariant of the steps that meet a condition, and of what they have put out. -/
theorem run_outputs_meets {out : S → E → List O} {I : S → List O → Prop} {good : S → E → Prop}
    (hstep : ∀ s e s' l, I s l → good s e → step s e = some s' → I s' (l ++ out s e)) {s s' : S}
    {l : List O} {events : List E} (hs : I s l) (hgood : Meets step good s events)
    (hrun : run step s events = some s') : I s' (l ++ outputs step out s events) := by
  induction events generalizing s l with
  | nil =>
    rw [← Option.some.inj hrun, outputs, List.append_nil]
    exact hs
  | cons e events ih =>
    obtain ⟨s₁, hs₁, hrest⟩ := run_cons_eq_some.mp hrun
    rw [outputs, hs₁]
    dsimp only
    rw [← List.append_assoc]
    exact ih (hstep s e s₁ l hs hgood.1 hs₁) (hgood.2 s₁ hs₁) hrest

/-- An invariant of the steps and of what they have put out. -/
theorem run_outputs {out : S → E → List O} {I : S → List O → Prop}
    (hstep : ∀ s e s' l, I s l → step s e = some s' → I s' (l ++ out s e)) {s s' : S} {l : List O}
    {events : List E} (hs : I s l) (hrun : run step s events = some s') :
    I s' (l ++ outputs step out s events) :=
  run_outputs_meets (fun s e s' l h (_ : True) => hstep s e s' l h) hs
    (meets_of_forall (fun _ _ => trivial) s events) hrun

end Outputs

end BackupManager.Transition
