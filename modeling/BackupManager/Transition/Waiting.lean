import BackupManager.Transition.Run

/-! What can and what cannot come of waiting: a party that owns some of the events is stuck when no
sequence of the calm ones ever enables one of its own. -/
namespace BackupManager.Transition

variable {S E : Type} {step : S → E → Option S} {calm own : E → Prop}

/-- Whatever calm events come, no calm event of the party is enabled. -/
def Stuck (step : S → E → Option S) (calm own : E → Prop) (s : S) : Prop :=
  ∀ events s', (∀ e ∈ events, calm e) → run step s events = some s' →
    ∀ e, own e → calm e → step s' e = none

theorem not_stuck_of_enabled {s : S} {e : E} (hown : own e) (hcalm : calm e) (h : step s e ≠ none) :
    ¬Stuck step calm own s :=
  fun hstuck => h (hstuck [] s (by simp) rfl e hown hcalm)

/-- What the others can do for the party. -/
theorem not_stuck_of_step {s : S} {e : E} (s' : S) (hcalm : calm e) (h : step s e = some s')
    (hrest : ¬Stuck step calm own s') : ¬Stuck step calm own s := by
  intro hstuck
  apply hrest
  intro events s'' hevents hrun
  apply hstuck (e :: events) s''
  · intro e' he'
    rcases List.mem_cons.mp he' with rfl | hmem
    · exact hcalm
    · exact hevents e' hmem
  · exact run_cons_eq_some.mpr ⟨s', h, hrun⟩

/-- A party is stuck where something holds that the calm events keep and that disables its own. -/
theorem stuck_of_invariant {I : S → Prop}
    (hstep : ∀ s e s', I s → calm e → step s e = some s' → I s')
    (hdisabled : ∀ s e, I s → own e → calm e → step s e = none) {s : S} (hs : I s) :
    Stuck step calm own s := by
  intro events s' hevents hrun
  have hs' : I s' := by
    induction events generalizing s with
    | nil =>
      have heq : s = s' := Option.some.inj hrun
      rwa [← heq]
    | cons e events ih =>
      obtain ⟨s₁, h₁, hrest⟩ := run_cons_eq_some.mp hrun
      have hcalm := hevents e List.mem_cons_self
      exact ih (hstep s e s₁ hs hcalm h₁) (fun e' he' => hevents e' (List.mem_cons_of_mem e he')) hrest
  exact fun e hown hcalm => hdisabled s' e hs' hown hcalm

end BackupManager.Transition
