import BackupManager.Transition.Run

/-! A system that is described in more detail than another: each of its steps is one step of the other, or
none. Its runs are runs of the other, with the same outputs. -/
namespace BackupManager.Transition

variable {S E T M O P : Type} {step : S → E → Option S} {step' : T → M → Option T}

/-- Each step does on the projection what one step of the other system does, or nothing. -/
def Simulates (step : S → E → Option S) (out : S → E → List O) (step' : T → M → Option T)
    (out' : T → M → List O) (f : S → T) : Prop :=
  ∀ s e s', step s e = some s' → f s' = f s ∧ out s e = [] ∨
    ∃ m, step' (f s) m = some (f s') ∧ out' (f s) m = out s e

theorem Simulates.run {out : S → E → List O} {out' : T → M → List O} {f : S → T}
    (h : Simulates step out step' out' f) {s s' : S} {events : List E}
    (hrun : run step s events = some s') : ∃ moves, Transition.run step' (f s) moves = some (f s') ∧
      outputs step' out' (f s) moves = outputs step out s events := by
  induction events generalizing s with
  | nil =>
    refine ⟨[], ?_, rfl⟩
    rw [← Option.some.inj hrun]
    rfl
  | cons e events ih =>
    obtain ⟨s₁, hs₁, hrest⟩ := run_cons_eq_some.mp hrun
    obtain ⟨moves, hmoves, hout⟩ := ih hrest
    have hhead : outputs step out s (e :: events) = out s e ++ outputs step out s₁ events := by
      rw [outputs, hs₁]
    rw [hhead, ← hout]
    rcases h s e s₁ hs₁ with ⟨hstays, hnothing⟩ | ⟨m, hm, hsame⟩
    · rw [hstays] at hmoves
      refine ⟨moves, hmoves, ?_⟩
      rw [hnothing, hstays, List.nil_append]
    · refine ⟨m :: moves, run_cons_eq_some.mpr ⟨_, hm, hmoves⟩, ?_⟩
      rw [outputs, hm, hsame]

/-- Outputs of which a part is looked at. -/
theorem outputs_filterMap (out : S → E → List O) (g : O → Option P) (s : S) (events : List E) :
    outputs step (fun s e => (out s e).filterMap g) s events =
      (outputs step out s events).filterMap g := by
  induction events generalizing s with
  | nil => rfl
  | cons e events ih =>
    rw [outputs, outputs]
    cases step s e with
    | none => rfl
    | some s' =>
      dsimp only
      rw [List.filterMap_append, ih]

end BackupManager.Transition
