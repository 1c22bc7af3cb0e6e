import Mathlib.Data.Seq.Defs
import Mathlib.Tactic.Ring

/-! The loop of `main`: `Client` is constructed again after an exception, unless there have been too many
of them within a short time. -/
namespace BackupManager.Client.Main
open Stream'

/-- How the construction of a `Client` ends: normally, once the user has quit, or by an exception, which
is caught at this time. -/
inductive Construction where
  | returned
  | threw (time : ℤ)
  deriving DecidableEq, Repr

def tryAgainAttempts : ℕ := 5

def tryAgainAttemptsResetSeconds : ℤ := 20

def couldNotReconnect : String := "Could not reconnect to the server, closing the program\n"

def programTerminated : String := "Program terminated\n"

/-- The variables of `main`. -/
structure State where
  lastExceptionTime : ℤ
  newExceptionTime : ℤ
  tryAgain : ℤ
  exit : Bool
  deriving DecidableEq, Repr

def begin : State := ⟨0, 0, tryAgainAttempts, false⟩

namespace State

/-- `while (try_again && !exit)`. -/
def goesOn (s : State) : Bool := decide (s.tryAgain ≠ 0) && !s.exit

/-- The reset of the counter. -/
def reset (s : State) : State :=
  if s.newExceptionTime - s.lastExceptionTime > tryAgainAttemptsResetSeconds then
    { s with tryAgain := tryAgainAttempts }
  else s

/-- The body of the loop. -/
def round (s : State) : Construction → State
  | .returned => { s with exit := true }
  | .threw time =>
    let s := { s with exit := false, newExceptionTime := time }
    let s := s.reset
    { s with lastExceptionTime := s.newExceptionTime, tryAgain := s.tryAgain - 1 }

/-- What an exception leaves in the variables. -/
theorem round_threw (s : State) (time : ℤ) : s.round (.threw time) = ⟨time, time,
    (if time - s.lastExceptionTime > tryAgainAttemptsResetSeconds then (tryAgainAttempts : ℤ)
      else s.tryAgain) - 1, false⟩ := by
  unfold round reset
  dsimp only
  split <;> rfl

/-- What is printed after the loop. -/
def printed (s : State) : List String :=
  (if s.tryAgain = 0 then [couldNotReconnect] else []) ++ [programTerminated]

end State

/-- The state after so many rounds, if the loop comes so far. -/
def rounds (outcomes : Seq Construction) : ℕ → Option State
  | 0 => some begin
  | n + 1 =>
    match rounds outcomes n, outcomes.get? n with
    | some s, some outcome => if s.goesOn then some (s.round outcome) else none
    | _, _ => none

/-- The loop is over after so many rounds. -/
def Stops (outcomes : Seq Construction) (n : ℕ) : Prop :=
  ∃ s, rounds outcomes n = some s ∧ s.goesOn = false

/-- And it is said that the server could not be reached again. -/
def Reports (outcomes : Seq Construction) (n : ℕ) : Prop :=
  ∃ s, rounds outcomes n = some s ∧ s.goesOn = false ∧ couldNotReconnect ∈ s.printed

/-- So many exceptions in a row, each soon after the one before. -/
structure Burst (outcomes : Seq Construction) (first count : ℕ) : Prop where
  threw : ∀ i, first ≤ i → i < first + count → ∃ time, outcomes.get? i = some (.threw time)
  soon : ∀ i, first ≤ i → i + 1 < first + count → ∀ time time', outcomes.get? i = some (.threw time) →
    outcomes.get? (i + 1) = some (.threw time') → time' - time ≤ tryAgainAttemptsResetSeconds

/-- So many outcomes just before the number `n` are a burst. -/
def BurstBefore (outcomes : Seq Construction) (n count : ℕ) : Prop :=
  ∃ first, first + count = n ∧ Burst outcomes first count

/-- The outcome number `n` is the last of a burst of `TRY_AGAIN_ATTEMPTS`. -/
def LastOfBurst (outcomes : Seq Construction) (n : ℕ) : Prop :=
  BurstBefore outcomes (n + 1) tryAgainAttempts

/-- A normal return, or the end of a burst. -/
def Final (outcomes : Seq Construction) (n : ℕ) : Prop :=
  outcomes.get? n = some .returned ∨ LastOfBurst outcomes n

section Bursts

variable {outcomes : Seq Construction} {n count : ℕ} {time last : ℤ}

theorem burstBefore_zero (n : ℕ) : BurstBefore outcomes n 0 :=
  ⟨n, rfl, fun _ hle hlt => absurd hlt (by omega), fun _ hle hlt => absurd hlt (by omega)⟩

theorem BurstBefore.count_le (h : BurstBefore outcomes n count) : count ≤ n := by
  obtain ⟨first, heq, -⟩ := h
  omega

/-- A burst grows by an exception that comes soon after its last one. -/
theorem burstBefore_succ (htime : outcomes.get? n = some (.threw time)) :
    BurstBefore outcomes (n + 1) (count + 1) ↔ BurstBefore outcomes n count ∧
      ∀ last, 0 < count → outcomes.get? (n - 1) = some (.threw last) →
        time - last ≤ tryAgainAttemptsResetSeconds := by
  constructor
  · rintro ⟨first, heq, hburst⟩
    have heq : first + count = n := by omega
    refine ⟨⟨first, heq, fun i hle hlt => hburst.threw i hle (by omega),
      fun i hle hlt => hburst.soon i hle (by omega)⟩, fun last hpos hlast => ?_⟩
    have hnext : n - 1 + 1 = n := by omega
    exact hburst.soon (n - 1) (by omega) (by omega) last time hlast (by rw [hnext, htime])
  · rintro ⟨⟨first, heq, hburst⟩, hsoon⟩
    refine ⟨first, by omega, fun i hle hlt => ?_, fun i hle hlt t t' ht ht' => ?_⟩
    · by_cases hi : i = n
      · exact ⟨time, by rw [hi, htime]⟩
      · exact hburst.threw i hle (by omega)
    · by_cases hi : i + 1 = n
      · have hprevious : n - 1 = i := by omega
        rw [hi, htime, Option.some.injEq, Construction.threw.injEq] at ht'
        rw [← ht']
        exact hsoon t (by omega) (by rw [hprevious, ht])
      · exact hburst.soon i hle (by omega) t t' ht ht'

theorem LastOfBurst.threw (h : LastOfBurst outcomes n) :
    ∃ time, outcomes.get? n = some (.threw time) := by
  obtain ⟨first, heq, hburst⟩ := h
  unfold tryAgainAttempts at heq hburst
  exact hburst.threw n (by omega) (by omega)

end Bursts

/-- After so many exceptions, and nothing else: the counter says how long the longest burst is that
ends here. -/
structure Counted (outcomes : Seq Construction) (n : ℕ) (s : State) : Prop where
  exit : s.exit = false
  last : 0 < n → outcomes.get? (n - 1) = some (.threw s.lastExceptionTime)
  count : ∃ k ≤ tryAgainAttempts, s.tryAgain = tryAgainAttempts - k ∧
    ∀ count, BurstBefore outcomes n count ↔ count ≤ k

section Rounds

variable {outcomes : Seq Construction} {n : ℕ} {s : State} {time : ℤ}

theorem counted_begin : Counted outcomes 0 begin := by
  refine ⟨rfl, fun h => absurd h (by omega), 0, Nat.zero_le _, rfl, fun count => ?_⟩
  constructor
  · exact fun h => h.count_le
  · intro hle
    rw [Nat.le_zero.mp hle]
    exact burstBefore_zero 0

theorem Counted.tryAgain_eq_zero (h : Counted outcomes n s) :
    s.tryAgain = 0 ↔ BurstBefore outcomes n tryAgainAttempts := by
  obtain ⟨k, hle, hcount, hburst⟩ := h.count
  rw [hburst, hcount]
  omega

theorem Counted.goesOn_eq_false (h : Counted outcomes n s) :
    s.goesOn = false ↔ BurstBefore outcomes n tryAgainAttempts := by
  rw [← h.tryAgain_eq_zero, State.goesOn, h.exit]
  simp

/-- An exception lengthens the burst if it comes soon after the last one, and else begins another. -/
theorem Counted.round (h : Counted outcomes n s) (hgoesOn : s.goesOn = true)
    (htime : outcomes.get? n = some (.threw time)) :
    Counted outcomes (n + 1) (s.round (.threw time)) := by
  obtain ⟨k, hle, hcount, hburst⟩ := h.count
  have hzero : BurstBefore outcomes (n + 1) 0 := burstBefore_zero _
  have hlast : ∀ last, outcomes.get? (n - 1) = some (.threw last) → 0 < n →
      last = s.lastExceptionTime := by
    intro last hthrew hpos
    have heq := hthrew.symm.trans (h.last hpos)
    exact Construction.threw.inj (Option.some.inj heq)
  rw [s.round_threw]
  refine ⟨rfl, fun _ => htime, ?_⟩
  by_cases hreset : time - s.lastExceptionTime > tryAgainAttemptsResetSeconds
  · refine ⟨1, by decide, by rw [if_pos hreset]; rfl, fun count => ?_⟩
    cases count with
    | zero => simp [hzero]
    | succ count =>
      rw [burstBefore_succ htime]
      constructor
      · rintro ⟨hbefore, hsoon⟩
        by_contra hlong
        have hpos : 0 < n := by
          have hle := hbefore.count_le
          omega
        have hgap := hsoon _ (by omega) (h.last hpos)
        omega
      · intro hshort
        have hnone : count = 0 := by omega
        rw [hnone]
        exact ⟨burstBefore_zero n, fun _ hpos => absurd hpos (by omega)⟩
  · have hroom : k < tryAgainAttempts := by
      rw [State.goesOn, h.exit] at hgoesOn
      simp only [Bool.not_false, Bool.and_true, decide_eq_true_eq] at hgoesOn
      omega
    refine ⟨k + 1, hroom, ?_, fun count => ?_⟩
    · rw [if_neg hreset, hcount]
      push_cast
      ring
    cases count with
    | zero => simp [hzero]
    | succ count =>
      rw [burstBefore_succ htime, hburst]
      constructor
      · rintro ⟨hbefore, -⟩
        omega
      · intro hshort
        refine ⟨by omega, fun last hpos hthrew => ?_⟩
        have hn : 0 < n := by
          have hle := ((hburst count).mpr (by omega)).count_le
          omega
        rw [hlast last hthrew hn]
        omega

theorem rounds_succ {outcome : Construction} (hs : rounds outcomes n = some s)
    (houtcome : outcomes.get? n = some outcome) :
    rounds outcomes (n + 1) = if s.goesOn then some (s.round outcome) else none := by
  rw [rounds, hs, houtcome]

/-- The last round, and how it came to it. -/
theorem rounds_last (hs : rounds outcomes (n + 1) = some s) :
    ∃ s₀ outcome, rounds outcomes n = some s₀ ∧ s₀.goesOn = true ∧
      outcomes.get? n = some outcome ∧ s = s₀.round outcome := by
  rw [rounds] at hs
  split at hs
  · next s₀ outcome hs₀ houtcome =>
    split at hs
    · next hgoesOn => exact ⟨s₀, outcome, hs₀, hgoesOn, houtcome, (Option.some.inj hs).symm⟩
    · exact absurd hs (by simp)
  · exact absurd hs (by simp)

/-- While the loop goes on there have been exceptions only. -/
theorem counted_rounds (hs : rounds outcomes n = some s) (hexit : s.exit = false) :
    Counted outcomes n s := by
  induction n generalizing s with
  | zero =>
    rw [← Option.some.inj hs]
    exact counted_begin
  | succ n ih =>
    obtain ⟨s₀, outcome, hs₀, hgoesOn, houtcome, rfl⟩ := rounds_last hs
    have hexit₀ : s₀.exit = false := by
      rw [State.goesOn] at hgoesOn
      simpa using (Bool.and_eq_true_iff.mp hgoesOn).2
    cases outcome with
    | returned => exact absurd hexit (by simp [State.round])
    | threw time => exact (ih hs₀ hexit₀).round hgoesOn houtcome

theorem final_of_stops (hs : rounds outcomes (n + 1) = some s) (hstops : s.goesOn = false) :
    Final outcomes n := by
  obtain ⟨s₀, outcome, -, -, houtcome, heq⟩ := rounds_last hs
  cases outcome with
  | returned => exact Or.inl houtcome
  | threw time =>
    have hcounted := counted_rounds hs (by rw [heq, s₀.round_threw])
    exact Or.inr (hcounted.goesOn_eq_false.mp hstops)

theorem not_final_of_goesOn (hs : rounds outcomes (n + 1) = some s) (hgoesOn : s.goesOn = true) :
    ¬Final outcomes n := by
  have hexit : s.exit = false := by
    rw [State.goesOn] at hgoesOn
    simpa using (Bool.and_eq_true_iff.mp hgoesOn).2
  rintro (hreturned | hburst)
  · obtain ⟨s₀, outcome, -, -, houtcome, heq⟩ := rounds_last hs
    rw [hreturned, Option.some.injEq] at houtcome
    rw [heq, ← houtcome] at hexit
    cases hexit
  · rw [(counted_rounds hs hexit).goesOn_eq_false.mpr hburst] at hgoesOn
    cases hgoesOn

/-- A round is only made where the loop went on in all before it. -/
theorem not_final_of_rounds (hs : rounds outcomes (n + 1) = some s) :
    ∀ j < n, ¬Final outcomes j := by
  induction n generalizing s with
  | zero => exact fun j hj => absurd hj (by omega)
  | succ n ih =>
    intro j hj
    obtain ⟨s₀, outcome, hs₀, hgoesOn, -, -⟩ := rounds_last hs
    by_cases hlast : j = n
    · rw [hlast]
      exact not_final_of_goesOn hs₀ hgoesOn
    · exact ih hs₀ j (by omega)

theorem Final.get (h : Final outcomes n) : ∃ outcome, outcomes.get? n = some outcome := by
  rcases h with hreturned | hburst
  · exact ⟨_, hreturned⟩
  · obtain ⟨time, htime⟩ := hburst.threw
    exact ⟨_, htime⟩

/-- The loop comes to every outcome that no final one comes before. -/
theorem exists_rounds {outcome : Construction} (houtcome : outcomes.get? n = some outcome)
    (hno : ∀ j < n, ¬Final outcomes j) : ∃ s, rounds outcomes n = some s ∧ s.goesOn = true := by
  induction n generalizing outcome with
  | zero => exact ⟨begin, rfl, rfl⟩
  | succ n ih =>
    obtain ⟨before, hbefore⟩ := outcomes.ge_stable (Nat.le_succ n) houtcome
    obtain ⟨s, hs, hgoesOn⟩ := ih hbefore fun j hj => hno j (by omega)
    have hnext := rounds_succ hs hbefore
    rw [if_pos hgoesOn] at hnext
    refine ⟨_, hnext, ?_⟩
    rw [← Bool.not_eq_false]
    intro hstops
    exact hno n (Nat.lt_succ_self n) (final_of_stops hnext hstops)

theorem stops_iff : Stops outcomes n ↔
    ∃ k, n = k + 1 ∧ Final outcomes k ∧ ∀ j < k, ¬Final outcomes j := by
  constructor
  · rintro ⟨s, hs, hstops⟩
    cases n with
    | zero =>
      rw [← Option.some.inj hs] at hstops
      cases hstops
    | succ k => exact ⟨k, rfl, final_of_stops hs hstops, not_final_of_rounds hs⟩
  · rintro ⟨k, rfl, hfinal, hno⟩
    obtain ⟨outcome, houtcome⟩ := hfinal.get
    obtain ⟨s, hs, hgoesOn⟩ := exists_rounds houtcome hno
    have hnext := rounds_succ hs houtcome
    rw [if_pos hgoesOn] at hnext
    refine ⟨_, hnext, ?_⟩
    rw [← Bool.not_eq_true]
    exact fun hmore => not_final_of_goesOn hnext hmore hfinal

theorem mem_printed : couldNotReconnect ∈ s.printed ↔ s.tryAgain = 0 := by
  have hother : couldNotReconnect ≠ programTerminated := by decide
  unfold State.printed
  split
  · next hzero => simp [hzero]
  · next hmore => simp [hmore, hother]

/-- A loop that has stopped has used up its attempts exactly where a burst has ended. -/
theorem reports_iff : Reports outcomes (n + 1) ↔ Stops outcomes (n + 1) ∧ LastOfBurst outcomes n := by
  constructor
  · rintro ⟨s, hs, hstops, hreport⟩
    refine ⟨⟨s, hs, hstops⟩, ?_⟩
    have hzero := mem_printed.mp hreport
    obtain ⟨s₀, outcome, hs₀, hgoesOn, -, heq⟩ := rounds_last hs
    cases outcome with
    | returned =>
      rw [heq] at hzero
      have hused : s₀.tryAgain = 0 := hzero
      simp [State.goesOn, hused] at hgoesOn
    | threw time =>
      have hcounted := counted_rounds hs (by rw [heq, s₀.round_threw])
      exact hcounted.tryAgain_eq_zero.mp hzero
  · rintro ⟨⟨s, hs, hstops⟩, hburst⟩
    obtain ⟨s₀, outcome, -, -, houtcome, heq⟩ := rounds_last hs
    obtain ⟨time, htime⟩ := hburst.threw
    rw [htime, Option.some.injEq] at houtcome
    have hcounted := counted_rounds hs (by rw [heq, ← houtcome, s₀.round_threw])
    exact ⟨s, hs, hstops, mem_printed.mpr (hcounted.tryAgain_eq_zero.mpr hburst)⟩

end Rounds

/-- The loop stops at the first outcome that is a normal return or ends a burst, and at no other point;
it says that the server could not be reached again exactly in the second case. -/
theorem retry_loop (outcomes : Seq Construction) (n : ℕ) :
    (Stops outcomes n ↔ ∃ k, n = k + 1 ∧ Final outcomes k ∧ ∀ j < k, ¬Final outcomes j) ∧
    (Reports outcomes n ↔ ∃ k, n = k + 1 ∧ LastOfBurst outcomes k ∧ ∀ j < k, ¬Final outcomes j) := by
  refine ⟨stops_iff, ?_⟩
  cases n with
  | zero =>
    constructor
    · rintro ⟨s, hs, hstops, -⟩
      rw [← Option.some.inj hs] at hstops
      cases hstops
    · rintro ⟨k, hk, -⟩
      exact absurd hk (by omega)
  | succ n =>
    rw [reports_iff, stops_iff]
    constructor
    · rintro ⟨⟨k, hk, -, hno⟩, hburst⟩
      obtain rfl := Nat.succ.inj hk
      exact ⟨n, rfl, hburst, hno⟩
    · rintro ⟨k, hk, hburst, hno⟩
      obtain rfl := Nat.succ.inj hk
      exact ⟨⟨n, rfl, Or.inr hburst, hno⟩, hburst⟩

end BackupManager.Client.Main
