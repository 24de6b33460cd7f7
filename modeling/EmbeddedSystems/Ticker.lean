import Mathlib.Data.List.Chain
import Mathlib.Tactic

/-! A timer with a deadline that is looked at from time to time: a reading of the clock that has
reached the deadline fires it and sets the next deadline `interval` later than the reading. How
often it fires is bounded from both sides by how far apart the readings are. -/

namespace EmbeddedSystems
namespace Ticker

structure State where
  next : ℕ
  fired : ℕ
  deriving DecidableEq, Repr

def step (interval : ℕ) (s : State) (now : ℕ) : State :=
  if s.next ≤ now then ⟨now+interval,s.fired+1⟩ else s

def run (interval : ℕ) (s : State) (readings : List ℕ) : State := readings.foldl (step interval) s

theorem run_append (interval : ℕ) (s : State) (rs rs' : List ℕ) :
    run interval s (rs ++ rs') = run interval (run interval s rs) rs' :=
  List.foldl_append

theorem step_fired (interval now : ℕ) (s : State) : step interval s now =
    ⟨(step interval ⟨s.next,0⟩ now).next,s.fired+(step interval ⟨s.next,0⟩ now).fired⟩ := by
  unfold step
  by_cases h : s.next ≤ now
  · simp [h]
  · simp [h]

theorem run_fired (interval : ℕ) (s : State) (rs : List ℕ) : run interval s rs =
    ⟨(run interval ⟨s.next,0⟩ rs).next,s.fired+(run interval ⟨s.next,0⟩ rs).fired⟩ := by
  induction rs generalizing s with
  | nil => rfl
  | cons now rs ih =>
    have hs : ∀ s, run interval s (now :: rs) = run interval (step interval s now) rs :=
      fun _ => rfl
    rw [hs,hs,ih (step interval s now),ih (step interval ⟨s.next,0⟩ now),step_fired interval now s,
      Nat.add_assoc]

/-- The timer after the reading `c`, since it was set to `deadline` with readings at most `gap`
apart. -/
structure Paced (interval gap deadline c : ℕ) (s : State) : Prop where
  ahead : c < s.next
  slow : deadline+interval*s.fired ≤ s.next
  fast : s.next ≤ deadline+s.fired*(gap+interval-1)
  recent : 0 < s.fired → s.next ≤ c+interval

theorem paced_set {interval gap deadline c : ℕ} (h : c < deadline) :
    Paced interval gap deadline c ⟨deadline,0⟩ := by
  refine ⟨h,?_,?_,?_⟩
  · simp
  · simp
  · intro h0
    exact absurd h0 (lt_irrefl 0)

theorem Paced.step {interval gap deadline c now : ℕ} {s : State}
    (h : Paced interval gap deadline c s) (hi : 0 < interval) (hle : c ≤ now)
    (hgap : now ≤ c+gap) : Paced interval gap deadline now (Ticker.step interval s now) := by
  obtain ⟨hahead,hslow,hfast,hrecent⟩ := h
  unfold Ticker.step
  split_ifs with hdue
  · refine ⟨?_,?_,?_,?_⟩
    · show now < now+interval
      omega
    · show deadline+interval*(s.fired+1) ≤ now+interval
      rw [Nat.mul_succ]
      omega
    · show now+interval ≤ deadline+(s.fired+1)*(gap+interval-1)
      rw [Nat.succ_mul]
      omega
    · exact fun _ => le_rfl
  · refine ⟨not_le.mp hdue,hslow,hfast,?_⟩
    intro hpos
    have hr := hrecent hpos
    omega

/-- The bounds hold after any readings in order that are at most `gap` apart. -/
theorem Paced.run {interval gap deadline c : ℕ} {s : State} (h : Paced interval gap deadline c s)
    (hi : 0 < interval) {readings : List ℕ}
    (hchain : List.IsChain (fun a b => a ≤ b ∧ b ≤ a+gap) (c :: readings)) :
    Paced interval gap deadline (readings.getLastD c) (Ticker.run interval s readings) := by
  induction readings generalizing c s with
  | nil => exact h
  | cons now readings ih =>
    obtain ⟨hnow,hrest⟩ := List.isChain_cons_cons.mp hchain
    rw [List.getLastD_cons]
    exact ih (h.step hi hnow.1 hnow.2) hrest

end Ticker
end EmbeddedSystems
