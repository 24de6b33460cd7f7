import EmbeddedSystems.Clocked

/-! The exact Collatz orbit over the unbounded naturals, and what it means for a
machine of a given word width to be able to follow an orbit to its first `1`. -/

namespace EmbeddedSystems
namespace CollatzOrbit

def next (n : ℕ) : ℕ := if n % 2 = 1 then 3*n+1 else n/2

def orbit (n j : ℕ) : ℕ := next^[j] n

@[simp] theorem orbit_zero (n : ℕ) : orbit n 0 = n := rfl

theorem orbit_succ (n j : ℕ) : orbit n (j+1) = next (orbit n j) :=
  Function.iterate_succ_apply' next j n

theorem next_eq_one_iff (n : ℕ) : next n = 1 ↔ n = 2 := by
  unfold next
  split <;> omega

/-- The orbit of `n` meets `1` for the first time after `σ` steps and fits in
`width`-bit words up to there. -/
structure ReachesOne (width n σ : ℕ) : Prop where
  one : orbit n σ = 1
  first : ∀ j < σ, orbit n j ≠ 1
  below : ∀ j ≤ σ, orbit n j < 2^width

instance reachesOneDecidable (width n σ : ℕ) : Decidable (ReachesOne width n σ) :=
  decidable_of_iff (orbit n σ = 1 ∧ (∀ j < σ, orbit n j ≠ 1) ∧ ∀ j ≤ σ, orbit n j < 2^width)
    ⟨fun h => ⟨h.1,h.2.1,h.2.2⟩,fun h => ⟨h.one,h.first,h.below⟩⟩

namespace ReachesOne

variable {width n σ : ℕ}

theorem start_lt (h : ReachesOne width n σ) : n < 2^width := h.below 0 (Nat.zero_le σ)

theorem steps_pos (h : ReachesOne width n σ) (hn : 2 ≤ n) : 0 < σ := by
  rcases Nat.eq_zero_or_pos σ with h0 | hpos
  · have h1 := h.one
    rw [h0,orbit_zero] at h1
    omega
  · exact hpos

theorem eq_two_iff (h : ReachesOne width n σ) {j : ℕ} (hj : j < σ) :
    orbit n j = 2 ↔ j+1 = σ := by
  rw [← next_eq_one_iff,← orbit_succ]
  constructor
  · intro h1
    rcases Nat.lt_or_ge (j+1) σ with hlt | hge
    · exact absurd h1 (h.first (j+1) hlt)
    · omega
  · intro he
    rw [he]
    exact h.one

theorem cons (h : ReachesOne width (next n) σ) (h1 : n ≠ 1) (hn : n < 2^width) :
    ReachesOne width n (σ+1) where
  one := h.one
  first := by
    intro j hj
    cases j with
    | zero => exact h1
    | succ j => exact h.first j (by omega)
  below := by
    intro j hj
    cases j with
    | zero => exact hn
    | succ j => exact h.below j (by omega)

end ReachesOne

/-- The orbit of `n` is at `1` in fewer than `fuel` steps and below `bound` up to there. The tests
are on `Bool`, for which the kernel has arithmetic of its own. -/
def ends (bound : ℕ) : ℕ → ℕ → Bool
  | 0, _ => false
  | fuel+1, n => Nat.blt n bound &&
      (Nat.beq n 1 || ends bound fuel (bif Nat.beq (n % 2) 1 then 3*n+1 else n/2))

theorem next_eq_cond (n : ℕ) : next n = bif Nat.beq (n % 2) 1 then 3*n+1 else n/2 := by
  rw [next,Bool.cond_eq_ite]
  simp only [Nat.beq_eq]

theorem reachesOne_of_ends {width fuel n : ℕ} (h : ends (2^width) fuel n = true) :
    ∃ σ < fuel, ReachesOne width n σ := by
  induction fuel generalizing n with
  | zero => exact absurd h Bool.false_ne_true
  | succ fuel ih =>
    rw [ends,← next_eq_cond,Bool.and_eq_true,Bool.or_eq_true,Nat.blt_eq,Nat.beq_eq] at h
    obtain ⟨hn,hrest⟩ := h
    by_cases h1 : n = 1
    · refine ⟨0,Nat.succ_pos fuel,h1,fun j hj => absurd hj (Nat.not_lt_zero j),?_⟩
      intro j hj
      obtain rfl : j = 0 := by omega
      exact hn
    · obtain ⟨σ,hσ,hr⟩ := ih (hrest.resolve_left h1)
      exact ⟨σ+1,by omega,hr.cons h1 hn⟩

end CollatzOrbit
end EmbeddedSystems
