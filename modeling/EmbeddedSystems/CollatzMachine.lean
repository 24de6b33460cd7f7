import EmbeddedSystems.CollatzOrbit

/-! The clocked Collatz iterator of `collatz.sv`. All right-hand sides read the
state before the edge; a later non-blocking assignment overrides an earlier one. -/

namespace EmbeddedSystems
namespace Collatz

open CollatzOrbit Clocked

structure State where
  dout : BitVec 32
  done : Bool
  deriving DecidableEq, Repr

/-- One clock edge of `collatz`, sampling `go` and `n`. -/
def step (s : State) (go : Bool) (n : BitVec 32) : State :=
  let s' := if s.dout = 2#32 then { s with done := true } else s
  if go then { dout := n, done := false }
  else if s.done then s'
  else if s.dout[0] then { s' with dout := s.dout*3#32+1#32 }
  else { s' with dout := s.dout >>> 1 }

@[simp] theorem step_go (s : State) (n : BitVec 32) : step s true n = ⟨n,false⟩ := rfl

theorem step_done (s : State) (n : BitVec 32) :
    (step s false n).done = (s.done || decide (s.dout = 2#32)) := by
  unfold step
  split_ifs <;> simp_all

theorem step_dout_toNat (s : State) (n : BitVec 32) (hdone : s.done = false)
    (hfit : next s.dout.toNat < 2^32) : (step s false n).dout.toNat = next s.dout.toNat := by
  have hodd : s.dout[0] = decide (s.dout.toNat % 2 = 1) := by
    simp [← BitVec.getLsbD_eq_getElem,BitVec.getLsbD,Nat.testBit_zero]
  unfold next at hfit ⊢
  by_cases h : s.dout.toNat % 2 = 1
  · rw [if_pos h] at hfit ⊢
    have hs : (step s false n).dout = s.dout*3#32+1#32 := by
      simp [step,hdone,hodd,h]
    rw [hs]
    simp only [BitVec.toNat_add,BitVec.toNat_mul,BitVec.toNat_ofNat]
    omega
  · rw [if_neg h]
    have hs : (step s false n).dout = s.dout >>> 1 := by
      simp [step,hdone,hodd,h]
    rw [hs,BitVec.toNat_ushiftRight,Nat.shiftRight_eq_div_pow]

/-- The iterator is at element `j` of the orbit of `m`, with `done` raised exactly
when that element is the first `1`. -/
structure Follows (m σ j : ℕ) (s : State) : Prop where
  dout : s.dout.toNat = orbit m j
  done : s.done = decide (j = σ)

theorem follows_load (n : BitVec 32) {σ : ℕ} (hσ : 0 < σ) : Follows n.toNat σ 0 ⟨n,false⟩ where
  dout := rfl
  done := by simp; omega

theorem Follows.step {m σ j : ℕ} {s : State} (h : Follows m σ j s) (hj : j < σ)
    (hm : ReachesOne 32 m σ) (n : BitVec 32) : Follows m σ (j+1) (Collatz.step s false n) := by
  have hlow : s.done = false := by simpa [h.done] using hj.ne
  have hfit : next s.dout.toNat < 2^32 := by
    rw [h.dout,← orbit_succ]
    exact hm.below (j+1) hj
  constructor
  · rw [step_dout_toNat s n hlow hfit,h.dout,orbit_succ]
  · have h2 : s.dout = 2#32 ↔ j+1 = σ := by
      rw [← hm.eq_two_iff hj,← h.dout,BitVec.toNat_eq]
      rfl
    simp [step_done,hlow,h2]

theorem Follows.rest {m σ : ℕ} {s : State} (h : Follows m σ σ s) (hm : ReachesOne 32 m σ)
    (n : BitVec 32) : Follows m σ σ (Collatz.step s false n) := by
  have hdone : s.done = true := by simp [h.done]
  have hone : s.dout.toNat = 1 := h.dout.trans hm.one
  have hne : s.dout ≠ 2#32 := by
    intro h2
    rw [h2] at hone
    exact absurd hone (by decide)
  have hs : Collatz.step s false n = s := by simp [Collatz.step,hdone,hne]
  rw [hs]
  exact h

def loaded (s : State) (n : BitVec 32) (ns : ℕ → BitVec 32) (j : ℕ) : State :=
  trace (fun s n => step s false n) (step s true n) ns j

theorem follows_loaded {n : BitVec 32} {σ : ℕ} (hm : ReachesOne 32 n.toNat σ) (hσ : 0 < σ)
    (s : State) (ns : ℕ → BitVec 32) (j : ℕ) :
    Follows n.toNat σ (min j σ) (loaded s n ns j) := by
  induction j with
  | zero =>
    rw [Nat.zero_min]
    exact follows_load n hσ
  | succ j ih =>
    by_cases hj : j < σ
    · rw [Nat.min_eq_left (by omega)] at ih ⊢
      exact ih.step hj hm (ns j)
    · rw [Nat.min_eq_right (by omega)] at ih ⊢
      exact ih.rest hm (ns j)

/-- After `n` has been loaded, `dout` runs through the orbit up to its first `1` and rests there,
and `done` is high exactly while `dout` is `1`. -/
def DoneAtOne (n : BitVec 32) (σ : ℕ) : Prop :=
  ∀ (s : State) (ns : ℕ → BitVec 32) (j : ℕ),
    (loaded s n ns j).dout.toNat = orbit n.toNat (min j σ) ∧
      ((loaded s n ns j).done = true ↔ (loaded s n ns j).dout = 1)

/-- Of the numbers whose orbit reaches one in 32 bits, the iterator handles all but `1` itself:
`done` is predicted from `2`, and an orbit that begins on `1` has no `2` in front of it. -/
theorem doneAtOne_iff {n : BitVec 32} {σ : ℕ} (hm : ReachesOne 32 n.toNat σ) :
    DoneAtOne n σ ↔ n ≠ 1 := by
  constructor
  · rintro h rfl
    have h0 := (h ⟨0,false⟩ (fun _ => 0) 0).2.mpr rfl
    exact absurd h0 (by simp [loaded])
  · intro hn s ns j
    have hpos : 0 < σ := by
      rcases Nat.eq_zero_or_pos σ with rfl | hpos
      · have h1 : n.toNat = (1 : BitVec 32).toNat := hm.one
        exact absurd (BitVec.eq_of_toNat_eq h1) hn
      · exact hpos
    have hf := follows_loaded hm hpos s ns j
    refine ⟨hf.dout,?_⟩
    have hone : (loaded s n ns j).dout = 1 ↔ orbit n.toNat (min j σ) = 1 := by
      rw [← hf.dout,BitVec.toNat_eq]
      rfl
    rw [hf.done,decide_eq_true_eq,hone]
    constructor
    · intro he
      rw [he]
      exact hm.one
    · intro he
      by_contra hne
      exact hm.first (min j σ) (by omega) he

theorem doneAtOne_three : ReachesOne 32 3 7 ∧ DoneAtOne 3 7 := by
  have hm : ReachesOne 32 (3 : BitVec 32).toNat 7 := by decide
  exact ⟨hm,(doneAtOne_iff hm).mpr (by decide)⟩

/-- The orbit of `1` is at its first `1` from the start, but right after the load `done` is low,
and on the next edge `dout` leaves for `4`. -/
theorem not_doneAtOne_one :
    ReachesOne 32 1 0 ∧ (loaded ⟨0,false⟩ 1 (fun _ => 0) 0) = ⟨1,false⟩ ∧
      (loaded ⟨0,false⟩ 1 (fun _ => 0) 1) = ⟨4,false⟩ ∧ ¬DoneAtOne 1 0 := by
  refine ⟨by decide,by decide,by decide,?_⟩
  intro h
  have h0 := (h ⟨0,false⟩ (fun _ => 0) 0).2.mpr rfl
  exact absurd h0 (by decide)

end Collatz
end EmbeddedSystems
