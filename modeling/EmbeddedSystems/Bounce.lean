import Mathlib.Tactic

/-! A point that bounces between two ends. It moves by a fixed amount and reverses as soon as it
has reached or passed an end. If it starts on a multiple of the amount and the length of the
interval is one too, it hits both ends exactly and follows a triangular wave. -/

namespace EmbeddedSystems
namespace Bounce

@[ext] structure State where
  pos : ℤ
  vel : ℤ
  deriving DecidableEq, Repr

def step (bound : ℤ) (b : State) : State :=
  let pos := b.pos+b.vel
  ⟨pos,if pos ≤ 0 ∨ pos ≥ bound then -b.vel else b.vel⟩

/-- The triangular wave of height `m` at the phase `k`. -/
def tri (m k : ℕ) : ℕ := if k % (2*m) < m then k % (2*m) else 2*m-k % (2*m)

theorem tri_le (m k : ℕ) : tri m k ≤ m := by
  unfold tri
  split_ifs <;> omega

def atPhase (s m k : ℕ) : State := ⟨s*tri m k,if k % (2*m) < m then s else -s⟩

theorem mod_succ {n : ℕ} (hn : 0 < n) (k : ℕ) :
    (k+1) % n = k % n+1 ∧ k % n+1 < n ∨ (k+1) % n = 0 ∧ k % n+1 = n := by
  have hlt := Nat.mod_lt k hn
  rw [Nat.add_mod_eq_ite]
  rcases Nat.lt_or_ge (k % n+1) n with h | h
  · left
    have h1 : 1 % n = 1 := Nat.mod_eq_of_lt (by omega)
    rw [h1,if_neg (by omega)]
    exact ⟨rfl,h⟩
  · right
    rcases Nat.eq_or_lt_of_le hn with h1 | h1
    · subst h1
      simp [Nat.mod_one]
    · have h1' : 1 % n = 1 := Nat.mod_eq_of_lt h1
      rw [h1',if_pos h]
      omega

theorem step_atPhase {s m : ℕ} (hs : 0 < s) (hm : 0 < m) (k : ℕ) :
    step (s*m) (atPhase s m k) = atPhase s m (k+1) := by
  have hlt := Nat.mod_lt k (by omega : 0 < 2*m)
  have hsz : (0 : ℤ) < s := by exact_mod_cast hs
  rcases mod_succ (by omega : 0 < 2*m) k with ⟨hnext,hin⟩ | ⟨hnext,hin⟩
  · by_cases hup : k % (2*m) < m
    · have hpos : (s : ℤ)*tri m k+s = s*(k % (2*m)+1 : ℕ) := by
        rw [tri,if_pos hup]
        push_cast
        ring
      have hnew : tri m (k+1) = k % (2*m)+1 := by
        unfold tri
        rw [hnext]
        split_ifs <;> omega
      have hlow : ¬(s : ℤ)*(k % (2*m)+1 : ℕ) ≤ 0 := by
        have h1 : (0 : ℤ) < (k % (2*m)+1 : ℕ) := by omega
        exact not_le.mpr (mul_pos hsz h1)
      have hhigh : (s : ℤ)*(k % (2*m)+1 : ℕ) ≥ s*m ↔ ¬k % (2*m)+1 < m := by
        rw [ge_iff_le,mul_le_mul_iff_right₀ hsz,Int.ofNat_le,not_lt]
      simp only [step,atPhase,if_pos hup,hpos,hnew,hnext,hlow,hhigh,false_or]
      by_cases hturn : k % (2*m)+1 < m
      · simp [hturn]
      · simp [hturn]
    · have hpos : (s : ℤ)*tri m k+-s = s*(2*m-k % (2*m)-1 : ℕ) := by
        have hsub : 2*m-k % (2*m) = 2*m-k % (2*m)-1+1 := by omega
        rw [tri,if_neg hup,hsub]
        push_cast
        ring
      have hnew : tri m (k+1) = 2*m-k % (2*m)-1 := by
        unfold tri
        rw [hnext]
        split_ifs <;> omega
      have hlow : ¬(s : ℤ)*(2*m-k % (2*m)-1 : ℕ) ≤ 0 := by
        have h1 : (0 : ℤ) < (2*m-k % (2*m)-1 : ℕ) := by omega
        exact not_le.mpr (mul_pos hsz h1)
      have hhigh : ¬(s : ℤ)*(2*m-k % (2*m)-1 : ℕ) ≥ s*m := by
        rw [ge_iff_le,mul_le_mul_iff_right₀ hsz,Int.ofNat_le]
        omega
      have hdown : ¬k % (2*m)+1 < m := by omega
      simp only [step,atPhase,if_neg hup,hpos,hnew,hnext,hlow,hhigh,or_self,if_false,if_neg hdown]
  · have hup : ¬k % (2*m) < m := by omega
    have hone : tri m k = 1 := by
      rw [tri,if_neg hup]
      omega
    have hzero : tri m (k+1) = 0 := by
      rw [tri,hnext,if_pos hm]
    simp [step,atPhase,hup,hone,hzero,hnext,hm]

end Bounce
end EmbeddedSystems
