import EmbeddedSystems.Lab1Machine

/-! `debouncer.sv` samples a key through two synchronising registers and follows it only after a
14-bit timer has run through: the timer counts the edges on which the synchronised key differs
from the output, starts again on every edge on which it does not, and wraps to zero on the edge
that toggles the output. The four keys of the board come through one debouncer each, which is
what gives the phases of `go` their length. -/

namespace EmbeddedSystems
namespace Debouncer

open Clocked

structure State where
  sync0 : Bool
  sync1 : Bool
  timer : BitVec 14
  next : Bool
  deriving DecidableEq, Repr

def powerUp : State := ⟨false,false,0,false⟩

/-- The three clocked blocks of `debouncer`; each reads the registers as they were. -/
def step (s : State) (switch : Bool) : State :=
  let s' := { s with sync0 := switch, sync1 := s.sync0 }
  if s.next = s.sync1 then { s' with timer := 0 }
  else
    let s'' := { s' with timer := s.timer+1 }
    if s.timer = 0x3fff then { s'' with next := !s.next } else s''

section Fields

variable (s : State) (switch : Bool)

@[simp] theorem step_sync0 : (step s switch).sync0 = switch := by
  simp only [step,apply_ite State.sync0,ite_self]

@[simp] theorem step_sync1 : (step s switch).sync1 = s.sync0 := by
  simp only [step,apply_ite State.sync1,ite_self]

theorem step_timer : (step s switch).timer = if s.next = s.sync1 then 0 else s.timer+1 := by
  simp only [step,apply_ite State.timer,ite_self]

theorem step_next : (step s switch).next =
    if s.next = s.sync1 then s.next else if s.timer = 0x3fff then !s.next else s.next := by
  simp only [step,apply_ite State.next]

theorem step_next_ne_iff :
    (step s switch).next ≠ s.next ↔ s.sync1 ≠ s.next ∧ s.timer = 0x3fff := by
  rw [step_next]
  by_cases he : s.next = s.sync1
  · rw [if_pos he]
    exact iff_of_false (fun h => h rfl) (fun h => h.1 he.symm)
  · rw [if_neg he]
    by_cases ht : s.timer = 0x3fff
    · rw [if_pos ht]
      exact iff_of_true (Bool.not_ne_self _) ⟨Ne.symm he,ht⟩
    · rw [if_neg ht]
      exact iff_of_false (fun h => h rfl) (fun h => ht h.2)

theorem step_timer_toNat : (step s switch).timer.toNat =
    if s.sync1 ≠ s.next ∧ (step s switch).next = s.next then s.timer.toNat+1 else 0 := by
  have hnext := step_next_ne_iff s switch
  have hlt := s.timer.isLt
  rw [step_timer]
  by_cases he : s.next = s.sync1
  · rw [if_pos he,if_neg (fun h => h.1 he.symm)]
    rfl
  · rw [if_neg he]
    by_cases ht : s.timer = 0x3fff
    · rw [if_neg (fun h => hnext.mpr ⟨Ne.symm he,ht⟩ h.2),ht]
      rfl
    · have hno : (step s switch).next = s.next := by
        by_contra hne
        exact ht (hnext.mp hne).2
      have htop : s.timer.toNat ≠ 16383 := fun h => ht (BitVec.eq_of_toNat_eq h)
      rw [if_pos ⟨Ne.symm he,hno⟩,BitVec.toNat_add]
      exact Nat.mod_eq_of_lt (by change s.timer.toNat+1 < 16384; omega)

end Fields

section Run

variable (w : ℕ → Bool)

def output (t : ℕ) : Bool := (trace step powerUp w t).next

/-- The raw input two edges before edge `t`; the registers hold zero at first. -/
def delayed : ℕ → Bool
  | 0 => false
  | 1 => false
  | t+2 => w t

def Changes (t : ℕ) : Prop := output w (t+1) ≠ output w t

def waits (t : ℕ) : Bool := decide (delayed w t ≠ output w t ∧ output w (t+1) = output w t)

theorem waits_iff (t : ℕ) : waits w t = true ↔
    delayed w t ≠ output w t ∧ output w (t+1) = output w t := decide_eq_true_iff

theorem sync1_eq_delayed (t : ℕ) : (trace step powerUp w t).sync1 = delayed w t := by
  match t with
  | 0 => rfl
  | 1 => rfl
  | t+2 => rw [trace_succ,step_sync1,trace_succ,step_sync0,delayed]

theorem timer_eq_streak (t : ℕ) :
    (trace step powerUp w t).timer.toNat = streak (waits w) t := by
  induction t with
  | zero => rfl
  | succ t ih =>
    rw [trace_succ,step_timer_toNat,sync1_eq_delayed,ih,streak]
    exact if_congr (waits_iff w t).symm rfl rfl

theorem changes_iff_streak (t : ℕ) : Changes w t ↔
    delayed w t ≠ output w t ∧ 2^14 ≤ streak (waits w) t+1 := by
  have hlt := (trace step powerUp w t).timer.isLt
  have htop : (trace step powerUp w t).timer = 0x3fff ↔
      (trace step powerUp w t).timer.toNat = 16383 :=
    ⟨fun h => by rw [h]; rfl,fun h => BitVec.eq_of_toNat_eq h⟩
  unfold Changes output
  rw [trace_succ,step_next_ne_iff,sync1_eq_delayed,htop,← timer_eq_streak]
  refine and_congr_right fun _ => ?_
  omega

/-- The output toggles on the last of 2^14 edges in a row that all see a difference and of which
no other one toggles it. -/
theorem changes_iff (t : ℕ) : Changes w t ↔ 2^14 ≤ t+1 ∧
    (∀ e ≤ t, t+1 ≤ e+2^14 → delayed w e ≠ output w e) ∧
    ∀ e < t, t+1 ≤ e+2^14 → ¬Changes w e := by
  rw [changes_iff_streak,← Nat.sub_le_iff_le_add,le_streak_iff]
  constructor
  · rintro ⟨hdiff,hle,hall⟩
    refine ⟨by omega,?_,?_⟩
    · intro e he hn
      rcases Nat.lt_or_eq_of_le he with hlt | rfl
      · exact ((waits_iff w e).mp (hall e hlt (by omega))).1
      · exact hdiff
    · intro e he hn
      exact not_not.mpr ((waits_iff w e).mp (hall e he (by omega))).2
  · rintro ⟨hle,hdiff,hquiet⟩
    refine ⟨hdiff t le_rfl (by omega),by omega,?_⟩
    intro e he hn
    exact (waits_iff w e).mpr ⟨hdiff e he.le (by omega),not_not.mp (hquiet e he (by omega))⟩

variable {w} {t t' : ℕ}

theorem output_succ_of_eq (h : delayed w t = output w t) : output w (t+1) = output w t := by
  by_contra hne
  exact ((changes_iff w t).mp hne).2.1 t le_rfl (by omega) h

theorem output_eq_of_quiet {a : ℕ} (hle : a ≤ t) (h : ∀ e, a ≤ e → e < t → ¬Changes w e) :
    output w t = output w a := by
  induction t,hle using Nat.le_induction with
  | base => rfl
  | succ t ht ih =>
    rw [not_not.mp (h t ht (Nat.lt_succ_self t))]
    exact ih fun e hae het => h e hae (by omega)

theorem changes_apart (h : Changes w t) (h' : Changes w t') (hlt : t < t') : t+2^14 ≤ t' := by
  by_contra hnear
  exact ((changes_iff w t').mp h').2.2 t hlt (by omega) h

theorem output_of_disturbance {a L : ℕ} (hL : L < 2^14)
    (hbefore : a = 0 ∨ delayed w (a-1) = output w (a-1))
    (hafter : delayed w (a+L) = output w a) (hat : a ≤ t) (htL : t ≤ a+L) :
    output w (t+1) = output w a := by
  have hquiet : ∀ e, a ≤ e → e < a+L → ¬Changes w e := by
    intro e hae heL hch
    obtain ⟨hlong,hdiff,-⟩ := (changes_iff w e).mp hch
    rcases hbefore with h0 | hmatch
    · omega
    · exact hdiff (a-1) (by omega) (by omega) hmatch
  have hend : output w (a+L) = output w a := output_eq_of_quiet (Nat.le_add_right _ _) hquiet
  rcases Nat.lt_or_eq_of_le htL with hlt | rfl
  · exact output_eq_of_quiet (by omega) fun e hae het => hquiet e hae (by omega)
  · rw [output_succ_of_eq (hafter.trans hend.symm),hend]

theorem delayed_eq {v : Bool} {a n : ℕ} (h : ∀ e, a ≤ e → e < a+n → w e = v) (ht : a+2 ≤ t)
    (htn : t < a+n+2) : delayed w t = v := by
  obtain ⟨u,rfl⟩ : ∃ u, t = u+2 := ⟨t-2,by omega⟩
  rw [delayed]
  exact h u (by omega) (by omega)

theorem output_of_held {v : Bool} {a : ℕ} (h : ∀ e, a ≤ e → e < a+(2^14+2) → w e = v) :
    output w (a+(2^14+2)) = v := by
  have hsync : ∀ e, a+2 ≤ e → e < a+(2^14+2) → delayed w e = v :=
    fun e hae he => delayed_eq h hae (by omega)
  by_contra hne
  have hnever : ∀ e, a+2 ≤ e → e ≤ a+(2^14+2) → output w e ≠ v := by
    intro e hae he heq
    have hstay : ∀ u, e ≤ u → u ≤ a+(2^14+2) → output w u = v := by
      intro u heu hu
      induction u,heu using Nat.le_induction with
      | base => exact heq
      | succ u heu ih =>
        have hu' : output w u = v := ih (by omega)
        rw [output_succ_of_eq ((hsync u (by omega) (by omega)).trans hu'.symm),hu']
    exact hne (hstay _ he le_rfl)
  have hother : ∀ e, a+2 ≤ e → e ≤ a+(2^14+2) → output w e = !v :=
    fun e hae he => Bool.eq_not_of_ne (hnever e hae he)
  have hch : Changes w (a+(2^14+1)) := by
    refine (changes_iff w _).mpr ⟨by omega,?_,?_⟩
    · intro e he hn
      rw [hsync e (by omega) (by omega)]
      exact Ne.symm (hnever e (by omega) (by omega))
    · intro e he hn
      refine not_not.mpr ?_
      rw [hother e (by omega) (by omega),hother (e+1) (by omega) (by omega)]
  exact hch ((hother (a+(2^14+1)+1) (by omega) (by omega)).trans
    (hother (a+(2^14+1)) (by omega) (by omega)).symm)

/-- The output follows the delayed input exactly after 2^14 differing edges in a row: shorter
disturbances do not reach it, its changes are 2^14 edges apart, and a held input is followed. -/
theorem debounce_exact (w : ℕ → Bool) :
    (∀ t, (trace step powerUp w t).sync1 = delayed w t) ∧
    (∀ t, Changes w t ↔ 2^14 ≤ t+1 ∧
      (∀ e ≤ t, t+1 ≤ e+2^14 → delayed w e ≠ output w e) ∧
      ∀ e < t, t+1 ≤ e+2^14 → ¬Changes w e) ∧
    (∀ a L, L < 2^14 → (a = 0 ∨ delayed w (a-1) = output w (a-1)) →
      delayed w (a+L) = output w a →
      ∀ t, a ≤ t → t ≤ a+L → output w (t+1) = output w a) ∧
    (∀ t t', Changes w t → Changes w t' → t < t' → t+2^14 ≤ t') ∧
    ∀ v a, (∀ e, a ≤ e → e < a+(2^14+2) → w e = v) → output w (a+(2^14+2)) = v := by
  refine ⟨sync1_eq_delayed w,changes_iff w,?_,?_,?_⟩
  · intro a L hL hbefore hafter t hat htL
    exact output_of_disturbance hL hbefore hafter hat htL
  · intro t t' h h' hlt
    exact changes_apart h h' hlt
  · intro v a h
    exact output_of_held h

theorem debounce_exact_bounce :
    (∀ t, 2 ≤ t → t ≤ 2+10 → output (fun t => decide (t < 10)) (t+1) = false) ∧
      output (fun _ => true) (0+(2^14+2)) = true :=
  ⟨(debounce_exact _).2.2.1 2 10 (by omega) (Or.inr rfl) rfl,
    (debounce_exact _).2.2.2.2 true 0 fun _ _ _ => rfl⟩

end Run

end Debouncer

namespace Lab1

structure Pins where
  key : Fin 4 → Bool
  sw : BitVec 10

/-- What the board sees of its pins: each key through a debouncer of its own. -/
def debounced (p : ℕ → Pins) (t : ℕ) : Input where
  add := Debouncer.output (fun u => !(p u).key 0) t
  sub := Debouncer.output (fun u => !(p u).key 1) t
  reset := Debouncer.output (fun u => !(p u).key 2) t
  go := Debouncer.output (fun u => !(p u).key 3) t
  sw := (p t).sw

/-- Every high phase of a debounced `go` lasts at least three edges. -/
theorem longPhases_debounced (p : ℕ → Pins) : LongPhases (debounced p) := by
  intro t ht hrise
  change Debouncer.output (fun u => !(p u).key 3) t = true at ht
  change ∀ u, t = u+1 → Debouncer.output (fun u => !(p u).key 3) u = false at hrise
  change Debouncer.output (fun u => !(p u).key 3) (t+1) = true ∧
    Debouncer.output (fun u => !(p u).key 3) (t+2) = true
  generalize (fun u => !(p u).key 3) = w at ht hrise ⊢
  cases t with
  | zero => exact absurd ht Bool.false_ne_true
  | succ u =>
    have hup : Debouncer.Changes w u := by
      unfold Debouncer.Changes
      rw [ht,hrise u rfl]
      decide
    have hquiet : ∀ e, u < e → e < u+2^14 → Debouncer.output w (e+1) = Debouncer.output w e := by
      intro e hue he
      by_contra hch
      have hfar := Debouncer.changes_apart hup hch hue
      omega
    have h1 : Debouncer.output w (u+1+1) = true := (hquiet (u+1) (by omega) (by omega)).trans ht
    exact ⟨h1,(hquiet (u+1+1) (by omega) (by omega)).trans h1⟩

end Lab1
end EmbeddedSystems
