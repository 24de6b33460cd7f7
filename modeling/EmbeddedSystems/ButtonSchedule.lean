import EmbeddedSystems.Lab1Machine
import Mathlib.Data.Nat.Count

/-! `button_press.sv` is a module with two parameters: how long a button is held before it repeats,
and how often it repeats from then on. One counter serves both. Everything the module does
follows from the number of high samples right before an edge, which fixes the counter and the
mode, and with them the edges that get a pulse. -/

namespace EmbeddedSystems
namespace ButtonPress

open Clocked

def countAfter (P : Params) (n : ℕ) : ℕ :=
  if n ≤ P.hold then n-1 else (n-1-P.hold) % P.repeatAfter

/-- A high sample that follows `n` high samples in a row gets a pulse. -/
def Due (P : Params) (n : ℕ) : Prop := n = 0 ∨ (P.hold ≤ n ∧ P.repeatAfter ∣ n-P.hold)

instance (P : Params) : DecidablePred (Due P) :=
  fun n => inferInstanceAs (Decidable (n = 0 ∨ (P.hold ≤ n ∧ P.repeatAfter ∣ n-P.hold)))

def period (P : Params) (n : ℕ) : ℕ := if P.hold < n then P.repeatAfter else P.hold

/-- The registers after `n` high samples in a row. -/
structure Holds (P : Params) (s : State) (n : ℕ) : Prop where
  prev : s.prev = decide (0 < n)
  held : s.held = decide (P.hold < n)
  cnt : s.cnt.toNat = countAfter P n

section Arithmetic

variable (P : Params) {n : ℕ}

theorem period_le : period P n ≤ 2^25 := by
  unfold period
  by_cases hn : P.hold < n
  · rw [if_pos hn]
    exact P.repeatAfter_le
  · rw [if_neg hn]
    exact P.hold_le

theorem dvd_succ_iff {m r : ℕ} (hr : 1 ≤ r) : r ∣ m+1 ↔ m % r = r-1 := by
  obtain ⟨b,rfl⟩ := Nat.exists_eq_add_of_le' hr
  rw [Nat.dvd_iff_mod_eq_zero,Nat.succ_mod_succ_eq_zero_iff,Nat.add_sub_cancel]

theorem due_iff (hn : 0 < n) : Due P n ↔ ¬countAfter P n < period P n-1 := by
  have hh := P.hold_pos
  have hr := P.repeatAfter_pos
  unfold Due countAfter period
  by_cases hlt : P.hold < n
  · have he : n-P.hold = n-1-P.hold+1 := by omega
    have hmod := Nat.mod_lt (n-1-P.hold) hr
    rw [if_neg (by omega),if_pos hlt,he,dvd_succ_iff hr]
    omega
  · rw [if_pos (by omega),if_neg hlt]
    by_cases heq : n = P.hold
    · simp [heq]
    · omega

theorem countAfter_succ_of_due (hn : 0 < n) (hdue : Due P n) : countAfter P (n+1) = 0 := by
  obtain ⟨hle,hdvd⟩ : P.hold ≤ n ∧ P.repeatAfter ∣ n-P.hold := hdue.resolve_left hn.ne'
  have he : n+1-1-P.hold = n-P.hold := by omega
  rw [countAfter,if_neg (by omega),he]
  exact Nat.mod_eq_zero_of_dvd hdvd

theorem countAfter_succ_of_not_due (hn : 0 < n) (hdue : ¬Due P n) :
    countAfter P (n+1) = countAfter P n+1 := by
  unfold Due at hdue
  unfold countAfter
  rcases Nat.lt_trichotomy n P.hold with hlt | heq | hgt
  · rw [if_pos (by omega),if_pos (by omega)]
    omega
  · simp [heq] at hdue
  · have he : n-P.hold = n-1-P.hold+1 := by omega
    have he' : n+1-1-P.hold = n-1-P.hold+1 := by omega
    have hdvd : ¬P.repeatAfter ∣ n-1-P.hold+1 := by
      rw [← he]
      exact fun h => hdue (Or.inr ⟨hgt.le,h⟩)
    have hd := Nat.div_add_mod (n-1-P.hold) P.repeatAfter
    have hd' := Nat.div_add_mod (n-1-P.hold+1) P.repeatAfter
    rw [Nat.succ_div_of_not_dvd hdvd] at hd'
    rw [if_neg (by omega),if_neg (by omega),he']
    omega

theorem hold_lt_succ_iff (hn : 0 < n) : P.hold < n+1 ↔ Due P n ∨ P.hold < n := by
  unfold Due
  by_cases heq : n = P.hold
  · simp [heq]
  · omega

end Arithmetic

section Clock

variable {P : Params} {s : State} {n : ℕ}

theorem clock_low (P : Params) (s : State) : clock P s false = powerUp := rfl

theorem clock_rise (hp : s.prev = false) :
    clock P s true = ⟨true,s.cnt,s.held,true⟩ := by
  simp [clock,hp]

theorem clock_held (hp : s.prev = true) : clock P s true =
    if s.cnt.toNat < (if s.held then P.repeatAfter else P.hold)-1 then
      ⟨true,s.cnt+1,s.held,false⟩
    else ⟨true,0,true,true⟩ := by
  simp [clock,hp]

theorem holds_powerUp (P : Params) : Holds P powerUp 0 := by
  refine ⟨rfl,?_,?_⟩
  · exact (decide_eq_false (Nat.not_lt_zero _)).symm
  · rw [countAfter,if_pos (Nat.zero_le _)]
    rfl

theorem Holds.high (h : Holds P s n) :
    Holds P (clock P s true) (n+1) ∧ (clock P s true).pulse = decide (Due P n) := by
  rcases Nat.eq_zero_or_pos n with rfl | hn
  · have hp : s.prev = false := h.prev
    rw [clock_rise hp]
    have hh := P.hold_pos
    refine ⟨⟨rfl,?_,?_⟩,?_⟩
    · rw [h.held,decide_eq_decide]
      omega
    · rw [h.cnt,countAfter,countAfter,if_pos (Nat.zero_le _),if_pos hh]
    · exact (decide_eq_true (Or.inl rfl)).symm
  · have hp : s.prev = true := h.prev.trans (decide_eq_true hn)
    have hthr : (if s.held then P.repeatAfter else P.hold) = period P n := by
      rw [h.held,period]
      simp only [decide_eq_true_eq]
    rw [clock_held hp,hthr,h.cnt]
    by_cases hdue : Due P n
    · rw [if_neg ((due_iff P hn).mp hdue)]
      refine ⟨⟨rfl,?_,?_⟩,?_⟩
      · exact (decide_eq_true ((hold_lt_succ_iff P hn).mpr (Or.inl hdue))).symm
      · exact (countAfter_succ_of_due P hn hdue).symm
      · exact (decide_eq_true hdue).symm
    · have hlt : countAfter P n < period P n-1 := not_not.mp (mt (due_iff P hn).mpr hdue)
      have hle : period P n ≤ 2^25 := period_le P
      rw [if_pos hlt]
      refine ⟨⟨rfl,?_,?_⟩,?_⟩
      · rw [h.held,decide_eq_decide,hold_lt_succ_iff P hn,or_iff_right hdue]
      · rw [countAfter_succ_of_not_due P hn hdue,BitVec.toNat_add,h.cnt]
        exact Nat.mod_eq_of_lt (by change countAfter P n+1 < 2^25; omega)
      · exact (decide_eq_false hdue).symm

end Clock

section Run

variable (P : Params) (w : ℕ → Bool)

theorem holds_trace (t : ℕ) : Holds P (trace (clock P) powerUp w t) (streak w t) := by
  induction t with
  | zero => exact holds_powerUp P
  | succ t ih =>
    rw [trace_succ,streak]
    cases hw : w t with
    | false =>
      rw [clock_low]
      exact holds_powerUp P
    | true => exact ih.high.1

theorem pulse_iff_due (t : ℕ) : (trace (clock P) powerUp w (t+1)).pulse = true ↔
    w t = true ∧ Due P (streak w t) := by
  rw [trace_succ]
  cases hw : w t with
  | false => simp [clock_low,powerUp]
  | true => simp [(holds_trace P w t).high.2]

/-- The pulses are those of the first sample of a run, of the one `hold` later and of every
`repeatAfter` samples from there. -/
theorem pulse_iff (t : ℕ) : (trace (clock P) powerUp w (t+1)).pulse = true ↔
    w t = true ∧ ∃ t₀, RunStart w t₀ t ∧
      (t = t₀ ∨ (P.hold ≤ t-t₀ ∧ P.repeatAfter ∣ t-t₀-P.hold)) := by
  rw [pulse_iff_due]
  refine and_congr_right fun hw => ⟨?_,?_⟩
  · intro hdue
    have hle := streak_le w t
    have he : t-(t-streak w t) = streak w t := by omega
    refine ⟨t-streak w t,runStart_streak hw,?_⟩
    rw [he]
    exact hdue.imp_left (by omega)
  · rintro ⟨t₀,hstart,hdue⟩
    have hle := hstart.le
    rw [hstart.streak_eq]
    exact hdue.imp_left (by omega)

/-- The button is down for exactly the `L` samples from edge `t₀` on. -/
structure Press (w : ℕ → Bool) (t₀ L : ℕ) : Prop where
  pos : 1 ≤ L
  high : ∀ e < L, w (t₀+e) = true
  first : t₀ = 0 ∨ w (t₀-1) = false
  last : w (t₀+L) = false

theorem Press.runStart {w : ℕ → Bool} {t₀ L e : ℕ} (h : Press w t₀ L) (he : e < L) :
    RunStart w t₀ (t₀+e) := by
  refine ⟨Nat.le_add_right _ _,?_,h.first⟩
  intro u hu hue
  have hsplit : u = t₀+(u-t₀) := by omega
  rw [hsplit]
  exact h.high (u-t₀) (by omega)

def pulses (t₀ L : ℕ) : ℕ :=
  Nat.count (fun e => (trace (clock P) powerUp w (t₀+e+1)).pulse = true) L

theorem pulses_eq_count {w : ℕ → Bool} {t₀ L : ℕ} (h : Press w t₀ L) :
    pulses P w t₀ L = Nat.count (Due P) L := by
  rw [pulses,Nat.count_eq_card_filter_range,Nat.count_eq_card_filter_range]
  congr 1
  refine Finset.filter_congr fun e he => ?_
  have hlt : e < L := Finset.mem_range.mp he
  rw [pulse_iff_due,(h.runStart hlt).streak_eq,Nat.add_sub_cancel_left]
  exact and_iff_right (h.high e hlt)

theorem count_due {L : ℕ} (hL : 1 ≤ L) : Nat.count (Due P) L =
    if L ≤ P.hold then 1 else 2+(L-1-P.hold)/P.repeatAfter := by
  have hh := P.hold_pos
  induction L,hL using Nat.le_induction with
  | base =>
    have hdue : Due P 0 := Or.inl rfl
    rw [if_pos hh,Nat.count_succ,Nat.count_zero,if_pos hdue]
  | succ L hL ih =>
    rw [Nat.count_succ,ih]
    rcases Nat.lt_trichotomy L P.hold with hlt | heq | hgt
    · have hno : ¬Due P L := by
        unfold Due
        omega
      rw [if_pos (by omega),if_neg hno,if_pos (by omega)]
    · have hdue : Due P L := Or.inr ⟨heq.ge,by simp [heq]⟩
      rw [if_pos (by omega),if_pos hdue,if_neg (by omega)]
      simp [heq]
    · have he : L+1-1-P.hold = L-1-P.hold+1 := by omega
      have he' : L-P.hold = L-1-P.hold+1 := by omega
      have hdue : Due P L ↔ P.repeatAfter ∣ L-1-P.hold+1 := by
        unfold Due
        rw [he']
        omega
      rw [if_neg (by omega : ¬L ≤ P.hold),if_neg (by omega : ¬L+1 ≤ P.hold),he,Nat.succ_div]
      by_cases hdvd : P.repeatAfter ∣ L-1-P.hold+1
      · rw [if_pos hdvd,if_pos (hdue.mpr hdvd),Nat.add_assoc]
      · rw [if_neg hdvd,if_neg (mt hdue.mp hdvd),Nat.add_assoc]

/-- The pulses of `button_press`, edge by edge and press by press. -/
theorem pulse_schedule :
    (∀ t, (trace (clock P) powerUp w (t+1)).pulse = true ↔
      w t = true ∧ ∃ t₀, RunStart w t₀ t ∧
        (t = t₀ ∨ (P.hold ≤ t-t₀ ∧ P.repeatAfter ∣ t-t₀-P.hold))) ∧
    ∀ t₀ L, Press w t₀ L → pulses P w t₀ L =
      if L ≤ P.hold then 1 else 2+(L-1-P.hold)/P.repeatAfter := by
  refine ⟨pulse_iff P w,?_⟩
  intro t₀ L h
  rw [pulses_eq_count P h,count_due P h.pos]

theorem pulse_schedule_second :
    Press (fun t => decide (t < 50000000)) 0 50000000 ∧
      pulses defaults (fun t => decide (t < 50000000)) 0 50000000 = 6 := by
  have hpress : Press (fun t => decide (t < 50000000)) 0 50000000 := by
    refine ⟨by omega,?_,Or.inl rfl,by simp⟩
    intro e he
    simpa using he
  exact ⟨hpress,(pulse_schedule defaults _).2 _ _ hpress⟩

end Run

end ButtonPress
end EmbeddedSystems
