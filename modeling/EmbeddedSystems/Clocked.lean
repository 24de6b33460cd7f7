import Mathlib.Logic.Function.Iterate
import Mathlib.Tactic

/-! A machine is a step function on states and sampled inputs. Its input is a
waveform, one sample for each clock edge, so a statement about every waveform is
a statement about every run. `FirstFall` is the edge at which a status bit first
goes low, and `streak` counts how long a signal has been high. -/

namespace EmbeddedSystems
namespace Clocked

variable {σ ι : Type*} (step : σ → ι → σ)

/-- The state after `t` clock edges; edge `t` samples `w t`. -/
def trace (s : σ) (w : ℕ → ι) : ℕ → σ
  | 0 => s
  | t+1 => step (trace s w t) (w t)

@[simp] theorem trace_zero (s : σ) (w : ℕ → ι) : trace step s w 0 = s := rfl

theorem trace_succ (s : σ) (w : ℕ → ι) (t : ℕ) :
    trace step s w (t+1) = step (trace step s w t) (w t) := rfl

/-- A run splits at every edge into a shorter run and a run of the shifted waveform. -/
theorem trace_add (s : σ) (w : ℕ → ι) (m n : ℕ) :
    trace step s w (m+n) = trace step (trace step s w m) (fun t => w (m+t)) n := by
  induction n with
  | zero => rfl
  | succ n ih => rw [← Nat.add_assoc,trace_succ,trace_succ,ih]

theorem trace_congr (s : σ) {w w' : ℕ → ι} {t : ℕ} (h : ∀ u < t, w u = w' u) :
    trace step s w t = trace step s w' t := by
  induction t with
  | zero => rfl
  | succ t ih => rw [trace_succ,trace_succ,ih fun u hu => h u (by omega),h t (Nat.lt_succ_self t)]

theorem trace_component {σ' ι' : Type*} {step : σ → ι → σ} {step' : σ' → ι' → σ'} (f : σ → σ')
    (g : ι → ι') (h : ∀ s i, f (step s i) = step' (f s) (g i)) (s : σ) (w : ℕ → ι) (t : ℕ) :
    f (trace step s w t) = trace step' (f s) (fun u => g (w u)) t := by
  induction t with
  | zero => rfl
  | succ t ih => rw [trace_succ,trace_succ,h,ih]

/-- An inductive invariant holds after every number of edges. -/
theorem trace_invariant {P : σ → Prop} (hstep : ∀ s i, P s → P (step s i)) {s : σ} (h0 : P s)
    (w : ℕ → ι) (t : ℕ) : P (trace step s w t) := by
  induction t with
  | zero => exact h0
  | succ t ih => exact hstep _ _ ih

/-- The status bit `p` is high through edge `T` and low for the first time after it. -/
structure FirstFall (p : σ → Bool) (s : σ) (w : ℕ → ι) (T : ℕ) : Prop where
  high : ∀ t < T, p (trace step s w t) = true
  low : p (trace step s w T) = false

namespace FirstFall

variable {step} {p : σ → Bool} {s : σ} {w : ℕ → ι} {m T : ℕ}

theorem unique {T' : ℕ} (h : FirstFall step p s w T) (h' : FirstFall step p s w T') : T = T' := by
  rcases lt_trichotomy T T' with hlt | heq | hgt
  · have hh := h'.high T hlt
    rw [h.low] at hh
    exact absurd hh (by decide)
  · exact heq
  · have hh := h.high T' hgt
    rw [h'.low] at hh
    exact absurd hh (by decide)

theorem delay (hm : ∀ t < m, p (trace step s w t) = true)
    (h : FirstFall step p (trace step s w m) (fun t => w (m+t)) T) :
    FirstFall step p s w (m+T) := by
  constructor
  · intro t ht
    by_cases htm : t < m
    · exact hm t htm
    · have he : t = m + (t-m) := by omega
      rw [he,trace_add]
      exact h.high (t-m) (by omega)
  · rw [trace_add]
    exact h.low

end FirstFall

theorem trace_eq_foldl (s : σ) (w : ℕ → ι) (t : ℕ) :
    trace step s w t = ((List.range t).map w).foldl step s := by
  induction t with
  | zero => rfl
  | succ t ih => rw [trace_succ,ih,List.range_succ,List.map_append,List.foldl_append]; rfl

/-- The last sample that `accept` takes a value from gives that value, or else `d`. -/
def latest {α : Type*} (accept : ι → Option α) (d : α) (ins : List ι) : α :=
  ((ins.filterMap accept).getLast?).getD d

@[simp] theorem latest_nil {α : Type*} (accept : ι → Option α) (d : α) :
    latest accept d [] = d := rfl

theorem latest_append_singleton {α : Type*} (accept : ι → Option α) (d : α) (ins : List ι) (i : ι) :
    latest accept d (ins ++ [i]) = (accept i).getD (latest accept d ins) := by
  unfold latest
  rw [List.filterMap_append]
  cases h : accept i <;> simp [h]

theorem latest_append {α : Type*} (accept : ι → Option α) (d : α) (ins ins' : List ι) :
    latest accept d (ins ++ ins') = latest accept (latest accept d ins) ins' := by
  induction ins' using List.reverseRecOn with
  | nil => simp
  | append_singleton ins' i ih =>
    rw [← List.append_assoc,latest_append_singleton,latest_append_singleton,ih]

theorem latest_of_none {α : Type*} {accept : ι → Option α} {ins : List ι} (d : α)
    (h : ∀ i ∈ ins, accept i = none) : latest accept d ins = d := by
  unfold latest
  rw [List.filterMap_eq_nil_iff.mpr h]
  rfl

theorem latest_getLast {α : Type*} {accept : ι → Option α} {ins : List ι} {i : ι} {v : α} (d : α)
    (hi : ins.getLast? = some i) (hv : accept i = some v) : latest accept d ins = v := by
  obtain ⟨ins,rfl⟩ := List.getLast?_eq_some_iff.mp hi
  rw [latest_append_singleton,hv]
  rfl

/-- A register that loads what `accept` takes and keeps its value otherwise always holds the
latest value loaded. -/
theorem foldl_register {α : Type*} (reg : σ → α) (accept : ι → Option α)
    (hreg : ∀ s i, reg (step s i) = (accept i).getD (reg s)) (s : σ) (ins : List ι) :
    reg (ins.foldl step s) = latest accept (reg s) ins := by
  induction ins using List.reverseRecOn with
  | nil => rfl
  | append_singleton ins i ih =>
    rw [List.foldl_append,List.foldl_cons,List.foldl_nil,hreg,ih,latest_append_singleton]

/-- The number of edges right before edge `t` at which `p` was high without a break. -/
def streak (p : ℕ → Bool) : ℕ → ℕ
  | 0 => 0
  | t+1 => if p t then streak p t+1 else 0

theorem le_streak_iff {p : ℕ → Bool} {n t : ℕ} :
    n ≤ streak p t ↔ n ≤ t ∧ ∀ e < t, t ≤ e+n → p e = true := by
  induction t generalizing n with
  | zero => simp [streak]
  | succ t ih =>
    cases n with
    | zero =>
      refine iff_of_true (Nat.zero_le _) ⟨Nat.zero_le _,?_⟩
      intro e he hn
      omega
    | succ n =>
      rw [streak]
      by_cases hp : p t = true
      · rw [if_pos hp,Nat.succ_le_succ_iff,Nat.succ_le_succ_iff,ih]
        refine and_congr_right fun _ => ⟨?_,?_⟩
        · intro h e he hn
          rcases Nat.lt_succ_iff_lt_or_eq.mp he with hlt | rfl
          · exact h e hlt (by omega)
          · exact hp
        · intro h e he hn
          exact h e (by omega) (by omega)
      · rw [if_neg hp]
        refine iff_of_false (Nat.not_succ_le_zero n) ?_
        intro h
        exact hp (h.2 t (Nat.lt_succ_self t) (by omega))

theorem streak_le (p : ℕ → Bool) (t : ℕ) : streak p t ≤ t := (le_streak_iff.mp le_rfl).1

structure RunStart (p : ℕ → Bool) (t₀ t : ℕ) : Prop where
  le : t₀ ≤ t
  high : ∀ e, t₀ ≤ e → e ≤ t → p e = true
  first : t₀ = 0 ∨ p (t₀-1) = false

theorem RunStart.streak_eq {p : ℕ → Bool} {t₀ t : ℕ} (h : RunStart p t₀ t) :
    streak p t = t-t₀ := by
  have hle : t-t₀ ≤ streak p t := by
    refine le_streak_iff.mpr ⟨Nat.sub_le _ _,?_⟩
    intro e he hn
    exact h.high e (by have := h.le; omega) he.le
  by_contra hne
  have hmore : t-t₀+1 ≤ streak p t := by omega
  obtain ⟨hlt,hall⟩ := le_streak_iff.mp hmore
  have hpos : t₀ ≠ 0 := by
    have := h.le
    omega
  have hlow := h.first.resolve_left hpos
  have hhigh := hall (t₀-1) (by have := h.le; omega) (by have := h.le; omega)
  rw [hlow] at hhigh
  exact absurd hhigh (by decide)

theorem runStart_streak {p : ℕ → Bool} {t : ℕ} (hp : p t = true) :
    RunStart p (t-streak p t) t := by
  have hlt := streak_le p t
  refine ⟨Nat.sub_le _ _,?_,?_⟩
  · intro e he ht
    rcases Nat.lt_or_eq_of_le ht with hlt | rfl
    · exact (le_streak_iff.mp (le_refl (streak p t))).2 e hlt (by omega)
    · exact hp
  · by_contra hno
    obtain ⟨hpos,hhigh⟩ := not_or.mp hno
    have hmore : streak p t+1 ≤ streak p t := by
      refine le_streak_iff.mpr ⟨by omega,?_⟩
      intro e he hn
      by_cases heq : e = t-streak p t-1
      · rw [heq]
        exact Bool.eq_true_of_not_eq_false hhigh
      · exact (le_streak_iff.mp (le_refl (streak p t))).2 e he (by omega)
    omega

end Clocked
end EmbeddedSystems
