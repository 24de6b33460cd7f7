import EmbeddedSystems.Lab1Timing

/-! `range.sv` lets `go` override the end of a sweep but not its report, so a `go` that rises on the
edge that writes the last word leaves `done` and `running` high together. On the board `done`
then holds the pointer at `0`, the next sweep is one from `0`, whose orbit never reaches one, and
`done` never falls. -/

namespace EmbeddedSystems
namespace Lab1

open Clocked

/-- `done` stuck high over a sweep from `0`. -/
structure Wedged (s : State) : Prop where
  running : s.r.running = true
  done : s.r.done = true
  ready : s.ready = true
  start : s.start = 0
  we : s.r.we = false
  n : s.r.n = 0
  cdone : s.r.c1.done = false
  load : s.r.cgo = true ∨ s.r.c1.dout = 0

theorem step_start_done {s : State} (i : Input) (hd : s.r.done = true) (hs : s.start = 0)
    (ha : s.addCtrl.pulse = false) : (step s i).start = 0 := by
  have hsub : (s.subCtrl.pulse && decide (s.start > 0)) = false := by
    rw [hs]
    simp
  simp only [step,browse,hd,hsub,ha,Bool.false_and,Bool.false_eq_true,if_false,if_true,
    apply_ite State.start,ite_self]

theorem step_mem_of_not_we {s : State} (hwe : s.r.we = false) (i : Input) :
    (step s i).r.mem = s.r.mem := by
  rw [step_r,Range.step_mem,hwe]
  simp

theorem Wedged.step {s : State} (h : Wedged s) (i : Input) (ha : s.addCtrl.pulse = false) :
    Wedged (step s i) ∧ (step s i).r.mem = s.r.mem := by
  have hn : (Lab1.step s i).r.n = 0 := by
    simp [h.we,h.cdone,h.start,h.n]
  have hc : (Lab1.step s i).r.c1 = ⟨0,false⟩ := by
    rw [step_r,Range.step_c1,h.n]
    rcases h.load with hcgo | hdout
    · rw [hcgo,Collatz.step_go]
    · cases hcgo : s.r.cgo with
      | true => rw [Collatz.step_go]
      | false => simp [Collatz.step,h.cdone,hdout]
  refine ⟨⟨?_,?_,?_,?_,?_,hn,?_,?_⟩,?_⟩
  · simp [h.running,h.we]
  · simp [h.running,h.done]
  · rw [step_ready,h.done]
    rfl
  · exact step_start_done i h.done h.start ha
  · simp [h.cdone]
  · rw [hc]
  · exact Or.inr (by rw [hc])
  · exact step_mem_of_not_we h.we i

theorem collides_rise {w : ℕ → Input} {u : ℕ}
    (hcol : Range.Collides (trace step powerUp w u).r ⟨(w u).go,(trace step powerUp w u).start⟩) :
    ∀ v, u = v+1 → (w v).go = false ∧ (trace step powerUp w u).r.cgo = true := by
  rintro v rfl
  obtain ⟨-,hwe,hnum⟩ := hcol
  have hgo : (w v).go = false := by
    by_contra hgo
    rw [trace_succ,step_r,Range.step_num] at hnum
    simp only [Bool.eq_true_of_not_eq_false hgo,if_true] at hnum
    exact absurd hnum (by decide)
  refine ⟨hgo,?_⟩
  rw [trace_succ,step_r,Range.step_we] at hwe
  rw [trace_succ,step_r,Range.step_cgo,hwe,Bool.or_true]

/-- The edge after a collision: both status bits are high and the iterator is told to load. -/
structure Overrun (s : State) : Prop where
  running : s.r.running = true
  done : s.r.done = true
  ready : s.ready = false
  we : s.r.we = false
  cgo : s.r.cgo = true
  cdone : s.r.c1.done = false

theorem overrun_of_collides {s : State} {i : Input} (hinv : Range.Inv s.r) (hx : Exclusive s)
    (hcgo : s.r.cgo = true) (hcol : Range.Collides s.r ⟨i.go,s.start⟩) : Overrun (step s i) := by
  obtain ⟨hgo,hwe,hnum⟩ := hcol
  change i.go = true at hgo
  have hdone := hx.done_low (hinv.we_running hwe)
  refine ⟨?_,?_,?_,?_,?_,?_⟩
  · simp [hgo]
  · simp [hwe,hnum]
  · simp [hdone,hgo]
  · simp [hwe]
  · simp [hgo]
  · simp [hcgo]

structure Held (s : State) : Prop where
  running : s.r.running = true
  done : s.r.done = true
  ready : s.ready = true
  start : s.start = 0
  we : s.r.we = false
  cgo : s.r.cgo = true
  cdone : s.r.c1.done = false

theorem Overrun.step {s : State} {i : Input} (h : Overrun s) (hgo : i.go = true) :
    Held (step s i) where
  running := by simp [hgo]
  done := by simp [h.running,h.done]
  ready := by simp [h.done]
  start := by
    rw [step_start_unready _ _ h.ready,h.done]
    rfl
  we := by simp [h.cdone]
  cgo := by simp [hgo]
  cdone := by simp [h.cgo]

theorem Held.step {s : State} {i : Input} (h : Held s) (hgo : i.go = true)
    (ha : s.addCtrl.pulse = false) : Wedged (step s i) where
  running := by simp [hgo]
  done := by simp [h.running,h.done]
  ready := by simp [h.done]
  start := step_start_done i h.done h.start ha
  we := by simp [h.cdone]
  n := by simp [hgo,h.start]
  cdone := by simp [h.cgo]
  load := Or.inl (by simp [hgo])

section Collision

variable {w : ℕ → Input} (hw : LongPhases w) {u : ℕ}
  (hfirst : ∀ x < u, ¬Range.Collides (trace step powerUp w x).r
    ⟨(w x).go,(trace step powerUp w x).start⟩)
  (hcol : Range.Collides (trace step powerUp w u).r ⟨(w u).go,(trace step powerUp w u).start⟩)

include hw hfirst hcol in
/-- Three edges after a first collision the board is wedged, with the RAM of the sweep that had
just ended. -/
theorem wedged_of_collision (ha : (trace step powerUp w (u+2)).addCtrl.pulse = false) :
    Wedged (trace step powerUp w (u+3)) ∧
      (trace step powerUp w (u+3)).r.mem = (trace step powerUp w (u+1)).r.mem := by
  have hcgo : (trace step powerUp w u).r.cgo = true := by
    cases u with
    | zero => exact absurd hcol.2.1 Bool.false_ne_true
    | succ v => exact (collides_rise hcol v rfl).2
  obtain ⟨hgo₁,hgo₂⟩ := hw u hcol.1 fun v hv => (collides_rise hcol v hv).1
  have h₁ : Overrun (trace step powerUp w (u+1)) :=
    overrun_of_collides (inv_r w u) (exclusive_trace hfirst) hcgo hcol
  have h₂ : Held (trace step powerUp w (u+2)) := h₁.step hgo₁
  refine ⟨h₂.step hgo₂ ha,?_⟩
  calc (trace step powerUp w (u+3)).r.mem = (trace step powerUp w (u+2)).r.mem :=
        step_mem_of_not_we h₂.we (w (u+2))
    _ = (trace step powerUp w (u+1)).r.mem := step_mem_of_not_we h₁.we (w (u+1))

include hw hfirst hcol in
theorem wedged_trace (hadd : ∀ t, u < t → (w t).add = false) {t : ℕ} (ht : u+3 ≤ t) :
    Wedged (trace step powerUp w t) ∧
      (trace step powerUp w t).r.mem = (trace step powerUp w (u+1)).r.mem := by
  have hpulse : ∀ t, u+2 ≤ t → (trace step powerUp w t).addCtrl.pulse = false := by
    intro t ht
    obtain ⟨v,rfl⟩ : ∃ v, t = v+1 := ⟨t-1,by omega⟩
    rw [trace_addCtrl,trace_succ,hadd v (by omega)]
    rfl
  induction t,ht using Nat.le_induction with
  | base => exact wedged_of_collision hw hfirst hcol (hpulse (u+2) le_rfl)
  | succ t ht ih =>
    obtain ⟨hwedged,hmem⟩ := ih
    obtain ⟨hnext,hkeep⟩ := hwedged.step (w t) (hpulse t (by omega))
    exact ⟨hnext,hkeep.trans hmem⟩

include hw hfirst hcol in
/-- After a press of `go` that meets the write of a last word, the board is stuck until `add` is
pressed: whatever `go`, `sub`, `reset` and the switches do, no sweep ends any more, `done` stays
high, the RAM keeps the old sweep and the right digits show its first count. -/
theorem collision_wedges (hadd : ∀ t, u < t → (w t).add = false) {t : ℕ} (ht : u+3 ≤ t) :
    (trace step powerUp w t).r.running = true ∧ (trace step powerUp w t).r.done = true ∧
      (trace step powerUp w t).ready = true ∧
      (trace step powerUp w t).r.mem = (trace step powerUp w (u+1)).r.mem ∧
      (trace step powerUp w (t+1)).r.count = (trace step powerUp w (u+1)).r.mem 0 := by
  obtain ⟨hwedged,hmem⟩ := wedged_trace hw hfirst hcol hadd ht
  refine ⟨hwedged.running,hwedged.done,hwedged.ready,hmem,?_⟩
  rw [← hmem,trace_succ]
  refine step_count hwedged.we (w t) ?_
  rw [hwedged.start]
  rfl

end Collision

def restart (τ t : ℕ) : Input := ⟨decide (t < 3 ∨ τ ≤ t),false,false,false,2⟩

theorem restart_eq_sample {τ t : ℕ} (ht : t < τ) : restart τ t = sample (fun _ => 2) t := by
  have he : (t < 3 ∨ τ ≤ t) ↔ t < 3 := by omega
  simp [restart,sample,he]

theorem restart_longPhases (τ : ℕ) : LongPhases (restart τ) := by
  intro t ht hrise
  have h3 : t < 3 ∨ τ ≤ t := by simpa [restart] using ht
  simp only [restart,decide_eq_true_eq]
  by_cases hτ : τ ≤ t
  · omega
  · have h0 : t = 0 := by
      by_contra hne
      have hprev := hrise (t-1) (by omega)
      simp only [restart,decide_eq_false_iff_not] at hprev
      omega
    omega

theorem collision_wedges_after_two :
    ∃ τ, ∀ t, τ+3 ≤ t → (trace step powerUp (restart τ) t).r.done = true := by
  let w := sample fun _ => 2
  obtain ⟨σ,-,ho⟩ := orbits_from_two
  have hbase : base w (2+1) = 2 := sample_base _ le_rfl
  obtain ⟨hrun,hidle,-⟩ := sweep_run_core (w := w) (b := 2) (σ := σ) (by simp [goHeld_succ,w,sample])
    (by rw [hbase]; exact Range.Orbits.sweeps ho) (fun t ht _ => by simp [w,sample]; omega)
  have hsame : ∀ t ≤ 2+sweepTime σ, trace step powerUp (restart (2+sweepTime σ)) t =
      trace step powerUp w t :=
    fun t ht => trace_congr step powerUp fun u hu => restart_eq_sample (by omega)
  have hlast : (trace step powerUp w (2+sweepTime σ)).r.we = true ∧
      (trace step powerUp w (2+sweepTime σ)).r.num = Range.lastNum 256 8 := by
    have hpos := sweepTime_pos σ
    have hgo : (w (2+sweepTime σ)).go = false := by simp [w,sample]; omega
    have he : 2+1+sweepTime σ = 2+sweepTime σ+1 := by omega
    rw [he,trace_succ,step_r,Range.step_running,hrun _ (by omega) le_rfl,hgo] at hidle
    simpa using hidle
  refine ⟨2+sweepTime σ,fun t ht => ?_⟩
  refine (collision_wedges (restart_longPhases _) (u := 2+sweepTime σ) ?_ ?_
    (fun _ _ => rfl) ht).2.1
  · intro x hx
    rw [hsame x hx.le,restart_eq_sample hx]
    exact sample_noCollision _ x
  · rw [hsame _ le_rfl]
    exact ⟨by simp [restart],hlast.1,hlast.2⟩

end Lab1
end EmbeddedSystems
