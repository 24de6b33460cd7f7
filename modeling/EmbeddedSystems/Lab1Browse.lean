import EmbeddedSystems.Lab1Machine

/-! The pointer `start` addresses the RAM and `start_index` is added to the switches for the
display. `Lockstep` relates the two through the transient states in which a new sweep, a
completion and a browsing pulse meet; it depends on how long `go` has been high. -/

namespace EmbeddedSystems
namespace Lab1

open Clocked CollatzOrbit

theorem inv_r (w : ℕ → Input) (t : ℕ) : Range.Inv (trace step powerUp w t).r := by
  rw [trace_r]
  exact Range.inv_trace _ t

/-- The registers of the board after `go` has been high for `k` edges. A completion that meets
the first edge of `go` leaves `ready` set for one more edge. -/
structure Lockstep (k : ℕ) (s : State) : Prop where
  level : s.ready = true → s.start = s.startIndex.setWidth 32
  done : s.r.done = true → k = 0
  waiting : k = 0 → s.r.running = true ∨ s.r.done = true → s.ready = false ∧ s.startIndex = 0
  second : k = 2 → s.ready = false
  later : 3 ≤ k → s.ready = false ∧ s.startIndex = 0
  running : 1 ≤ k → s.r.running = true

theorem lockstep_powerUp : Lockstep 0 powerUp := by
  constructor <;> simp [powerUp,Range.powerUp]

/-- The sweep is the only one to report: `done` is not high while it runs. -/
def Exclusive (s : State) : Prop := ¬(s.r.done = true ∧ s.r.running = true)

instance (s : State) : Decidable (Exclusive s) := inferInstanceAs (Decidable (¬_))

theorem setWidth_succ {i : BitVec 8} (h : i.setWidth 32 < 255) :
    i.setWidth 32+1 = (i+1).setWidth 32 := by
  bv_omega

theorem setWidth_pred {i : BitVec 8} (h : i.setWidth 32 > 0) :
    i.setWidth 32-1 = (i-1).setWidth 32 := by
  bv_omega

theorem go_of_held {go : Bool} {k m : ℕ} (hk : m+1 ≤ if go then k+1 else 0) : go = true := by
  by_contra hgo
  simp [hgo] at hk

section Step

variable {k : ℕ} {s : State} {i : Input} (h : Lockstep k s) (hinv : Range.Inv s.r)
  (hx : Exclusive s) (hx' : Exclusive (step s i)) (hlow : i.go = false → k = 0 ∨ 3 ≤ k)

include hx in
theorem Exclusive.done_low (hr : s.r.running = true) : s.r.done = false := by
  by_contra hd
  exact hx ⟨by simpa using hd,hr⟩

include hx hx' in
theorem Exclusive.go_low (hd : (step s i).r.done = true) : i.go = false ∧ s.r.we = true := by
  have hwe : s.r.we = true ∧ s.r.num = Range.lastNum 256 8 := by
    rw [step_r,Range.step_done,Bool.or_eq_true,Bool.and_eq_true,Bool.and_eq_true,
      decide_eq_true_eq] at hd
    rcases hd with hd | hd
    · exact hd
    · exact absurd ⟨hd.2,hd.1⟩ hx
  refine ⟨?_,hwe.1⟩
  rw [Bool.eq_false_iff]
  intro hgo
  refine hx' ⟨hd,?_⟩
  rw [step_r,Range.step_running,hgo]
  rfl

include h in
theorem Lockstep.level_step (hr : (step s i).ready = true) :
    (step s i).start = (step s i).startIndex.setWidth 32 := by
  rw [step_ready] at hr
  cases hd : s.r.done with
  | true =>
    obtain ⟨hready,hidx⟩ := h.waiting (h.done hd) (Or.inr hd)
    rw [step_start_unready s i hready,step_startIndex_unready s i hready,hd,hidx]
    simp
  | false =>
    rw [hd,Bool.false_or,Bool.and_eq_true,Bool.not_eq_true'] at hr
    obtain ⟨hgo,hready⟩ := hr
    have hl := h.level hready
    rcases step_ready_cases s i hready with ⟨hlt,hs,hi⟩ | ⟨hgt,hs,hi⟩ | ⟨hs,hi⟩ | ⟨hs,hi⟩
    · rw [hl] at hlt
      rw [hs,hi,hl,setWidth_succ hlt]
    · rw [hl] at hgt
      rw [hs,hi,hl,setWidth_pred hgt]
    · rw [hs,hi]
      rfl
    · rw [hs,hi,hd,hgo]
      simpa using hl

include h hinv hx hx' hlow in
theorem Lockstep.step : Lockstep (if i.go then k+1 else 0) (Lab1.step s i) := by
  have hquiet : s.r.running = true → k = 0 ∨ 3 ≤ k → s.ready = false ∧ s.startIndex = 0 := by
    rintro hr (hk | hk)
    · exact h.waiting hk (Or.inl hr)
    · exact h.later hk
  constructor
  · exact h.level_step
  · intro hd
    simp [(hx.go_low hx' hd).1]
  · intro hk hor
    have hgo : i.go = false := by
      by_contra hgo
      simp [hgo] at hk
    have hr : s.r.running = true := by
      rcases hor with hr | hd
      · rw [step_r,Range.step_running,hgo] at hr
        simp only [Bool.false_or,Bool.and_eq_true] at hr
        exact hr.1
      · exact hinv.we_running (hx.go_low hx' hd).2
    obtain ⟨hready,hidx⟩ := hquiet hr (hlow hgo)
    rw [step_ready,step_startIndex_unready s i hready,hx.done_low hr,hready,hgo,hidx]
    simp
  · intro hk
    have hgo : i.go = true := go_of_held hk.ge
    rw [hgo] at hk
    rw [step_ready,hx.done_low (h.running (by simp at hk; omega)),hgo]
    rfl
  · intro hk
    have hgo : i.go = true := go_of_held hk
    have hk2 : 2 ≤ k := by
      rw [hgo] at hk
      simp at hk
      omega
    have hready : s.ready = false := by
      rcases Nat.eq_or_lt_of_le hk2 with he | hlt
      · exact h.second he.symm
      · exact (h.later hlt).1
    rw [step_ready,step_startIndex_unready s i hready,hx.done_low (h.running (by omega)),hgo]
    exact ⟨rfl,rfl⟩
  · intro hk
    have hgo : i.go = true := go_of_held hk
    rw [step_r,Range.step_running,hgo]
    rfl

end Step

theorem idle_step {s : State} {i : Input} (hinv : Range.Inv s.r) (hr : s.r.running = false)
    (hgo : i.go = false) :
    (step s i).r.running = false ∧ (step s i).r.done = false ∧ (step s i).r.mem = s.r.mem := by
  rw [step_r,hgo]
  exact hinv.idle_edge s.start hr

theorem Lockstep.completion {k : ℕ} {s : State} {i : Input} (h : Lockstep k s)
    (hinv : Range.Inv s.r) (hx : Exclusive s) (hd : s.r.done = true) (hgo : i.go = false) :
    (Lab1.step s i).ready = true ∧ (Lab1.step s i).start = 0 ∧ (Lab1.step s i).startIndex = 0 ∧
      (Lab1.step s i).r.running = false ∧ (Lab1.step s i).r.done = false ∧
      (Lab1.step s i).r.mem = s.r.mem := by
  obtain ⟨hready,hidx⟩ := h.waiting (h.done hd) (Or.inr hd)
  have hr : s.r.running = false := by
    rw [Bool.eq_false_iff]
    exact fun hr => hx ⟨hd,hr⟩
  refine ⟨?_,?_,?_,idle_step hinv hr hgo⟩
  · rw [step_ready,hd]
    rfl
  · rw [step_start_unready s i hready,if_pos hd]
  · rw [step_startIndex_unready s i hready,hgo]
    exact hidx

/-- If `go` never meets the write of a last word, `done` and `running` are never high together. -/
theorem exclusive_trace {w : ℕ → Input} {t : ℕ}
    (hc : ∀ u < t, ¬Range.Collides (trace step powerUp w u).r
      ⟨(w u).go,(trace step powerUp w u).start⟩) :
    Exclusive (trace step powerUp w t) := by
  have hidle : (trace step powerUp w t).r.done = true →
      (trace step powerUp w t).r.running = false := by
    induction t with
    | zero => simp [powerUp,Range.powerUp]
    | succ t ih =>
      exact Range.done_idle_step (ih fun u hu => hc u (by omega)) (hc t (Nat.lt_succ_self t))
  rintro ⟨hd,hr⟩
  rw [hidle hd] at hr
  exact Bool.false_ne_true hr

structure Still (s : State) (i : Input) : Prop where
  go : i.go = false
  reset : i.reset = false
  add : s.addCtrl.pulse = false
  sub : s.subCtrl.pulse = false
  done : s.r.done = false

theorem Still.step {s : State} {i : Input} (h : Still s i) :
    (step s i).start = s.start ∧ (step s i).startIndex = s.startIndex ∧
      (step s i).ready = s.ready := by
  refine ⟨?_,?_,?_⟩
  · simp [Lab1.step,browse,h.go,h.reset,h.add,h.sub,h.done]
  · simp [Lab1.step,browse,h.go,h.reset,h.add,h.sub,h.done]
  · rw [step_ready,h.done,h.go]
    rfl

theorem step_count {s : State} (hwe : s.r.we = false) (i : Input) {k : Fin 256}
    (hk : (s.start.setWidth 8).toNat = k.val) : (step s i).r.count = s.r.mem k := by
  have ha : Range.addr s.r ⟨i.go,s.start⟩ = s.start.setWidth 8 := by simp [Range.addr,hwe]
  have hc : (step s i).r.count = Range.readMem s.r.mem (Range.addr s.r ⟨i.go,s.start⟩).toNat := rfl
  rw [hc,ha,hk,Range.readMem,dif_pos k.isLt]

theorem lockstep_trace {w : ℕ → Input} (hw : LongPhases w) {t : ℕ}
    (hx : ∀ u ≤ t, Exclusive (trace step powerUp w u)) :
    Lockstep (goHeld w t) (trace step powerUp w t) := by
  induction t with
  | zero => exact lockstep_powerUp
  | succ t ih =>
    have hlock := ih fun u hu => hx u (by omega)
    exact hlock.step (inv_r w t) (hx t (by omega)) (hx (t+1) le_rfl) hw.goHeld_low

/-- In every run in which each phase of `go` lasts three edges and `done` and `running` are never
high together, a board that is ready addresses the RAM with its index: the pointer is at most
255, and an addition or subtraction that is let through does not wrap either register. -/
theorem start_eq_startIndex {w : ℕ → Input} (hw : LongPhases w)
    (hx : ∀ t, ¬((trace step powerUp w t).r.done = true ∧ (trace step powerUp w t).r.running = true))
    (t : ℕ) (hr : (trace step powerUp w t).ready = true) :
    let s := trace step powerUp w t
    s.start = s.startIndex.setWidth 32 ∧ s.start.toNat ≤ 255 ∧ s.start.setWidth 8 = s.startIndex ∧
      (s.start < 255 → (s.start+1).toNat = s.start.toNat+1 ∧
        (s.startIndex+1).toNat = s.startIndex.toNat+1) ∧
      (s.start > 0 → (s.start-1).toNat+1 = s.start.toNat ∧
        (s.startIndex-1).toNat+1 = s.startIndex.toNat) := by
  intro s
  have hs : s.start = s.startIndex.setWidth 32 := (lockstep_trace hw fun u _ => hx u).level hr
  have hi := s.startIndex.isLt
  have hn : s.start.toNat = s.startIndex.toNat := by
    rw [hs,BitVec.toNat_setWidth]
    omega
  refine ⟨hs,by omega,?_,?_,?_⟩
  · apply BitVec.eq_of_toNat_eq
    rw [BitVec.toNat_setWidth,hn]
    omega
  · intro hlt
    have h255 : s.start.toNat < 255 := by simpa [BitVec.lt_def] using hlt
    constructor <;> bv_omega
  · intro hgt
    have h0 : 0 < s.start.toNat := by simpa [BitVec.lt_def] using hgt
    constructor <;> bv_omega

section Sample

/-- `go` is high for three edges from power-up and no other button is ever pressed. -/
def sample (sw : ℕ → BitVec 10) (t : ℕ) : Input := ⟨decide (t < 3),false,false,false,sw t⟩

variable (sw : ℕ → BitVec 10)

theorem sample_longPhases : LongPhases (sample sw) := by
  intro t ht hrise
  have h3 : t < 3 := by simpa [sample] using ht
  have h0 : t = 0 := by
    by_contra hne
    have hprev := hrise (t-1) (by omega)
    simp only [sample,decide_eq_false_iff_not] at hprev
    omega
  subst h0
  exact ⟨rfl,rfl⟩

theorem sample_noCollision (u : ℕ) :
    ¬Range.Collides (trace step powerUp (sample sw) u).r
      ⟨(sample sw u).go,(trace step powerUp (sample sw) u).start⟩ := by
  rintro ⟨hgo,hwe,-⟩
  have h3 : u < 3 := by simpa [sample] using hgo
  obtain rfl | rfl | rfl : u = 0 ∨ u = 1 ∨ u = 2 := by omega
  · simp [powerUp,Range.powerUp] at hwe
  · simp [trace_succ,powerUp,Range.powerUp] at hwe
  · simp [trace_succ,powerUp,Range.powerUp,Collatz.step_done] at hwe

theorem sample_exclusive (t : ℕ) : Exclusive (trace step powerUp (sample sw) t) :=
  exclusive_trace fun u _ => sample_noCollision sw u

theorem sample_still {t : ℕ} (ht : 3 ≤ t) (hd : (trace step powerUp (sample sw) t).r.done = false) :
    Still (trace step powerUp (sample sw) t) (sample sw t) where
  go := by simpa [sample] using ht
  reset := rfl
  add := by
    obtain ⟨u,rfl⟩ := Nat.exists_eq_succ_of_ne_zero (by omega : t ≠ 0)
    rfl
  sub := by
    obtain ⟨u,rfl⟩ := Nat.exists_eq_succ_of_ne_zero (by omega : t ≠ 0)
    rfl
  done := hd

theorem sample_base {t : ℕ} (ht : 3 ≤ t) : base (sample sw) t = (sw 1).setWidth 32 := by
  induction t,ht using Nat.le_induction with
  | base =>
    have hready : (trace step powerUp (sample sw) 1).ready = false := by
      simp [trace_succ,powerUp,Range.powerUp]
    have hdone : (trace step powerUp (sample sw) 1).r.done = false := by
      simp [trace_succ,powerUp,Range.powerUp]
    have hbase : base (sample sw) 3 = (trace step powerUp (sample sw) 2).start := rfl
    rw [hbase,trace_succ,step_start_unready _ _ hready,hdone]
    rfl
  | succ t ht ih =>
    have hgo : (sample sw t).go = false := by simpa [sample] using ht
    rw [base,hgo]
    exact ih

theorem ends_of_le : ∀ n ≤ 1278, 1 ≤ n → ends (2^32) 182 n = true := by
  decide +kernel

theorem exists_orbits {m : ℕ} (h2 : 2 ≤ m) (hm : m ≤ 1023) :
    ∃ σ : ℕ → ℕ, (∀ j, σ j ≤ 181) ∧ Range.Orbits m σ 255 := by
  have hex : ∀ j, ∃ σ ≤ 181, j ≤ 255 → ReachesOne 32 (m+j) σ := by
    intro j
    by_cases hj : j ≤ 255
    · obtain ⟨σ,hlt,hσ⟩ := reachesOne_of_ends (ends_of_le (m+j) (by omega) (by omega))
      exact ⟨σ,by omega,fun _ => hσ⟩
    · exact ⟨0,by omega,fun h => absurd h hj⟩
  choose σ hle hσ using hex
  exact ⟨σ,hle,fun j hj => ⟨by omega,hσ j hj⟩⟩

theorem orbits_from_two : ∃ σ, σ 0 = 1 ∧ Range.Orbits 2 σ 255 := by
  obtain ⟨σ,-,ho⟩ := exists_orbits le_rfl (by decide : 2 ≤ 1023)
  have h0 := (ho 0 (Nat.zero_le _)).2
  exact ⟨σ,((h0.eq_two_iff (h0.steps_pos le_rfl)).mp rfl).symm,ho⟩

theorem sample_finishes (h2 : sw 1 = 2) :
    ∃ τ, 3 ≤ τ ∧ (trace step powerUp (sample sw) τ).r.done = true ∧
      (trace step powerUp (sample sw) τ).r.mem 0 = 2 := by
  let S := trace step powerUp (sample sw)
  let f := fun u => (S (3+u)).start
  have hS : ∀ u, (S (3+u)).r = trace Range.step (S 3).r (Range.low f) u := by
    intro u
    have hlow : (fun v => (⟨(sample sw (3+v)).go,(S (3+v)).start⟩ : Range.Input)) =
        Range.low f := by
      funext v
      simp [sample,Range.low,f]
    rw [← hlow]
    simp only [S,trace_add _ _ _ 3]
    exact trace_r _ _ u
  have hbase : base (sample sw) 3 = 2 := by
    rw [sample_base sw le_rfl,h2]
    rfl
  have harmed := armed_trace (sample sw) (t := 3) (by simp [goHeld_succ,sample])
  rw [hbase] at harmed
  have hlast : (Range.lastNum 256 8).toNat = 255 := rfl
  obtain ⟨σ,hσ,ho⟩ := orbits_from_two
  obtain ⟨T,hfall,hmem⟩ : ∃ T,
      FirstFall Range.step Range.State.running (S 3).r (Range.low f) (T+1) ∧
        (trace Range.step (S 3).r (Range.low f) (T+1)).mem 0 = 2 := by
    obtain ⟨hfall,hmem⟩ := harmed.sweep (by rw [hlast]; exact ho) f
    rw [Nat.add_comm 1] at hfall hmem
    refine ⟨_,hfall,?_⟩
    rw [hmem]
    simp [Range.recorded,hσ]
  rw [← hS] at hmem
  have hrun : (S (3+T)).r.running = true := by
    rw [hS]
    exact hfall.high T (Nat.lt_succ_self T)
  have hidle : (S (3+(T+1))).r.running = false := by
    rw [hS]
    exact hfall.low
  refine ⟨3+(T+1),by omega,?_,hmem⟩
  have hx : (S (3+T)).r.done = true → (S (3+T)).r.running = false := by
    intro hd
    exact absurd ⟨hd,hrun⟩ (sample_exclusive sw (3+T))
  exact (Range.done_rises_iff (inv_r _ _) hx (sample_noCollision sw (3+T))).mpr ⟨hrun,hidle⟩

theorem sample_settles (h2 : sw 1 = 2) :
    ∃ t, 3 ≤ t ∧ (trace step powerUp (sample sw) (t+2)).ready = true ∧
      (trace step powerUp (sample sw) (t+2)).startIndex = 0 ∧
      count (trace step powerUp (sample sw) (t+2)) = 2 ∧
      ∀ u, t ≤ u → u < t+2 → Still (trace step powerUp (sample sw) u) (sample sw u) := by
  let S := trace step powerUp (sample sw)
  obtain ⟨τ,hτ,hd,hmem⟩ := sample_finishes sw h2
  have hgo : (sample sw τ).go = false := by simpa [sample] using hτ
  have hgo₁ : (sample sw (τ+1)).go = false := by simp [sample]; omega
  have hlock := lockstep_trace (sample_longPhases sw) (t := τ) fun u _ => sample_exclusive sw u
  obtain ⟨hready₁,hstart₁,hidx₁,hr₁,hd₁,hmem₁⟩ : (S (τ+1)).ready = true ∧ (S (τ+1)).start = 0 ∧
      (S (τ+1)).startIndex = 0 ∧ (S (τ+1)).r.running = false ∧ (S (τ+1)).r.done = false ∧
      (S (τ+1)).r.mem = (S τ).r.mem :=
    hlock.completion (inv_r _ _) (sample_exclusive sw τ) hd hgo
  have hs₁ : Still (S (τ+1)) (sample sw (τ+1)) := sample_still sw (by omega) hd₁
  obtain ⟨hstart₂,hidx₂,hready₂⟩ : (S (τ+2)).start = (S (τ+1)).start ∧
      (S (τ+2)).startIndex = (S (τ+1)).startIndex ∧ (S (τ+2)).ready = (S (τ+1)).ready := hs₁.step
  obtain ⟨hr₂,hd₂,hmem₂⟩ : (S (τ+2)).r.running = false ∧ (S (τ+2)).r.done = false ∧
      (S (τ+2)).r.mem = (S (τ+1)).r.mem :=
    idle_step (inv_r _ _) hr₁ hgo₁
  have hs₂ : Still (S (τ+2)) (sample sw (τ+2)) := sample_still sw (by omega) hd₂
  obtain ⟨hstart₃,hidx₃,hready₃⟩ : (S (τ+3)).start = (S (τ+2)).start ∧
      (S (τ+3)).startIndex = (S (τ+2)).startIndex ∧ (S (τ+3)).ready = (S (τ+2)).ready := hs₂.step
  have hcount : (S (τ+3)).r.count = 2 := by
    have hk : ((S (τ+2)).start.setWidth 8).toNat = (0 : Fin 256).val := by
      rw [hstart₂,hstart₁]
      rfl
    have hc : (S (τ+3)).r.count = (S (τ+2)).r.mem 0 :=
      step_count ((inv_r _ _).idle_we hr₂) _ hk
    rw [hc,hmem₂,hmem₁]
    exact hmem
  refine ⟨τ+1,by omega,?_,?_,?_,?_⟩
  · exact hready₃.trans (hready₂.trans hready₁)
  · exact hidx₃.trans (hidx₂.trans hidx₁)
  · rw [count,show trace step powerUp (sample sw) (τ+1+2) = S (τ+3) from rfl,hcount]
    rfl
  · intro u hu hu'
    obtain rfl | rfl : u = τ+1 ∨ u = τ+2 := by omega
    · exact hs₁
    · exact hs₂

def pressAdd (τ t : ℕ) : Input := { sample (fun _ => 2) t with add := decide (t = τ) }

theorem trace_pressAdd {τ t : ℕ} (ht : t ≤ τ) :
    trace step powerUp (pressAdd τ) t = trace step powerUp (sample fun _ => 2) t := by
  refine trace_congr step powerUp fun u hu => ?_
  have hne : decide (u = τ) = false := decide_eq_false (by omega)
  rw [pressAdd,hne]
  rfl

theorem pressAdd_exclusive {τ : ℕ} (hτ : 3 ≤ τ) (t : ℕ) :
    Exclusive (trace step powerUp (pressAdd τ) t) := by
  refine exclusive_trace fun u _ => ?_
  by_cases hu : u < 3
  · rw [trace_pressAdd (by omega)]
    exact sample_noCollision _ u
  · rintro ⟨hgo,-⟩
    have h3 : u < 3 := by simpa [pressAdd,sample] using hgo
    exact hu h3

theorem pressAdd_moves {τ : ℕ} (hτ : 3 ≤ τ)
    (hd : (trace step powerUp (sample fun _ => 2) τ).r.done = true) :
    (trace step powerUp (pressAdd (τ+1)) (τ+3)).ready = true ∧
      (trace step powerUp (pressAdd (τ+1)) (τ+3)).startIndex = 1 := by
  let S := trace step powerUp (pressAdd (τ+1))
  have hgo : ∀ t, 3 ≤ t → (pressAdd (τ+1) t).go = false := by
    intro t ht
    simpa [pressAdd,sample] using ht
  have hlock : Lockstep (goHeld (sample fun _ => 2) τ) (trace step powerUp (sample fun _ => 2) τ) :=
    lockstep_trace (sample_longPhases _) fun u _ => sample_exclusive _ u
  have hsame : S (τ+1) = trace step powerUp (sample fun _ => 2) (τ+1) := trace_pressAdd le_rfl
  obtain ⟨hready₁,hstart₁,hidx₁,hr₁,hd₁,-⟩ : (S (τ+1)).ready = true ∧ (S (τ+1)).start = 0 ∧
      (S (τ+1)).startIndex = 0 ∧ (S (τ+1)).r.running = false ∧ (S (τ+1)).r.done = false ∧
      (S (τ+1)).r.mem = (trace step powerUp (sample fun _ => 2) τ).r.mem := by
    rw [hsame]
    exact hlock.completion (inv_r _ _) (sample_exclusive _ τ) hd (hgo τ hτ)
  have hadd₁ : (S (τ+1)).addCtrl = ButtonPress.powerUp := by
    rw [hsame]
    rfl
  have hs₁ : Still (S (τ+1)) (pressAdd (τ+1) (τ+1)) :=
    ⟨hgo _ (by omega),rfl,congrArg ButtonPress.State.pulse hadd₁,rfl,hd₁⟩
  obtain ⟨hstart₂,hidx₂,hready₂⟩ : (S (τ+2)).start = (S (τ+1)).start ∧
      (S (τ+2)).startIndex = (S (τ+1)).startIndex ∧ (S (τ+2)).ready = (S (τ+1)).ready := hs₁.step
  have hpulse₂ : (S (τ+2)).addCtrl.pulse = true := by
    have hstep : (S (τ+2)).addCtrl = ButtonPress.step (S (τ+1)).addCtrl true := by
      simp [S,trace_succ,step,pressAdd]
    rw [hstep,hadd₁]
    rfl
  have hr : (S (τ+2)).ready = true := hready₂.trans hready₁
  have hs : (S (τ+2)).start = 0 := hstart₂.trans hstart₁
  have hi : (S (τ+2)).startIndex = 0 := hidx₂.trans hidx₁
  constructor
  · rw [trace_succ,step_ready,hgo (τ+2) (by omega)]
    simp [show (trace step powerUp (pressAdd (τ+1)) (τ+2)).ready = true from hr]
  · rw [trace_succ]
    change (step (S (τ+2)) _).startIndex = 1
    simp [step,browse,hr,hpulse₂,hs,hi]

theorem start_eq_startIndex_after_sweep :
    ∃ τ t, (trace step powerUp (pressAdd τ) t).ready = true ∧
      (trace step powerUp (pressAdd τ) t).startIndex = 1 ∧
      (trace step powerUp (pressAdd τ) t).start = 1 := by
  obtain ⟨τ,hτ,hd,-⟩ := sample_finishes (fun _ => 2) rfl
  obtain ⟨hready,hidx⟩ := pressAdd_moves hτ hd
  have hlong : LongPhases (pressAdd (τ+1)) := sample_longPhases fun _ => 2
  have hstart := (start_eq_startIndex hlong (pressAdd_exclusive (by omega)) _ hready).1
  rw [hidx] at hstart
  exact ⟨τ+1,τ+3,hready,hidx,hstart⟩

end Sample

end Lab1
end EmbeddedSystems
