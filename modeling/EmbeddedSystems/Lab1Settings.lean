import EmbeddedSystems.Lab1Timing

/-! Ten switches give 1024 settings, and the 256 numbers from a setting on end at 1278 at the
latest. All their orbits from `2` on are short and stay far below 32 bits. The orbit of `1` is
only ended by its way back to `1`, and the orbit of `0` never is. -/

namespace EmbeddedSystems

namespace CollatzOrbit

/-- The orbit of `n` comes to `1` after `σ` steps, for the first time after its start. -/
structure Laps (n σ : ℕ) : Prop where
  pos : 0 < σ
  one : orbit n σ = 1
  first : ∀ j, 0 < j → j < σ → orbit n j ≠ 1

theorem ReachesOne.laps {width n σ : ℕ} (h : ReachesOne width n σ) (hn : 2 ≤ n) : Laps n σ :=
  ⟨h.steps_pos hn,h.one,fun j _ hj => h.first j hj⟩

theorem laps_one : Laps 1 3 where
  pos := by decide
  one := by decide
  first := by
    intro j hpos hj
    interval_cases j <;> decide

end CollatzOrbit

namespace Range

open Clocked CollatzOrbit

variable {W B : ℕ}

section One

theorem Counting.lap_edge {i j : ℕ} {M : Fin W → BitVec 16} {s : State W B}
    (h : Counting 1 3 i j M s) (hj : j < 3) (v : BitVec 32) :
    Counting 1 3 i (j+1) M (step s ⟨false,v⟩) := by
  have hc : s.c1.done = false := by simpa [h.c1.done] using hj.ne
  have hnext : next s.c1.dout.toNat = orbit 1 (j+1) := by rw [h.c1.dout,orbit_succ]
  have hfit : orbit 1 (j+1) < 2^32 := by interval_cases j <;> decide
  have h2 : s.c1.dout = 2#32 ↔ j+1 = 3 := by
    rw [BitVec.toNat_eq,h.c1.dout]
    interval_cases j <;> decide
  constructor
  · simp [h.running,h.we]
  · simp [h.we,hc]
  · simp [h.we,hc]
  · simp [h.we,hc,h.n]
  · simp [h.we,h.num]
  · simp only [step_din,h.we,hc,h.running,h.cgo,h.din]
    simp [BitVec.ofNat_add]
  · rw [step_c1,h.cgo]
    constructor
    · rw [Collatz.step_dout_toNat _ _ hc (by rw [hnext]; exact hfit),hnext]
    · simp [Collatz.step_done,hc,h2]
  · rw [step_mem,h.we]
    simpa using h.mem

theorem Counting.lap_edges {i j : ℕ} {M : Fin W → BitVec 16} {s : State W B}
    (h : Counting 1 3 i 0 M s) (f : ℕ → BitVec 32) (hj : j ≤ 3) :
    Counting 1 3 i j M (trace step s (low f) j) := by
  induction j with
  | zero => exact h
  | succ j ih => exact (ih (by omega)).lap_edge (by omega) (f j)

def fromOne (σ : ℕ → ℕ) : ℕ → ℕ
  | 0 => 3
  | j+1 => σ j

theorem sweeps_one {σ : ℕ → ℕ} {r : ℕ} (hlast : (lastNum W B).toNat = r+1)
    (ho : Orbits 2 σ r) : Sweeps W B 1 (fromOne σ) := by
  intro M s f h
  have hc : Counting 1 3 0 0 M (step s ⟨false,f 0⟩) := h.counting (by decide) (f 0)
  let g := fun t => f (1+t)
  have hlap : ∀ j ≤ 3, Counting 1 3 0 j M (trace step (step s ⟨false,f 0⟩) (low g) j) :=
    fun j hj => hc.lap_edges g hj
  obtain ⟨hwrite,hdone⟩ := (hlap 3 le_rfl).write (g 3) (g 4)
  have hrun : ∀ t < 5, (trace step (step s ⟨false,f 0⟩) (low g) t).running = true := by
    intro t ht
    rcases Nat.lt_or_ge 3 t with hlt | hge
    · obtain rfl : t = 4 := by omega
      exact hwrite
    · exact (hlap t hge).running
  have h2 := ho 0 (Nat.zero_le r)
  have hnext := hdone.counting (by omega) (by omega) (h2.2.steps_pos le_rfl)
  obtain ⟨hfall,hmem⟩ := sweep_run hnext (by omega) ho fun t => g (5+t)
  have hsum : 1+∑ j ∈ Finset.range (r+1+1), (fromOne σ j+2) =
      1+(5+∑ j ∈ Finset.range (r+1), (σ j+2)) := by
    rw [Finset.sum_range_succ' _ (r+1),Nat.add_comm _ (fromOne σ 0+2)]
    rfl
  rw [hlast,hsum]
  refine ⟨(hfall.delay hrun).delay ?_,?_⟩
  · intro t ht
    obtain rfl : t = 0 := by omega
    exact h.running
  · rw [trace_add,trace_add]
    exact hmem.trans (recorded_succ M 0 (fromOne σ) r)

end One

section Zero

/-- A sweep that is at `0` stays there. -/
structure Stuck (s : State W B) : Prop where
  running : s.running = true
  we : s.we = false
  cgo : s.cgo = false
  c1 : s.c1 = ⟨0,false⟩

theorem Armed.stuck {M : Fin W → BitVec 16} {s : State W B} (h : Armed 0 M s) (v : BitVec 32) :
    Stuck (step s ⟨false,v⟩) := by
  constructor
  · simp [h.running,h.we]
  · simp [h.cdone]
  · simp [h.cdone]
  · rw [step_c1,h.cgo,h.n]
    rfl

theorem Stuck.step {s : State W B} (h : Stuck s) (v : BitVec 32) :
    Stuck (Range.step s ⟨false,v⟩) := by
  constructor
  · simp [h.running,h.we]
  · simp [h.c1]
  · simp [h.c1]
  · rw [step_c1,h.cgo,h.c1]
    rfl

end Zero

end Range

namespace Lab1

open Clocked CollatzOrbit

theorem sweepTime_le {σ : ℕ → ℕ} (hσ : ∀ j, σ j ≤ 181) : sweepTime σ ≤ 46849 := by
  have hsum : ∑ j ∈ Finset.range 256, (σ j+2) ≤ (Finset.range 256).card • 183 :=
    Finset.sum_le_card_nsmul _ _ _ fun j _ => by have := hσ j; omega
  rw [Finset.card_range,smul_eq_mul] at hsum
  rw [sweepTime_eq]
  omega

/-- Every setting but `0` is swept, and no count of it needs more than eight bits. -/
theorem exists_sweeps {sw : BitVec 10} (h0 : sw ≠ 0) :
    ∃ σ : ℕ → ℕ, (∀ j, σ j ≤ 181) ∧ (∀ j ≤ 255, Laps (sw.toNat+j) (σ j)) ∧
      Range.Sweeps 256 8 (sw.setWidth 32) σ := by
  have hlt := sw.isLt
  by_cases h1 : sw = 1
  · obtain ⟨σ,hle,ho⟩ := exists_orbits (m := 2) le_rfl (by omega)
    have hn : sw.toNat = 1 := by
      rw [h1]
      rfl
    refine ⟨Range.fromOne σ,?_,?_,?_⟩
    · intro j
      cases j with
      | zero => exact (by decide : 3 ≤ 181)
      | succ j => exact hle j
    · intro j hj
      rw [hn]
      cases j with
      | zero => exact laps_one
      | succ j =>
        obtain ⟨h2,hr⟩ := ho j (by omega)
        have he : 1+(j+1) = 2+j := by omega
        rw [he]
        exact hr.laps h2
    · rw [h1]
      exact Range.sweeps_one (r := 254) rfl fun j hj => ho j (by omega)
  · have h2 : 2 ≤ sw.toNat := by
      by_contra hlt2
      have hcases : sw.toNat = 0 ∨ sw.toNat = 1 := by omega
      rcases hcases with he | he
      · exact h0 (BitVec.eq_of_toNat_eq he)
      · exact h1 (BitVec.eq_of_toNat_eq he)
    obtain ⟨σ,hle,ho⟩ := exists_orbits h2 (by omega)
    exact ⟨σ,hle,fun j hj => (ho j hj).2.laps (ho j hj).1,Board.sweeps_of_orbits ho⟩

namespace Board

variable {p : ℕ → Pins} {b e : ℕ}

theorem Launch.stuck (h : Launch p b e) (h0 : (p (b-1)).sw = 0) {t : ℕ} (hbt : b+1 < t)
    (ht : t ≤ e+1) : Range.Stuck (trace Lab1.step Lab1.powerUp (debounced p) t).r := by
  have hheld := h.goHeld_ge (e := e) (by omega)
  induction t,hbt using Nat.le_induction with
  | base =>
    have harmed := armed_trace (debounced p) (t := b+1) (by omega)
    rw [h.base_eq (by omega),h0] at harmed
    rw [trace_succ,step_r,h.low (b+1) (by omega) (by omega)]
    exact harmed.stuck _
  | succ t hbt ih =>
    rw [trace_succ,step_r,h.low t (by omega) (by omega)]
    exact (ih (by omega)).step _

theorem Launch.unanswered (h : Launch p b e) (h0 : (p (b-1)).sw = 0) {t : ℕ} (hbt : b < t)
    (ht : t ≤ e) :
    (after p t).core.ready = false ∧ (shown p t).left = some (p t).sw.toNat := by
  have hlock := lockstep_trace (longPhases_debounced p) (t := t) fun u hu =>
    exclusive_trace fun x hx => by
      by_cases hxb : x ≤ b
      · exact h.clear_core x hxb
      · exact not_collides_of_low (h.low x (by omega) (by omega))
  have hwait : (after p t).core.ready = false ∧ (after p t).core.startIndex = 0 := by
    rw [after_core]
    rcases Nat.eq_or_lt_of_le hbt with he | hlt
    · have hheld := h.goHeld_ge (e := e) (by omega)
      rw [Nat.succ_eq_add_one] at he
      exact hlock.later (by rw [← he]; omega)
    · have hlow : goHeld (debounced p) t = 0 := by
        obtain ⟨u,rfl⟩ : ∃ u, t = u+1 := ⟨t-1,by omega⟩
        exact goHeld_of_low _ (h.low u (by omega) (by omega))
      exact hlock.waiting hlow (Or.inl (h.stuck h0 hlt (by omega)).running)
  refine ⟨hwait.1,?_⟩
  rw [shown,panel_left,hwait.2]
  rfl

/-- Every press of `go`, for every setting of the switches on the edge before its last one. With `0`
the board is not ready before the next press. With any other number it is ready two edges after
`T ≤ 46849` of them, unless `go` is pressed again before. Then the left digits show the switches as
they are now plus the cursor, and one edge later the right digits show the exact number of elements
from the swept number at the cursor to its first `1` after the start. -/
theorem setting_answered (h : Launch p b e) :
    ((p (b-1)).sw = 0 → ∀ t, b < t → t ≤ e →
      (after p t).core.ready = false ∧ (shown p t).left = some (p t).sw.toNat) ∧
    ((p (b-1)).sw ≠ 0 → ∃ σ : ℕ → ℕ, (∀ j ≤ 255, Laps ((p (b-1)).sw.toNat+j) (σ j)) ∧
      sweepTime σ ≤ 46849 ∧ (b+1+sweepTime σ ≤ e →
        (∀ t, b < t → t < b+2+sweepTime σ →
          (after p t).core.ready = false ∧ (shown p t).left = some (p t).sw.toNat) ∧
        ∀ m, b+2+sweepTime σ+m ≤ e → cursor (debounced p) (b+2+sweepTime σ) m ≤ 255 ∧
          (after p (b+2+sweepTime σ+m)).core.ready = true ∧
          (shown p (b+2+sweepTime σ+m)).left = some ((p (b+2+sweepTime σ+m)).sw.toNat+
            cursor (debounced p) (b+2+sweepTime σ) m) ∧
          (shown p (b+2+sweepTime σ+m+1)).right =
            some (σ (cursor (debounced p) (b+2+sweepTime σ) m)+1))) := by
  refine ⟨fun h0 t hbt ht => h.unanswered h0 hbt ht,?_⟩
  intro h0
  obtain ⟨σ,hle,hlaps,hsw⟩ := exists_sweeps h0
  refine ⟨σ,hlaps,sweepTime_le hle,?_⟩
  intro he
  refine ⟨?_,?_⟩
  · intro t hbt ht
    have hl : Launch p b (b+1+sweepTime σ) :=
      ⟨h.high,fun u hbu hu => h.low u hbu (by omega),h.clear⟩
    exact ((hl.swept hsw).1 t hbt (by omega)).2
  · intro m hm
    obtain ⟨n,rfl⟩ : ∃ n, e = b+1+sweepTime σ+n := ⟨e-(b+1+sweepTime σ),by omega⟩
    obtain ⟨hleft,hright⟩ := h.browsed hsw
    have hcount := hle (cursor (debounced p) (b+2+sweepTime σ) m)
    have hmod := hright m (by omega)
    rw [Nat.mod_eq_of_lt (by omega)] at hmod
    exact ⟨cursor_le _ _ _,(hleft m (by omega)).1,(hleft m (by omega)).2,hmod⟩

theorem setting_answered_two : ∃ t ≤ 2^14+2+(2^14+1)+46851,
    (after pressGo t).core.ready = true ∧ (shown pressGo (t+1)).right = some 2 := by
  obtain ⟨σ,hlaps,hT,hanswer⟩ :=
    (setting_answered (launch_pressGo (2^14+2+(2^14+1)+46851))).2 (by decide)
  obtain ⟨-,hr,-,hn⟩ := (hanswer (by omega)).2 0 (by omega)
  have hσ : σ 0 = 1 := by
    have h2 : Laps 2 (σ 0) := hlaps 0 (Nat.zero_le _)
    have hpos := h2.pos
    by_contra hne
    exact h2.first 1 (by decide) (by omega) (by decide)
  refine ⟨_,by omega,hr,hn.trans ?_⟩
  have h0 : σ (cursor (debounced pressGo) (2^14+2+(2^14+1)+2+sweepTime σ) 0) = 1 := hσ
  rw [h0]

end Board
end Lab1
end EmbeddedSystems
