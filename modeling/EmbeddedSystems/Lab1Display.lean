import EmbeddedSystems.Lab1Browse

/-! The left digits show the switches plus `start_index`, the right digits the word of the RAM at
`start`. The RAM belongs to the number the last sweep started from, which is what the switches
had been when `go` was pressed. -/

namespace EmbeddedSystems
namespace Lab1

open Clocked CollatzOrbit

/-- The RAM against the number `b` of the latest sweep, after `go` has been high for `k` edges. -/
structure Recorded (b k : ℕ) (s : State) : Prop where
  sweeping : k = 0 ∨ 3 ≤ k → s.r.running = true → Range.Sweeping b s.r
  finished : k = 0 → s.ready = true ∨ s.r.done = true → Range.Finished b s.r

theorem recorded_powerUp (b : ℕ) : Recorded b 0 powerUp := by
  constructor <;> simp [powerUp,Range.powerUp]

theorem Recorded.low {b k : ℕ} {s : State} {i : Input} (h : Recorded b k s) (hlock : Lockstep k s)
    (hinv : Range.Inv s.r) (hx : Exclusive s) (hx' : Exclusive (step s i)) (hgo : i.go = false)
    (hk : k = 0 ∨ 3 ≤ k) : Recorded b 0 (step s i) := by
  have hr : (step s i).r = Range.step s.r ⟨false,s.start⟩ := by rw [step_r,hgo]
  have hdone : (step s i).r.done = true → Range.Finished b (step s i).r := by
    intro hd
    have hwe := (hx.go_low hx' hd).2
    have hrun := hinv.we_running hwe
    have hlast : s.r.num = Range.lastNum 256 8 := by
      rw [hr,Range.step_done,hx.done_low hrun] at hd
      simpa [hwe] using hd
    rw [hr]
    exact (h.sweeping hk hrun).finish s.start le_rfl hwe hlast
  constructor
  · intro _ hrun
    rw [hr] at hrun ⊢
    rw [Range.step_running,Bool.false_or,Bool.and_eq_true] at hrun
    refine (h.sweeping hk hrun.1).edge s.start hinv ?_
    rintro ⟨hwe,hlast⟩
    simp [hwe,hlast] at hrun
  · rintro - (hready | hd)
    · have h0 : k = 0 ∧ (s.ready = true ∨ s.r.done = true) := by
        rw [step_ready,Bool.or_eq_true,hgo] at hready
        rcases hready with hd | hready
        · exact ⟨hlock.done hd,Or.inr hd⟩
        · have hr' : s.ready = true := by simpa using hready
          refine ⟨?_,Or.inl hr'⟩
          rcases hk with h0 | h3
          · exact h0
          · rw [(hlock.later h3).1] at hr'
            exact absurd hr' Bool.false_ne_true
      rw [hr]
      exact (h.finished h0.1 h0.2).edge s.start hinv
    · exact hdone hd

theorem recorded_trace {w : ℕ → Input} (hw : LongPhases w) {t : ℕ}
    (hx : ∀ u ≤ t, Exclusive (trace step powerUp w u)) :
    Recorded (base w t).toNat (goHeld w t) (trace step powerUp w t) := by
  induction t with
  | zero => exact recorded_powerUp _
  | succ t ih =>
    cases hgo : (w t).go with
    | true =>
      have hpos : goHeld w (t+1) ≠ 0 := by simp [goHeld_succ,hgo]
      constructor
      · rintro (h0 | h3) -
        · exact absurd h0 hpos
        · exact (armed_trace w h3).sweeping
      · exact fun h0 => absurd h0 hpos
    | false =>
      have hbase : base w (t+1) = base w t := by simp [base,hgo]
      have hheld : goHeld w (t+1) = 0 := by simp [goHeld_succ,hgo]
      have hx₀ : ∀ u ≤ t, Exclusive (trace step powerUp w u) := fun u hu => hx u (by omega)
      rw [hbase,hheld]
      exact (ih hx₀).low (lockstep_trace hw hx₀) (inv_r w t) (hx₀ t le_rfl) (hx (t+1) le_rfl) hgo
        (hw.goHeld_low hgo)

theorem count_of_finished {b : ℕ} {s : State} (h : Range.Finished b s.r) (hinv : Range.Inv s.r)
    (hl : s.start = s.startIndex.setWidth 32) (i : Input) :
    Range.CountsTo (b+s.startIndex.toNat) (step s i).r.count := by
  have hlt := s.startIndex.isLt
  have hk : (s.start.setWidth 8).toNat = (⟨s.startIndex.toNat,hlt⟩ : Fin 256).val := by
    rw [hl,BitVec.toNat_setWidth,BitVec.toNat_setWidth]
    dsimp only
    omega
  rw [step_count (hinv.idle_we h.running) i hk]
  exact h.recorded ⟨s.startIndex.toNat,hlt⟩

/-- For the last two edges no button, pulse or completion has acted, and the switches have stayed
as they are. -/
def Settled (w : ℕ → Input) (t : ℕ) : Prop :=
  2 ≤ t ∧ ∀ u < t, t ≤ u+2 → Still (trace step powerUp w u) (w u) ∧ (w u).sw = (w t).sw

theorem startDisplay_toNat (s : State) (sw : BitVec 10) :
    (startDisplay s sw).toNat = sw.toNat+s.startIndex.toNat := by
  have h1 := sw.isLt
  have h2 := s.startIndex.isLt
  rw [startDisplay,BitVec.toNat_add,BitVec.toNat_setWidth,BitVec.toNat_setWidth]
  omega

/-- In every run in which `go` never meets the write of a last word, a board that is ready and
settled shows the count of the number it shows, if the switches still hold the number the last
sweep started from. -/
theorem display_shows_own_count {w : ℕ → Input} (hw : LongPhases w) {t : ℕ}
    (hc : ∀ u < t, ¬Range.Collides (trace step powerUp w u).r
      ⟨(w u).go,(trace step powerUp w u).start⟩)
    (hr : (trace step powerUp w t).ready = true) (hs : Settled w t)
    (hb : (w t).sw.setWidth 32 = base w t) {σ : ℕ}
    (h2 : 2 ≤ (startDisplay (trace step powerUp w t) (w t).sw).toNat)
    (hσ : ReachesOne 32 (startDisplay (trace step powerUp w t) (w t).sw).toNat σ) :
    count (trace step powerUp w t) = BitVec.ofNat 12 (σ+1) := by
  obtain ⟨hle,hstill⟩ := hs
  obtain ⟨v,rfl⟩ : ∃ v, t = v+2 := ⟨t-2,by omega⟩
  have hx : ∀ u ≤ v+1, Exclusive (trace step powerUp w u) :=
    fun u hu => exclusive_trace fun x hxu => hc x (by omega)
  have hs₀ : Still (trace step powerUp w v) (w v) := (hstill v (by omega) le_rfl).1
  have hs₁ : Still (trace step powerUp w (v+1)) (w (v+1)) := (hstill (v+1) (by omega) (by omega)).1
  obtain ⟨-,hidx,hready⟩ := hs₁.step
  rw [← trace_succ step powerUp w (v+1)] at hidx hready
  have hr₁ : (trace step powerUp w (v+1)).ready = true := hready.symm.trans hr
  have hheld : goHeld w (v+1) = 0 := by simp [goHeld_succ,hs₀.go]
  have hbase : base w (v+2) = base w (v+1) := by simp [base,hs₁.go]
  have hfin := (recorded_trace hw hx).finished hheld (Or.inl hr₁)
  have hlevel := (lockstep_trace hw hx).level hr₁
  have hcount := count_of_finished hfin (inv_r w (v+1)) hlevel (w (v+1))
  rw [← trace_succ step powerUp w (v+1)] at hcount
  have hsum : (startDisplay (trace step powerUp w (v+2)) (w (v+2)).sw).toNat =
      (base w (v+1)).toNat+(trace step powerUp w (v+1)).startIndex.toNat := by
    have hlt := (w (v+2)).sw.isLt
    rw [startDisplay_toNat,hidx,← hbase,← hb,BitVec.toNat_setWidth]
    omega
  rw [hsum] at h2 hσ
  rw [count,hcount σ h2 hσ]
  apply BitVec.eq_of_toNat_eq
  simp only [BitVec.toNat_setWidth,BitVec.toNat_ofNat]
  omega

theorem display_shows_own_count_of_two :
    ∃ t, (startDisplay (trace step powerUp (sample fun _ => 2) t) 2).toNat = 2 ∧
      count (trace step powerUp (sample fun _ => 2) t) = 2 := by
  obtain ⟨t,ht,hready,hidx,-,hstill⟩ := sample_settles (fun _ => 2) rfl
  have hs : Settled (sample fun _ => 2) (t+2) :=
    ⟨by omega,fun u hu hu' => ⟨hstill u (by omega) hu,rfl⟩⟩
  have h3 : 3 ≤ t+2 := by omega
  have hb : (2 : BitVec 10).setWidth 32 = base (sample fun _ => 2) (t+2) :=
    (sample_base (fun _ => 2) h3).symm
  have hd : (startDisplay (trace step powerUp (sample fun _ => 2) (t+2)) 2).toNat = 2 := by
    rw [startDisplay_toNat,hidx]
    rfl
  have hσ : ReachesOne 32 2 1 := by decide
  refine ⟨t+2,hd,display_shows_own_count (sample_longPhases _) (fun u _ => sample_noCollision _ u)
    hready hs hb ?_ ?_⟩
  · exact hd.ge
  · rw [show (sample (fun _ => 2) (t+2)).sw = 2 from rfl,hd]
    exact hσ

/-- The switches go from `2` to `3` after `go` was released: the display shows `3` with the
count `2`, and the orbit of `3` has eight elements. -/
theorem display_shows_other_count :
    let w := sample fun t => if t < 3 then 2 else 3
    LongPhases w ∧ ∃ t, (trace step powerUp w t).ready = true ∧ Settled w t ∧
      (startDisplay (trace step powerUp w t) (w t).sw).toNat = 3 ∧ ReachesOne 32 3 7 ∧
      count (trace step powerUp w t) ≠ BitVec.ofNat 12 (7+1) := by
  intro w
  obtain ⟨t,ht,hready,hidx,hcount,hstill⟩ := sample_settles (fun t => if t < 3 then 2 else 3) rfl
  have hsw : ∀ u, 3 ≤ u → (w u).sw = 3 := fun u hu => if_neg (by omega)
  refine ⟨sample_longPhases _,t+2,hready,⟨by omega,?_⟩,?_,by decide,?_⟩
  · intro u hu hu'
    exact ⟨hstill u (by omega) hu,by rw [hsw u (by omega),hsw (t+2) (by omega)]⟩
  · rw [startDisplay_toNat,hidx,hsw (t+2) (by omega)]
    rfl
  · rw [hcount]
    decide

end Lab1
end EmbeddedSystems
