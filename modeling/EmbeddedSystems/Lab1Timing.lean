import EmbeddedSystems.Lab1Board

/-! A press of `go` is followed through the whole board: the debouncer keeps it long enough to arm
the sweeper, the sweep takes a number of edges that only the orbits decide, and from its end on
the digits follow a cursor that the pulses of `add` and `sub` and the level of `reset` move over
the 256 words. -/

namespace EmbeddedSystems

namespace Debouncer

variable {w : ℕ → Bool}

theorem output_stays {v : Bool} {t₁ a : ℕ} (h₁ : output w t₁ = v) (hlt : t₁ < a)
    (hd : ∀ e, t₁ ≤ e → e < a → delayed w e = v) {t : ℕ} (ht₁ : t₁ ≤ t) (ht : t < a+2^14) :
    output w t = v := by
  induction t using Nat.strong_induction_on with
  | _ t ih =>
    rcases Nat.eq_or_lt_of_le ht₁ with rfl | hlt'
    · exact h₁
    · obtain ⟨u,rfl⟩ : ∃ u, t = u+1 := ⟨t-1,by omega⟩
      have hu : output w u = v := ih u (by omega) (by omega) (by omega)
      by_contra hne
      have hch : Changes w u := fun he => hne (he.trans hu)
      obtain ⟨-,hdiff,-⟩ := (changes_iff w u).mp hch
      by_cases hm : t₁ ≤ u+1-2^14
      · exact hdiff (u+1-2^14) (by omega) (by omega)
          ((hd _ hm (by omega)).trans (ih _ (by omega) hm (by omega)).symm)
      · exact hdiff t₁ (by omega) (by omega) ((hd t₁ le_rfl hlt).trans h₁.symm)

theorem output_press {a L : ℕ} (hL : 2^14+2 ≤ L) (hw : ∀ t, w t = decide (a ≤ t ∧ t < a+L))
    (t : ℕ) : output w t = decide (a+(2^14+2) ≤ t ∧ t < a+L+(2^14+2)) := by
  have hd : ∀ e, delayed w e = decide (a+2 ≤ e ∧ e < a+L+2) := by
    intro e
    match e with
    | 0 => exact (decide_eq_false (by omega)).symm
    | 1 => exact (decide_eq_false (by omega)).symm
    | u+2 =>
      rw [delayed,hw,decide_eq_decide]
      omega
  have hup : output w (a+(2^14+2)) = true :=
    output_of_held fun e hae he => by rw [hw]; exact decide_eq_true (by omega)
  rcases Nat.lt_or_ge t (a+(2^14+2)) with hbefore | hge
  · rw [decide_eq_false (by omega)]
    rw [Nat.add_comm (2^14),← Nat.add_assoc] at hbefore
    exact output_stays (rfl : output w 0 = false) (Nat.succ_pos _)
      (fun e _ he => by rw [hd]; exact decide_eq_false (by omega)) (Nat.zero_le t) hbefore
  · rcases Nat.lt_or_ge t (a+L+(2^14+2)) with hmid | hlate
    · rw [decide_eq_true (by omega)]
      rw [Nat.add_comm (2^14),← Nat.add_assoc] at hmid
      exact output_stays hup (by omega)
        (fun e hae he => by rw [hd]; exact decide_eq_true (by omega)) hge hmid
    · obtain ⟨c,rfl⟩ : ∃ c, t = c+(2^14+2) := ⟨t-(2^14+2),by omega⟩
      rw [decide_eq_false (by omega)]
      exact output_of_held fun e hae he => by rw [hw]; exact decide_eq_false (by omega)

end Debouncer

namespace Range

open Clocked

/-- Every armed sweep of `v` takes the edges that the counts `σ` ask for and leaves these. -/
def Sweeps (W B : ℕ) (v : BitVec 32) (σ : ℕ → ℕ) : Prop :=
  ∀ (M : Fin W → BitVec 16) (s : State W B) (f : ℕ → BitVec 32), Armed v M s →
    FirstFall step State.running s (low f)
        (1+∑ j ∈ Finset.range ((lastNum W B).toNat+1), (σ j+2)) ∧
      (trace step s (low f) (1+∑ j ∈ Finset.range ((lastNum W B).toNat+1), (σ j+2))).mem =
        recorded M 0 σ (lastNum W B).toNat

theorem Orbits.sweeps {W B : ℕ} {v : BitVec 32} {σ : ℕ → ℕ}
    (ho : Orbits v.toNat σ (lastNum W B).toNat) : Sweeps W B v σ :=
  fun _ _ f h => h.sweep ho f

end Range

namespace Lab1

open Clocked CollatzOrbit

theorem goHeld_debounced {p : ℕ → Pins} {b : ℕ} (hhigh : (debounced p b).go = true)
    (hlow : (debounced p (b+1)).go = false) : 2^14 ≤ goHeld (debounced p) (b+1) := by
  let q := fun u => (debounced p u).go
  let raw := fun u => !(p u).key 3
  have hrun := runStart_streak (p := q) hhigh
  have hheld : goHeld (debounced p) (b+1) = streak q b+1 := by
    rw [goHeld_succ,if_pos hhigh]
    rfl
  have hle := streak_le q b
  have hpos : b-streak q b ≠ 0 := by
    intro h0
    have hq := hrun.high 0 (by omega) (by omega)
    exact absurd hq Bool.false_ne_true
  have hup : Debouncer.Changes raw (b-streak q b-1) := by
    have h0 : Debouncer.output raw (b-streak q b-1) = false := hrun.first.resolve_left hpos
    have h1 : Debouncer.output raw (b-streak q b) = true := hrun.high _ le_rfl hrun.le
    have he : b-streak q b-1+1 = b-streak q b := by omega
    unfold Debouncer.Changes
    rw [he,h0,h1]
    decide
  have hdown : Debouncer.Changes raw b := by
    have h0 : Debouncer.output raw (b+1) = false := hlow
    have h1 : Debouncer.output raw b = true := hhigh
    unfold Debouncer.Changes
    rw [h0,h1]
    decide
  have hfar := Debouncer.changes_apart hup hdown (by omega)
  rw [hheld]
  omega

theorem base_eq_sw {w : ℕ → Input} (hw : LongPhases w) {b : ℕ}
    (hx : ∀ u ≤ b, Exclusive (trace step powerUp w u)) (h4 : 4 ≤ goHeld w (b+1)) :
    base w (b+1) = (w (b-1)).sw.setWidth 32 := by
  obtain ⟨k,hk⟩ := Nat.exists_eq_add_of_le' h4
  obtain ⟨u,hu,hgo,h3⟩ := goHeld_eq_succ hk
  obtain rfl : b = u := by omega
  obtain ⟨v,rfl,hgo',h2⟩ := goHeld_eq_succ h3
  have hlock := lockstep_trace hw (t := v) fun x hxv => hx x (by omega)
  rw [h2] at hlock
  have hdone := (hx v (by omega)).done_low (hlock.running (by omega))
  have hready : (trace step powerUp w v).ready = false := by
    rcases Nat.eq_zero_or_pos k with rfl | hpos
    · exact hlock.second rfl
    · exact (hlock.later (by omega)).1
  rw [base,if_pos hgo,trace_succ,step_start_unready _ _ hready,hdone,hgo',Nat.add_sub_cancel]
  rfl

/-- The number of edges from the release of `go` to the completion of a sweep over 256 orbits. -/
@[irreducible] def sweepTime (σ : ℕ → ℕ) : ℕ := 1+∑ j ∈ Finset.range 256, (σ j+2)

theorem sweepTime_eq (σ : ℕ → ℕ) : sweepTime σ = 1+∑ j ∈ Finset.range 256, (σ j+2) := by
  unfold sweepTime
  rfl

theorem sweepTime_pos (σ : ℕ → ℕ) : 0 < sweepTime σ := by
  rw [sweepTime_eq]
  omega

section Sweep

variable {w : ℕ → Input} {b : ℕ} {σ : ℕ → ℕ}

theorem not_collides_of_low {t : ℕ} (hlow : (w t).go = false) :
    ¬Range.Collides (trace step powerUp w t).r ⟨(w t).go,(trace step powerUp w t).start⟩ := by
  rintro ⟨hgo,-⟩
  exact absurd (hlow.symm.trans hgo) Bool.false_ne_true

theorem sweep_run_core (h3 : 3 ≤ goHeld w (b+1)) (hsw : Range.Sweeps 256 8 (base w (b+1)) σ)
    (hlow : ∀ t, b < t → t ≤ b+sweepTime σ → (w t).go = false) :
    (∀ t, b < t → t ≤ b+sweepTime σ → (trace step powerUp w t).r.running = true) ∧
      (trace step powerUp w (b+1+sweepTime σ)).r.running = false ∧
      (trace step powerUp w (b+1+sweepTime σ)).r.mem =
        fun j => BitVec.ofNat 16 (σ j.val+1) := by
  let S := trace step powerUp w
  let f := fun u => (S (b+1+u)).start
  have hS : ∀ u ≤ sweepTime σ,
      (S (b+1+u)).r = trace Range.step (S (b+1)).r (Range.low f) u := by
    intro u
    induction u with
    | zero => exact fun _ => rfl
    | succ u ih =>
      intro hu
      have hs : (S (b+1+(u+1))).r = Range.step (S (b+1+u)).r ⟨(w (b+1+u)).go,f u⟩ := rfl
      rw [hs,hlow (b+1+u) (by omega) (by omega),ih (by omega)]
      rfl
  have hlast : (Range.lastNum 256 8).toNat = 255 := rfl
  obtain ⟨hfall,hmem⟩ := hsw _ _ f (armed_trace w h3)
  rw [hlast,← sweepTime_eq] at hfall hmem
  rw [← hS _ le_rfl] at hmem
  refine ⟨?_,?_,?_⟩
  · intro t hbt ht
    have hh := hfall.high (t-(b+1)) (by omega)
    rw [← hS _ (by omega)] at hh
    rwa [show b+1+(t-(b+1)) = t by omega] at hh
  · have hh := hfall.low
    rwa [← hS _ le_rfl] at hh
  · refine hmem.trans ?_
    funext j
    have hj := j.isLt
    rw [Range.recorded,if_pos (by omega),Nat.sub_zero]

theorem sweep_time_core (hw : LongPhases w)
    (hc : ∀ u ≤ b, ¬Range.Collides (trace step powerUp w u).r
      ⟨(w u).go,(trace step powerUp w u).start⟩)
    (h3 : 3 ≤ goHeld w (b+1)) (hsw : Range.Sweeps 256 8 (base w (b+1)) σ)
    (hlow : ∀ t, b < t → t ≤ b+1+sweepTime σ → (w t).go = false) :
    (∀ t, b < t → t ≤ b+1+sweepTime σ →
      (trace step powerUp w t).r.done = decide (t = b+1+sweepTime σ) ∧
      (trace step powerUp w t).ready = false ∧ (trace step powerUp w t).startIndex = 0) ∧
    (trace step powerUp w (b+2+sweepTime σ)).ready = true ∧
    (trace step powerUp w (b+2+sweepTime σ)).startIndex = 0 ∧
    (trace step powerUp w (b+2+sweepTime σ)).r.mem = fun j => BitVec.ofNat 16 (σ j.val+1) := by
  let S := trace step powerUp w
  obtain ⟨hrun,hidle,hmem⟩ :=
    sweep_run_core h3 hsw fun t hbt ht => hlow t hbt (by omega)
  have hcol : ∀ u ≤ b+1+sweepTime σ, ¬Range.Collides (S u).r ⟨(w u).go,(S u).start⟩ := by
    intro u hu
    by_cases hub : u ≤ b
    · exact hc u hub
    · exact not_collides_of_low (hlow u (by omega) hu)
  have hx : ∀ u ≤ b+1+sweepTime σ, Exclusive (S u) :=
    fun u hu => exclusive_trace fun x hxu => hcol x (by omega)
  have hlock : ∀ u ≤ b+1+sweepTime σ, Lockstep (goHeld w u) (S u) :=
    fun u hu => lockstep_trace hw fun x hxu => hx x (by omega)
  have hdone : (S (b+1+sweepTime σ)).r.done = true := by
    have hlast := hrun (b+sweepTime σ) (Nat.lt_add_of_pos_right (sweepTime_pos σ)) le_rfl
    have hd : (S (b+sweepTime σ)).r.done = true → (S (b+sweepTime σ)).r.running = false :=
      fun h => absurd ⟨h,hlast⟩ (hx _ (by omega))
    have hrise := (Range.done_rises_iff (inv_r w (b+sweepTime σ)) hd (hcol _ (by omega))).mpr
    have he : b+1+sweepTime σ = b+sweepTime σ+1 := by omega
    rw [he] at hidle ⊢
    exact hrise ⟨hlast,hidle⟩
  refine ⟨?_,?_⟩
  · intro t hbt ht
    have hbusy : (S t).r.running = true ∨ (S t).r.done = true := by
      rcases Nat.lt_or_eq_of_le ht with hlt | rfl
      · exact Or.inl (hrun t hbt (by omega))
      · exact Or.inr hdone
    refine ⟨?_,?_⟩
    · by_cases he : t = b+1+sweepTime σ
      · rw [decide_eq_true he,he]
        exact hdone
      · rw [decide_eq_false he]
        exact (hx t ht).done_low (hrun t hbt (by omega))
    · rcases Nat.eq_or_lt_of_le hbt with he | hlt
      · have h3' : 3 ≤ goHeld w t := by rw [← he]; exact h3
        exact (hlock t ht).later h3'
      · have h0 : goHeld w t = 0 := by
          obtain ⟨u,rfl⟩ : ∃ u, t = u+1 := ⟨t-1,by omega⟩
          exact goHeld_of_low w (hlow u (by omega) (by omega))
        exact (hlock t ht).waiting h0 hbusy
  · obtain ⟨hready,-,hidx,-,-,hkeep⟩ := (hlock _ le_rfl).completion (inv_r w _) (hx _ le_rfl) hdone
      (hlow _ (by omega) le_rfl)
    have he : b+2+sweepTime σ = b+1+sweepTime σ+1 := by omega
    rw [he]
    exact ⟨hready,hidx,hkeep.trans hmem⟩

end Sweep

structure Command where
  add : Bool
  sub : Bool
  reset : Bool
  deriving DecidableEq, Repr

/-- The cursor over the 256 words: it stops at both ends, and `add` goes before `sub` and `sub`
before `reset`. -/
def move (k : ℕ) (c : Command) : ℕ :=
  if c.add = true ∧ k < 255 then k+1
  else if c.sub = true ∧ 0 < k then k-1
  else if c.reset = true then 0
  else k

theorem move_le {k : ℕ} (hk : k ≤ 255) (c : Command) : move k c ≤ 255 := by
  unfold move
  split_ifs <;> omega

/-- The commands that the debounced buttons of a run give, with the pulses of a `button_press`
for `add` and one for `sub`. -/
def commands (w : ℕ → Input) (t : ℕ) : Command where
  add := (trace ButtonPress.step ButtonPress.powerUp (fun u => (w u).add) t).pulse
  sub := (trace ButtonPress.step ButtonPress.powerUp (fun u => (w u).sub) t).pulse
  reset := (w t).reset

def cursor (w : ℕ → Input) (t n : ℕ) : ℕ := trace move 0 (fun u => commands w (t+u)) n

theorem cursor_le (w : ℕ → Input) (t n : ℕ) : cursor w t n ≤ 255 :=
  trace_invariant (P := fun k => k ≤ 255) move (fun _ c hk => move_le hk c) (Nat.zero_le _) _ n

section Browse

theorem Lockstep.ready_idle {k : ℕ} {s : State} (h : Lockstep k s) (hk : k = 0 ∨ 3 ≤ k)
    (hr : s.ready = true) : s.r.running = false ∧ s.r.done = false := by
  have h0 : k = 0 := by
    rcases hk with h0 | h3
    · exact h0
    · exact absurd ((h.later h3).1.symm.trans hr) Bool.false_ne_true
  have hidle : ¬(s.r.running = true ∨ s.r.done = true) := by
    intro hbusy
    exact absurd ((h.waiting h0 hbusy).1.symm.trans hr) Bool.false_ne_true
  obtain ⟨hrun,hdone⟩ := not_or.mp hidle
  exact ⟨by simpa using hrun,by simpa using hdone⟩

theorem step_startIndex_ready {s : State} {i : Input} (hr : s.ready = true)
    (hd : s.r.done = false) (hgo : i.go = false) (hl : s.start = s.startIndex.setWidth 32) :
    (step s i).startIndex.toNat =
      move s.startIndex.toNat ⟨s.addCtrl.pulse,s.subCtrl.pulse,i.reset⟩ := by
  have hlt := s.startIndex.isLt
  have hn : s.start.toNat = s.startIndex.toNat := by
    rw [hl,BitVec.toNat_setWidth]
    omega
  have h255 : s.start < 255 ↔ s.startIndex.toNat < 255 := by
    rw [BitVec.lt_def,hn]
    rfl
  have h0 : s.start > 0 ↔ 0 < s.startIndex.toNat := by
    rw [gt_iff_lt,BitVec.lt_def,hn]
    rfl
  have hs : (step s i).startIndex =
      if s.addCtrl.pulse = true ∧ s.startIndex.toNat < 255 then s.startIndex+1
      else if s.subCtrl.pulse = true ∧ 0 < s.startIndex.toNat then s.startIndex-1
      else if i.reset = true then 0 else s.startIndex := by
    simp only [step,browse,hr,hd,hgo,Bool.and_eq_true,decide_eq_true_eq,h255,h0,if_true,
      Bool.false_eq_true,if_false,apply_ite State.startIndex]
  rw [hs,move]
  split_ifs with ha hsub hreset
  · bv_omega
  · bv_omega
  · rfl
  · rfl

variable {w : ℕ → Input} (hw : LongPhases w) {t₀ n : ℕ}
  (hc : ∀ u < t₀, ¬Range.Collides (trace step powerUp w u).r
    ⟨(w u).go,(trace step powerUp w u).start⟩)
  (hlow : ∀ t, t₀ ≤ t → t < t₀+n → (w t).go = false)

include hw hc hlow in
theorem lockstep_browsing : ∀ u ≤ t₀+n, Lockstep (goHeld w u) (trace step powerUp w u) := by
  intro u hu
  refine lockstep_trace hw fun x hxu => exclusive_trace fun y hyx => ?_
  by_cases hyt : y < t₀
  · exact hc y hyt
  · exact not_collides_of_low (hlow y (by omega) (by omega))

include hw hc hlow in
/-- A ready board stays ready and idle for as long as `go` is low, its RAM does not change, and
its index is the cursor. -/
theorem browsing_follows (hr : (trace step powerUp w t₀).ready = true)
    (hidx : (trace step powerUp w t₀).startIndex = 0) {m : ℕ} (hm : m ≤ n) :
    (trace step powerUp w (t₀+m)).ready = true ∧
      (trace step powerUp w (t₀+m)).startIndex.toNat = cursor w t₀ m ∧
      (trace step powerUp w (t₀+m)).r.mem = (trace step powerUp w t₀).r.mem := by
  induction m with
  | zero => exact ⟨hr,by rw [Nat.add_zero,hidx]; rfl,rfl⟩
  | succ m ih =>
    obtain ⟨hready,hk,hmem⟩ := ih (by omega)
    have hgo := hlow (t₀+m) (by omega) (by omega)
    have hlock := lockstep_browsing hw hc hlow (t₀+m) (by omega)
    obtain ⟨hrun,hdone⟩ := hlock.ready_idle (hw.goHeld_low hgo) hready
    rw [← Nat.add_assoc,trace_succ]
    refine ⟨?_,?_,?_⟩
    · rw [step_ready,hdone,hgo,hready]
      rfl
    · rw [step_startIndex_ready hready hdone hgo (hlock.level hready),hk,trace_addCtrl,
        trace_subCtrl]
      rfl
    · exact (idle_step (inv_r w _) hrun hgo).2.2.trans hmem

include hw hc hlow in
theorem browsing_count (hr : (trace step powerUp w t₀).ready = true)
    (hidx : (trace step powerUp w t₀).startIndex = 0) {m : ℕ} (hm : m < n) :
    (trace step powerUp w (t₀+m+1)).r.count =
      (trace step powerUp w t₀).r.mem
        ⟨cursor w t₀ m,Nat.lt_succ_of_le (cursor_le w t₀ m)⟩ := by
  obtain ⟨hready,hk,hmem⟩ := browsing_follows hw hc hlow hr hidx hm.le
  have hgo := hlow (t₀+m) (by omega) (by omega)
  have hlock := lockstep_browsing hw hc hlow (t₀+m) (by omega)
  have hidle := (hlock.ready_idle (hw.goHeld_low hgo) hready).1
  have hle := cursor_le w t₀ m
  rw [trace_succ,← hmem]
  refine step_count ((inv_r w _).idle_we hidle) _ ?_
  rw [hlock.level hready,BitVec.toNat_setWidth,BitVec.toNat_setWidth,hk]
  dsimp only
  omega

end Browse

namespace Board

/-- `go` is released after edge `b`, stays low through edge `e`, and did not meet the write of a
last word before. -/
structure Launch (p : ℕ → Pins) (b e : ℕ) : Prop where
  high : (debounced p b).go = true
  low : ∀ t, b < t → t ≤ e → (debounced p t).go = false
  clear : ∀ u ≤ b, ¬Range.Collides (after p u).core.r ⟨(debounced p u).go,(after p u).core.start⟩

variable {p : ℕ → Pins} {b e : ℕ}

theorem Launch.goHeld_ge (h : Launch p b e) (he : b < e) : 4 ≤ goHeld (debounced p) (b+1) := by
  have hlong := goHeld_debounced h.high (h.low (b+1) (Nat.lt_succ_self b) he)
  omega

theorem Launch.clear_core (h : Launch p b e) : ∀ u ≤ b,
    ¬Range.Collides (trace Lab1.step Lab1.powerUp (debounced p) u).r
      ⟨(debounced p u).go,(trace Lab1.step Lab1.powerUp (debounced p) u).start⟩ := by
  intro u hu
  rw [← after_core]
  exact h.clear u hu

theorem Launch.base_eq (h : Launch p b e) (he : b < e) :
    base (debounced p) (b+1) = (p (b-1)).sw.setWidth 32 :=
  base_eq_sw (longPhases_debounced p)
    (fun _ hu => exclusive_trace fun x hxu => h.clear_core x (by omega)) (h.goHeld_ge he)

theorem toNat_setWidth_sw (sw : BitVec 10) : (sw.setWidth 32).toNat = sw.toNat := by
  have hlt := sw.isLt
  rw [BitVec.toNat_setWidth]
  omega

theorem sweeps_of_orbits {sw : BitVec 10} {σ : ℕ → ℕ} (ho : Range.Orbits sw.toNat σ 255) :
    Range.Sweeps 256 8 (sw.setWidth 32) σ := by
  rw [← toNat_setWidth_sw] at ho
  exact ho.sweeps

theorem Launch.swept {σ : ℕ → ℕ} (h : Launch p b (b+1+sweepTime σ))
    (hsw : Range.Sweeps 256 8 ((p (b-1)).sw.setWidth 32) σ) :
    (∀ t, b < t → t ≤ b+1+sweepTime σ →
      (after p t).core.r.done = decide (t = b+1+sweepTime σ) ∧ (after p t).core.ready = false ∧
        (shown p t).left = some (p t).sw.toNat) ∧
    (after p (b+2+sweepTime σ)).core.ready = true ∧
    (shown p (b+2+sweepTime σ)).left = some (p (b+2+sweepTime σ)).sw.toNat ∧
    ∀ j : Fin 256, (after p (b+2+sweepTime σ)).core.r.mem j = BitVec.ofNat 16 (σ j.val+1) := by
  have hlt : b < b+1+sweepTime σ := by omega
  have hheld := h.goHeld_ge hlt
  rw [← h.base_eq hlt] at hsw
  obtain ⟨hbusy,hready,hidx,hmem⟩ :=
    sweep_time_core (longPhases_debounced p) h.clear_core (by omega) hsw h.low
  refine ⟨?_,?_,?_,?_⟩
  · intro t hbt ht
    obtain ⟨hdone,hunready,hzero⟩ := hbusy t hbt ht
    refine ⟨?_,?_,?_⟩
    · rw [after_core]
      exact hdone
    · rw [after_core]
      exact hunready
    · rw [shown,panel_left,after_core,hzero]
      rfl
  · rw [after_core]
    exact hready
  · rw [shown,panel_left,after_core,hidx]
    rfl
  · intro j
    rw [after_core,hmem]

theorem Launch.browsed {σ : ℕ → ℕ} {n : ℕ} (h : Launch p b (b+1+sweepTime σ+n))
    (hsw : Range.Sweeps 256 8 ((p (b-1)).sw.setWidth 32) σ) :
    let t₀ := b+2+sweepTime σ
    let k := cursor (debounced p) t₀
    (∀ m ≤ n, (after p (t₀+m)).core.ready = true ∧
      (shown p (t₀+m)).left = some ((p (t₀+m)).sw.toNat+k m)) ∧
    ∀ m < n, (shown p (t₀+m+1)).right = some ((σ (k m)+1) % 2^12) := by
  intro t₀ k
  have hlt : b < b+1+sweepTime σ+n := by omega
  have hw := longPhases_debounced p
  have hheld := h.goHeld_ge hlt
  rw [← h.base_eq hlt] at hsw
  obtain ⟨-,hready,hidx,hmem⟩ :=
    sweep_time_core hw h.clear_core (by omega) hsw fun t hbt ht => h.low t hbt (by omega)
  have hc : ∀ u < t₀, ¬Range.Collides (trace Lab1.step Lab1.powerUp (debounced p) u).r
      ⟨(debounced p u).go,(trace Lab1.step Lab1.powerUp (debounced p) u).start⟩ := by
    intro u hu
    by_cases hub : u ≤ b
    · exact h.clear_core u hub
    · exact not_collides_of_low (h.low u (by omega) (by omega))
  have hlow : ∀ t, t₀ ≤ t → t < t₀+n → (debounced p t).go = false :=
    fun t ht htn => h.low t (by omega) (by omega)
  refine ⟨?_,?_⟩
  · intro m hm
    obtain ⟨hstay,hk,-⟩ := browsing_follows hw hc hlow hready hidx hm
    refine ⟨?_,?_⟩
    · rw [after_core]
      exact hstay
    · rw [shown,panel_left,after_core,hk]
  · intro m hm
    rw [shown,panel_right,after_core,count,browsing_count hw hc hlow hready hidx hm,hmem,
      BitVec.toNat_setWidth,BitVec.toNat_ofNat]
    congr 1
    exact Nat.mod_mod_of_dvd _ (by decide)

/-- A press of the `go` key leads to a finished sweep in a number of edges that only the orbits of
the 256 numbers from the switches on decide. Until then the board is not ready and shows the
switches; one edge later it is ready at word `0`, with every count in its RAM. -/
theorem sweep_takes_sweepTime {σ : ℕ → ℕ} (h : Launch p b (b+1+sweepTime σ))
    (ho : Range.Orbits (p (b-1)).sw.toNat σ 255) :
    (∀ t, b < t → t ≤ b+1+sweepTime σ →
      (after p t).core.r.done = decide (t = b+1+sweepTime σ) ∧ (after p t).core.ready = false ∧
        (shown p t).left = some (p t).sw.toNat) ∧
    (after p (b+2+sweepTime σ)).core.ready = true ∧
    (shown p (b+2+sweepTime σ)).left = some (p (b+2+sweepTime σ)).sw.toNat ∧
    ∀ j : Fin 256, (after p (b+2+sweepTime σ)).core.r.mem j = BitVec.ofNat 16 (σ j.val+1) :=
  h.swept (sweeps_of_orbits ho)

section Press

structure Fresh (s : State) : Prop where
  we : s.r.we = false
  cdone : s.r.c1.done = false
  load : s.r.running = true → s.r.cgo = true
  idle : s.r.running = false → s.r.cgo = false ∧ s.r.c1.dout = 0

theorem fresh_powerUp : Fresh Lab1.powerUp := by
  constructor <;> simp [Lab1.powerUp,Range.powerUp]

theorem Fresh.step {s : State} (h : Fresh s) (i : Input)
    (hgo : i.go = true ∨ s.r.running = false) : Fresh (Lab1.step s i) := by
  have hcdone : (Lab1.step s i).r.c1.done = false := by
    rw [step_r,Range.step_c1]
    cases hr : s.r.running with
    | true =>
      rw [h.load hr]
      rfl
    | false =>
      rw [(h.idle hr).1,Collatz.step_done,h.cdone,(h.idle hr).2]
      rfl
  refine ⟨by simp [h.cdone],hcdone,?_,?_⟩
  · intro hrun
    rcases hgo with hgo | hr
    · simp [hgo]
    · have hgo' : i.go = true := by simpa [hr] using hrun
      simp [hgo']
  · intro hrun
    have hlow : i.go = false := by
      by_contra hgo'
      simp [hgo'] at hrun
    have hr : s.r.running = false := hgo.resolve_left (by simp [hlow])
    obtain ⟨hcgo,hdout⟩ := h.idle hr
    refine ⟨by simp [hlow,hr],?_⟩
    rw [step_r,Range.step_c1,hcgo]
    simp [Collatz.step,h.cdone,hdout]

theorem fresh_trace {w : ℕ → Input} {t : ℕ}
    (hmono : ∀ u v, u ≤ v → v < t → (w u).go = true → (w v).go = true) :
    Fresh (trace Lab1.step Lab1.powerUp w t) ∧
      ((trace Lab1.step Lab1.powerUp w t).r.running = true → ∃ u < t, (w u).go = true) := by
  induction t with
  | zero => exact ⟨fresh_powerUp,fun h => absurd h Bool.false_ne_true⟩
  | succ t ih =>
    obtain ⟨hfresh,hrun⟩ := ih fun u v huv hv => hmono u v huv (by omega)
    have hgo : (w t).go = true ∨ (trace Lab1.step Lab1.powerUp w t).r.running = false := by
      cases hr : (trace Lab1.step Lab1.powerUp w t).r.running with
      | false => exact Or.inr rfl
      | true =>
        obtain ⟨u,hu,hgo⟩ := hrun hr
        exact Or.inl (hmono u t hu.le (Nat.lt_succ_self t) hgo)
    refine ⟨hfresh.step (w t) hgo,?_⟩
    intro hr
    rcases hgo with hgo | hidle
    · exact ⟨t,Nat.lt_succ_self t,hgo⟩
    · rw [trace_succ,step_r,Range.step_running,hidle,Bool.false_and,Bool.or_false] at hr
      exact ⟨t,Nat.lt_succ_self t,hr⟩

def pressGo (t : ℕ) : Pins := ⟨fun k => !decide (k = goKey ∧ t < 2^14+2),2⟩

theorem pressGo_go (t : ℕ) :
    (debounced pressGo t).go = decide (2^14+2 ≤ t ∧ t < 2^14+2+(2^14+2)) := by
  have hw : ∀ u, (!(pressGo u).key 3) = decide (0 ≤ u ∧ u < 0+(2^14+2)) := by
    intro u
    simp [pressGo,goKey]
  have hout := Debouncer.output_press (a := 0) (L := 2^14+2) le_rfl hw t
  rw [Nat.zero_add] at hout
  exact hout

theorem launch_pressGo (e : ℕ) : Launch pressGo (2^14+2+(2^14+1)) e where
  high := by
    rw [pressGo_go]
    exact decide_eq_true (by omega)
  low := by
    intro t ht _
    rw [pressGo_go]
    exact decide_eq_false (by omega)
  clear := by
    intro u hu
    rintro ⟨-,hwe,-⟩
    have hfresh := (fresh_trace (w := debounced pressGo) (t := u) ?_).1
    · rw [← after_core] at hfresh
      exact absurd (hfresh.we.symm.trans hwe) Bool.false_ne_true
    · intro x y hxy hy hgo
      rw [pressGo_go,decide_eq_true_eq] at hgo ⊢
      omega

theorem sweep_takes_sweepTime_from_two :
    ∃ σ, Range.Orbits 2 σ 255 ∧
      (after pressGo (2^14+2+(2^14+1)+2+sweepTime σ)).core.ready = true := by
  obtain ⟨σ,-,ho⟩ := orbits_from_two
  exact ⟨σ,ho,(sweep_takes_sweepTime (launch_pressGo _) ho).2.1⟩

end Press

end Board
end Lab1
end EmbeddedSystems
