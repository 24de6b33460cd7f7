import EmbeddedSystems.RangeSweep

/-! The invariant of all reachable states, when `done` is a one-cycle completion pulse, and
when the result of a sweep is free of everything that happened before it. -/

namespace EmbeddedSystems
namespace Range

open Clocked CollatzOrbit

variable {W B : ℕ}

/-- What every reachable state satisfies: an idle machine has no write and no load
pending, `num` never runs past the last word, and nothing above that word is written. -/
structure Inv (s : State W B) : Prop where
  idle_we : s.running = false → s.we = false
  idle_cgo : s.running = false → s.cgo = false
  num_le : s.running = true → s.num.toNat ≤ (lastNum W B).toNat
  mem_above : ∀ j : Fin W, (lastNum W B).toNat < j.val → s.mem j = 0

theorem inv_powerUp : Inv (powerUp : State W B) := by
  constructor <;> simp [powerUp]

theorem Inv.we_running {s : State W B} (h : Inv s) (hwe : s.we = true) : s.running = true := by
  by_contra hr
  have hh := h.idle_we (by simpa using hr)
  rw [hwe] at hh
  exact absurd hh (by decide)

theorem Inv.step {s : State W B} (h : Inv s) (i : Input) : Inv (Range.step s i) := by
  have hrun : (Range.step s i).running = false →
      i.go = false ∧ (s.running = true → s.we = true ∧ s.num = lastNum W B) := by
    rw [step_running]
    cases i.go <;> cases s.running <;> cases s.we <;> simp
  constructor
  · intro hr
    obtain ⟨-,hlast⟩ := hrun hr
    rw [step_we]
    cases hrs : s.running
    · simp
    · simp [(hlast hrs).1]
  · intro hr
    obtain ⟨hgo,hlast⟩ := hrun hr
    rw [step_cgo,hgo]
    cases hrs : s.running
    · simp
    · simp [(hlast hrs).1]
  · intro hr
    rw [step_num]
    split_ifs with hgo hwe
    · simp
    · have hle := h.num_le (h.we_running hwe)
      have hne : s.num ≠ lastNum W B := by
        intro he
        rw [step_running] at hr
        simp [hgo,hwe,he] at hr
      have hlt : s.num.toNat ≠ (lastNum W B).toNat := fun he => hne (BitVec.eq_of_toNat_eq he)
      have hb := (lastNum W B).isLt
      rw [BitVec.toNat_add]
      have hone : (1 : BitVec B).toNat ≤ 1 := by
        simpa using Nat.mod_le 1 (2^B)
      calc (s.num.toNat+(1 : BitVec B).toNat) % 2^B ≤ s.num.toNat+(1 : BitVec B).toNat :=
            Nat.mod_le _ _
        _ ≤ (lastNum W B).toNat := by omega
    · rw [step_running] at hr
      exact h.num_le (by cases hrs : s.running <;> simp_all)
  · intro j hj
    rw [step_mem]
    have hne : ¬(s.we = true ∧ j.val = s.num.toNat) := by
      rintro ⟨hwe,he⟩
      have hle := h.num_le (h.we_running hwe)
      omega
    simp only [if_neg hne]
    exact h.mem_above j hj

theorem inv_trace (w : ℕ → Input) (t : ℕ) : Inv (trace step (powerUp : State W B) w t) :=
  trace_invariant step (fun _ i h => h.step i) inv_powerUp w t

/-- `go` arrives on the very edge that writes the last word of a sweep. -/
def Collides (s : State W B) (i : Input) : Prop :=
  i.go = true ∧ s.we = true ∧ s.num = lastNum W B

instance collidesDecidable (s : State W B) (i : Input) : Decidable (Collides s i) :=
  inferInstanceAs (Decidable (_ ∧ _ ∧ _))

theorem Collides.done_running {s : State W B} {i : Input} (h : Collides s i) :
    (step s i).done = true ∧ (step s i).running = true := by
  obtain ⟨hgo,hwe,hnum⟩ := h
  simp [hgo,hwe,hnum]

theorem done_idle_step {s : State W B} {i : Input} (hd : s.done = true → s.running = false)
    (hc : ¬Collides s i) : (step s i).done = true → (step s i).running = false := by
  intro hdone
  rw [step_done] at hdone
  rw [step_running]
  unfold Collides at hc
  cases hgo : i.go <;> cases hwe : s.we <;> cases hrun : s.running <;> simp_all

theorem done_rises_iff {s : State W B} {i : Input} (h : Inv s)
    (hd : s.done = true → s.running = false) (hc : ¬Collides s i) :
    (step s i).done = true ↔ s.running = true ∧ (step s i).running = false := by
  rw [step_done,step_running]
  unfold Collides at hc
  have hrun := h.we_running
  cases hgo : i.go <;> cases hwe : s.we <;> cases hr : s.running <;> simp_all

theorem done_falls {s : State W B} {i : Input} (h : Inv s)
    (hd : s.done = true → s.running = false) (hdone : s.done = true) : (step s i).done = false := by
  have hr := hd hdone
  simp [hr,h.idle_we hr]

/-- In every run, `done` is a one-cycle pulse that is raised by exactly the edges that end
a sweep, and never while the machine works, if and only if `go` never collides with the
write of a last word. -/
theorem done_pulse_iff (w : ℕ → Input) (T : ℕ) :
    let S := trace step (powerUp : State W B) w
    ((∀ t ≤ T, (S t).done = true → (S t).running = false) ∧
      ∀ t < T, ((S (t+1)).done = true ↔ (S t).running = true ∧ (S (t+1)).running = false) ∧
        ((S t).done = true → (S (t+1)).done = false)) ↔
      ∀ t < T, ¬Collides (S t) (w t) := by
  intro S
  constructor
  · rintro ⟨hidle,-⟩ t ht hc
    have hh := hidle (t+1) ht hc.done_running.1
    rw [show (S (t+1)).running = true from hc.done_running.2] at hh
    exact absurd hh (by decide)
  · intro hc
    have hidle : ∀ t ≤ T, (S t).done = true → (S t).running = false := by
      intro t
      induction t with
      | zero => simp [S,powerUp]
      | succ t ih => exact fun ht => done_idle_step (ih (by omega)) (hc t ht)
    refine ⟨hidle,?_⟩
    intro t ht
    exact ⟨done_rises_iff (inv_trace w t) (hidle t ht.le) (hc t ht),
      done_falls (inv_trace w t) (hidle t ht.le)⟩

/-- A sweep of two words from `2`, with a second `go` on its last write. -/
theorem done_while_running :
    let s := trace step (powerUp : State 2 1) (fun t => ⟨t == 0 || t == 13,2⟩) 14
    ¬(s.done = true → s.running = false) := by
  decide

/-- The iterator still shows, or is about to show, the end of an earlier orbit. -/
def Stale (s : State W B) : Prop := s.c1.done = true ∨ s.c1.dout = 2#32

instance staleDecidable (s : State W B) : Decidable (Stale s) :=
  inferInstanceAs (Decidable (_ ∨ _))

/-- The RAM contents when `running` next falls after a pulse of `k` edges. -/
def SweepMem (s : State W B) (k : ℕ) (v : BitVec 32) (f : ℕ → BitVec 32)
    (M : Fin W → BitVec 16) : Prop :=
  ∃ T, FirstFall step State.running (pulsed s k v) (low f) T ∧
    (trace step (pulsed s k v) (low f) T).mem = M

theorem SweepMem.unique {s : State W B} {k : ℕ} {v : BitVec 32} {f : ℕ → BitVec 32}
    {M M' : Fin W → BitVec 16} (h : SweepMem s k v f M) (h' : SweepMem s k v f M') : M = M' := by
  obtain ⟨T,hT,rfl⟩ := h
  obtain ⟨T',hT',rfl⟩ := h'
  rw [hT.unique hT']

/-- The pulse leaves the same RAM contents from `s` as from power-up, whatever `start`
does after the pulse in either run. -/
def HistoryFree (s : State W B) (k : ℕ) (v : BitVec 32) : Prop :=
  ∀ f g, ∃ M, SweepMem s k v f M ∧ SweepMem (powerUp : State W B) k v g M

def sweptMem (W B : ℕ) (c : BitVec 16) (τ : ℕ → ℕ) : Fin W → BitVec 16 := fun j =>
  if j.val = 0 then c else if j.val ≤ (lastNum W B).toNat then BitVec.ofNat 16 (τ j.val+1) else 0

theorem armed_sweepMem {s : State W B} {k : ℕ} {v : BitVec 32} {M : Fin W → BitVec 16}
    {σ : ℕ → ℕ} (h : Armed v M (pulsed s k v))
    (hM : ∀ j : Fin W, (lastNum W B).toNat < j.val → M j = 0)
    (ho : Orbits v.toNat σ (lastNum W B).toNat) (f : ℕ → BitVec 32) :
    SweepMem s k v f (sweptMem W B (BitVec.ofNat 16 (σ 0+1)) σ) := by
  obtain ⟨hfall,hmem⟩ := h.sweep ho f
  refine ⟨_,hfall,hmem.trans ?_⟩
  funext j
  by_cases hj : j.val ≤ (lastNum W B).toNat
  · by_cases h0 : j.val = 0 <;> simp [recorded,sweptMem,hj,h0]
  · have h0 : j.val ≠ 0 := by omega
    simp [recorded,sweptMem,hj,h0,hM j (by omega)]

theorem Written.sweep {m : ℕ} {τ : ℕ → ℕ} {M : Fin W → BitVec 16} {s : State W B}
    (h : Written m 0 M s) (hM : ∀ j : Fin W, (lastNum W B).toNat < j.val → M j = 0)
    (ho : ∀ j, 1 ≤ j → j ≤ (lastNum W B).toNat → 2 ≤ m+j ∧ ReachesOne 32 (m+j) (τ j))
    (c : BitVec 16) (hc : ∀ j : Fin W, j.val = 0 → M j = c) (f : ℕ → BitVec 32) :
    ∃ T, FirstFall step State.running s (low f) T ∧
      (trace step s (low f) T).mem = sweptMem W B c τ := by
  rcases Nat.eq_zero_or_pos (lastNum W B).toNat with hlast | hpos
  · refine ⟨0,⟨fun t ht => absurd ht (Nat.not_lt_zero t),by simp [h.running,hlast]⟩,?_⟩
    rw [trace_zero,h.mem]
    funext j
    by_cases h0 : j.val = 0
    · simp [sweptMem,h0,hc j h0]
    · simp [sweptMem,h0,hlast,hM j (by omega)]
  · have h1 := ho 1 le_rfl hpos
    have hcount := h.counting (σ := τ 1) hpos h1.2.start_lt (h1.2.steps_pos h1.1)
    have ho' : Orbits (m+1) (fun j => τ (j+1)) ((lastNum W B).toNat-1) := by
      intro j hj
      have hh := ho (j+1) (by omega) (by omega)
      rwa [show m+(j+1) = m+1+j by omega] at hh
    obtain ⟨hfall,hmem⟩ := sweep_run hcount (by omega) ho' f
    refine ⟨_,hfall,hmem.trans ?_⟩
    funext j
    by_cases h0 : j.val = 0
    · simp [recorded,sweptMem,h0,hc j h0]
    · by_cases hj : j.val ≤ (lastNum W B).toNat
      · have h1 : 1 ≤ j.val := by omega
        have h2 : j.val ≤ 1+((lastNum W B).toNat-1) := by omega
        simp [recorded,sweptMem,h0,hj,h1,h2]
      · have h2 : ¬j.val ≤ 1+((lastNum W B).toNat-1) := by omega
        simp [recorded,sweptMem,h0,hj,h2,hM j (by omega)]

section Pulse

variable {s : State W B} (h : Inv s) (hr : s.running = false) (v : BitVec 32)

theorem zero_eq_lastNum : 0#B = lastNum W B ↔ 0 = (lastNum W B).toNat := by
  rw [BitVec.toNat_eq]
  simp

include h hr

theorem idle_cdone : (Collatz.step s.c1 s.cgo s.n).done = true ↔ Stale s := by
  rw [h.idle_cgo hr,Collatz.step_done]
  simp [Stale]

theorem pulsed_armed_of_not_stale (hs : ¬Stale s) {k : ℕ} (hk : 1 ≤ k) :
    Armed v s.mem (pulsed s k v) := by
  have hmem : (step s ⟨true,v⟩).mem = s.mem := by
    rw [step_mem,h.idle_we hr]
    simp
  have hc : (step s ⟨true,v⟩).c1.done = false := by
    rw [step_c1,Bool.eq_false_iff]
    exact fun hd => hs ((idle_cdone h hr).mp hd)
  have ha := armed_of_go s v (by simp [hr]) hc
  rw [hmem] at ha
  obtain ⟨d,rfl⟩ := Nat.exists_eq_add_of_le hk
  rw [pulsed_add]
  exact ha.pulsed d

theorem stale_one_written (hs : Stale s) (u u' : BitVec 32) :
    Written v.toNat 0 (record s.mem 0 0)
      (step (step (pulsed s 1 v) ⟨false,u⟩) ⟨false,u'⟩) := by
  have hc := (idle_cdone h hr).mpr hs
  have hp : pulsed s 1 v = step s ⟨true,v⟩ := rfl
  have hwe := h.idle_we hr
  rw [hp]
  constructor
  · simp [hr,hc,zero_eq_lastNum]
  · simp [hr,hc]
  · simp [hr,hc]
  · simp [hr,hc,BitVec.toNat_add]
  · simp [hr,hc]
  · simp [hr,hc]
  · simp [hr,hc]
  · funext j
    simp [hr,hc,hwe,record]

/-- Two edges are too short as well: the early write to word `0` shifts the whole sweep. -/
theorem stale_two_written (hs : Stale s) (hv : 1 ≤ v.toNat) (u : BitVec 32) :
    Written (v.toNat-1) 0 (record s.mem 0 0) (step (pulsed s 2 v) ⟨false,u⟩) := by
  have hc := (idle_cdone h hr).mpr hs
  have hp : pulsed s 2 v = step (step s ⟨true,v⟩) ⟨true,v⟩ := rfl
  have hwe := h.idle_we hr
  rw [hp]
  constructor
  · simp [hr,hc,zero_eq_lastNum]
  · simp [hr,hc]
  · simp [hr,hc]
  · have hlt := v.isLt
    simp [hr,hc]
    omega
  · simp [hr,hc]
  · simp [hr,hc]
  · simp [hr,hc]
  · funext j
    simp [hr,hc,hwe,record]

theorem stale_one_sweepMem (hs : Stale s) {σ : ℕ → ℕ} (ho : Orbits v.toNat σ (lastNum W B).toNat)
    (f : ℕ → BitVec 32) : SweepMem s 1 v f (sweptMem W B 1 σ) := by
  have hw := stale_one_written h hr v hs (f 0) (f 1)
  have hM : ∀ j : Fin W, (lastNum W B).toNat < j.val → record s.mem 0 0 j = 0 := by
    intro j hj
    rw [record,if_neg (by omega)]
    exact h.mem_above j hj
  obtain ⟨T,hfall,hmem⟩ := hw.sweep hM (fun j _ hj => ho j hj) 1
    (fun j hj => by simp [record,hj]) (fun t => f (2+t))
  refine ⟨2+T,hfall.delay ?_,?_⟩
  · intro t ht
    obtain rfl | rfl : t = 0 ∨ t = 1 := by omega
    · simp [pulsed_succ]
    · simp [trace_succ,low,hr,pulsed]
  · rw [trace_add]
    exact hmem

theorem stale_two_sweepMem (hs : Stale s) {σ : ℕ → ℕ} (ho : Orbits v.toNat σ (lastNum W B).toNat)
    (f : ℕ → BitVec 32) : SweepMem s 2 v f (sweptMem W B 1 fun j => σ (j-1)) := by
  have hv := (ho 0 (Nat.zero_le _)).1
  have hw := stale_two_written h hr v hs (by omega) (f 0)
  have hM : ∀ j : Fin W, (lastNum W B).toNat < j.val → record s.mem 0 0 j = 0 := by
    intro j hj
    rw [record,if_neg (by omega)]
    exact h.mem_above j hj
  have ho' : ∀ j, 1 ≤ j → j ≤ (lastNum W B).toNat →
      2 ≤ v.toNat-1+j ∧ ReachesOne 32 (v.toNat-1+j) (σ (j-1)) := by
    intro j h1 hj
    have hh := ho (j-1) (by omega)
    rwa [show v.toNat+(j-1) = v.toNat-1+j by omega] at hh
  obtain ⟨T,hfall,hmem⟩ := hw.sweep hM ho' 1
    (fun j hj => by simp [record,hj]) (fun t => f (1+t))
  refine ⟨1+T,hfall.delay ?_,?_⟩
  · intro t ht
    obtain rfl : t = 0 := by omega
    simp [pulsed_succ s 1]
  · rw [trace_add]
    exact hmem

end Pulse

theorem ofNat_succ_eq_iff (a b : ℕ) :
    BitVec.ofNat 16 (a+1) = BitVec.ofNat 16 (b+1) ↔ a % 2^16 = b % 2^16 := by
  rw [BitVec.toNat_eq,BitVec.toNat_ofNat,BitVec.toNat_ofNat]
  omega

theorem sweptMem_one_eq_iff (hW : 0 < W) (σ : ℕ → ℕ) :
    sweptMem W B 1 σ = sweptMem W B (BitVec.ofNat 16 (σ 0+1)) σ ↔ σ 0 % 2^16 = 0 := by
  have h1 : BitVec.ofNat 16 (σ 0+1) = 1 ↔ σ 0 % 2^16 = 0 := ofNat_succ_eq_iff (σ 0) 0
  rw [← h1]
  constructor
  · intro h
    simpa [sweptMem] using (congrFun h ⟨0,hW⟩).symm
  · intro h
    rw [h]

theorem sweptMem_shift_eq_iff (hW : 0 < W) (σ : ℕ → ℕ) :
    (sweptMem W B 1 fun j => σ (j-1)) = sweptMem W B (BitVec.ofNat 16 (σ 0+1)) σ ↔
      ∀ i ≤ (lastNum W B).toNat, σ i % 2^16 = 0 := by
  have hlast : (lastNum W B).toNat < W := by
    have hle := Nat.mod_le (W-1) (2^B)
    rw [lastNum,BitVec.toNat_ofNat]
    omega
  have h1 : BitVec.ofNat 16 (σ 0+1) = 1 ↔ σ 0 % 2^16 = 0 := ofNat_succ_eq_iff (σ 0) 0
  constructor
  · intro h i
    induction i with
    | zero =>
      intro _
      rw [← h1]
      simpa [sweptMem] using (congrFun h ⟨0,hW⟩).symm
    | succ i ih =>
      intro hi
      have hh := congrFun h ⟨i+1,by omega⟩
      simp only [sweptMem,Nat.succ_ne_zero,if_false,hi,if_true,Nat.add_sub_cancel] at hh
      rw [← (ofNat_succ_eq_iff _ _).mp hh]
      exact ih (by omega)
  · intro h
    funext j
    by_cases h0 : j.val = 0
    · simp [sweptMem,h0,h1.mpr (h 0 (Nat.zero_le _))]
    · by_cases hj : j.val ≤ (lastNum W B).toNat
      · simp only [sweptMem,h0,if_false,hj,if_true,ofNat_succ_eq_iff]
        rw [h j.val hj,h (j.val-1) (by omega)]
      · simp [sweptMem,h0,hj]

theorem historyFree_iff_eq {s : State W B} {k : ℕ} {v : BitVec 32} {N F : Fin W → BitVec 16}
    (hN : ∀ f, SweepMem s k v f N) (hF : ∀ g, SweepMem (powerUp : State W B) k v g F) :
    HistoryFree s k v ↔ N = F := by
  constructor
  · intro h
    obtain ⟨M,hM,hM'⟩ := h (fun _ => 0) (fun _ => 0)
    rw [(hN _).unique hM,(hF _).unique hM']
  · rintro rfl f g
    exact ⟨N,hN f,hF g⟩

/-- When an earlier sweep cannot be seen in the result of the next one: the pulse lasts
three edges, or the iterator is not stale, or the wrong counts agree by accident because
the orbit lengths are one more than a multiple of `2^16`. -/
theorem historyFree_iff (hW : 2 ≤ W) (w : ℕ → Input) (t₀ : ℕ) (k : ℕ) (hk : 1 ≤ k)
    (v : BitVec 32) (σ : ℕ → ℕ)
    (ho : ∀ i < W, 2 ≤ v.toNat+i ∧ ReachesOne 32 (v.toNat+i) (σ i))
    (hr : (trace step (powerUp : State W B) w t₀).running = false) :
    HistoryFree (trace step (powerUp : State W B) w t₀) k v ↔
      3 ≤ k ∨ ¬Stale (trace step (powerUp : State W B) w t₀) ∨
        (k = 1 ∧ σ 0 % 2^16 = 0) ∨
        (k = 2 ∧ ∀ i ≤ (lastNum W B).toNat, σ i % 2^16 = 0) := by
  have h := inv_trace (W := W) (B := B) w t₀
  generalize trace step (powerUp : State W B) w t₀ = s at h hr ⊢
  have hle : (lastNum W B).toNat ≤ W-1 := by
    rw [lastNum,BitVec.toNat_ofNat]
    exact Nat.mod_le _ _
  have ho' : Orbits v.toNat σ (lastNum W B).toNat := fun i hi => ho i (by omega)
  have hfresh : ¬Stale (powerUp : State W B) := by simp [Stale,powerUp]
  have hF := armed_sweepMem (pulsed_armed_of_not_stale inv_powerUp rfl v hfresh hk)
    (inv_powerUp (W := W) (B := B)).mem_above ho'
  by_cases hs : Stale s
  · obtain rfl | rfl | h3 : k = 1 ∨ k = 2 ∨ 3 ≤ k := by omega
    · rw [historyFree_iff_eq (stale_one_sweepMem h hr v hs ho') hF,
        sweptMem_one_eq_iff (by omega)]
      simp [hs]
    · rw [historyFree_iff_eq (stale_two_sweepMem h hr v hs ho') hF,
        sweptMem_shift_eq_iff (by omega)]
      simp [hs]
    · obtain ⟨M,hM⟩ := pulsed_armed s v h3
      have hinv : Inv (pulsed s k v) := trace_invariant step (fun _ i hi => hi.step i) h _ k
      have habove := hinv.mem_above
      rw [hM.mem] at habove
      rw [historyFree_iff_eq (armed_sweepMem hM habove ho') hF]
      simp [h3]
  · rw [historyFree_iff_eq
      (armed_sweepMem (pulsed_armed_of_not_stale h hr v hs hk) h.mem_above ho') hF]
    simp [hs]

theorem historyFree_three_edges :
    HistoryFree (trace step (powerUp : State 2 1) (fun t => ⟨t == 0,2⟩) 20) 3 2 := by
  have ho : ∀ i < 2, 2 ≤ (2 : BitVec 32).toNat+i ∧
      ReachesOne 32 ((2 : BitVec 32).toNat+i) (if i = 0 then 1 else 7) := by decide
  exact (historyFree_iff le_rfl (fun t => ⟨t == 0,2⟩) 20 3 (by decide) 2
    (fun i => if i = 0 then 1 else 7) ho (by decide)).mpr (Or.inl le_rfl)

/-- The two-edge pulse of the test bench, applied a second time after its sweep ended. -/
theorem second_sweep_shifted :
    let s := trace step (powerUp : State 2 1) (fun t => ⟨t == 0,2⟩) 20
    s.running = false ∧
      (∀ i < 2, 2 ≤ (2 : BitVec 32).toNat+i ∧
        ReachesOne 32 ((2 : BitVec 32).toNat+i) (if i = 0 then 1 else 7)) ∧
      ¬HistoryFree s 2 2 := by
  intro s
  refine ⟨by decide,by decide,?_⟩
  intro h
  obtain ⟨M,⟨T,hT,hM⟩,T',hT',hM'⟩ := h (fun _ => 0) (fun _ => 0)
  have h4 : FirstFall step State.running (pulsed s 2 2) (low fun _ => 0) 4 :=
    ⟨by decide,by decide⟩
  have h13 : FirstFall step State.running (pulsed (powerUp : State 2 1) 2 2) (low fun _ => 0) 13 :=
    ⟨by decide,by decide⟩
  rw [hT.unique h4] at hM
  rw [hT'.unique h13,← hM] at hM'
  exact absurd (congrFun hM' 0) (by decide)

end Range
end EmbeddedSystems
