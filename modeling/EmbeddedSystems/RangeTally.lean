import EmbeddedSystems.RangeHistory

/-! `RangeSweep` follows a sweep all of whose orbits end. Here nothing is assumed of the orbits: at
every edge of a sweep from `b`, each word already written holds the length of its own orbit if
that orbit can be followed, whatever the other words of the sweep do. -/

namespace EmbeddedSystems
namespace Range

open CollatzOrbit

variable {W B : ℕ}

/-- `c` is the number of elements of the orbit of `m`, if that orbit can be followed. -/
def CountsTo (m : ℕ) (c : BitVec 16) : Prop :=
  ∀ σ, 2 ≤ m → ReachesOne 32 m σ → c = BitVec.ofNat 16 (σ+1)

structure Loading (m : ℕ) (s : State W B) : Prop where
  we : s.we = false
  cgo : s.cgo = true
  n : s.n = BitVec.ofNat 32 m
  din : s.din = 1
  cdone : s.c1.done = false

structure Tallying (m j : ℕ) (s : State W B) : Prop where
  we : s.we = false
  cgo : s.cgo = false
  n : s.n = BitVec.ofNat 32 m
  din : s.din = BitVec.ofNat 16 (j+1)
  c1 : ∀ σ, 2 ≤ m → ReachesOne 32 m σ → j ≤ σ ∧ Collatz.Follows m σ j s.c1

structure Storing (m : ℕ) (s : State W B) : Prop where
  we : s.we = true
  cgo : s.cgo = true
  n : s.n = BitVec.ofNat 32 (m+1)
  din : CountsTo m s.din

/-- A sweep from `b` is running and has recorded the words below `num`. -/
structure Sweeping (b : ℕ) (s : State W B) : Prop where
  running : s.running = true
  recorded : ∀ k : Fin W, k.val < s.num.toNat → CountsTo (b+k.val) (s.mem k)
  stage : Loading (b+s.num.toNat) s ∨ (∃ j, Tallying (b+s.num.toNat) j s) ∨
    Storing (b+s.num.toNat) s

structure Finished (b : ℕ) (s : State W B) : Prop where
  running : s.running = false
  recorded : ∀ k : Fin W, CountsTo (b+k.val) (s.mem k)

theorem Armed.sweeping {v : BitVec 32} {M : Fin W → BitVec 16} {s : State W B}
    (h : Armed v M s) : Sweeping v.toNat s where
  running := h.running
  recorded := by
    intro k hk
    rw [h.num] at hk
    exact absurd hk (by simp)
  stage := Or.inl ⟨h.we,h.cgo,by simp [h.n,h.num],h.din,h.cdone⟩

theorem tallying_load {m : ℕ} {s : State W B} (hwe : s.we = false) (hcgo : s.cgo = false)
    (hn : s.n = BitVec.ofNat 32 m) (hdin : s.din = 1) (hc : s.c1 = ⟨s.n,false⟩) :
    Tallying m 0 s where
  we := hwe
  cgo := hcgo
  n := hn
  din := hdin
  c1 := by
    intro σ hm hσ
    have hlt := hσ.start_lt
    have hload := Collatz.follows_load s.n (hσ.steps_pos hm)
    have hm' : s.n.toNat = m := by
      rw [hn,BitVec.toNat_ofNat,Nat.mod_eq_of_lt hlt]
    rw [hm',← hc] at hload
    exact ⟨Nat.zero_le σ,hload⟩

section Edge

variable {m j : ℕ} {s : State W B} (u : BitVec 32)

theorem Loading.edge (h : Loading m s) : Tallying m 0 (step s ⟨false,u⟩) := by
  have hn : (step s ⟨false,u⟩).n = s.n := by simp [h.we,h.cdone]
  refine tallying_load ?_ ?_ (hn.trans h.n) ?_ ?_
  · simp [h.cdone]
  · simp [h.cdone]
  · simp [h.we,h.cgo,h.din]
  · rw [hn,step_c1,h.cgo,Collatz.step_go]

theorem Tallying.edge (h : Tallying m j s) (hr : s.running = true) (hc : s.c1.done = false) :
    Tallying m (j+1) (step s ⟨false,u⟩) where
  we := by simp [hc]
  cgo := by simp [hc]
  n := by simp [h.we,hc,h.n]
  din := by
    simp only [step_din,h.we,hc,hr,h.cgo,h.din]
    simp [BitVec.ofNat_add]
  c1 := by
    intro σ hm hσ
    obtain ⟨hle,hf⟩ := h.c1 σ hm hσ
    have hlt : j < σ := by
      rcases Nat.eq_or_lt_of_le hle with he | hlt
      · rw [hf.done,he] at hc
        simp at hc
      · exact hlt
    rw [step_c1,h.cgo]
    exact ⟨hlt,hf.step hlt hσ s.n⟩

theorem Tallying.store (h : Tallying m j s) (hr : s.running = true) (hc : s.c1.done = true) :
    Storing m (step s ⟨false,u⟩) where
  we := by simp [h.we,hc,hr]
  cgo := by simp [h.we,hc,hr]
  n := by simp [h.we,hc,hr,h.n,BitVec.ofNat_add]
  din := by
    intro σ hm hσ
    obtain ⟨-,hf⟩ := h.c1 σ hm hσ
    have he : j = σ := by
      rw [hf.done] at hc
      simpa using hc
    rw [← he]
    simp [h.we,hc,h.din]

theorem Storing.edge (h : Storing m s) : Tallying (m+1) 0 (step s ⟨false,u⟩) := by
  have hn : (step s ⟨false,u⟩).n = s.n := by simp [h.we]
  refine tallying_load ?_ ?_ (hn.trans h.n) ?_ ?_
  · simp [h.we]
  · simp [h.we]
  · simp [h.we]
  · rw [hn,step_c1,h.cgo,Collatz.step_go]

end Edge

section Sweep

variable {b : ℕ} {s : State W B} (u : BitVec 32)

theorem Sweeping.recorded_store (h : Sweeping b s) (hs : Storing (b+s.num.toNat) s) (k : Fin W)
    (hk : k.val ≤ s.num.toNat) : CountsTo (b+k.val) ((step s ⟨false,u⟩).mem k) := by
  rw [step_mem]
  by_cases he : k.val = s.num.toNat
  · simp only [hs.we,he,and_self,if_true]
    exact hs.din
  · simp only [he,and_false,if_false]
    exact h.recorded k (by omega)

/-- Away from the write of a last word, an edge keeps the sweep on track. -/
theorem Sweeping.edge (h : Sweeping b s) (hinv : Inv s)
    (hlast : ¬(s.we = true ∧ s.num = lastNum W B)) : Sweeping b (step s ⟨false,u⟩) := by
  have hrun : (step s ⟨false,u⟩).running = true := by
    rw [step_running,h.running]
    cases hwe : s.we
    · simp
    · simpa [hwe] using hlast
  have hkeep : s.we = false → (step s ⟨false,u⟩).num = s.num ∧ (step s ⟨false,u⟩).mem = s.mem := by
    intro hwe
    rw [step_num,step_mem,hwe]
    exact ⟨rfl,by simp⟩
  refine ⟨hrun,?_,?_⟩
  · intro k hk
    rcases h.stage with hs | ⟨j,hs⟩ | hs
    · obtain ⟨hnum,hmem⟩ := hkeep hs.we
      rw [hnum] at hk
      rw [hmem]
      exact h.recorded k hk
    · obtain ⟨hnum,hmem⟩ := hkeep hs.we
      rw [hnum] at hk
      rw [hmem]
      exact h.recorded k hk
    · refine h.recorded_store u hs k ?_
      have hle : (step s ⟨false,u⟩).num.toNat ≤ s.num.toNat+1 := by
        rw [step_num,hs.we,if_neg Bool.false_ne_true,if_pos rfl,BitVec.toNat_add]
        refine (Nat.mod_le _ _).trans ?_
        simpa using Nat.mod_le 1 (2^B)
      omega
  · rcases h.stage with hs | ⟨j,hs⟩ | hs
    · rw [(hkeep hs.we).1]
      exact Or.inr (Or.inl ⟨0,hs.edge u⟩)
    · rw [(hkeep hs.we).1]
      cases hc : s.c1.done with
      | false => exact Or.inr (Or.inl ⟨j+1,hs.edge u h.running hc⟩)
      | true => exact Or.inr (Or.inr (hs.store u h.running hc))
    · have hne : s.num.toNat ≠ (lastNum W B).toNat :=
        fun he => hlast ⟨hs.we,BitVec.eq_of_toNat_eq he⟩
      have hle := hinv.num_le h.running
      have hlt := (lastNum W B).isLt
      have hB : 1 < 2^B := by omega
      have hnum : (step s ⟨false,u⟩).num.toNat = s.num.toNat+1 := by
        rw [step_num,hs.we,if_neg Bool.false_ne_true,if_pos rfl,BitVec.toNat_add]
        simp only [BitVec.ofNat_eq_ofNat,BitVec.toNat_ofNat,Nat.mod_eq_of_lt hB]
        exact Nat.mod_eq_of_lt (by omega)
      rw [hnum]
      exact Or.inr (Or.inl ⟨0,hs.edge u⟩)

/-- The write of the last word leaves every word of the RAM recorded. -/
theorem Sweeping.finish (h : Sweeping b s) (hB : W ≤ 2^B) (hwe : s.we = true)
    (hlast : s.num = lastNum W B) : Finished b (step s ⟨false,u⟩) := by
  have hs : Storing (b+s.num.toNat) s := by
    rcases h.stage with hs | ⟨j,hs⟩ | hs
    · exact absurd (hs.we.symm.trans hwe) Bool.false_ne_true
    · exact absurd (hs.we.symm.trans hwe) Bool.false_ne_true
    · exact hs
  refine ⟨by simp [hwe,hlast],?_⟩
  intro k
  refine h.recorded_store u hs k ?_
  rw [hlast,lastNum_toNat hB]
  omega

theorem Inv.idle_edge (hinv : Inv s) (hr : s.running = false) :
    (Range.step s ⟨false,u⟩).running = false ∧ (Range.step s ⟨false,u⟩).done = false ∧
      (Range.step s ⟨false,u⟩).mem = s.mem := by
  have hwe := hinv.idle_we hr
  refine ⟨by simp [hr],by simp [hr,hwe],?_⟩
  rw [step_mem,hwe]
  simp

theorem Finished.edge (h : Finished b s) (hinv : Inv s) : Finished b (step s ⟨false,u⟩) := by
  obtain ⟨hr,-,hmem⟩ := hinv.idle_edge u h.running
  refine ⟨hr,?_⟩
  rw [hmem]
  exact h.recorded

end Sweep

theorem armed_of_three_goes (s : State W B) (u u' v : BitVec 32) :
    let s' := step (step (step s ⟨true,u⟩) ⟨true,u'⟩) ⟨true,v⟩
    Armed v s'.mem s' := by
  refine armed_of_go _ v ?_ ?_
  · simp
  · simp

end Range
end EmbeddedSystems
