import EmbeddedSystems.RangeMachine
import Mathlib.Algebra.BigOperators.Fin

/-! A sweep is followed word by word. `Counting` is the state of one word `j` edges after
its start value was loaded; `word_run` takes it through the write to the RAM, and
`sweep_run` glues the words by induction on how many are left. -/

namespace EmbeddedSystems
namespace Range

open Clocked CollatzOrbit

variable {W B : ℕ}

def low (f : ℕ → BitVec 32) (t : ℕ) : Input := ⟨false,f t⟩

def pulsed (s : State W B) (k : ℕ) (v : BitVec 32) : State W B :=
  trace step s (fun _ => ⟨true,v⟩) k

theorem pulsed_succ (s : State W B) (k : ℕ) (v : BitVec 32) :
    pulsed s (k+1) v = step (pulsed s k v) ⟨true,v⟩ := rfl

theorem pulsed_add (s : State W B) (k d : ℕ) (v : BitVec 32) :
    pulsed s (k+d) v = pulsed (pulsed s k v) d v :=
  trace_add step s _ k d

/-- Word `i` is being counted: its start value is `m`, whose orbit has `σ` steps, and the
iterator is at element `j` of it. The RAM holds `M`. -/
structure Counting (m σ i j : ℕ) (M : Fin W → BitVec 16) (s : State W B) : Prop where
  running : s.running = true
  we : s.we = false
  cgo : s.cgo = false
  n : s.n.toNat = m
  num : s.num.toNat = i
  din : s.din = BitVec.ofNat 16 (j+1)
  c1 : Collatz.Follows m σ j s.c1
  mem : s.mem = M

theorem Counting.edge {m σ i j : ℕ} {M : Fin W → BitVec 16} {s : State W B}
    (h : Counting m σ i j M s) (hj : j < σ) (hm : ReachesOne 32 m σ) (v : BitVec 32) :
    Counting m σ i (j+1) M (step s ⟨false,v⟩) := by
  have hc : s.c1.done = false := by simpa [h.c1.done] using hj.ne
  constructor
  · simp [h.running,h.we]
  · simp [h.we,hc]
  · simp [h.we,hc]
  · simp [h.we,hc,h.n]
  · simp [h.we,h.num]
  · simp only [step_din,h.we,hc,h.running,h.cgo,h.din]
    simp [BitVec.ofNat_add]
  · rw [step_c1,h.cgo]
    exact h.c1.step hj hm s.n
  · rw [step_mem,h.we]
    simpa using h.mem

theorem Counting.edges {m σ i j : ℕ} {M : Fin W → BitVec 16} {s : State W B}
    (h : Counting m σ i 0 M s) (hm : ReachesOne 32 m σ) (f : ℕ → BitVec 32) (hj : j ≤ σ) :
    Counting m σ i j M (trace step s (low f) j) := by
  induction j with
  | zero => exact h
  | succ j ih => exact (ih (by omega)).edge (by omega) hm (f j)

def record (M : Fin W → BitVec 16) (i σ : ℕ) : Fin W → BitVec 16 :=
  fun j => if j.val = i then BitVec.ofNat 16 (σ+1) else M j

structure Written (m i : ℕ) (M : Fin W → BitVec 16) (s : State W B) : Prop where
  running : s.running = decide (i ≠ (lastNum W B).toNat)
  we : s.we = false
  cgo : s.cgo = false
  n : s.n.toNat = (m+1) % 2^32
  num : s.num.toNat = (i+1) % 2^B
  din : s.din = 1
  c1 : s.c1 = ⟨s.n,false⟩
  mem : s.mem = M

theorem Counting.write {m σ i : ℕ} {M : Fin W → BitVec 16} {s : State W B}
    (h : Counting m σ i σ M s) (v v' : BitVec 32) :
    (step s ⟨false,v⟩).running = true ∧
      Written m i (record M i σ) (step (step s ⟨false,v⟩) ⟨false,v'⟩) := by
  have hc : s.c1.done = true := by simp [h.c1.done]
  have hnum : (s.num = lastNum W B) ↔ i = (lastNum W B).toNat := by
    rw [← h.num,BitVec.toNat_eq]
  refine ⟨by simp [h.running,h.we],?_⟩
  constructor
  · simp [h.running,h.we,hc,hnum]
  · simp [h.running,h.we,hc]
  · simp [h.running,h.we,hc]
  · simp [h.running,h.we,hc,h.n,BitVec.toNat_add]
  · simp [h.running,h.we,hc,h.num,BitVec.toNat_add]
  · simp [h.running,h.we,hc]
  · simp [h.running,h.we,hc]
  · funext j
    simp [h.running,h.we,hc,h.num,h.din,h.mem,record]

theorem Written.counting {m i σ : ℕ} {M : Fin W → BitVec 16} {s : State W B}
    (h : Written m i M s) (hi : i < (lastNum W B).toNat) (hm : m+1 < 2^32) (hσ : 0 < σ) :
    Counting (m+1) σ (i+1) 0 M s := by
  have hlast := (lastNum W B).isLt
  have hn : s.n.toNat = m+1 := by rw [h.n,Nat.mod_eq_of_lt hm]
  constructor
  · simp [h.running,hi.ne]
  · exact h.we
  · exact h.cgo
  · exact hn
  · rw [h.num,Nat.mod_eq_of_lt (by omega)]
  · rw [h.din]
    rfl
  · rw [h.c1,← hn]
    exact Collatz.follows_load s.n hσ
  · exact h.mem

/-- One word takes its orbit and two more edges, and `running` is high all the while. -/
theorem word_run {m σ i : ℕ} {M : Fin W → BitVec 16} {s : State W B}
    (h : Counting m σ i 0 M s) (hm : ReachesOne 32 m σ) (f : ℕ → BitVec 32) :
    (∀ t < σ+2, (trace step s (low f) t).running = true) ∧
      Written m i (record M i σ) (trace step s (low f) (σ+2)) := by
  have hw := (h.edges hm f le_rfl).write (f σ) (f (σ+1))
  refine ⟨?_,hw.2⟩
  intro t ht
  rcases Nat.lt_or_ge σ t with hlt | hge
  · have he : t = σ+1 := by omega
    subst he
    exact hw.1
  · exact (h.edges hm f hge).running

/-- The orbits of `m`, `m+1`, …, `m+r` all start at `2` or more and can be followed in 32 bits. -/
def Orbits (m : ℕ) (σ : ℕ → ℕ) (r : ℕ) : Prop :=
  ∀ j ≤ r, 2 ≤ m+j ∧ ReachesOne 32 (m+j) (σ j)

def recorded (M : Fin W → BitVec 16) (i : ℕ) (σ : ℕ → ℕ) (r : ℕ) : Fin W → BitVec 16 :=
  fun j => if i ≤ j.val ∧ j.val ≤ i+r then BitVec.ofNat 16 (σ (j.val-i)+1) else M j

theorem recorded_succ (M : Fin W → BitVec 16) (i : ℕ) (σ : ℕ → ℕ) (r : ℕ) :
    recorded (record M i (σ 0)) (i+1) (fun j => σ (j+1)) r = recorded M i σ (r+1) := by
  funext j
  by_cases hi : j.val = i
  · simp [recorded,record,hi]
  · have hsub : i+1 ≤ j.val → j.val-(i+1)+1 = j.val-i := by omega
    by_cases hr : i+1 ≤ j.val ∧ j.val ≤ i+1+r
    · have hr' : i ≤ j.val ∧ j.val ≤ i+(r+1) := by omega
      simp [recorded,hr.1,hr.2,hr'.1,hr'.2,hsub hr.1]
    · have hr' : ¬(i ≤ j.val ∧ j.val ≤ i+(r+1)) := by omega
      rw [recorded,if_neg hr,recorded,if_neg hr',record,if_neg hi]

/-- From the start of word `i`, the rest of a sweep takes each word's orbit and two more
edges per word, and leaves exactly its counts in the RAM. -/
theorem sweep_run {r m i : ℕ} {σ : ℕ → ℕ} {M : Fin W → BitVec 16} {s : State W B}
    (h : Counting m (σ 0) i 0 M s) (hi : i+r = (lastNum W B).toNat) (ho : Orbits m σ r)
    (f : ℕ → BitVec 32) :
    FirstFall step State.running s (low f) (∑ j ∈ Finset.range (r+1), (σ j+2)) ∧
      (trace step s (low f) (∑ j ∈ Finset.range (r+1), (σ j+2))).mem =
        recorded M i σ r := by
  induction r generalizing m i σ M s f with
  | zero =>
    obtain ⟨hrun,hw⟩ := word_run h (ho 0 le_rfl).2 f
    rw [Finset.sum_range_one]
    refine ⟨⟨hrun,?_⟩,?_⟩
    · have hlast : i = (lastNum W B).toNat := by omega
      simp [hw.running,hlast]
    · rw [hw.mem]
      funext j
      by_cases hj : j.val = i
      · simp [record,recorded,hj]
      · rw [record,if_neg hj,recorded,if_neg (by omega)]
  | succ r ih =>
    obtain ⟨hrun,hw⟩ := word_run h (ho 0 (Nat.zero_le _)).2 f
    have hnext := ho 1 (by omega)
    have hc := hw.counting (σ := σ 1) (by omega) hnext.2.start_lt (hnext.2.steps_pos hnext.1)
    have ho' : Orbits (m+1) (fun j => σ (j+1)) r := by
      intro j hj
      have hh := ho (j+1) (by omega)
      rwa [show m+(j+1) = m+1+j by omega] at hh
    obtain ⟨hfall,hmem⟩ := ih hc (by omega) ho' (fun t => f (σ 0+2+t))
    rw [Finset.sum_range_succ' _ (r+1),Nat.add_comm _ (σ 0+2)]
    refine ⟨hfall.delay hrun,?_⟩
    rw [trace_add]
    exact hmem.trans (recorded_succ M i σ r)

/-- A sweep of `v` is about to start: the iterator is told to load it, and neither a stale
`cdone` nor a pending write is left. -/
structure Armed (v : BitVec 32) (M : Fin W → BitVec 16) (s : State W B) : Prop where
  running : s.running = true
  we : s.we = false
  cgo : s.cgo = true
  n : s.n = v
  num : s.num = 0
  din : s.din = 1
  cdone : s.c1.done = false
  mem : s.mem = M

theorem armed_of_go (s : State W B) (v : BitVec 32) (hwe : (step s ⟨true,v⟩).we = false)
    (hc : (step s ⟨true,v⟩).c1.done = false) : Armed v (step s ⟨true,v⟩).mem (step s ⟨true,v⟩) where
  running := by simp
  we := hwe
  cgo := by simp
  n := by simp
  num := by simp
  din := by simp
  cdone := hc
  mem := rfl

theorem Armed.go {v : BitVec 32} {M : Fin W → BitVec 16} {s : State W B} (h : Armed v M s) :
    Armed v M (step s ⟨true,v⟩) := by
  have hs := armed_of_go s v (by simp [h.we,h.cdone]) (by simp [h.cgo])
  have hmem : (step s ⟨true,v⟩).mem = M := by
    rw [step_mem,h.we]
    simpa using h.mem
  rwa [hmem] at hs

theorem Armed.pulsed {v : BitVec 32} {M : Fin W → BitVec 16} {s : State W B} (h : Armed v M s)
    (k : ℕ) : Armed v M (pulsed s k v) := by
  induction k with
  | zero => exact h
  | succ k ih => exact ih.go

/-- Three edges with `go` high flush every earlier activity, from any state. -/
theorem pulsed_armed (s : State W B) (v : BitVec 32) {k : ℕ} (hk : 3 ≤ k) :
    ∃ M, Armed v M (pulsed s k v) := by
  have hcgo : (pulsed s 1 v).cgo = true := by simp [pulsed_succ]
  have hcdone : (pulsed s 2 v).c1.done = false := by
    simp [pulsed_succ s 1,hcgo]
  have hcgo₂ : (pulsed s 2 v).cgo = true := by simp [pulsed_succ s 1]
  have h := armed_of_go (pulsed s 2 v) v (by simp [hcdone]) (by simp [hcgo₂])
  obtain ⟨d,rfl⟩ := Nat.exists_eq_add_of_le hk
  rw [pulsed_add]
  exact ⟨_,h.pulsed d⟩

theorem Armed.counting {v : BitVec 32} {M : Fin W → BitVec 16} {s : State W B} {σ : ℕ}
    (h : Armed v M s) (hσ : 0 < σ) (u : BitVec 32) :
    Counting v.toNat σ 0 0 M (step s ⟨false,u⟩) := by
  constructor
  · simp [h.running,h.we]
  · simp [h.we,h.cdone]
  · simp [h.we,h.cdone]
  · simp [h.we,h.cdone,h.n]
  · simp [h.we,h.num]
  · simp [h.we,h.cgo,h.din]
  · rw [step_c1,h.cgo,h.n]
    exact Collatz.follows_load v hσ
  · rw [step_mem,h.we]
    simpa using h.mem

theorem Armed.sweep {v : BitVec 32} {M : Fin W → BitVec 16} {s : State W B} {σ : ℕ → ℕ}
    (h : Armed v M s) (ho : Orbits v.toNat σ (lastNum W B).toNat) (f : ℕ → BitVec 32) :
    FirstFall step State.running s (low f)
        (1+∑ j ∈ Finset.range ((lastNum W B).toNat+1), (σ j+2)) ∧
      (trace step s (low f) (1+∑ j ∈ Finset.range ((lastNum W B).toNat+1), (σ j+2))).mem =
        recorded M 0 σ (lastNum W B).toNat := by
  have h0 := ho 0 (Nat.zero_le _)
  have hc := h.counting (h0.2.steps_pos h0.1) (f 0)
  obtain ⟨hfall,hmem⟩ := sweep_run hc (Nat.zero_add _) ho (fun t => f (1+t))
  refine ⟨hfall.delay ?_,?_⟩
  · intro t ht
    obtain rfl : t = 0 := by omega
    exact h.running
  · rw [trace_add]
    exact hmem

theorem lastNum_toNat (hW : W ≤ 2^B) : (lastNum W B).toNat = W-1 := by
  have hpos : 0 < 2^B := Nat.two_pow_pos B
  rw [lastNum,BitVec.toNat_ofNat,Nat.mod_eq_of_lt (by omega)]

/-- After a `go` pulse of three edges or more, from any reachable state, `running` first
falls `1 + ∑ (σ i + 2)` edges after `go` went low, and word `i` of the RAM then holds the
number of elements of the orbit of `v+i`, whatever `start` does in the meantime. -/
theorem sweep_correct (hW : 2 ≤ W) (hB : W ≤ 2^B) (w : ℕ → Input) (t₀ k : ℕ) (hk : 3 ≤ k)
    (v : BitVec 32) (σ : ℕ → ℕ)
    (ho : ∀ i < W, 2 ≤ v.toNat+i ∧ ReachesOne 32 (v.toNat+i) (σ i)) (f : ℕ → BitVec 32) :
    let s : State W B := pulsed (trace step powerUp w t₀) k v
    let T := 1+∑ i ∈ Finset.range W, (σ i+2)
    FirstFall step State.running s (low f) T ∧
      ∀ i : Fin W, ((trace step s (low f) T).mem i).toNat = (σ i+1) % 2^16 := by
  intro s T
  obtain ⟨M,hM⟩ := pulsed_armed (trace step (powerUp : State W B) w t₀) v hk
  have hlast := lastNum_toNat hB
  have ho' : Orbits v.toNat σ (lastNum W B).toNat := fun i hi => ho i (by omega)
  obtain ⟨hfall,hmem⟩ := hM.sweep ho' f
  rw [hlast,Nat.sub_add_cancel (by omega : 1 ≤ W)] at hfall hmem
  refine ⟨hfall,?_⟩
  intro i
  have hi : i.val ≤ W-1 := by omega
  rw [show (trace step s (low f) T).mem = recorded M 0 σ (W-1) from hmem]
  simp [recorded,hi]

theorem sweep_correct_two_words :
    let s : State 2 1 := pulsed (trace step powerUp (fun t => ⟨decide (t = 0),5⟩) 4) 3 2
    FirstFall step State.running s (low fun t => BitVec.ofNat 32 t) 13 ∧
      ∀ i : Fin 2, ((trace step s (low fun t => BitVec.ofNat 32 t) 13).mem i).toNat =
        ((if i.val = 0 then 1 else 7)+1) % 2^16 := by
  have ho : ∀ i < 2, 2 ≤ (2 : BitVec 32).toNat+i ∧
      ReachesOne 32 ((2 : BitVec 32).toNat+i) (if i = 0 then 1 else 7) := by decide
  exact sweep_correct le_rfl le_rfl (fun t => ⟨decide (t = 0),5⟩) 4 3 le_rfl 2
    (fun i => if i = 0 then 1 else 7) ho (fun t => BitVec.ofNat 32 t)

end Range
end EmbeddedSystems
