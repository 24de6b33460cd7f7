import EmbeddedSystems.SharedStore

/-! No thread reads the store, so how far a thread has come depends on the number of its own ticks
and on nothing that other threads do. Every tick is a computation or a write, which counts the
computations from the ticks; and at the addresses of its own a thread that has no write left has
left there exactly the writes of its computations. -/

namespace EmbeddedSystems
namespace SharedStore

section Computations

variable {κ ν σ : Type*} (advance : σ → List (κ × ν) × σ)

def computed (s : σ) (k : ℕ) : σ := (fun s => (advance s).2)^[k] s

def emitted (s : σ) (k : ℕ) : List (κ × ν) :=
  (List.range k).flatMap fun j => (advance (computed advance s j)).1

theorem computed_succ (s : σ) (k : ℕ) :
    computed advance s (k+1) = (advance (computed advance s k)).2 :=
  Function.iterate_succ_apply' _ k s

theorem emitted_succ (s : σ) (k : ℕ) :
    emitted advance s (k+1) = emitted advance s k ++ (advance (computed advance s k)).1 := by
  rw [emitted,emitted,List.range_succ,List.flatMap_append,List.flatMap_singleton]

end Computations

variable {ι κ ν : Type*} [DecidableEq ι] [DecidableEq κ] {σ : ι → Type*}
  {advance : ∀ i, σ i → List (κ × ν) × σ i}

theorem run_threads (c : Config κ ν σ) (sched : List ι) (i : ι) :
    (run advance c sched).threads i =
      (fun th => (tick (advance i) th).2)^[sched.count i] (c.threads i) := by
  induction sched generalizing c with
  | nil => rfl
  | cons j sched ih =>
    change (run advance (step advance c j) sched).threads i = _
    rw [ih]
    by_cases hj : j = i
    · subst hj
      rw [List.count_cons_self,Function.iterate_succ_apply,step_threads_self]
    · rw [List.count_cons_of_ne hj,step_threads_of_ne advance c (Ne.symm hj)]

theorem solo_progress {c : Config κ ν σ} {i : ι} {s : σ i} (h : c.threads i = ⟨s,[]⟩) (n : ℕ) :
    ∃ k queue, (run advance c (List.replicate n i)).threads i =
        ⟨computed (advance i) s k,queue⟩ ∧
      performed advance c (List.replicate n i) ++ queue = emitted (advance i) s k ∧
      n = k+(performed advance c (List.replicate n i)).length := by
  induction n with
  | zero => exact ⟨0,[],h,rfl,rfl⟩
  | succ n ih =>
    obtain ⟨k,queue,hth,hsplit,hn⟩ := ih
    rw [List.replicate_succ',run_append,performed_append]
    generalize run advance c (List.replicate n i) = c' at hth
    generalize performed advance c (List.replicate n i) = past at hsplit hn
    have hrun : run advance c' [i] = step advance c' i := rfl
    rw [hrun,step_threads_self,performed,hth]
    cases queue with
    | nil =>
      refine ⟨k+1,(advance i (computed (advance i) s k)).1,?_,?_,?_⟩
      · rw [tick,computed_succ]
      · rw [List.append_nil] at hsplit
        rw [emitted_succ,← hsplit]
        simp [tick,performed]
      · simp [tick,performed]
        omega
    | cons w queue =>
      refine ⟨k,queue,rfl,?_,?_⟩
      · rw [← hsplit]
        simp [tick,performed]
      · simp [tick,performed]
        omega

/-- In every schedule: the ticks of a thread are its computations and the writes it has made, and
once it has none queued, its own addresses hold what its computations have written. -/
theorem run_progress {Inv : ∀ i, σ i → Prop} {own : ι → κ → Prop}
    (h : ∀ i, Confined (advance i) (Inv i) (own i))
    (hdisj : ∀ i j a, own i a → own j a → i = j) {c : Config κ ν σ}
    (hg : ∀ i, (c.threads i).Good (Inv i) (own i)) {i : ι} {s : σ i} (hs : c.threads i = ⟨s,[]⟩)
    (sched : List ι) :
    ∃ k queue, (run advance c sched).threads i = ⟨computed (advance i) s k,queue⟩ ∧
      sched.count i+queue.length = k+(emitted (advance i) s k).length ∧
      (queue = [] → ∀ a, own i a → (run advance c sched).mem a =
        (emitted (advance i) s k).foldl (fun mem w => Function.update mem w.1 w.2) c.mem a) := by
  obtain ⟨k,queue,hth,hsplit,hn⟩ := solo_progress hs (sched.count i)
  refine ⟨k,queue,?_,?_,?_⟩
  · rw [← hth,run_threads,run_threads,List.count_replicate_self]
  · rw [← hsplit,List.length_append]
    omega
  · intro hnil a ha
    rw [hnil,List.append_nil] at hsplit
    rw [run_eq_solo h hdisj hg sched ha,List.filter_eq,run_mem,hsplit]

end SharedStore
end EmbeddedSystems
