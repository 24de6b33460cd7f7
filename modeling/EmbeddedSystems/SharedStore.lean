import Mathlib.Logic.Function.Basic
import Mathlib.Tactic

/-! A thread computes on a state of its own and queues its writes; a tick performs the next
queued write or, when the queue is empty, computes on. No thread reads the store. When each
thread stays inside addresses of its own, every schedule leaves at these addresses what the
thread's own ticks leave there alone. -/

namespace EmbeddedSystems
namespace SharedStore

section Thread

variable {κ ν σ : Type*}

structure Thread (κ ν σ : Type*) where
  state : σ
  queue : List (κ × ν)

/-- One tick: the write it performs, if any, and the thread after it. -/
def tick (advance : σ → List (κ × ν) × σ) (th : Thread κ ν σ) : Option (κ × ν) × Thread κ ν σ :=
  match th.queue with
  | w::q => (some w,⟨th.state,q⟩)
  | [] => (none,⟨(advance th.state).2,(advance th.state).1⟩)

/-- Under the invariant, a thread computes only writes to the addresses `own`. -/
def Confined (advance : σ → List (κ × ν) × σ) (Inv : σ → Prop) (own : κ → Prop) : Prop :=
  ∀ s, Inv s → Inv (advance s).2 ∧ ∀ w ∈ (advance s).1, own w.1

def Thread.Good (Inv : σ → Prop) (own : κ → Prop) (th : Thread κ ν σ) : Prop :=
  Inv th.state ∧ ∀ w ∈ th.queue, own w.1

theorem Confined.tick {advance : σ → List (κ × ν) × σ} {Inv : σ → Prop} {own : κ → Prop}
    (h : Confined advance Inv own) {th : Thread κ ν σ} (hg : th.Good Inv own) :
    (tick advance th).2.Good Inv own ∧ ∀ w ∈ (tick advance th).1, own w.1 := by
  obtain ⟨s,queue⟩ := th
  cases queue with
  | nil => exact ⟨h s hg.1,by simp [SharedStore.tick]⟩
  | cons w q =>
    refine ⟨⟨hg.1,fun w' hw' => hg.2 w' (List.mem_cons_of_mem w hw')⟩,?_⟩
    intro w' hw'
    obtain rfl := Option.some.inj hw'
    exact hg.2 w List.mem_cons_self

theorem mem_queue_of_tick {advance : σ → List (κ × ν) × σ} {th : Thread κ ν σ} {w : κ × ν}
    (h : (SharedStore.tick advance th).1 = some w) : w ∈ th.queue := by
  obtain ⟨s,queue⟩ := th
  cases queue with
  | nil => exact absurd h (by simp [SharedStore.tick])
  | cons w' q =>
    obtain rfl := Option.some.inj h
    exact List.mem_cons_self

end Thread

variable {ι κ ν : Type*} [DecidableEq ι] [DecidableEq κ] {σ : ι → Type*}

structure Config (κ ν : Type*) (σ : ι → Type*) where
  mem : κ → ν
  threads : ∀ i, Thread κ ν (σ i)

def write (mem : κ → ν) : Option (κ × ν) → κ → ν
  | none => mem
  | some w => Function.update mem w.1 w.2

def step (advance : ∀ i, σ i → List (κ × ν) × σ i) (c : Config κ ν σ) (i : ι) : Config κ ν σ where
  mem := write c.mem (tick (advance i) (c.threads i)).1
  threads := Function.update c.threads i (tick (advance i) (c.threads i)).2

theorem step_threads_self (advance : ∀ i, σ i → List (κ × ν) × σ i) (c : Config κ ν σ) (i : ι) :
    (step advance c i).threads i = (tick (advance i) (c.threads i)).2 :=
  Function.update_self i _ c.threads

theorem step_threads_of_ne (advance : ∀ i, σ i → List (κ × ν) × σ i) (c : Config κ ν σ) {i j : ι}
    (h : j ≠ i) : (step advance c i).threads j = c.threads j :=
  Function.update_of_ne h _ c.threads

def run (advance : ∀ i, σ i → List (κ × ν) × σ i) (c : Config κ ν σ) (sched : List ι) :
    Config κ ν σ :=
  sched.foldl (step advance) c

theorem run_append (advance : ∀ i, σ i → List (κ × ν) × σ i) (c : Config κ ν σ)
    (sched sched' : List ι) :
    run advance c (sched ++ sched') = run advance (run advance c sched) sched' :=
  List.foldl_append

theorem run_drain (advance : ∀ i, σ i → List (κ × ν) × σ i) {i : ι} {s : σ i}
    (queue rest : List (κ × ν)) (c : Config κ ν σ) (h : c.threads i = ⟨s,queue ++ rest⟩) :
    (run advance c (List.replicate queue.length i)).mem =
        queue.foldl (fun mem w => Function.update mem w.1 w.2) c.mem ∧
      (run advance c (List.replicate queue.length i)).threads i = ⟨s,rest⟩ := by
  induction queue generalizing c with
  | nil => exact ⟨rfl,h⟩
  | cons w queue ih =>
    have htick : tick (advance i) (c.threads i) = (some w,⟨s,queue ++ rest⟩) := by
      rw [h,List.cons_append,tick]
    have hmem : (step advance c i).mem = Function.update c.mem w.1 w.2 := by
      rw [step,htick]
      rfl
    obtain ⟨h1,h2⟩ := ih (step advance c i) (by rw [step_threads_self,htick])
    rw [hmem] at h1
    exact ⟨h1,h2⟩

theorem step_compute (advance : ∀ i, σ i → List (κ × ν) × σ i) {c : Config κ ν σ} {i : ι} {s : σ i}
    (h : c.threads i = ⟨s,[]⟩) :
    (step advance c i).mem = c.mem ∧
      (step advance c i).threads i = ⟨(advance i s).2,(advance i s).1⟩ := by
  have htick : tick (advance i) (c.threads i) = (none,⟨(advance i s).2,(advance i s).1⟩) := by
    rw [h,tick]
  constructor
  · rw [step,htick]
    rfl
  · rw [step_threads_self,htick]

theorem run_advance (advance : ∀ i, σ i → List (κ × ν) × σ i) (c : Config κ ν σ) {i : ι} {s : σ i}
    (h : c.threads i = ⟨s,[]⟩) :
    ∃ n, (run advance c (List.replicate n i)).mem =
        (advance i s).1.foldl (fun mem w => Function.update mem w.1 w.2) c.mem ∧
      (run advance c (List.replicate n i)).threads i = ⟨(advance i s).2,[]⟩ := by
  obtain ⟨hmem,hth⟩ := step_compute advance h
  rw [← List.append_nil (advance i s).1] at hth
  obtain ⟨h1,h2⟩ := run_drain advance _ _ (step advance c i) hth
  rw [hmem] at h1
  exact ⟨(advance i s).1.length+1,h1,h2⟩

theorem write_of_notMem (mem : κ → ν) {w : Option (κ × ν)} {a : κ} (h : ∀ w' ∈ w, w'.1 ≠ a) :
    write mem w a = mem a := by
  cases w with
  | none => rfl
  | some w => exact Function.update_of_ne (h w rfl).symm _ _

theorem write_congr {mem mem' : κ → ν} {a : κ} (h : mem a = mem' a) (w : Option (κ × ν)) :
    write mem w a = write mem' w a := by
  cases w with
  | none => exact h
  | some w => by_cases ha : a = w.1 <;> simp [write,ha,h]

section Separation

variable {advance : ∀ i, σ i → List (κ × ν) × σ i} {Inv : ∀ i, σ i → Prop} {own : ι → κ → Prop}

theorem step_good (h : ∀ i, Confined (advance i) (Inv i) (own i)) {c : Config κ ν σ}
    (hg : ∀ i, (c.threads i).Good (Inv i) (own i)) (i j : ι) :
    ((step advance c i).threads j).Good (Inv j) (own j) := by
  by_cases hij : j = i
  · subst hij
    rw [step_threads_self]
    exact ((h j).tick (hg j)).1
  · rw [step_threads_of_ne advance c hij]
    exact hg j

/-- At an address of its own a thread sees, in every schedule, only its own writes. -/
theorem run_eq_solo (h : ∀ i, Confined (advance i) (Inv i) (own i))
    (hdisj : ∀ i j a, own i a → own j a → i = j) {c : Config κ ν σ}
    (hg : ∀ i, (c.threads i).Good (Inv i) (own i)) (sched : List ι) {i : ι} {a : κ} (ha : own i a) :
    (run advance c sched).mem a = (run advance c (sched.filter (· = i))).mem a := by
  have hagree : ∀ c c' : Config κ ν σ, (∀ j, (c.threads j).Good (Inv j) (own j)) →
      c.threads i = c'.threads i → c.mem a = c'.mem a →
      (run advance c sched).mem a = (run advance c' (sched.filter (· = i))).mem a := by
    induction sched with
    | nil =>
      intro c c' _ _ hmem
      exact hmem
    | cons j sched ih =>
      intro c c' hg hth hmem
      by_cases hj : j = i
      · subst hj
        rw [List.filter_cons_of_pos (by simp)]
        apply ih _ _ (step_good h hg j)
        · rw [step_threads_self,step_threads_self,hth]
        · simp only [step,hth]
          exact write_congr hmem _
      · rw [List.filter_cons_of_neg (by simpa using hj)]
        apply ih _ _ (step_good h hg j)
        · rw [step_threads_of_ne advance c (Ne.symm hj),hth]
        · rw [← hmem]
          apply write_of_notMem
          rintro w hw rfl
          exact hj (hdisj j i _ (((h j).tick (hg j)).2 w hw) ha)
  exact hagree c c hg rfl rfl

theorem run_eq_of_unowned (h : ∀ i, Confined (advance i) (Inv i) (own i)) {c : Config κ ν σ}
    (hg : ∀ i, (c.threads i).Good (Inv i) (own i)) (sched : List ι) {a : κ} (ha : ∀ i, ¬ own i a) :
    (run advance c sched).mem a = c.mem a := by
  induction sched generalizing c with
  | nil => rfl
  | cons j sched ih =>
    have hstep : (step advance c j).mem a = c.mem a := by
      apply write_of_notMem
      rintro w hw rfl
      exact ha j (((h j).tick (hg j)).2 w hw)
    rw [← hstep]
    exact ih (step_good h hg j)

end Separation

section Performed

variable {advance : ∀ i, σ i → List (κ × ν) × σ i}

theorem run_queued {Inv : ∀ i, σ i → Prop} {P : κ × ν → Prop}
    (h : ∀ i s, Inv i s → Inv i (advance i s).2 ∧ ∀ w ∈ (advance i s).1, P w) {c : Config κ ν σ}
    (hc : ∀ i, Inv i (c.threads i).state ∧ ∀ w ∈ (c.threads i).queue, P w) (sched : List ι)
    (i : ι) :
    Inv i ((run advance c sched).threads i).state ∧
      ∀ w ∈ ((run advance c sched).threads i).queue, P w := by
  induction sched generalizing c with
  | nil => exact hc i
  | cons j sched ih =>
    refine ih (c := step advance c j) ?_
    intro k
    by_cases hk : k = j
    · subst hk
      rw [step_threads_self]
      obtain ⟨hinv,hqueue⟩ := hc k
      cases hq : (c.threads k).queue with
      | nil =>
        rw [tick,hq]
        exact h k _ hinv
      | cons w q =>
        rw [tick,hq]
        rw [hq] at hqueue
        exact ⟨hinv,fun w' hw' => hqueue w' (List.mem_cons_of_mem w hw')⟩
    · rw [step_threads_of_ne advance c hk]
      exact hc k

def performed (advance : ∀ i, σ i → List (κ × ν) × σ i) (c : Config κ ν σ) :
    List ι → List (κ × ν)
  | [] => []
  | i::sched =>
    (tick (advance i) (c.threads i)).1.toList ++ performed advance (step advance c i) sched

theorem performed_append (advance : ∀ i, σ i → List (κ × ν) × σ i) (c : Config κ ν σ)
    (sched sched' : List ι) : performed advance c (sched ++ sched') =
      performed advance c sched ++ performed advance (run advance c sched) sched' := by
  induction sched generalizing c with
  | nil => rfl
  | cons i sched ih =>
    rw [List.cons_append,performed,performed,ih,List.append_assoc]
    rfl

theorem run_mem (advance : ∀ i, σ i → List (κ × ν) × σ i) (c : Config κ ν σ) (sched : List ι) :
    (run advance c sched).mem = (performed advance c sched).foldl
      (fun mem w => Function.update mem w.1 w.2) c.mem := by
  induction sched generalizing c with
  | nil => rfl
  | cons i sched ih =>
    have hstep : (step advance c i).mem = (tick (advance i) (c.threads i)).1.toList.foldl
        (fun mem w => Function.update mem w.1 w.2) c.mem := by
      rw [step]
      cases (tick (advance i) (c.threads i)).1 <;> rfl
    rw [performed,List.foldl_append,← hstep]
    exact ih (step advance c i)

theorem performed_of_queued {Inv : ∀ i, σ i → Prop} {P : κ × ν → Prop}
    (h : ∀ i s, Inv i s → Inv i (advance i s).2 ∧ ∀ w ∈ (advance i s).1, P w) {c : Config κ ν σ}
    (hc : ∀ i, Inv i (c.threads i).state ∧ ∀ w ∈ (c.threads i).queue, P w) (sched : List ι) :
    ∀ w ∈ performed advance c sched, P w := by
  induction sched generalizing c with
  | nil => simp [performed]
  | cons i sched ih =>
    intro w hw
    rcases List.mem_append.mp hw with hw | hw
    · exact (hc i).2 w (mem_queue_of_tick (Option.mem_toList.mp hw))
    · exact ih (run_queued h hc [i]) w hw

theorem exists_tick {c : Config κ ν σ} {i : ι} {s : σ i} (h : c.threads i = ⟨s,[]⟩) {w : κ × ν}
    (hw : w ∈ (advance i s).1) :
    ∃ n, (tick (advance i) ((run advance c (List.replicate n i)).threads i)).1 = some w := by
  obtain ⟨-,hth⟩ := step_compute advance h
  obtain ⟨queue,rest,heq⟩ := List.append_of_mem hw
  rw [heq] at hth
  obtain ⟨-,hdrained⟩ := run_drain advance queue (w::rest) (step advance c i) hth
  refine ⟨queue.length+1,?_⟩
  rw [List.replicate_succ]
  change (tick (advance i) ((run advance (step advance c i) _).threads i)).1 = some w
  rw [hdrained,tick]

end Performed

end SharedStore
end EmbeddedSystems
