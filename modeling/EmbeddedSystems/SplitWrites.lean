import EmbeddedSystems.SharedStore

/-! A write to an address may be carried out by stores to the places that make up the address, and
another thread may run between any two of them. If the threads write to different addresses, the
store of places is at every moment that of a schedule of whole writes, but for the addresses
whose write is under way: there each place has the contents from before or from after the write. -/

namespace EmbeddedSystems
namespace SharedStore

variable {ι κ ν κ' ν' : Type*} {σ : ι → Type*}

section Ticks

variable [DecidableEq ι] [DecidableEq κ] {advance : ∀ i, σ i → List (κ × ν) × σ i}
  {c : Config κ ν σ}

theorem step_store (advance : ∀ i, σ i → List (κ × ν) × σ i) {i : ι}
    {w : κ × ν} {q : List (κ × ν)} (h : (c.threads i).queue = w::q) :
    (step advance c i).mem = Function.update c.mem w.1 w.2 ∧
      (step advance c i).threads i = ⟨(c.threads i).state,q⟩ := by
  have htick : tick (advance i) (c.threads i) = (some w,⟨(c.threads i).state,q⟩) := by
    rw [tick,h]
  constructor
  · rw [step,htick]
    rfl
  · rw [step_threads_self,htick]

theorem run_good {Inv : ∀ i, σ i → Prop} {own : ι → κ → Prop}
    (hconf : ∀ i, Confined (advance i) (Inv i) (own i))
    (hg : ∀ i, (c.threads i).Good (Inv i) (own i)) (sched : List ι) (i : ι) :
    ((run advance c sched).threads i).Good (Inv i) (own i) := by
  induction sched generalizing c with
  | nil => exact hg i
  | cons j sched ih => exact ih (step_good hconf hg j)

end Ticks

def split (stores : κ × ν → List (κ' × ν')) (advance : ∀ i, σ i → List (κ × ν) × σ i) :
    ∀ i, σ i → List (κ' × ν') × σ i :=
  fun i s => ((advance i s).1.flatMap stores,(advance i s).2)

/-- The stores of the writes `P` reach all places of the address, where `part b a` says that `b`
is a place of `a`, and leave in each what stands there when the address holds the value. -/
structure Carries (stores : κ × ν → List (κ' × ν')) (part : κ' → κ → Prop) (shade : κ' → ν → ν')
    (P : κ × ν → Prop) : Prop where
  ne_nil : ∀ w, P w → stores w ≠ []
  places : ∀ w, P w → ∀ x ∈ stores w, part x.1 w.1 ∧ x.2 = shade x.1 w.2
  covers : ∀ w, P w → ∀ b, part b w.1 → ∃ x ∈ stores w, x.1 = b
  unique : ∀ b a a', part b a → part b a' → a = a'

/-- The thread of stores has come as far as that of writes, and has performed the stores `past`
of the next write. -/
structure Behind {σ : Type*} (stores : κ × ν → List (κ' × ν')) (coarse : Thread κ ν σ)
    (past : List (κ' × ν')) (fine : Thread κ' ν' σ) : Prop where
  state : fine.state = coarse.state
  queue : past ++ fine.queue = coarse.queue.flatMap stores
  next : past = [] ∨ ∃ w q rest, coarse.queue = w::q ∧ stores w = past ++ rest ∧ rest ≠ []

namespace Behind

variable {σ : Type*} {stores : κ × ν → List (κ' × ν')} {coarse : Thread κ ν σ}
  {past : List (κ' × ν')} {fine : Thread κ' ν' σ} {P : κ × ν → Prop}

theorem queue_eq_nil (h : Behind stores coarse past fine) (hne : ∀ w ∈ coarse.queue, stores w ≠ [])
    (hq : fine.queue = []) : past = [] ∧ coarse.queue = [] := by
  have hpast : past = [] := by
    rcases h.next with hnil | ⟨w,q,rest,hw,hs,hrest⟩
    · exact hnil
    · have hlen := congrArg List.length h.queue
      rw [hq,hw,List.flatMap_cons,hs] at hlen
      have hpos := List.length_pos_iff.mpr hrest
      simp only [List.length_append,List.length_nil] at hlen
      omega
  refine ⟨hpast,?_⟩
  have hflat := h.queue
  rw [hpast,hq,List.nil_append] at hflat
  cases hc : coarse.queue with
  | nil => rfl
  | cons w q =>
    rw [hc,List.flatMap_cons] at hflat
    have hnil := (List.append_eq_nil_iff.mp hflat.symm).1
    exact absurd hnil (hne w (by simp [hc]))

theorem queue_eq_cons (h : Behind stores coarse past fine)
    (hne : ∀ w ∈ coarse.queue, stores w ≠ []) {x : κ' × ν'} {xs : List (κ' × ν')}
    (hq : fine.queue = x::xs) :
    ∃ w q rest, coarse.queue = w::q ∧ stores w = past ++ x::rest ∧
      xs = rest ++ q.flatMap stores := by
  have hflat := h.queue
  rw [hq] at hflat
  rcases h.next with hpast | ⟨w,q,rest,hw,hs,hrest⟩
  · rw [hpast,List.nil_append] at hflat
    cases hc : coarse.queue with
    | nil => simp [hc] at hflat
    | cons w q =>
      rw [hc,List.flatMap_cons] at hflat
      cases hs : stores w with
      | nil => exact absurd hs (hne w (by simp [hc]))
      | cons y rest =>
        rw [hs,List.cons_append] at hflat
        obtain ⟨rfl,hrest⟩ := List.cons.inj hflat
        exact ⟨w,q,rest,rfl,by rw [hs,hpast,List.nil_append],hrest⟩
  · rw [hw,List.flatMap_cons,hs,List.append_assoc] at hflat
    have htail := List.append_cancel_left hflat
    cases rest with
    | nil => exact absurd rfl hrest
    | cons y rest =>
      rw [List.cons_append] at htail
      obtain ⟨rfl,hrest'⟩ := List.cons.inj htail
      exact ⟨w,q,rest,hw,hs,hrest'⟩

end Behind

/-- The two levels: every thread of stores is behind its thread of writes, the stores it has
performed for the next write are in place, and every other place agrees with its address. -/
structure Simulates (stores : κ × ν → List (κ' × ν')) (part : κ' → κ → Prop) (shade : κ' → ν → ν')
    (c : Config κ ν σ) (past : ι → List (κ' × ν')) (c' : Config κ' ν' σ) : Prop where
  behind : ∀ i, Behind stores (c.threads i) (past i) (c'.threads i)
  kept : ∀ i, ∀ x ∈ past i, c'.mem x.1 = x.2
  agree : ∀ b a, part b a → c'.mem b = shade b (c.mem a) ∨ ∃ i, (b,c'.mem b) ∈ past i

section Simulation

variable {stores : κ × ν → List (κ' × ν')} {part : κ' → κ → Prop} {shade : κ' → ν → ν'}
  {P : κ × ν → Prop} {advance : ∀ i, σ i → List (κ × ν) × σ i} {Inv : ∀ i, σ i → Prop}
  {own : ι → κ → Prop} {c : Config κ ν σ} {past : ι → List (κ' × ν')} {c' : Config κ' ν' σ}

theorem Simulates.past_place (hs : Simulates stores part shade c past c')
    (hcar : Carries stores part shade P) (hP : ∀ i, ∀ w ∈ (c.threads i).queue, P w) {i : ι}
    {x : κ' × ν'} (hx : x ∈ past i) :
    ∃ w q, (c.threads i).queue = w::q ∧ part x.1 w.1 ∧ x.2 = shade x.1 w.2 := by
  rcases (hs.behind i).next with hnil | ⟨w,q,rest,hw,hst,-⟩
  · rw [hnil] at hx
    exact absurd hx List.not_mem_nil
  · have hmem : x ∈ stores w := by
      rw [hst]
      exact List.mem_append_left rest hx
    obtain ⟨hpart,hval⟩ := hcar.places w (hP i w (by simp [hw])) x hmem
    exact ⟨w,q,hw,hpart,hval⟩

/-- A place holds what its address holds, or what it will hold after the write under way. -/
theorem Simulates.mem_cases (hs : Simulates stores part shade c past c')
    (hcar : Carries stores part shade P) (hP : ∀ i, ∀ w ∈ (c.threads i).queue, P w) {b : κ'}
    {a : κ} (hb : part b a) :
    c'.mem b = shade b (c.mem a) ∨ ∃ i v q, (c.threads i).queue = (a,v)::q ∧
      (c'.threads i).queue ≠ [] ∧ c'.mem b = shade b v := by
  rcases hs.agree b a hb with h | ⟨i,hmem⟩
  · exact Or.inl h
  · right
    obtain ⟨⟨a',v⟩,q,hw,hpart,hval⟩ := hs.past_place hcar hP hmem
    obtain rfl := hcar.unique _ _ _ hb hpart
    refine ⟨i,v,q,hw,?_,hval⟩
    intro hnil
    have hne : ∀ w ∈ (c.threads i).queue, stores w ≠ [] := fun w hw => hcar.ne_nil w (hP i w hw)
    obtain ⟨hpast,-⟩ := (hs.behind i).queue_eq_nil hne hnil
    rw [hpast] at hmem
    exact absurd hmem List.not_mem_nil

theorem Simulates.past_ne (hs : Simulates stores part shade c past c')
    (hcar : Carries stores part shade P) (hP : ∀ i, ∀ w ∈ (c.threads i).queue, P w)
    (hg : ∀ i, (c.threads i).Good (Inv i) (own i)) (hdisj : ∀ i j a, own i a → own j a → i = j)
    {i j : ι} (hj : j ≠ i) {w : κ × ν} (hw : w ∈ (c.threads i).queue) {b : κ'} (hb : part b w.1)
    {x : κ' × ν'} (hx : x ∈ past j) : x.1 ≠ b := by
  rintro rfl
  obtain ⟨w',q,hw',hpart,-⟩ := hs.past_place hcar hP hx
  have ha := hcar.unique _ _ _ hb hpart
  have hown := (hg j).2 w' (by simp [hw'])
  rw [← ha] at hown
  exact hj (hdisj j i w.1 hown ((hg i).2 w hw))

theorem Confined.split (hconf : ∀ i, Confined (advance i) (Inv i) (own i))
    (hcar : Carries stores part shade P) (hwrites : ∀ i s, Inv i s → ∀ w ∈ (advance i s).1, P w)
    (i : ι) : Confined (SharedStore.split stores advance i) (Inv i)
      (fun b => ∃ a, part b a ∧ own i a) := by
  intro s hs
  obtain ⟨hinv,hown⟩ := hconf i s hs
  refine ⟨hinv,?_⟩
  intro x hx
  obtain ⟨w,hw,hx⟩ := List.mem_flatMap.mp hx
  exact ⟨w.1,(hcar.places w (hwrites i s hs w hw) x hx).1,hown w hw⟩

variable [DecidableEq ι] [DecidableEq κ']

theorem Simulates.kept_store (hs : Simulates stores part shade c past c')
    (hcar : Carries stores part shade P) (hP : ∀ i, ∀ w ∈ (c.threads i).queue, P w)
    (hg : ∀ i, (c.threads i).Good (Inv i) (own i)) (hdisj : ∀ i j a, own i a → own j a → i = j)
    {i : ι} {w : κ × ν} {rest : List (κ' × ν')} (hw : w ∈ (c.threads i).queue) {x : κ' × ν'}
    (hst : stores w = past i ++ x::rest) (j : ι) :
    ∀ y ∈ Function.update past i (past i ++ [x]) j,
      Function.update c'.mem x.1 x.2 y.1 = y.2 := by
  obtain ⟨hpart,hval⟩ := hcar.places w (hP i w hw) x (by simp [hst])
  intro y hy
  by_cases hj : j = i
  · subst hj
    rw [Function.update_self] at hy
    rcases List.mem_append.mp hy with hy | hy
    · by_cases he : y.1 = x.1
      · obtain ⟨-,hval'⟩ := hcar.places w (hP j w hw) y (by simp [hst,hy])
        rw [he,Function.update_self,hval,hval',he]
      · rw [Function.update_of_ne he]
        exact hs.kept j y hy
    · obtain rfl := List.mem_singleton.mp hy
      exact Function.update_self _ _ _
  · rw [Function.update_of_ne hj] at hy
    rw [Function.update_of_ne (hs.past_ne hcar hP hg hdisj hj hw hpart hy)]
    exact hs.kept j y hy

theorem Simulates.store (hs : Simulates stores part shade c past c')
    (hcar : Carries stores part shade P) (hP : ∀ i, ∀ w ∈ (c.threads i).queue, P w)
    (hg : ∀ i, (c.threads i).Good (Inv i) (own i)) (hdisj : ∀ i j a, own i a → own j a → i = j)
    {i : ι} {w : κ × ν} {q : List (κ × ν)} {rest : List (κ' × ν')} {x : κ' × ν'}
    (hw : (c.threads i).queue = w::q) (hst : stores w = past i ++ x::rest) (hrest : rest ≠ [])
    (hq : (c'.threads i).queue = x::(rest ++ q.flatMap stores)) :
    Simulates stores part shade c (Function.update past i (past i ++ [x]))
      (step (split stores advance) c' i) := by
  obtain ⟨hmem,hth⟩ := step_store (split stores advance) hq
  refine ⟨?_,?_,?_⟩
  · intro j
    by_cases hj : j = i
    · subst hj
      rw [hth,Function.update_self]
      refine ⟨(hs.behind j).state,?_,Or.inr ⟨w,q,rest,hw,?_,hrest⟩⟩
      · rw [hw,List.flatMap_cons,hst]
        simp
      · rw [hst,List.append_assoc,List.singleton_append]
    · rw [step_threads_of_ne _ _ hj,Function.update_of_ne hj]
      exact hs.behind j
  · rw [hmem]
    exact hs.kept_store hcar hP hg hdisj (by simp [hw]) hst
  · intro b a hb
    rw [hmem]
    by_cases he : b = x.1
    · subst he
      refine Or.inr ⟨i,?_⟩
      rw [Function.update_self,Function.update_self]
      exact List.mem_append_right _ (List.mem_singleton_self x)
    · rw [Function.update_of_ne he]
      rcases hs.agree b a hb with h | ⟨j,hj⟩
      · exact Or.inl h
      · refine Or.inr ⟨j,?_⟩
        by_cases hji : j = i
        · subst hji
          rw [Function.update_self]
          exact List.mem_append_left _ hj
        · rw [Function.update_of_ne hji]
          exact hj

variable [DecidableEq κ]

theorem Simulates.compute (hs : Simulates stores part shade c past c')
    (hne : ∀ i, ∀ w ∈ (c.threads i).queue, stores w ≠ []) {i : ι}
    (hq : (c'.threads i).queue = []) :
    Simulates stores part shade (step advance c i) past (step (split stores advance) c' i) := by
  obtain ⟨hpast,hc⟩ := (hs.behind i).queue_eq_nil (hne i) hq
  have hcoarse : c.threads i = ⟨(c.threads i).state,[]⟩ := by rw [← hc]
  have hfine : c'.threads i = ⟨(c.threads i).state,[]⟩ := by rw [← hq,← (hs.behind i).state]
  obtain ⟨hmem,hth⟩ := step_compute advance hcoarse
  obtain ⟨hmem',hth'⟩ := step_compute (split stores advance) hfine
  refine ⟨?_,?_,?_⟩
  · intro j
    by_cases hj : j = i
    · subst hj
      rw [hth,hth',hpast]
      exact ⟨rfl,rfl,Or.inl rfl⟩
    · rw [step_threads_of_ne _ _ hj,step_threads_of_ne _ _ hj]
      exact hs.behind j
  · rw [hmem']
    exact hs.kept
  · rw [hmem,hmem']
    exact hs.agree

theorem Simulates.last (hs : Simulates stores part shade c past c')
    (hcar : Carries stores part shade P) (hP : ∀ i, ∀ w ∈ (c.threads i).queue, P w)
    (hg : ∀ i, (c.threads i).Good (Inv i) (own i)) (hdisj : ∀ i j a, own i a → own j a → i = j)
    {i : ι} {w : κ × ν} {q : List (κ × ν)} {x : κ' × ν'} (hw : (c.threads i).queue = w::q)
    (hst : stores w = past i ++ [x]) (hq : (c'.threads i).queue = x::q.flatMap stores) :
    Simulates stores part shade (step advance c i) (Function.update past i [])
      (step (split stores advance) c' i) := by
  obtain ⟨hmem,hth⟩ := step_store advance hw
  obtain ⟨hmem',hth'⟩ := step_store (split stores advance) hq
  have hin : w ∈ (c.threads i).queue := by simp [hw]
  have hkept := hs.kept_store hcar hP hg hdisj hin hst
  refine ⟨?_,?_,?_⟩
  · intro j
    by_cases hj : j = i
    · subst hj
      rw [hth,hth',Function.update_self]
      exact ⟨(hs.behind j).state,rfl,Or.inl rfl⟩
    · rw [step_threads_of_ne _ _ hj,step_threads_of_ne _ _ hj,Function.update_of_ne hj]
      exact hs.behind j
  · intro j y hy
    rw [hmem']
    by_cases hj : j = i
    · subst hj
      rw [Function.update_self] at hy
      exact absurd hy List.not_mem_nil
    · rw [Function.update_of_ne hj] at hy
      exact hkept j y (by rwa [Function.update_of_ne hj])
  · intro b a hb
    rw [hmem,hmem']
    by_cases ha : a = w.1
    · left
      subst ha
      obtain ⟨y,hy,rfl⟩ := hcar.covers w (hP i w hin) b hb
      rw [Function.update_self,hkept i y (by rwa [Function.update_self,← hst])]
      exact (hcar.places w (hP i w hin) y hy).2
    · have hne : b ≠ x.1 := by
        rintro rfl
        exact ha (hcar.unique _ _ _ hb (hcar.places w (hP i w hin) x (by simp [hst])).1)
      rw [Function.update_of_ne hne,Function.update_of_ne ha]
      rcases hs.agree b a hb with h | ⟨j,hj⟩
      · exact Or.inl h
      · refine Or.inr ⟨j,?_⟩
        rw [Function.update_of_ne]
        · exact hj
        · rintro rfl
          obtain ⟨w',q',hw',hpart,-⟩ := hs.past_place hcar hP hj
          rw [hw] at hw'
          obtain ⟨rfl,-⟩ := List.cons.inj hw'
          exact ha (hcar.unique _ _ _ hb hpart)

theorem Simulates.step (hs : Simulates stores part shade c past c')
    (hcar : Carries stores part shade P) (hP : ∀ i, ∀ w ∈ (c.threads i).queue, P w)
    (hg : ∀ i, (c.threads i).Good (Inv i) (own i)) (hdisj : ∀ i j a, own i a → own j a → i = j)
    (i : ι) : ∃ sched past', Simulates stores part shade (run advance c sched) past'
      (SharedStore.step (split stores advance) c' i) := by
  have hne : ∀ i, ∀ w ∈ (c.threads i).queue, stores w ≠ [] :=
    fun i w hw => hcar.ne_nil w (hP i w hw)
  cases hq : (c'.threads i).queue with
  | nil => exact ⟨[i],past,hs.compute hne hq⟩
  | cons x xs =>
    obtain ⟨w,q,rest,hw,hst,rfl⟩ := (hs.behind i).queue_eq_cons (hne i) hq
    cases rest with
    | nil => exact ⟨[i],_,hs.last hcar hP hg hdisj hw hst hq⟩
    | cons y rest => exact ⟨[],_,hs.store hcar hP hg hdisj hw hst (by simp) hq⟩

/-- Every schedule of stores is that of a schedule of whole writes, with some writes under way. -/
theorem Simulates.run (hcar : Carries stores part shade P)
    (hconf : ∀ i, Confined (advance i) (Inv i) (own i))
    (hwrites : ∀ i s, Inv i s → ∀ w ∈ (advance i s).1, P w)
    (hdisj : ∀ i j a, own i a → own j a → i = j) (hs : Simulates stores part shade c past c')
    (hP : ∀ i, ∀ w ∈ (c.threads i).queue, P w) (hg : ∀ i, (c.threads i).Good (Inv i) (own i))
    (sched : List ι) : ∃ sched' past', Simulates stores part shade
      (SharedStore.run advance c sched') past'
      (SharedStore.run (split stores advance) c' sched) ∧
      ∀ i, ∀ w ∈ ((SharedStore.run advance c sched').threads i).queue, P w := by
  induction sched generalizing c past c' with
  | nil => exact ⟨[],past,hs,hP⟩
  | cons i sched ih =>
    obtain ⟨sched₁,past₁,hs₁⟩ : ∃ sched past', Simulates stores part shade
        (SharedStore.run advance c sched) past' (SharedStore.step (split stores advance) c' i) :=
      hs.step hcar hP hg hdisj i
    have hqueued := run_queued (P := P) (fun i s hi => ⟨(hconf i s hi).1,hwrites i s hi⟩)
      (fun i => ⟨(hg i).1,hP i⟩) sched₁
    obtain ⟨sched₂,past₂,hs₂,hP₂⟩ := ih hs₁ (fun i => (hqueued i).2) (run_good hconf hg sched₁)
    refine ⟨sched₁ ++ sched₂,past₂,?_,?_⟩
    · rw [run_append]
      exact hs₂
    · rw [run_append]
      exact hP₂

end Simulation

end SharedStore
end EmbeddedSystems
