import EmbeddedSystems.Clocked
import Mathlib.Data.List.Sublists

/-! A trace is a list of steps tagged with the thread that takes them. It interleaves a family
of programs when every thread takes exactly the steps of its own program, in order. -/

namespace EmbeddedSystems
namespace Interleaving

variable {ι ω : Type*} [DecidableEq ι]

/-- The steps thread `i` takes in a tagged trace. -/
def stepsOf (i : ι) (tr : List (ι × ω)) : List ω := (tr.filter fun e => e.1 = i).map Prod.snd

def Interleaves (prog : ι → List ω) (tr : List (ι × ω)) : Prop := ∀ i, stepsOf i tr = prog i

theorem Interleaves.mem {prog : ι → List ω} {tr : List (ι × ω)} (h : Interleaves prog tr)
    (i : ι) (a : ω) : (i,a) ∈ tr ↔ a ∈ prog i := by
  rw [← h i,stepsOf,List.mem_map]
  constructor
  · intro hm
    exact ⟨(i,a),List.mem_filter.mpr ⟨hm,by simp⟩,rfl⟩
  · rintro ⟨⟨j,b⟩,hm,rfl⟩
    have hj := (List.mem_filter.mp hm).2
    obtain rfl : j = i := by simpa using hj
    exact (List.mem_filter.mp hm).1

/-- Among the threads in `K`, no step of one falls between two steps of another. -/
def NoOverlap (K : ι → Bool) (tr : List (ι × ω)) : Prop :=
  ∀ i j a b c, K i → K j → i ≠ j → ¬[(i,a),(j,b),(i,c)].Sublist tr

omit [DecidableEq ι] in
theorem NoOverlap.tail {K : ι → Bool} {e : ι × ω} {tr : List (ι × ω)} (h : NoOverlap K (e::tr)) :
    NoOverlap K tr :=
  fun i j a b c hi hj hij hs => h i j a b c hi hj hij (hs.cons e)

/-- Thread `i` takes the last steps of all threads in `K`, after the steps `pre` of others. -/
structure LastOf (K : ι → Bool) (tr : List (ι × ω)) (i : ι) (pre : List (ι × ω)) : Prop where
  mem : K i = true
  active : ∃ a, (i,a) ∈ tr
  others : ∀ e ∈ pre, e.1 ≠ i
  split : tr.filter (fun e => K e.1) = pre ++ tr.filter (fun e => e.1 = i)

theorem LastOf.eq_nil {K : ι → Bool} {tr : List (ι × ω)} {i : ι} {pre : List (ι × ω)} {a : ω}
    (hl : LastOf K tr i pre) (h : NoOverlap K ((i,a)::tr)) : pre = [] := by
  rw [List.eq_nil_iff_forall_not_mem]
  rintro ⟨j,b⟩ hb
  obtain ⟨c,hc⟩ := hl.active
  have hKj : K j = true := by
    have hm : (j,b) ∈ tr.filter (fun e => K e.1) := by
      rw [hl.split]
      exact List.mem_append_left _ hb
    simpa using (List.mem_filter.mp hm).2
  have hsub : [(j,b),(i,c)].Sublist (tr.filter fun e => K e.1) := by
    rw [hl.split]
    have hc' : (i,c) ∈ tr.filter (fun e => e.1 = i) := by simp [hc]
    exact (List.singleton_sublist.mpr hb).append (List.singleton_sublist.mpr hc')
  exact h i j a b c hl.mem hKj (hl.others _ hb).symm
    ((hsub.trans List.filter_sublist).cons_cons _)

/-- Without overlap, the steps of `K` end with the whole of one thread's steps. -/
theorem NoOverlap.exists_last {K : ι → Bool} {tr : List (ι × ω)} (h : NoOverlap K tr)
    (hex : ∃ e ∈ tr, K e.1 = true) : ∃ i pre, LastOf K tr i pre := by
  induction tr with
  | nil => simp at hex
  | cons e tr ih =>
    by_cases htail : ∃ e ∈ tr, K e.1 = true
    · obtain ⟨i,pre,hl⟩ := ih h.tail htail
      obtain ⟨a,ha⟩ := hl.active
      by_cases he : e.1 = i
      · obtain ⟨j,b⟩ := e
        obtain rfl : j = i := he
        refine ⟨j,[],hl.mem,⟨a,List.mem_cons_of_mem _ ha⟩,by simp,?_⟩
        simp [hl.mem,hl.split,hl.eq_nil h]
      · refine ⟨i,if K e.1 then e::pre else pre,hl.mem,⟨a,List.mem_cons_of_mem _ ha⟩,?_,?_⟩
        · intro x hx
          split_ifs at hx
          · rcases List.mem_cons.mp hx with rfl | hx
            · exact he
            · exact hl.others x hx
          · exact hl.others x hx
        · cases hK : K e.1 <;> simp [hK,he,hl.split]
    · obtain ⟨f,hf,hKf⟩ := hex
      have hef : f = e := by
        rcases List.mem_cons.mp hf with hf | hf
        · exact hf
        · exact absurd ⟨f,hf,hKf⟩ htail
      subst hef
      have hnone : ∀ x ∈ tr, K x.1 = false := fun x hx => by
        rw [Bool.eq_false_iff]
        exact fun hk => htail ⟨x,hx,hk⟩
      have hne : ∀ x ∈ tr, x.1 ≠ f.1 := by
        intro x hx he
        have hh := hnone x hx
        rw [he,hKf] at hh
        exact absurd hh (by decide)
      refine ⟨f.1,[],hKf,⟨f.2,List.mem_cons_self⟩,by simp,?_⟩
      rw [List.filter_cons,List.filter_cons,List.filter_eq_nil_iff.mpr (by simpa using hnone),
        List.filter_eq_nil_iff.mpr (by simpa using hne)]
      simp [hKf]

/-- The thread that takes the last of the steps that `accept` takes a value from. -/
def lastWriter {α : Type*} (accept : ω → Option α) (tr : List (ι × ω)) : Option ι :=
  (tr.filterMap fun e => (accept e.2).map fun _ => e.1).getLast?

section LastWriter

variable {α : Type*} {accept : ω → Option α} {tr : List (ι × ω)}

omit [DecidableEq ι]

theorem lastWriter_append_singleton (tr : List (ι × ω)) (e : ι × ω) :
    lastWriter accept (tr ++ [e]) =
      if (accept e.2).isSome then some e.1 else lastWriter accept tr := by
  unfold lastWriter
  rw [List.filterMap_append]
  cases h : accept e.2 <;> simp [h]

theorem lastWriter_eq_none : lastWriter accept tr = none ↔ ∀ e ∈ tr, accept e.2 = none := by
  rw [lastWriter,List.getLast?_eq_none_iff,List.filterMap_eq_nil_iff]
  simp

theorem lastWriter_mem {i : ι} (h : lastWriter accept tr = some i) :
    ∃ a, (i,a) ∈ tr ∧ (accept a).isSome = true := by
  have hm := List.mem_of_getLast? h
  obtain ⟨e,he,hi⟩ := List.mem_filterMap.mp hm
  obtain ⟨v,hv,rfl⟩ := Option.map_eq_some_iff.mp hi
  exact ⟨e.2,he,by rw [hv]; rfl⟩

/-- A register to which each thread `i` writes nothing but `val i` holds the value of its last
writer. -/
theorem latest_eq_lastWriter {val : ι → Option α}
    (hval : ∀ e ∈ tr, ∀ v, accept e.2 = some v → val e.1 = some v) (d : α) :
    Clocked.latest accept d (tr.map Prod.snd) = ((lastWriter accept tr).bind val).getD d := by
  induction tr using List.reverseRecOn with
  | nil => rfl
  | append_singleton tr e ih =>
    rw [List.map_append,List.map_singleton,Clocked.latest_append_singleton,
      lastWriter_append_singleton]
    cases hv : accept e.2 with
    | none =>
      rw [Option.getD_none,ih fun e' he' => hval e' (List.mem_append_left _ he')]
      rfl
    | some v =>
      have hi := hval e (List.mem_append_right _ (List.mem_singleton_self e)) v hv
      simp [hi]

end LastWriter

theorem LastOf.lastWriter {α : Type*} {K : ι → Bool} {tr : List (ι × ω)} {i : ι}
    {pre : List (ι × ω)} (hl : LastOf K tr i pre) {accept : ω → Option α}
    (hK : ∀ e ∈ tr, K e.1 = false → accept e.2 = none)
    (hi : ∃ a, (i,a) ∈ tr ∧ (accept a).isSome = true) :
    Interleaving.lastWriter accept tr = some i := by
  let g : ι × ω → Option ι := fun e => (accept e.2).map fun _ => e.1
  have hsplit : tr.filterMap g = (tr.filter fun e => K e.1).filterMap g := by
    rw [List.filterMap_filter]
    apply List.filterMap_congr
    intro e he
    cases hKe : K e.1
    · simp [g,hK e he hKe]
    · simp
  -- what is left of `i` is not empty, and all of it is `i`
  have hall : ∀ j ∈ (tr.filter fun e => e.1 = i).filterMap g, j = i := by
    intro j hj
    obtain ⟨e,he,hg⟩ := List.mem_filterMap.mp hj
    obtain ⟨v,-,rfl⟩ := Option.map_eq_some_iff.mp hg
    simpa using (List.mem_filter.mp he).2
  obtain ⟨a,ha,hv⟩ := hi
  have hmem : i ∈ (tr.filter fun e => e.1 = i).filterMap g := by
    obtain ⟨v,hv⟩ := Option.isSome_iff_exists.mp hv
    exact List.mem_filterMap.mpr ⟨(i,a),by simp [ha],by simp [g,hv]⟩
  have hne : (tr.filter fun e => e.1 = i).filterMap g ≠ [] := List.ne_nil_of_mem hmem
  obtain ⟨j,hj⟩ := Option.ne_none_iff_exists'.mp (mt List.getLast?_eq_none_iff.mp hne)
  have he : Interleaving.lastWriter accept tr = (tr.filterMap g).getLast? := rfl
  rw [he,hsplit,hl.split,List.filterMap_append,List.getLast?_append,hj,
    hall j (List.mem_of_getLast? hj)]
  rfl

theorem exists_perm_getLast (l : List ι) (o : Option ι)
    (hsome : ∀ i, o = some i → i ∈ l) (hnone : o = none → l = []) :
    ∃ l' : List ι, l'.Perm l ∧ l'.getLast? = o := by
  cases o with
  | none =>
    rw [hnone rfl]
    exact ⟨[],List.Perm.refl _,rfl⟩
  | some i =>
    refine ⟨l.erase i ++ [i],?_,by simp⟩
    exact (List.perm_append_singleton i _).trans (List.perm_cons_erase (hsome i rfl)).symm

end Interleaving
end EmbeddedSystems
