import Mathlib.Tactic

/-! Arrays and counting loops in the manner of C. Array accesses take an `int` index and fail
outside the array, so a computation that returns a value has used only valid indices. `Writes`
says what a sequence of stores to consecutive positions leaves behind. The loops count up or down
with a bound that the body does not change; each has its invariant rule. -/

namespace EmbeddedSystems
namespace CArray

variable {n : ℕ} {β σ : Type*}

/-- `a[i]` as an rvalue. -/
def get (a : Fin n → β) (i : ℤ) : Option β :=
  if h : 0 ≤ i ∧ i < n then some (a ⟨i.toNat,by omega⟩) else none

def set (a : Fin n → β) (i : ℤ) (c : β) : Option (Fin n → β) :=
  if h : 0 ≤ i ∧ i < n then some (Function.update a ⟨i.toNat,by omega⟩ c) else none

section Peek

variable [Inhabited β]

/-- The contents at position `j`; every position outside the array reads as the default. -/
def peek (a : Fin n → β) (j : ℕ) : β := if h : j < n then a ⟨j,h⟩ else default

theorem get_eq_peek (a : Fin n → β) {j : ℕ} (h : j < n) : get a (j : ℤ) = some (peek a j) := by
  have hj : (0 : ℤ) ≤ j ∧ (j : ℤ) < n := by omega
  simp [get,peek,h]

theorem eq_peek_of_get {a : Fin n → β} {j : ℕ} {c : β} (h : get a (j : ℤ) = some c) :
    c = peek a j := by
  by_cases hj : j < n
  · rw [get_eq_peek a hj] at h
    exact (Option.some.inj h).symm
  · rw [get,dif_neg (by omega)] at h
    exact absurd h (by simp)

/-- A valid store succeeds and changes exactly one position. -/
theorem set_spec (a : Fin n → β) {j : ℕ} (h : j < n) (c : β) :
    ∃ a', set a (j : ℤ) c = some a' ∧ ∀ i, peek a' i = if i = j then c else peek a i := by
  have hj : (0 : ℤ) ≤ j ∧ (j : ℤ) < n := by omega
  refine ⟨Function.update a ⟨j,h⟩ c,by simp [set,h],?_⟩
  intro i
  by_cases hi : i < n
  · by_cases he : i = j
    · subst he
      simp [peek,h]
    · have hne : (⟨i,hi⟩ : Fin n) ≠ ⟨j,h⟩ := by simpa using he
      simp [peek,hi,he,hne]
  · have he : i ≠ j := by omega
    simp [peek,hi,he]

/-- The store left the bytes `f 0`, …, `f (len-1)` from position `lo` on and nothing else. -/
def Writes (a a' : Fin n → β) (lo len : ℕ) (f : ℕ → β) : Prop :=
  ∀ j, peek a' j = if lo ≤ j ∧ j < lo+len then f (j-lo) else peek a j

namespace Writes

variable {a a' a'' : Fin n → β} {lo len m k : ℕ} {f f' h : ℕ → β}

theorem nil (a : Fin n → β) (lo : ℕ) (f : ℕ → β) : Writes a a lo 0 f := by
  intro j
  rw [if_neg (by omega)]

theorem inside (hw : Writes a a' lo len f) {d : ℕ} (hd : d < len) : peek a' (lo+d) = f d := by
  rw [hw,if_pos (by omega),Nat.add_sub_cancel_left]

theorem outside (hw : Writes a a' lo len f) {j : ℕ} (hj : ¬(lo ≤ j ∧ j < lo+len)) :
    peek a' j = peek a j := by
  rw [hw,if_neg hj]

theorem append (h₁ : Writes a a' lo m f) (h₂ : Writes a' a'' (lo+m) k f')
    (hf : ∀ d < m, h d = f d) (hf' : ∀ d < k, h (m+d) = f' d) : Writes a a'' lo (m+k) h := by
  intro j
  by_cases hlo : lo ≤ j ∧ j < lo+m
  · rw [h₂.outside (by omega),h₁,if_pos hlo,if_pos (by omega),hf _ (by omega)]
  · by_cases hhi : lo+m ≤ j ∧ j < lo+m+k
    · have he : j-lo = m+(j-(lo+m)) := by omega
      rw [h₂,if_pos hhi,if_pos (by omega),he,hf' _ (by omega)]
    · rw [h₂.outside hhi,h₁.outside hlo,if_neg (by omega)]

end Writes

/-- Stores to `rows` stretches of `len` positions that start `stride` apart. -/
structure WritesRows (a a' : Fin n → β) (lo stride len rows : ℕ) (f : ℕ → ℕ → β) : Prop where
  inside : ∀ y < rows, ∀ d < len, peek a' (lo+y*stride+d) = f y d
  outside : ∀ j, (∀ y < rows, ¬(lo+y*stride ≤ j ∧ j < lo+y*stride+len)) → peek a' j = peek a j

namespace WritesRows

variable {a a' a'' : Fin n → β} {lo stride len rows : ℕ} {f : ℕ → ℕ → β}

theorem nil (a : Fin n → β) (lo stride len : ℕ) (f : ℕ → ℕ → β) :
    WritesRows a a lo stride len 0 f := by
  refine ⟨?_,fun j _ => rfl⟩
  intro y hy
  exact absurd hy (Nat.not_lt_zero y)

theorem succ (h : WritesRows a a' lo stride len rows f) (hlen : len ≤ stride)
    (hw : Writes a' a'' (lo+rows*stride) len (f rows)) :
    WritesRows a a'' lo stride len (rows+1) f := by
  constructor
  · intro y hy d hd
    rcases Nat.lt_succ_iff_lt_or_eq.mp hy with hlt | rfl
    · have hstep : (y+1)*stride ≤ rows*stride := Nat.mul_le_mul_right stride hlt
      rw [Nat.succ_mul] at hstep
      rw [hw.outside (by omega)]
      exact h.inside y hlt d hd
    · exact hw.inside hd
  · intro j hj
    rw [hw.outside (hj rows (Nat.lt_succ_self rows))]
    exact h.outside j fun y hy => hj y (by omega)

end WritesRows

theorem set_writes (a : Fin n → β) {j : ℕ} (h : j < n) (c : β) :
    ∃ a', set a (j : ℤ) c = some a' ∧ Writes a a' j 1 fun _ => c := by
  obtain ⟨a',ha',hpeek⟩ := set_spec a h c
  refine ⟨a',ha',?_⟩
  intro i
  rw [hpeek]
  exact if_congr (by omega) rfl rfl

def slice (a : Fin n → β) (i j : ℕ) : List β := (List.range (j-i)).map fun d => peek a (i+d)

@[simp] theorem slice_length (a : Fin n → β) (i j : ℕ) : (slice a i j).length = j-i := by
  simp [slice]

@[simp] theorem slice_self (a : Fin n → β) (i : ℕ) : slice a i i = [] := by
  simp [slice]

theorem slice_congr {a a' : Fin n → β} {i j i' j' : ℕ} (hl : j-i = j'-i')
    (h : ∀ d < j-i, peek a (i+d) = peek a' (i'+d)) : slice a i j = slice a' i' j' := by
  unfold slice
  rw [← hl]
  apply List.map_congr_left
  intro d hd
  exact h d (List.mem_range.mp hd)

theorem slice_succ (a : Fin n → β) {i j : ℕ} (h : i ≤ j) :
    slice a i (j+1) = slice a i j ++ [peek a j] := by
  unfold slice
  rw [show j+1-i = j-i+1 by omega,List.range_succ,List.map_append]
  simp [show i+(j-i) = j by omega]

theorem slice_cons (a : Fin n → β) {i j : ℕ} (h : i < j) :
    slice a i j = peek a i :: slice a (i+1) j := by
  unfold slice
  rw [show j-i = j-(i+1)+1 by omega,List.range_succ_eq_map,List.map_cons,List.map_map]
  simp [Function.comp_def,Nat.add_assoc,Nat.add_comm 1]

theorem slice_append (a : Fin n → β) {i j k : ℕ} (hij : i ≤ j) (hjk : j ≤ k) :
    slice a i j ++ slice a j k = slice a i k := by
  induction k, hjk using Nat.le_induction with
  | base => simp
  | succ k hk ih => rw [slice_succ a hk,slice_succ a (hij.trans hk),← List.append_assoc,ih]

theorem slice_initial_of_lt (a : Fin n → β) {i j k : ℕ} (hij : i ≤ j) (hjk : j < k) :
    slice a i j <+: slice a i k ∧ slice a i j ≠ slice a i k := by
  constructor
  · rw [← slice_append a hij hjk.le]
    exact List.prefix_append _ _
  · intro he
    have hlen := congrArg List.length he
    rw [slice_length,slice_length] at hlen
    omega

end Peek

/-- `k` iterations of a body at `i`, `i-1`, …. -/
def loopDown (body : ℤ → σ → Option σ) (i : ℤ) : ℕ → σ → Option σ
  | 0, s => some s
  | k+1, s => (body i s).bind (loopDown body (i-1) k)

def loopUp (body : ℤ → σ → Option σ) (i : ℤ) : ℕ → σ → Option σ
  | 0, s => some s
  | k+1, s => (body i s).bind (loopUp body (i+1) k)

/-- `for (int i = hi; i > lo; i--) body`. -/
def forDown (hi lo : ℤ) (body : ℤ → σ → Option σ) (s : σ) : Option σ :=
  loopDown body hi (hi-lo).toNat s

def forUp (lo hi : ℤ) (body : ℤ → σ → Option σ) (s : σ) : Option σ :=
  loopUp body lo (hi-lo).toNat s

theorem forDown_rule {body : ℤ → σ → Option σ} {P : ℤ → σ → Prop} {hi lo : ℤ} (hle : lo ≤ hi)
    (hbody : ∀ i s, lo < i → i ≤ hi → P i s → ∃ s', body i s = some s' ∧ P (i-1) s')
    {s : σ} (h : P hi s) : ∃ s', forDown hi lo body s = some s' ∧ P lo s' := by
  obtain ⟨k,hk⟩ : ∃ k : ℕ, hi-lo = k := ⟨(hi-lo).toNat,by omega⟩
  unfold forDown
  rw [hk,Int.toNat_natCast]
  induction k generalizing hi s with
  | zero =>
    obtain rfl : hi = lo := by omega
    exact ⟨s,rfl,h⟩
  | succ k ih =>
    obtain ⟨s',hs',hP⟩ := hbody hi s (by omega) le_rfl h
    obtain ⟨s'',hs'',hP''⟩ := ih (by omega : lo ≤ hi-1)
      (fun i s h1 h2 => hbody i s h1 (by omega)) hP (by omega)
    refine ⟨s'',?_,hP''⟩
    rw [loopDown,hs']
    exact hs''

theorem forUp_rule {body : ℤ → σ → Option σ} {P : ℤ → σ → Prop} {lo hi : ℤ} (hle : lo ≤ hi)
    (hbody : ∀ i s, lo ≤ i → i < hi → P i s → ∃ s', body i s = some s' ∧ P (i+1) s')
    {s : σ} (h : P lo s) : ∃ s', forUp lo hi body s = some s' ∧ P hi s' := by
  obtain ⟨k,hk⟩ : ∃ k : ℕ, hi-lo = k := ⟨(hi-lo).toNat,by omega⟩
  unfold forUp
  rw [hk,Int.toNat_natCast]
  induction k generalizing lo s with
  | zero =>
    obtain rfl : hi = lo := by omega
    exact ⟨s,rfl,h⟩
  | succ k ih =>
    obtain ⟨s',hs',hP⟩ := hbody lo s le_rfl (by omega) h
    obtain ⟨s'',hs'',hP''⟩ := ih (by omega : lo+1 ≤ hi)
      (fun i s h1 h2 => hbody i s (by omega) h2) hP (by omega)
    refine ⟨s'',?_,hP''⟩
    rw [loopUp,hs']
    exact hs''

/-- The rule for a loop that counts from zero. -/
theorem forUp_zero_rule {body : ℤ → σ → Option σ} {P : ℕ → σ → Prop} {hi : ℕ}
    (hbody : ∀ i s, i < hi → P i s → ∃ s', body i s = some s' ∧ P (i+1) s')
    {s : σ} (h : P 0 s) : ∃ s', forUp 0 hi body s = some s' ∧ P hi s' := by
  obtain ⟨s',hs',m,hm,hP⟩ := forUp_rule (P := fun i s => ∃ m : ℕ, i = m ∧ P m s)
    (by omega : (0 : ℤ) ≤ hi)
    (by
      rintro i s - hlt ⟨m,rfl,hm⟩
      obtain ⟨s',hs',hP⟩ := hbody m s (by omega) hm
      exact ⟨s',hs',m+1,by push_cast; rfl,hP⟩)
    (⟨0,rfl,h⟩ : ∃ m : ℕ, (0 : ℤ) = m ∧ P m s)
  obtain rfl : hi = m := by omega
  exact ⟨s',hs',hP⟩

/-- The bytes from index `i` up to the first NUL; reading past the array fails. -/
def cStringFrom (a : Fin n → UInt8) : ℕ → ℤ → Option (List UInt8)
  | 0, _ => none
  | k+1, i => do
    let c ← get a i
    if c = 0 then return []
    else
      let rest ← cStringFrom a k (i+1)
      return c :: rest

def cString (a : Fin n → UInt8) : Option (List UInt8) := cStringFrom a (n+1) 0

theorem cString_isSome {a : Fin n → UInt8} {j : ℕ} (hj : j < n) (h0 : peek a j = 0) :
    ∃ s, cString a = some s := by
  have hfrom : ∀ d i k : ℕ, i+d = j → d < k → ∃ s, cStringFrom a k (i : ℤ) = some s := by
    intro d
    induction d with
    | zero =>
      intro i k hi hk
      obtain ⟨k,rfl⟩ := Nat.exists_eq_succ_of_ne_zero (by omega : k ≠ 0)
      obtain rfl : i = j := by omega
      exact ⟨[],by simp [cStringFrom,get_eq_peek a hj,h0]⟩
    | succ d ih =>
      intro i k hi hk
      obtain ⟨k,rfl⟩ := Nat.exists_eq_succ_of_ne_zero (by omega : k ≠ 0)
      obtain ⟨s,hs⟩ := ih (i+1) k (by omega) (by omega)
      rw [Nat.cast_add,Nat.cast_one] at hs
      by_cases hc : peek a i = 0
      · exact ⟨[],by simp [cStringFrom,get_eq_peek a (by omega : i < n),hc]⟩
      · exact ⟨peek a i :: s,by simp [cStringFrom,get_eq_peek a (by omega : i < n),hc,hs]⟩
  exact hfrom j 0 (n+1) (by omega) (by omega)

end CArray
end EmbeddedSystems
