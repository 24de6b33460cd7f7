import EmbeddedSystems.RangeTally

/-! `lab1.sv` puts the range sweeper behind four debounced buttons and ten switches. `go` starts a
sweep from the number on the switches; after it, `add`, `sub` and `reset` move through the
counts. `button_press.sv` turns the levels of `add` and `sub` into pulses. The machine is driven
by the debounced levels, one sample for each clock edge, and starts all zero. -/

namespace EmbeddedSystems

namespace ButtonPress

structure State where
  prev : Bool
  cnt : BitVec 25
  held : Bool
  pulse : Bool
  deriving DecidableEq, Repr

def powerUp : State := ⟨false,0,false,false⟩

/-- The parameters of `button_press`, in the range of its 25-bit counter. -/
structure Params where
  hold : ℕ
  repeatAfter : ℕ
  hold_pos : 1 ≤ hold
  hold_le : hold ≤ 2^25
  repeatAfter_pos : 1 ≤ repeatAfter
  repeatAfter_le : repeatAfter ≤ 2^25

/-- A pulse on the rising edge of the button, and more of them once it is held down. -/
def clock (P : Params) (s : State) (btn : Bool) : State :=
  let s' := { s with prev := btn, pulse := false }
  if !btn then { s' with cnt := 0, held := false }
  else if !s.prev then { s' with pulse := true }
  else if s.cnt.toNat < (if s.held then P.repeatAfter else P.hold)-1 then
    { s' with cnt := s.cnt+1 }
  else { s' with pulse := true, cnt := 0, held := true }

def defaults : Params where
  hold := 25000000
  repeatAfter := 5000000
  hold_pos := by decide
  hold_le := by decide
  repeatAfter_pos := by decide
  repeatAfter_le := by decide

def step : State → Bool → State := clock defaults

end ButtonPress

namespace Lab1

open Clocked

structure Input where
  go : Bool
  add : Bool
  sub : Bool
  reset : Bool
  sw : BitVec 10
  deriving DecidableEq, Repr

structure State where
  start : BitVec 32
  startIndex : BitVec 8
  ready : Bool
  addCtrl : ButtonPress.State
  subCtrl : ButtonPress.State
  r : Range.State 256 8

def powerUp : State where
  start := 0
  startIndex := 0
  ready := false
  addCtrl := ButtonPress.powerUp
  subCtrl := ButtonPress.powerUp
  r := Range.powerUp

/-- The `always_ff` block of `lab1`: three blocks in a row, of which the last assignment to a
register wins. -/
def browse (s : State) (i : Input) : State :=
  let s₁ := if i.go then { s with start := i.sw.setWidth 32, ready := false, startIndex := 0 } else s
  let s₂ := if s.r.done then { s₁ with start := 0, ready := true } else s₁
  if s.ready then
    if s.addCtrl.pulse && decide (s.start < 255) then
      { s₂ with start := s.start+1, startIndex := s.startIndex+1 }
    else if s.subCtrl.pulse && decide (s.start > 0) then
      { s₂ with start := s.start-1, startIndex := s.startIndex-1 }
    else if i.reset then { s₂ with start := 0, startIndex := 0 }
    else s₂
  else s₂

def step (s : State) (i : Input) : State :=
  { browse s i with
    addCtrl := ButtonPress.step s.addCtrl i.add
    subCtrl := ButtonPress.step s.subCtrl i.sub
    r := Range.step s.r ⟨i.go,s.start⟩ }

def startDisplay (s : State) (sw : BitVec 10) : BitVec 12 :=
  sw.setWidth 12 + s.startIndex.setWidth 12

/-- The count on the right three digits: `{unused, count}` is the count of the sweeper. -/
def count (s : State) : BitVec 12 := s.r.count.setWidth 12

section Fields

variable (s : State) (i : Input)

@[simp] theorem step_r : (step s i).r = Range.step s.r ⟨i.go,s.start⟩ := rfl

@[simp] theorem step_ready : (step s i).ready = (s.r.done || (!i.go && s.ready)) := by
  simp only [step,browse,apply_ite State.ready,ite_self]
  cases s.r.done <;> cases i.go <;> simp

theorem step_start_unready (hr : s.ready = false) : (step s i).start =
    if s.r.done then 0 else if i.go then i.sw.setWidth 32 else s.start := by
  simp only [step,browse,hr,Bool.false_eq_true,if_false,apply_ite State.start]

theorem step_startIndex_unready (hr : s.ready = false) : (step s i).startIndex =
    if i.go then 0 else s.startIndex := by
  simp only [step,browse,hr,Bool.false_eq_true,if_false,apply_ite State.startIndex,ite_self]

theorem step_ready_cases (hr : s.ready = true) :
    (s.start < 255 ∧ (step s i).start = s.start+1 ∧ (step s i).startIndex = s.startIndex+1) ∨
    (s.start > 0 ∧ (step s i).start = s.start-1 ∧ (step s i).startIndex = s.startIndex-1) ∨
    ((step s i).start = 0 ∧ (step s i).startIndex = 0) ∨
    ((step s i).start = (if s.r.done then 0 else if i.go then i.sw.setWidth 32 else s.start) ∧
      (step s i).startIndex = if i.go then 0 else s.startIndex) := by
  simp only [step,browse,hr,if_true]
  by_cases ha : (s.addCtrl.pulse && decide (s.start < 255)) = true
  · left
    rw [if_pos ha]
    rw [Bool.and_eq_true,decide_eq_true_eq] at ha
    exact ⟨ha.2,rfl,rfl⟩
  · rw [if_neg ha]
    by_cases hs : (s.subCtrl.pulse && decide (s.start > 0)) = true
    · right; left
      rw [if_pos hs]
      rw [Bool.and_eq_true,decide_eq_true_eq] at hs
      exact ⟨hs.2,rfl,rfl⟩
    · rw [if_neg hs]
      by_cases hres : i.reset = true
      · right; right; left
        rw [if_pos hres]
        exact ⟨rfl,rfl⟩
      · right; right; right
        rw [if_neg hres]
        simp only [apply_ite State.start,apply_ite State.startIndex,ite_self,and_self]

end Fields

theorem trace_r (s : State) (w : ℕ → Input) (t : ℕ) :
    (trace step s w t).r =
      trace Range.step s.r (fun u => ⟨(w u).go,(trace step s w u).start⟩) t := by
  induction t with
  | zero => rfl
  | succ t ih => rw [trace_succ,trace_succ,step_r,ih]

theorem trace_addCtrl (w : ℕ → Input) (t : ℕ) : (trace step powerUp w t).addCtrl =
    trace ButtonPress.step ButtonPress.powerUp (fun u => (w u).add) t :=
  trace_component State.addCtrl Input.add (fun _ _ => rfl) powerUp w t

theorem trace_subCtrl (w : ℕ → Input) (t : ℕ) : (trace step powerUp w t).subCtrl =
    trace ButtonPress.step ButtonPress.powerUp (fun u => (w u).sub) t :=
  trace_component State.subCtrl Input.sub (fun _ _ => rfl) powerUp w t

def goHeld (w : ℕ → Input) (t : ℕ) : ℕ := streak (fun u => (w u).go) t

theorem goHeld_succ (w : ℕ → Input) (t : ℕ) :
    goHeld w (t+1) = if (w t).go then goHeld w t+1 else 0 := rfl

theorem goHeld_of_low (w : ℕ → Input) {t : ℕ} (h : (w t).go = false) : goHeld w (t+1) = 0 := by
  rw [goHeld_succ,h]
  rfl

/-- Each high phase of `go` lasts at least three edges. -/
def LongPhases (w : ℕ → Input) : Prop :=
  ∀ t, (w t).go = true → (∀ u, t = u+1 → (w u).go = false) →
    (w (t+1)).go = true ∧ (w (t+2)).go = true

theorem goHeld_eq_succ {w : ℕ → Input} {t k : ℕ} (h : goHeld w t = k+1) :
    ∃ u, t = u+1 ∧ (w u).go = true ∧ goHeld w u = k := by
  cases t with
  | zero => exact absurd h nofun
  | succ u =>
    have hgo : (w u).go = true := by
      by_contra hg
      simp [goHeld_succ,hg] at h
    exact ⟨u,rfl,hgo,by simpa [goHeld_succ,hgo] using h⟩

theorem goHeld_eq_zero {w : ℕ → Input} {t : ℕ} (h : goHeld w t = 0) (u : ℕ) (hu : t = u+1) :
    (w u).go = false := by
  subst hu
  by_contra hg
  simp [goHeld_succ,hg] at h

theorem LongPhases.goHeld_low {w : ℕ → Input} (h : LongPhases w) {t : ℕ} (ht : (w t).go = false) :
    goHeld w t = 0 ∨ 3 ≤ goHeld w t := by
  by_contra hc
  have hk : goHeld w t = 0+1 ∨ goHeld w t = 1+1 := by omega
  rcases hk with h1 | h2
  · obtain ⟨u,rfl,hgo,h0⟩ := goHeld_eq_succ h1
    have hnext := (h u hgo (goHeld_eq_zero h0)).1
    rw [ht] at hnext
    exact Bool.false_ne_true hnext
  · obtain ⟨u,rfl,-,h1⟩ := goHeld_eq_succ h2
    obtain ⟨v,rfl,hgo,h0⟩ := goHeld_eq_succ h1
    have hnext := (h v hgo (goHeld_eq_zero h0)).2
    rw [show v+2 = v+1+1 from rfl,ht] at hnext
    exact Bool.false_ne_true hnext

/-- What `start` was on the last edge with `go` high: the number the latest sweep starts from. -/
def base (w : ℕ → Input) : ℕ → BitVec 32
  | 0 => 0
  | t+1 => if (w t).go then (trace step powerUp w t).start else base w t

/-- After three edges with `go` high the sweeper is armed, whatever it did before. -/
theorem armed_trace (w : ℕ → Input) {t : ℕ} (h : 3 ≤ goHeld w t) :
    Range.Armed (base w t) (trace step powerUp w t).r.mem (trace step powerUp w t).r := by
  obtain ⟨k,hk⟩ := Nat.exists_eq_add_of_le' h
  obtain ⟨u₂,rfl,hgo₂,h₂⟩ := goHeld_eq_succ hk
  obtain ⟨u₁,rfl,hgo₁,h₁⟩ := goHeld_eq_succ h₂
  obtain ⟨u₀,rfl,hgo₀,-⟩ := goHeld_eq_succ h₁
  have hbase : base w (u₀+1+1+1) = (trace step powerUp w (u₀+1+1)).start := by
    rw [base,if_pos hgo₂]
  rw [hbase,trace_succ _ _ _ (u₀+1+1),step_r,hgo₂,trace_succ _ _ _ (u₀+1),step_r,hgo₁,
    trace_succ _ _ _ u₀,step_r,hgo₀]
  exact Range.armed_of_three_goes _ _ _ _

end Lab1
end EmbeddedSystems
