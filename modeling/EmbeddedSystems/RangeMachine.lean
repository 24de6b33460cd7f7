import EmbeddedSystems.CollatzMachine

/-! `range.sv` drives one Collatz iterator over consecutive start values and stores
the length of each orbit in a RAM of `W` words (`RAM_WORDS`) addressed by `B` bits
(`RAM_ADDR_BITS`). Every right-hand side reads the state before the edge, and the
assignments of the control block are replayed in source order on the next state, so
that the last one wins. The state before the first edge is all zero. -/

namespace EmbeddedSystems
namespace Range

structure Input where
  go : Bool
  start : BitVec 32
  deriving DecidableEq, Repr

structure State (W B : ℕ) where
  running : Bool
  done : Bool
  cgo : Bool
  we : Bool
  n : BitVec 32
  num : BitVec B
  din : BitVec 16
  mem : Fin W → BitVec 16
  count : BitVec 16
  c1 : Collatz.State

variable {W B : ℕ}

def powerUp : State W B where
  running := false
  done := false
  cgo := false
  we := false
  n := 0
  num := 0
  din := 0
  mem := fun _ => 0
  count := 0
  c1 := ⟨0,false⟩

/-- `RAM_ADDR_BITS'(RAM_WORDS - 1)`: the address whose write ends a sweep. -/
def lastNum (W B : ℕ) : BitVec B := BitVec.ofNat B (W-1)

/-- The control block: generates `running`, `done`, `cgo`, `n`, `num`, `we` and `din`. -/
def control (s : State W B) (i : Input) : State W B :=
  let s₁ := if !s.running then { s with done := false } else s
  let s₂ := if s.cgo then { s₁ with cgo := false } else s₁
  let s₃ :=
    if s.we then
      let s' := { s₂ with we := false, din := 1, num := s.num+1 }
      if s.num = lastNum W B then { s' with running := false, done := true } else s'
    else if s.c1.done && s.running then { s₂ with we := true, cgo := true, n := s.n+1 }
    else if s.running && !s.cgo then { s₂ with din := s.din+1 }
    else s₂
  if i.go then { s₃ with running := true, n := i.start, num := 0, din := 1, cgo := true } else s₃

def addr (s : State W B) (i : Input) : BitVec B := if s.we then s.num else i.start.setWidth B

/-- A read outside the array has no defined value in the source; it is `0` here. -/
def readMem (mem : Fin W → BitVec 16) (a : ℕ) : BitVec 16 := if h : a < W then mem ⟨a,h⟩ else 0

def step (s : State W B) (i : Input) : State W B :=
  { control s i with
    mem := fun j => if s.we ∧ j.val = (addr s i).toNat then s.din else s.mem j
    count := readMem s.mem (addr s i).toNat
    c1 := Collatz.step s.c1 s.cgo s.n }

section Fields

variable (s : State W B) (i : Input)

@[simp] theorem step_running : (step s i).running =
    (i.go || (s.running && !(s.we && decide (s.num = lastNum W B)))) := by
  simp only [step,control,apply_ite State.running,ite_self]
  cases i.go <;> cases s.we <;> simp [Bool.and_comm]

@[simp] theorem step_done : (step s i).done =
    ((s.we && decide (s.num = lastNum W B)) || (s.running && s.done)) := by
  simp only [step,control,apply_ite State.done,ite_self]
  cases s.we <;> cases s.running <;> simp

@[simp] theorem step_we : (step s i).we = (!s.we && s.c1.done && s.running) := by
  simp only [step,control,apply_ite State.we,ite_self]
  cases s.we <;> cases s.c1.done <;> cases s.running <;> simp

@[simp] theorem step_cgo : (step s i).cgo = (i.go || (!s.we && s.c1.done && s.running)) := by
  simp only [step,control,apply_ite State.cgo,ite_self]
  cases i.go <;> cases s.we <;> cases s.cgo <;> simp

@[simp] theorem step_n : (step s i).n =
    if i.go then i.start else if !s.we && s.c1.done && s.running then s.n+1 else s.n := by
  simp only [step,control,apply_ite State.n,ite_self]
  cases i.go <;> cases s.we <;> simp

@[simp] theorem step_num : (step s i).num =
    if i.go then 0 else if s.we then s.num+1 else s.num := by
  simp only [step,control,apply_ite State.num,ite_self]

@[simp] theorem step_din : (step s i).din =
    if i.go || s.we then 1
    else if !s.c1.done && s.running && !s.cgo then s.din+1 else s.din := by
  simp only [step,control,apply_ite State.din,ite_self]
  cases i.go <;> cases s.we <;> cases s.c1.done <;> cases s.running <;> simp

@[simp] theorem step_mem : (step s i).mem =
    fun j => if s.we ∧ j.val = s.num.toNat then s.din else s.mem j := by
  funext j
  simp only [step,addr]
  split_ifs <;> simp_all

@[simp] theorem step_c1 : (step s i).c1 = Collatz.step s.c1 s.cgo s.n := rfl

end Fields

end Range
end EmbeddedSystems
