import EmbeddedSystems.ButtonSchedule
import EmbeddedSystems.Debouncer
import EmbeddedSystems.Lab1Display

/-! The whole of `lab1.sv`: four debouncers in front of the machine of `Lab1Machine`, and the
seven-segment digits of `hex7seg.sv` and the LEDs behind it. A run of the board is driven by the
raw keys and switches, one sample for each clock edge. -/

namespace EmbeddedSystems
namespace Lab1

open Clocked CollatzOrbit

/-- The segments of a hexadecimal digit; a segment is lit while its bit is low. -/
def hex7seg (a : BitVec 4) : BitVec 7 :=
  match a.toNat with
  | 0x0 => 0x40
  | 0x1 => 0x79
  | 0x2 => 0x24
  | 0x3 => 0x30
  | 0x4 => 0x19
  | 0x5 => 0x12
  | 0x6 => 0x02
  | 0x7 => 0x78
  | 0x8 => 0x00
  | 0x9 => 0x10
  | 0xa => 0x08
  | 0xb => 0x03
  | 0xc => 0x46
  | 0xd => 0x21
  | 0xe => 0x06
  | 0xf => 0x0e
  | _ => 0x00

def readDigit (y : BitVec 7) : Option ℕ :=
  (List.range 16).find? fun a => hex7seg (BitVec.ofNat 4 a) = y

theorem readDigit_hex7seg (a : BitVec 4) : readDigit (hex7seg a) = some a.toNat := by
  revert a
  decide

/-- What the board shows: six digits, `hex0` the rightmost, and the LEDs above the switches. -/
structure Panel where
  hex5 : BitVec 7
  hex4 : BitVec 7
  hex3 : BitVec 7
  hex2 : BitVec 7
  hex1 : BitVec 7
  hex0 : BitVec 7
  ledr : BitVec 10
  deriving DecidableEq, Repr

/-- The upper four bits of the sweeper's count, which only the last LED reads. -/
def unused (s : State) : BitVec 4 := s.r.count.extractLsb' 12 4

def panel (s : State) (sw : BitVec 10) : Panel where
  hex5 := hex7seg ((startDisplay s sw).extractLsb' 8 4)
  hex4 := hex7seg ((startDisplay s sw).extractLsb' 4 4)
  hex3 := hex7seg ((startDisplay s sw).extractLsb' 0 4)
  hex2 := hex7seg ((count s).extractLsb' 8 4)
  hex1 := hex7seg ((count s).extractLsb' 4 4)
  hex0 := hex7seg ((count s).extractLsb' 0 4)
  ledr := BitVec.ofBool (sw.getLsbD 9 ^^ (((unused s).getLsbD 0 ^^ (unused s).getLsbD 1 ^^
    (unused s).getLsbD 2 ^^ (unused s).getLsbD 3) && false)) ++ sw.extractLsb' 0 9

def readNumber (y₂ y₁ y₀ : BitVec 7) : Option ℕ := do
  let d₂ ← readDigit y₂
  let d₁ ← readDigit y₁
  let d₀ ← readDigit y₀
  return 256*d₂+16*d₁+d₀

theorem readNumber_hex7seg (x : BitVec 12) :
    readNumber (hex7seg (x.extractLsb' 8 4)) (hex7seg (x.extractLsb' 4 4))
      (hex7seg (x.extractLsb' 0 4)) = some x.toNat := by
  have hx := x.isLt
  simp only [readNumber,readDigit_hex7seg,BitVec.extractLsb'_toNat,Nat.shiftRight_eq_div_pow,
    Option.bind_eq_bind,Option.bind_some,Option.pure_def,Option.some.injEq]
  omega

namespace Panel

def left (d : Panel) : Option ℕ := readNumber d.hex5 d.hex4 d.hex3

def right (d : Panel) : Option ℕ := readNumber d.hex2 d.hex1 d.hex0

end Panel

section Shown

variable (s : State) (sw : BitVec 10)

@[simp] theorem panel_left : (panel s sw).left = some (sw.toNat+s.startIndex.toNat) := by
  rw [← startDisplay_toNat]
  exact readNumber_hex7seg _

@[simp] theorem panel_right : (panel s sw).right = some (count s).toNat :=
  readNumber_hex7seg _

@[simp] theorem panel_ledr : (panel s sw).ledr = sw := by
  have h : ∀ sw : BitVec 10, BitVec.ofBool (sw.getLsbD 9) ++ sw.extractLsb' 0 9 = sw := by decide
  simpa only [panel,Bool.and_false,Bool.xor_false] using h sw

end Shown

def addKey : Fin 4 := ⟨0,by decide⟩
def subKey : Fin 4 := ⟨1,by decide⟩
def resetKey : Fin 4 := ⟨2,by decide⟩
def goKey : Fin 4 := ⟨3,by decide⟩

structure Keys where
  add : Debouncer.State
  sub : Debouncer.State
  reset : Debouncer.State
  go : Debouncer.State
  deriving DecidableEq, Repr

structure Board where
  keys : Keys
  core : State

namespace Keys

def powerUp : Keys :=
  ⟨Debouncer.powerUp,Debouncer.powerUp,Debouncer.powerUp,Debouncer.powerUp⟩

/-- A key is low while it is pressed. -/
def step (k : Keys) (p : Pins) : Keys where
  add := Debouncer.step k.add (!p.key addKey)
  sub := Debouncer.step k.sub (!p.key subKey)
  reset := Debouncer.step k.reset (!p.key resetKey)
  go := Debouncer.step k.go (!p.key goKey)

def levels (k : Keys) (p : Pins) : Input := ⟨k.go.next,k.add.next,k.sub.next,k.reset.next,p.sw⟩

end Keys

namespace Board

def powerUp : Board := ⟨Keys.powerUp,Lab1.powerUp⟩

/-- One clock edge of everything on the board. -/
def step (b : Board) (p : Pins) : Board := ⟨b.keys.step p,Lab1.step b.core (b.keys.levels p)⟩

def after (p : ℕ → Pins) (t : ℕ) : Board := trace step powerUp p t

def shown (p : ℕ → Pins) (t : ℕ) : Panel := panel (after p t).core (p t).sw

variable (p : ℕ → Pins)

theorem after_keys (t : ℕ) : (after p t).keys =
    ⟨trace Debouncer.step Debouncer.powerUp (fun u => !(p u).key 0) t,
      trace Debouncer.step Debouncer.powerUp (fun u => !(p u).key 1) t,
      trace Debouncer.step Debouncer.powerUp (fun u => !(p u).key 2) t,
      trace Debouncer.step Debouncer.powerUp (fun u => !(p u).key 3) t⟩ := by
  induction t with
  | zero => rfl
  | succ t ih =>
    have hk : (after p (t+1)).keys = (after p t).keys.step (p t) := rfl
    rw [hk,ih]
    rfl

/-- Behind its debouncers the board runs on the debounced pins. -/
theorem after_core (t : ℕ) :
    (after p t).core = trace Lab1.step Lab1.powerUp (debounced p) t := by
  induction t with
  | zero => rfl
  | succ t ih =>
    have hc : (after p (t+1)).core =
        Lab1.step (after p t).core ((after p t).keys.levels (p t)) := rfl
    have hl : (after p t).keys.levels (p t) = debounced p t := by
      rw [after_keys]
      rfl
    rw [hc,hl,ih,trace_succ]

end Board
end Lab1
end EmbeddedSystems
