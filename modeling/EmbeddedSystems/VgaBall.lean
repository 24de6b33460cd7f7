import EmbeddedSystems.Clocked

/-! `vga_ball.sv`: a register file written over the Avalon bus, the scan counters of
`vga_counters` and the combinational picture. Widths follow the source: the differences
are 11-bit, the squared distance is computed in 22 bits from sign-extended differences,
and the comparison takes the 6-bit radius up to 22 bits before it is squared. -/

namespace EmbeddedSystems
namespace VgaBall

open Clocked

/-- One cycle of the Avalon slave port. -/
structure Bus where
  writedata : BitVec 32
  write : Bool
  chipselect : Bool
  address : BitVec 3
  deriving DecidableEq, Repr

structure Input where
  reset : Bool
  bus : Bus
  deriving DecidableEq, Repr

abbrev Color := BitVec 8 × BitVec 8 × BitVec 8

@[ext] structure Registers where
  background : Color
  ballX : BitVec 16
  ballY : BitVec 16
  deriving DecidableEq, Repr

structure Counters where
  hcount : BitVec 11
  vcount : BitVec 10
  deriving DecidableEq, Repr

structure State where
  regs : Registers
  counters : Counters
  deriving DecidableEq, Repr

def hactive : BitVec 11 := 1280
def hfrontPorch : BitVec 11 := 32
def hsync : BitVec 11 := 192
def hbackPorch : BitVec 11 := 96
def htotal : BitVec 11 := hactive+hfrontPorch+hsync+hbackPorch

def vactive : BitVec 10 := 480
def vfrontPorch : BitVec 10 := 10
def vsync : BitVec 10 := 2
def vbackPorch : BitVec 10 := 33
def vtotal : BitVec 10 := vactive+vfrontPorch+vsync+vbackPorch

/-- The values `reset` puts into the register file. -/
def resetRegisters : Registers := ⟨(0x80,0x0,0x80),320,240⟩

/-- The register file on an edge without `reset`. -/
def writeRegisters (r : Registers) (b : Bus) : Registers :=
  if b.chipselect && b.write then
    match b.address with
    | 0#3 => { r with background :=
        (b.writedata.extractLsb' 16 8,b.writedata.extractLsb' 8 8,b.writedata.extractLsb' 0 8) }
    | 1#3 => if b.writedata.extractLsb' 0 16 ≤ 639#16 then
        { r with ballX := b.writedata.extractLsb' 0 16 } else r
    | 2#3 => if b.writedata.extractLsb' 0 16 ≤ 479#16 then
        { r with ballY := b.writedata.extractLsb' 0 16 } else r
    | _ => r
  else r

def endOfLine (c : Counters) : Bool := c.hcount.setWidth 32 = htotal.setWidth 32-1

def endOfField (c : Counters) : Bool := c.vcount.setWidth 32 = vtotal.setWidth 32-1

/-- The scan counters on an edge without `reset`. -/
def advance (c : Counters) : Counters where
  hcount := if endOfLine c then 0 else c.hcount+1
  vcount := if endOfLine c then (if endOfField c then 0 else c.vcount+1) else c.vcount

def step (s : State) (i : Input) : State :=
  if i.reset then ⟨resetRegisters,⟨0,0⟩⟩
  else ⟨writeRegisters s.regs i.bus,advance s.counters⟩

def vgaHs (c : Counters) : Bool :=
  !(c.hcount.extractLsb' 8 3 = 0b101#3 && !(c.hcount.extractLsb' 5 3 = 0b111#3))

def vgaVs (c : Counters) : Bool :=
  !((c.vcount.extractLsb' 1 9).setWidth 32 = (vactive.setWidth 32+vfrontPorch.setWidth 32)/2)

def vgaBlankN (c : Counters) : Bool :=
  !(c.hcount[10] && (c.hcount[9] || c.hcount[8])) &&
    !(c.vcount[9] || c.vcount.extractLsb' 5 4 = 0b1111#4)

def vgaClk (c : Counters) : Bool := c.hcount[0]

def pixelX (s : State) : BitVec 10 := s.counters.hcount.extractLsb' 1 10

def pixelY (s : State) : BitVec 10 := s.counters.vcount

def xDiff (s : State) : BitVec 11 := (0#1 ++ pixelX s) - s.regs.ballX.extractLsb' 0 11

def yDiff (s : State) : BitVec 11 := (0#1 ++ pixelY s) - s.regs.ballY.extractLsb' 0 11

def dist2 (s : State) : BitVec 22 :=
  (xDiff s).signExtend 22*(xDiff s).signExtend 22 + (yDiff s).signExtend 22*(yDiff s).signExtend 22

def ballRadius : BitVec 6 := 16

def inBall (s : State) : Bool := dist2 s ≤ ballRadius.setWidth 22*ballRadius.setWidth 22

/-- `{VGA_R, VGA_G, VGA_B}`. -/
def vgaRgb (s : State) : Color :=
  if vgaBlankN s.counters then
    if inBall s then (0xff,0x0,0x0) else s.regs.background
  else (0x0,0x0,0x0)

end VgaBall
end EmbeddedSystems
