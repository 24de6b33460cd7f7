import EmbeddedSystems.VgaBall

/-! The picture of the VGA ball peripheral over the integers: the register file holds the
latest accepted writes, and none of the fixed-width operations between the registers and
the pixel colour wraps. -/

namespace EmbeddedSystems
namespace VgaBall

open Clocked

/-- An 11-bit difference of a pixel coordinate and a small register is exact. -/
theorem diff_toInt (p : BitVec 10) (b : BitVec 16) (hb : b.toNat < 1024) :
    ((0#1 ++ p) - b.extractLsb' 0 11 : BitVec 11).toInt = (p.toNat : ℤ)-b.toNat := by
  have hp := p.isLt
  have hpn : (0#1 ++ p : BitVec 11).toNat = p.toNat := by
    rw [BitVec.toNat_append]
    simp
  have hbn : (b.extractLsb' 0 11).toNat = b.toNat := by
    simp [BitVec.extractLsb'_toNat]
    omega
  have hx : (0#1 ++ p : BitVec 11).toInt = p.toNat := by
    rw [BitVec.toInt_eq_toNat_of_lt (by omega),hpn]
  have hy : (b.extractLsb' 0 11).toInt = b.toNat := by
    rw [BitVec.toInt_eq_toNat_of_lt (by omega),hbn]
  rw [BitVec.toInt_sub,hx,hy,Int.bmod_eq_of_le (by omega) (by omega)]

theorem squares_toNat (x y : BitVec 11) (hx : -1024 < x.toInt) (hy : -1024 < y.toInt) :
    ((x.signExtend 22*x.signExtend 22+y.signExtend 22*y.signExtend 22 : BitVec 22).toNat : ℤ) =
      x.toInt^2+y.toInt^2 := by
  have hx' : x.toInt < 1024 := by simpa using BitVec.toInt_lt (x := x)
  have hy' : y.toInt < 1024 := by simpa using BitVec.toInt_lt (x := y)
  have hxx : x.toInt*x.toInt ≤ 1023*1023 := by nlinarith
  have hyy : y.toInt*y.toInt ≤ 1023*1023 := by nlinarith
  have hx0 := mul_self_nonneg x.toInt
  have hy0 := mul_self_nonneg y.toInt
  have hs : (x.signExtend 22*x.signExtend 22+y.signExtend 22*y.signExtend 22 : BitVec 22).toInt =
      x.toInt*x.toInt+y.toInt*y.toInt := by
    rw [BitVec.toInt_add,BitVec.toInt_mul,BitVec.toInt_mul,
      BitVec.toInt_signExtend_of_le (by omega),BitVec.toInt_signExtend_of_le (by omega),
      Int.bmod_eq_of_le (n := x.toInt*x.toInt) (by omega) (by omega),
      Int.bmod_eq_of_le (n := y.toInt*y.toInt) (by omega) (by omega),
      Int.bmod_eq_of_le (by omega) (by omega)]
  rw [BitVec.toInt_eq_toNat_cond] at hs
  rw [pow_two,pow_two,← hs]
  split_ifs at hs ⊢ <;> omega

structure InRange (r : Registers) : Prop where
  ballX : r.ballX.toNat ≤ 639
  ballY : r.ballY.toNat ≤ 479

theorem inRange_reset : InRange resetRegisters := ⟨by decide,by decide⟩

theorem InRange.write {r : Registers} (h : InRange r) (b : Bus) : InRange (writeRegisters r b) := by
  unfold writeRegisters
  split
  · split
    · exact ⟨h.ballX,h.ballY⟩
    · split_ifs with hle
      · exact ⟨by simpa [BitVec.le_def] using hle,h.ballY⟩
      · exact h
    · split_ifs with hle
      · exact ⟨h.ballX,by simpa [BitVec.le_def] using hle⟩
      · exact h
    · exact h
  · exact h

theorem xDiff_toInt {s : State} (h : InRange s.regs) :
    (xDiff s).toInt = ((pixelX s).toNat : ℤ)-s.regs.ballX.toNat :=
  diff_toInt _ _ (lt_of_le_of_lt h.ballX (by decide))

theorem yDiff_toInt {s : State} (h : InRange s.regs) :
    (yDiff s).toInt = ((pixelY s).toNat : ℤ)-s.regs.ballY.toNat :=
  diff_toInt _ _ (lt_of_le_of_lt h.ballY (by decide))

theorem dist2_toNat {s : State} (h : InRange s.regs) :
    ((dist2 s).toNat : ℤ) = (((pixelX s).toNat : ℤ)-s.regs.ballX.toNat)^2+
      (((pixelY s).toNat : ℤ)-s.regs.ballY.toNat)^2 := by
  have hx := xDiff_toInt h
  have hy := yDiff_toInt h
  have hbx := h.ballX
  have hby := h.ballY
  rw [dist2,squares_toNat _ _ (by omega) (by omega),hx,hy]

theorem radius_squared : (ballRadius.setWidth 22*ballRadius.setWidth 22 : BitVec 22).toNat = 256 := by
  decide

theorem inBall_iff {s : State} (h : InRange s.regs) :
    inBall s = true ↔ (((pixelX s).toNat : ℤ)-s.regs.ballX.toNat)^2+
      (((pixelY s).toNat : ℤ)-s.regs.ballY.toNat)^2 ≤ 256 := by
  rw [inBall,decide_eq_true_eq,BitVec.le_def,radius_squared,← dist2_toNat h]
  omega

def acceptBackground (b : Bus) : Option Color :=
  if b.chipselect && b.write && b.address == 0 then
    some (b.writedata.extractLsb' 16 8,b.writedata.extractLsb' 8 8,b.writedata.extractLsb' 0 8)
  else none

/-- The coordinate in `[0, bound]` a bus cycle writes to word `a`, if it writes one. -/
def acceptCoordinate (a : BitVec 3) (bound : BitVec 16) (b : Bus) : Option (BitVec 16) :=
  if b.chipselect && b.write && b.address == a && decide (b.writedata.extractLsb' 0 16 ≤ bound) then
    some (b.writedata.extractLsb' 0 16)
  else none

/-- A bus cycle writes each register with what that register accepts of it. -/
theorem writeRegisters_eq (r : Registers) (b : Bus) :
    writeRegisters r b = {
      background := (acceptBackground b).getD r.background
      ballX := (acceptCoordinate 1 639 b).getD r.ballX
      ballY := (acceptCoordinate 2 479 b).getD r.ballY } := by
  unfold writeRegisters acceptBackground acceptCoordinate
  cases b.chipselect <;> cases b.write <;> try rfl
  simp only [Bool.and_self,if_true,Bool.true_and]
  split
  case h_1 heq => simp [heq]
  case h_2 heq => by_cases h : b.writedata.extractLsb' 0 16 ≤ 639#16 <;> simp [heq,h]
  case h_3 heq => by_cases h : b.writedata.extractLsb' 0 16 ≤ 479#16 <;> simp [heq,h]
  case h_4 h₀ h₁ h₂ => simp_all

/-- A run that starts with a reset edge and stays out of reset. -/
def afterReset (s₀ : State) (b₀ : Bus) (w : ℕ → Bus) (t : ℕ) : State :=
  trace step (step s₀ ⟨true,b₀⟩) (fun t => ⟨false,w t⟩) t

theorem afterReset_regs (s₀ : State) (b₀ : Bus) (w : ℕ → Bus) (t : ℕ) :
    (afterReset s₀ b₀ w t).regs = ((List.range t).map w).foldl writeRegisters resetRegisters := by
  rw [← trace_eq_foldl]
  induction t with
  | zero => rfl
  | succ t ih => exact congrArg (writeRegisters · (w t)) ih

/-- After reset, for every sequence of bus cycles and every clock cycle, the position stays
on the screen, the arithmetic of the picture is exact, and the picture is the ball of
radius `16` around the latest accepted position on the latest background. -/
theorem picture_exact (s₀ : State) (b₀ : Bus) (w : ℕ → Bus) (t : ℕ) :
    let s := afterReset s₀ b₀ w t
    let x := latest (acceptCoordinate 1 639) 320 ((List.range t).map w)
    let y := latest (acceptCoordinate 2 479) 240 ((List.range t).map w)
    let d := (((pixelX s).toNat : ℤ)-x.toNat)^2+(((pixelY s).toNat : ℤ)-y.toNat)^2
    s.regs.ballX.toNat ≤ 639 ∧ s.regs.ballY.toNat ≤ 479 ∧
      s.regs.ballX = x ∧ s.regs.ballY = y ∧
      (xDiff s).toInt = ((pixelX s).toNat : ℤ)-x.toNat ∧
      (yDiff s).toInt = ((pixelY s).toNat : ℤ)-y.toNat ∧
      ((dist2 s).toNat : ℤ) = d ∧
      vgaRgb s =
        if vgaBlankN s.counters = false then (0x0,0x0,0x0)
        else if d ≤ 256 then (0xff,0x0,0x0)
        else latest acceptBackground (0x80,0x0,0x80) ((List.range t).map w) := by
  intro s x y d
  have hregs := afterReset_regs s₀ b₀ w t
  have hin : InRange s.regs := by
    rw [hregs,← trace_eq_foldl]
    exact trace_invariant writeRegisters (fun _ b h => h.write b) inRange_reset w t
  have hx : s.regs.ballX = x := by
    rw [hregs]
    exact foldl_register writeRegisters Registers.ballX _
      (fun r b => congrArg Registers.ballX (writeRegisters_eq r b)) resetRegisters _
  have hy : s.regs.ballY = y := by
    rw [hregs]
    exact foldl_register writeRegisters Registers.ballY _
      (fun r b => congrArg Registers.ballY (writeRegisters_eq r b)) resetRegisters _
  have hc : s.regs.background = latest acceptBackground (0x80,0x0,0x80) ((List.range t).map w) := by
    rw [hregs]
    exact foldl_register writeRegisters Registers.background _
      (fun r b => congrArg Registers.background (writeRegisters_eq r b)) resetRegisters _
  have hxd := xDiff_toInt hin
  have hyd := yDiff_toInt hin
  have hd := dist2_toNat hin
  have hb := inBall_iff hin
  rw [hx] at hxd
  rw [hy] at hyd
  rw [hx,hy] at hd hb
  refine ⟨hin.ballX,hin.ballY,hx,hy,hxd,hyd,hd,?_⟩
  rw [vgaRgb,hc]
  by_cases hball : d ≤ 256
  · have ht := hb.mpr hball
    cases vgaBlankN s.counters <;> simp [ht,hball]
  · have hf : inBall s = false := by
      rw [Bool.eq_false_iff]
      exact fun ht => hball (hb.mp ht)
    cases vgaBlankN s.counters <;> simp [hf,hball]

end VgaBall
end EmbeddedSystems
