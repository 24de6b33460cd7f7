import EmbeddedSystems.VgaPicture

/-! The counters of `vga_counters` over whole runs, and its outputs against the timing parameters.
The outputs are bit tests on the counters and stand for range comparisons, which they meet on the
values that the counters reach. The horizontal sync is the exception: it begins with the front
porch. -/

namespace EmbeddedSystems
namespace VgaBall

open Clocked

theorem counters_succ (s₀ : State) (b₀ : Bus) (w : ℕ → Bus) (t : ℕ) :
    (afterReset s₀ b₀ w (t+1)).counters = advance (afterReset s₀ b₀ w t).counters := rfl

theorem endOfLine_iff (c : Counters) : endOfLine c = true ↔ c.hcount.toNat = 1599 := by
  have hlt := c.hcount.isLt
  have hlast : (htotal.setWidth 32-1 : BitVec 32).toNat = 1599 := by decide
  rw [endOfLine,decide_eq_true_eq,BitVec.toNat_eq,hlast,BitVec.toNat_setWidth]
  omega

theorem endOfField_iff (c : Counters) : endOfField c = true ↔ c.vcount.toNat = 524 := by
  have hlt := c.vcount.isLt
  have hlast : (vtotal.setWidth 32-1 : BitVec 32).toNat = 524 := by decide
  rw [endOfField,decide_eq_true_eq,BitVec.toNat_eq,hlast,BitVec.toNat_setWidth]
  omega

theorem advance_hcount {c : Counters} (h : c.hcount.toNat < 1600) :
    (advance c).hcount.toNat = (c.hcount.toNat+1) % 1600 := by
  change (if endOfLine c then 0 else c.hcount+1).toNat = _
  by_cases hend : endOfLine c = true
  · rw [if_pos hend,(endOfLine_iff c).mp hend]
    rfl
  · have hne : c.hcount.toNat ≠ 1599 := fun he => hend ((endOfLine_iff c).mpr he)
    rw [if_neg hend,BitVec.toNat_add]
    change (c.hcount.toNat+1) % 2^11 = _
    omega

theorem advance_vcount {c : Counters} (h : c.vcount.toNat < 525) :
    (advance c).vcount.toNat =
      if c.hcount.toNat = 1599 then (c.vcount.toNat+1) % 525 else c.vcount.toNat := by
  change (if endOfLine c then (if endOfField c then 0 else c.vcount+1) else c.vcount).toNat = _
  by_cases hend : endOfLine c = true
  · rw [if_pos hend,if_pos ((endOfLine_iff c).mp hend)]
    by_cases hfield : endOfField c = true
    · rw [if_pos hfield,(endOfField_iff c).mp hfield]
      rfl
    · have hne : c.vcount.toNat ≠ 524 := fun he => hfield ((endOfField_iff c).mpr he)
      rw [if_neg hfield,BitVec.toNat_add]
      change (c.vcount.toNat+1) % 2^10 = _
      omega
  · rw [if_neg hend,if_neg fun he => hend ((endOfLine_iff c).mpr he)]

theorem counters_eq (s₀ : State) (b₀ : Bus) (w : ℕ → Bus) (t : ℕ) :
    (afterReset s₀ b₀ w t).counters.hcount.toNat = t % 1600 ∧
      (afterReset s₀ b₀ w t).counters.vcount.toNat = t/1600 % 525 := by
  induction t with
  | zero => exact ⟨rfl,rfl⟩
  | succ t ih =>
    obtain ⟨hh,hv⟩ := ih
    rw [counters_succ,advance_hcount (by omega),advance_vcount (by omega),hh,hv]
    refine ⟨by omega,?_⟩
    split_ifs <;> omega

section Outputs

theorem getElem_eq_decide {n : ℕ} (x : BitVec n) {i : ℕ} (h : i < n) :
    x[i] = decide (x.toNat/2^i % 2 = 1) := by
  rw [← BitVec.getLsbD_eq_getElem,BitVec.getLsbD,Nat.testBit_eq_decide_div_mod_eq]

theorem extract_eq_iff {n m : ℕ} (x : BitVec n) (i : ℕ) (v : BitVec m) :
    x.extractLsb' i m = v ↔ x.toNat/2^i % 2^m = v.toNat := by
  rw [BitVec.toNat_eq,BitVec.extractLsb'_toNat,Nat.shiftRight_eq_div_pow]

theorem vgaBlankN_iff {c : Counters} (hh : c.hcount.toNat < 1600) (hv : c.vcount.toNat < 525) :
    vgaBlankN c = true ↔ c.hcount.toNat < 1280 ∧ c.vcount.toNat < 480 := by
  simp only [vgaBlankN,getElem_eq_decide,extract_eq_iff,Bool.and_eq_true,Bool.not_eq_true',
    Bool.and_eq_false_iff,Bool.or_eq_false_iff,decide_eq_false_iff_not,BitVec.toNat_ofNat]
  omega

theorem vgaVs_iff (c : Counters) :
    vgaVs c = false ↔ 490 ≤ c.vcount.toNat ∧ c.vcount.toNat < 492 := by
  have hlt := c.vcount.isLt
  have hhalf : ((vactive.setWidth 32+vfrontPorch.setWidth 32)/2 : BitVec 32).toNat = 245 := by
    decide
  rw [vgaVs,Bool.not_eq_false',decide_eq_true_eq,BitVec.toNat_eq,hhalf,BitVec.toNat_setWidth,
    BitVec.extractLsb'_toNat,Nat.shiftRight_eq_div_pow]
  omega

/-- The bit test of the horizontal sync: low from the end of the picture on. -/
theorem vgaHs_iff (c : Counters) :
    vgaHs c = false ↔ 1280 ≤ c.hcount.toNat ∧ c.hcount.toNat < 1504 := by
  have hlt := c.hcount.isLt
  simp only [vgaHs,extract_eq_iff,Bool.not_eq_false',Bool.and_eq_true,Bool.not_eq_true',
    decide_eq_true_eq,decide_eq_false_iff_not,BitVec.toNat_ofNat]
  omega

theorem vgaClk_eq (c : Counters) : vgaClk c = decide (c.hcount.toNat % 2 = 1) := by
  rw [vgaClk,getElem_eq_decide,pow_zero,Nat.div_one]

end Outputs

/-- The pixel `(x, y)` is on the cable. -/
def Presents (s : State) (x y : ℕ) : Prop :=
  vgaBlankN s.counters = true ∧ (pixelX s).toNat = x ∧ (pixelY s).toNat = y

theorem pixelX_toNat (s : State) : (pixelX s).toNat = s.counters.hcount.toNat/2 := by
  have hlt := s.counters.hcount.isLt
  rw [pixelX,BitVec.extractLsb'_toNat,Nat.shiftRight_eq_div_pow]
  omega

theorem presents_iff (s₀ : State) (b₀ : Bus) (w : ℕ → Bus) {x y : ℕ} (hx : x < 640) (hy : y < 480)
    (t : ℕ) : Presents (afterReset s₀ b₀ w t) x y ↔
      t % (1600*525) = 1600*y+2*x ∨ t % (1600*525) = 1600*y+2*x+1 := by
  obtain ⟨hh,hv⟩ := counters_eq s₀ b₀ w t
  rw [Presents,vgaBlankN_iff (by omega) (by omega),pixelX_toNat,pixelY,hh,hv]
  omega

/-- After reset, the counters are the position in the line and the line in the frame, the
blanking and the vertical sync meet the timing parameters, and in every frame each pixel is shown
on exactly two consecutive edges, across a rising edge of `VGA_CLK`. -/
theorem scan_timing (s₀ : State) (b₀ : Bus) (w : ℕ → Bus) :
    (∀ t, let c := (afterReset s₀ b₀ w t).counters
      c.hcount.toNat = t % 1600 ∧ c.vcount.toNat = t/1600 % 525 ∧
        (vgaBlankN c = true ↔
          c.hcount.toNat < hactive.toNat ∧ c.vcount.toNat < vactive.toNat) ∧
        (vgaVs c = false ↔ vactive.toNat+vfrontPorch.toNat ≤ c.vcount.toNat ∧
          c.vcount.toNat < vactive.toNat+vfrontPorch.toNat+vsync.toNat)) ∧
      ∀ frame x y : ℕ, x < 640 → y < 480 →
        ∃ t₀, frame*(1600*525) ≤ t₀ ∧ t₀+1 < (frame+1)*(1600*525) ∧
          (∀ t, frame*(1600*525) ≤ t → t < (frame+1)*(1600*525) →
            (Presents (afterReset s₀ b₀ w t) x y ↔ t = t₀ ∨ t = t₀+1)) ∧
          vgaClk (afterReset s₀ b₀ w t₀).counters = false ∧
          vgaClk (afterReset s₀ b₀ w (t₀+1)).counters = true := by
  constructor
  · intro t c
    obtain ⟨hh,hv⟩ : c.hcount.toNat = t % 1600 ∧ c.vcount.toNat = t/1600 % 525 :=
      counters_eq s₀ b₀ w t
    exact ⟨hh,hv,vgaBlankN_iff (by omega) (by omega),vgaVs_iff c⟩
  · intro frame x y hx hy
    refine ⟨frame*(1600*525)+1600*y+2*x,by omega,by omega,?_,?_,?_⟩
    · intro t hlo hhi
      rw [presents_iff s₀ b₀ w hx hy]
      omega
    · have hh := (counters_eq s₀ b₀ w (frame*(1600*525)+1600*y+2*x)).1
      rw [vgaClk_eq,hh,decide_eq_false_iff_not]
      omega
    · have hh := (counters_eq s₀ b₀ w (frame*(1600*525)+1600*y+2*x+1)).1
      rw [vgaClk_eq,hh,decide_eq_true_eq]
      omega

theorem vgaHs_afterReset (s₀ : State) (b₀ : Bus) (w : ℕ → Bus) (t : ℕ) :
    vgaHs (afterReset s₀ b₀ w t).counters = false ↔ 1280 ≤ t % 1600 ∧ t % 1600 < 1504 := by
  rw [vgaHs_iff,(counters_eq s₀ b₀ w t).1]

/-- The horizontal sync agrees with the timing parameters on every edge outside the front
porch, and on none inside it. -/
theorem vgaHs_timing_iff (s₀ : State) (b₀ : Bus) (w : ℕ → Bus) (t : ℕ) :
    (vgaHs (afterReset s₀ b₀ w t).counters = false ↔
        hactive.toNat+hfrontPorch.toNat ≤ t % htotal.toNat ∧
          t % htotal.toNat < hactive.toNat+hfrontPorch.toNat+hsync.toNat) ↔
      ¬(hactive.toNat ≤ t % htotal.toNat ∧
        t % htotal.toNat < hactive.toNat+hfrontPorch.toNat) := by
  have hactive_eq : hactive.toNat = 1280 := rfl
  have hporch_eq : hfrontPorch.toNat = 32 := rfl
  have hsync_eq : hsync.toNat = 192 := rfl
  have htotal_eq : htotal.toNat = 1600 := rfl
  rw [vgaHs_afterReset,hactive_eq,hporch_eq,hsync_eq,htotal_eq]
  omega

/-- The first edge after the first line's picture: the sync is low already. -/
theorem vgaHs_low_in_frontPorch :
    let s := afterReset ⟨resetRegisters,⟨0,0⟩⟩ ⟨0,false,false,0⟩ (fun _ => ⟨0,false,false,0⟩) 1280
    vgaHs s.counters = false ∧
      ¬(hactive.toNat+hfrontPorch.toNat ≤ 1280 % htotal.toNat ∧
        1280 % htotal.toNat < hactive.toNat+hfrontPorch.toNat+hsync.toNat) := by
  intro s
  refine ⟨?_,by decide⟩
  rw [vgaHs_afterReset]
  decide

end VgaBall
end EmbeddedSystems
