import EmbeddedSystems.BallDemo

/-! The peripheral draws each pixel from the registers as they are at its clock edge, and the driver
writes a position as two words, at any edge of a field. A field on the monitor is therefore put
together from the pictures before and after each write, in the order of the scan, and during one
`write_ball_pos` there is a stretch of it that shows a position which nobody has asked for. -/

namespace EmbeddedSystems
namespace VgaDriver
namespace Tearing

open VgaBall Clocked Demo

theorem exists_threshold {k : ℕ → ℕ} (hk : Monotone k) (c n : ℕ) :
    ∃ p, ∀ m < n, k m ≤ c ↔ m < p := by
  induction n with
  | zero => exact ⟨0,by omega⟩
  | succ n ih =>
    obtain ⟨p,hp⟩ := ih
    by_cases hc : k n ≤ c
    · refine ⟨n+1,fun m hm => ⟨fun _ => hm,fun _ => ?_⟩⟩
      exact (hk (by omega : m ≤ n)).trans hc
    · refine ⟨min p n,fun m hm => ?_⟩
      rcases Nat.lt_succ_iff_lt_or_eq.mp hm with hlt | rfl
      · rw [hp m hlt]
        omega
      · omega

def field : ℕ := 1600*525

/-- The edges of a field on which the pixel is shown, for `e` zero and one. -/
def edge (x y e : ℕ) : ℕ := 1600*y+2*x+e

section Written

variable (w : ℕ → Bus)

/-- The write cycles on `n` edges from edge `t` on. -/
def written (t n : ℕ) : List Bus := ((List.range n).map fun i => w (t+i)).filter active

theorem written_succ (t n : ℕ) :
    written w t (n+1) = written w t n ++ [w (t+n)].filter active := by
  rw [written,written,List.range_succ,List.map_append,List.filter_append]
  rfl

theorem written_mono (t : ℕ) {n m : ℕ} (h : n ≤ m) : written w t n <+: written w t m := by
  induction m, h using Nat.le_induction with
  | base => exact List.prefix_rfl
  | succ m hm ih =>
    rw [written_succ]
    exact ih.trans (List.prefix_append _ _)

theorem regs_written (s₀ : VgaBall.State) (b₀ : Bus) (t n : ℕ) :
    (afterReset s₀ b₀ w (t+n)).regs =
      (written w t n).foldl writeRegisters (afterReset s₀ b₀ w t).regs := by
  rw [written,← foldl_active]
  induction n with
  | zero => rfl
  | succ n ih =>
    rw [List.range_succ,List.map_append,List.foldl_append,← ih]
    rfl

theorem regs_inRange (s₀ : VgaBall.State) (b₀ : Bus) (t : ℕ) :
    VgaBall.InRange (afterReset s₀ b₀ w t).regs := by
  rw [afterReset_regs,← trace_eq_foldl]
  exact trace_invariant writeRegisters (fun _ b h => h.write b) inRange_reset w t

end Written

/-- A pixel is drawn from the registers as the writes before its edge have left them. -/
theorem vgaRgb_edge (s₀ : VgaBall.State) (b₀ : Bus) (w : ℕ → Bus) (frame : ℕ) {x y e : ℕ}
    (hx : x < 640) (hy : y < 480) (he : e < 2) :
    vgaRgb (afterReset s₀ b₀ w (frame*field+edge x y e)) =
      picture ((written w (frame*field) (edge x y e)).foldl writeRegisters
        (afterReset s₀ b₀ w (frame*field)).regs) x y := by
  have hpixel : Presents (afterReset s₀ b₀ w (frame*field+edge x y e)) x y := by
    rw [presents_iff s₀ b₀ w hx hy,field,edge]
    omega
  rw [vgaRgb_presents hpixel (regs_inRange w s₀ b₀ _),regs_written]

theorem foldl_position {x y : BitVec 16} {bs : List Bus} (h : bs <+: cycles (writeBallPos x y))
    (r : Registers) : bs.foldl writeRegisters r =
      if bs.length ≤ 0 then r else if bs.length ≤ 1 then halfway r x else moved r x y := by
  have hcycles : cycles (writeBallPos x y) =
      [busCycle (x.setWidth 32) ballXOffset,busCycle (y.setWidth 32) ballYOffset] := rfl
  have htake := List.prefix_iff_eq_take.mp h
  have hle := h.length_le
  rw [hcycles] at htake hle
  generalize bs.length = n at htake hle ⊢
  subst htake
  have hn : n ≤ 2 := hle
  rcases (by omega : n = 0 ∨ n = 1 ∨ n = 2) with rfl | rfl | rfl
  · rfl
  · simp [write_ballX]
  · simp [write_ballX,write_ballY]

/-- Every pixel of a field is drawn from the registers after an initial part of the writes of the
field, longer and longer along the scan. If the writes are those of one `write_ball_pos`, the field
is the old picture up to some edge, then the old line of the ball in its new column, and from some
edge on the new picture. -/
theorem field_spliced (s₀ : VgaBall.State) (b₀ : Bus) (w : ℕ → Bus) (frame : ℕ) :
    let color := fun x y e => vgaRgb (afterReset s₀ b₀ w (frame*field+edge x y e))
    let old := (afterReset s₀ b₀ w (frame*field)).regs
    let parts := written w (frame*field)
    (∀ x < 640, ∀ y < 480, ∀ e < 2,
      color x y e = picture ((parts (edge x y e)).foldl writeRegisters old) x y) ∧
    (∀ n m, n ≤ m → parts n <+: parts m) ∧
    ∀ u v, parts field = cycles (writeBallPos u v) →
      ∃ p q, p ≤ q ∧ ∀ x < 640, ∀ y < 480, ∀ e < 2,
        color x y e = picture (if edge x y e < p then old
          else if edge x y e < q then halfway old u else moved old u v) x y := by
  intro color old parts
  have hcolor : ∀ x < 640, ∀ y < 480, ∀ e < 2,
      color x y e = picture ((parts (edge x y e)).foldl writeRegisters old) x y :=
    fun x hx y hy e he => vgaRgb_edge s₀ b₀ w frame hx hy he
  have hmono : ∀ n m, n ≤ m → parts n <+: parts m := fun n m => written_mono w (frame*field)
  refine ⟨hcolor,hmono,?_⟩
  intro u v hparts
  have hlen : Monotone fun n => (parts n).length := fun n m h => (hmono n m h).length_le
  obtain ⟨p,hp⟩ := exists_threshold hlen 0 field
  obtain ⟨q,hq⟩ := exists_threshold hlen 1 field
  refine ⟨p,max p q,le_max_left p q,?_⟩
  intro x hx y hy e he
  have hedge : edge x y e < field := by
    rw [edge,field]
    omega
  have hprefix : parts (edge x y e) <+: cycles (writeBallPos u v) := by
    rw [← hparts]
    exact hmono _ _ hedge.le
  have h0 : (parts (edge x y e)).length ≤ 0 ↔ edge x y e < p := hp _ hedge
  have h1 : (parts (edge x y e)).length ≤ 1 ↔ edge x y e < q := hq _ hedge
  rw [hcolor x hx y hy e he,foldl_position hprefix old]
  by_cases hold : edge x y e < p
  · rw [if_pos (h0.mpr hold),if_pos hold]
  · rw [if_neg (mt h0.mp hold),if_neg hold]
    by_cases hhalf : edge x y e < q
    · rw [if_pos (h1.mpr hhalf),if_pos (lt_max_of_lt_right hhalf)]
    · rw [if_neg (mt h1.mp hhalf),if_neg (by omega)]

theorem written_carrying {bs : List Bus} (h : bs.filter active = bs) (m : ℕ) :
    written (carrying bs) 0 (bs.length+m) = bs := by
  induction m with
  | zero =>
    have hmap : (List.range bs.length).map (fun i => carrying bs (0+i)) = bs := by
      simpa only [Nat.zero_add] using map_carrying bs
    rw [Nat.add_zero,written,hmap,h]
  | succ m ih =>
    have hidle : carrying bs (0+(bs.length+m)) = ⟨0,false,false,0⟩ := by
      simp [carrying]
    rw [← Nat.add_assoc,written_succ,ih,hidle]
    simp [active]

theorem field_spliced_start :
    let w := carrying (cycles (writeBallPos 100 50))
    ∃ p q, p ≤ q ∧ ∀ x < 640, ∀ y < 480, ∀ e < 2,
      vgaRgb (afterReset ⟨resetRegisters,⟨0,0⟩⟩ ⟨0,false,false,0⟩ w (0*field+edge x y e)) =
        picture (if edge x y e < p then resetRegisters
          else if edge x y e < q then halfway resetRegisters 100
          else moved resetRegisters 100 50) x y := by
  intro w
  obtain ⟨-,-,hmove⟩ := field_spliced ⟨resetRegisters,⟨0,0⟩⟩ ⟨0,false,false,0⟩ w 0
  have hstart : 0*field = 0 := Nat.zero_mul field
  have hlen : field = (cycles (writeBallPos 100 50)).length+(field-2) := rfl
  refine hmove 100 50 ?_
  rw [hstart,hlen]
  exact written_carrying (active_cycles _) _

end Tearing
end VgaDriver
end EmbeddedSystems
