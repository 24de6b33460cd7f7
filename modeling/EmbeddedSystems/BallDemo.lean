import EmbeddedSystems.Bounce
import EmbeddedSystems.VgaIoctl
import EmbeddedSystems.VgaScan

/-! The user program moves the ball with one `ioctl` for each position, the driver turns each of
them into two register writes, and the peripheral draws the picture. The loop turns around at
`640` and `480`, one step behind the last position the peripheral takes, so the ball rests for a
moment at the right and lower edges. The bytes of a `vga_ball_arg_t` that the program does not set
are whatever its stack holds. -/

namespace EmbeddedSystems
namespace VgaDriver

open VgaBall Clocked

namespace Demo

/-- `vla.ball_x = x; vla.ball_y = y;` on a stack that holds `a`. -/
def setPosArg (a : Arg) (x y : BitVec 16) : Arg := fun i =>
  if i.val = 4 then x.extractLsb' 0 8
  else if i.val = 5 then x.extractLsb' 8 8
  else if i.val = 6 then y.extractLsb' 0 8
  else if i.val = 7 then y.extractLsb' 8 8
  else a i

theorem append_extract (x : BitVec 16) : x.extractLsb' 8 8 ++ x.extractLsb' 0 8 = x := by
  ext i hi
  rw [BitVec.getElem_append]
  split_ifs with h
  · rw [BitVec.getElem_extractLsb',Nat.zero_add]
    exact BitVec.getLsbD_eq_getElem _
  · rw [BitVec.getElem_extractLsb',show 8+(i-8) = i by omega]
    exact BitVec.getLsbD_eq_getElem _

theorem setPosArg_ballX (a : Arg) (x y : BitVec 16) : (setPosArg a x y).ballX = x :=
  append_extract x

theorem setPosArg_ballY (a : Arg) (x y : BitVec 16) : (setPosArg a x y).ballY = y :=
  append_extract y

/-- The loop variables of `main`. -/
structure Loop where
  x : ℤ
  y : ℤ
  dx : ℤ
  dy : ℤ
  deriving DecidableEq, Repr

def start : Loop := ⟨320,240,2,2⟩

def next (l : Loop) : Loop :=
  let x := l.x+l.dx
  let y := l.y+l.dy
  ⟨x,y,if x ≤ 0 ∨ x ≥ 640 then -l.dx else l.dx,if y ≤ 0 ∨ y ≥ 480 then -l.dy else l.dy⟩

def loop (i : ℕ) : Loop := next^[i] start

/-- What the stacks of the program and of the driver hold where `vla` is put, call by call. -/
structure Stacks where
  user : ℕ → Arg
  kernel : ℕ → Arg

def ushort (n : ℤ) : BitVec 16 := BitVec.ofInt 16 n

def setBackgroundColor (m : Stacks) (call : ℕ) (c : Color) : Request :=
  ⟨writeBackgroundCmd,(m.user call).setBackground c,true,m.kernel call⟩

def setBallPos (m : Stacks) (call : ℕ) (x y : BitVec 16) : Request :=
  ⟨setPosCmd,setPosArg (m.user call) x y,true,m.kernel call⟩

/-- The position sent by iteration `i`. -/
def position (m : Stacks) (i : ℕ) : Request :=
  setBallPos m (i+1) (ushort (loop i).x) (ushort (loop i).y)

def bg : Color := (0x00,0x00,0x40)

def requests (m : Stacks) (n : ℕ) : List Request :=
  setBackgroundColor m 0 bg :: (List.range n).map (position m)

/-- The requests of `main` and the value it returns, for an `open` that succeeds or not. -/
def main (opened : Bool) (m : Stacks) : List Request × ℤ :=
  if opened then (requests m 10000,0) else ([],-1)

open Bounce

/-- The ball of iteration `i` is on two triangular waves. -/
theorem loop_eq (i : ℕ) : loop i =
    ⟨(atPhase 2 320 (160+i)).pos,(atPhase 2 240 (120+i)).pos,(atPhase 2 320 (160+i)).vel,
      (atPhase 2 240 (120+i)).vel⟩ := by
  induction i with
  | zero => decide
  | succ i ih =>
    have hx := step_atPhase (by decide : 0 < 2) (by decide : 0 < 320) (160+i)
    have hy := step_atPhase (by decide : 0 < 2) (by decide : 0 < 240) (120+i)
    have hs : loop (i+1) = next (loop i) := Function.iterate_succ_apply' next i start
    rw [hs,ih,← Nat.add_assoc,← Nat.add_assoc,← hx,← hy]
    rfl

def ballX (i : ℕ) : ℕ := 2*tri 320 (160+i)
def ballY (i : ℕ) : ℕ := 2*tri 240 (120+i)

theorem ballX_le (i : ℕ) : ballX i ≤ 640 := by
  have h := tri_le 320 (160+i)
  unfold ballX
  omega

theorem ballY_le (i : ℕ) : ballY i ≤ 480 := by
  have h := tri_le 240 (120+i)
  unfold ballY
  omega

theorem loop_x (i : ℕ) : (loop i).x = ballX i := by
  rw [loop_eq]
  simp [atPhase,ballX]

theorem loop_y (i : ℕ) : (loop i).y = ballY i := by
  rw [loop_eq]
  simp [atPhase,ballY]

theorem ushort_toNat {n : ℕ} (hn : n < 65536) : (ushort n).toNat = n := by
  rw [ushort,BitVec.ofInt_natCast,BitVec.toNat_ofNat]
  exact Nat.mod_eq_of_lt hn

theorem tri_turn {m k : ℕ} (hm : 0 < m) (h : tri m (k+1) = m) : tri m k = m-1 := by
  have hlt := Nat.mod_lt k (by omega : 0 < 2*m)
  unfold tri at h ⊢
  rcases mod_succ (by omega : 0 < 2*m) k with ⟨hnext,-⟩ | ⟨hnext,hin⟩
  · rw [hnext] at h
    split_ifs at h ⊢ <;> omega
  · rw [hnext,if_pos hm] at h
    omega

/-- The registers between the two writes of `write_ball_pos`. -/
def halfway (r : Registers) (x : BitVec 16) : Registers :=
  { r with ballX := if x.toNat ≤ 639 then x else r.ballX }

def moved (r : Registers) (x y : BitVec 16) : Registers :=
  { halfway r x with ballY := if y.toNat ≤ 479 then y else r.ballY }

theorem write_ballX (r : Registers) (x : BitVec 16) :
    writeRegisters r (busCycle (x.setWidth 32) ballXOffset) = halfway r x := by
  have hs := extract_setWidth x
  by_cases hx : x.toNat ≤ 639
  · simp [writeRegisters,busCycle,ballXOffset,halfway,hs,BitVec.le_def,hx]
  · simp [writeRegisters,busCycle,ballXOffset,halfway,hs,BitVec.le_def,hx]

theorem write_ballY (r : Registers) (x y : BitVec 16) :
    writeRegisters (halfway r x) (busCycle (y.setWidth 32) ballYOffset) = moved r x y := by
  have hs := extract_setWidth y
  by_cases hy : y.toNat ≤ 479
  · simp [writeRegisters,busCycle,ballYOffset,moved,halfway,hs,BitVec.le_def,hy]
  · simp [writeRegisters,busCycle,ballYOffset,moved,halfway,hs,BitVec.le_def,hy]

/-- What a positioning leaves in the registers and the mirror, on the screen or not. -/
theorem setPos_sys (s : Sys) (m : Stacks) (call : ℕ) (x y : BitVec 16) :
    (vgaBallIoctl s (setBallPos m call x y)).sys =
      ⟨moved s.regs x y,⟨s.dev.background,x,y⟩⟩ := by
  have hcall : (setBallPos m call x y).call = some (.setPos x y) := by
    have hx := setPosArg_ballX (m.user call) x y
    have hy := setPosArg_ballY (m.user call) x y
    simp [Request.call,setBallPos,setPosCmd_ne.1,hx,hy]
  rw [vgaBallIoctl_sys,hcall]
  change (writeBallPos x y).foldl exec s = _
  simp only [writeBallPos,List.foldl_cons,List.foldl_nil,exec,write_ballX,write_ballY]

theorem requests_succ (m : Stacks) (n : ℕ) :
    requests m (n+1) = requests m n ++ [position m n] := by
  rw [requests,requests,List.range_succ,List.map_append,List.cons_append]
  rfl

theorem serve_concat (s : Sys) (rs : List Request) (r : Request) :
    serve s (rs ++ [r]) = (vgaBallIoctl (serve s rs) r).sys := by
  unfold serve
  rw [List.foldl_append]
  rfl

/-- The registers and the mirror after the background and the first `n` positions. -/
def shownAt (n : ℕ) : Sys :=
  ⟨⟨bg,BitVec.ofNat 16 (min (ballX n) 638),BitVec.ofNat 16 (min (ballY n) 478)⟩,
    ⟨bg,BitVec.ofNat 16 (ballX n),BitVec.ofNat 16 (ballY n)⟩⟩

theorem accepted_next {h k : ℕ} (hh : 0 < h) :
    (if 2*tri h (k+1) ≤ 2*h-1 then BitVec.ofNat 16 (2*tri h (k+1))
      else BitVec.ofNat 16 (min (2*tri h k) (2*h-2))) =
      BitVec.ofNat 16 (min (2*tri h (k+1)) (2*h-2)) := by
  have hle := tri_le h (k+1)
  by_cases hturn : tri h (k+1) = h
  · have hprev := tri_turn hh hturn
    rw [if_neg (by omega),hprev,hturn]
    congr 1
    omega
  · rw [if_pos (by omega),Nat.min_eq_left (by omega)]

theorem ushort_eq (n : ℕ) : ushort n = BitVec.ofNat 16 n := BitVec.ofInt_natCast ..

theorem serve_position (s : Sys) (m : Stacks) (n : ℕ) : (vgaBallIoctl s (position m n)).sys =
    ⟨⟨s.regs.background,
        if ballX n ≤ 639 then BitVec.ofNat 16 (ballX n) else s.regs.ballX,
        if ballY n ≤ 479 then BitVec.ofNat 16 (ballY n) else s.regs.ballY⟩,
      ⟨s.dev.background,BitVec.ofNat 16 (ballX n),BitVec.ofNat 16 (ballY n)⟩⟩ := by
  have hX := ballX_le n
  have hY := ballY_le n
  rw [position,setPos_sys,loop_x,loop_y,moved,halfway,ushort_toNat (by omega : ballX n < 65536),
    ushort_toNat (by omega : ballY n < 65536),ushort_eq,ushort_eq]

theorem serve_requests (s₀ : Sys) (m : Stacks) (n : ℕ) :
    serve (probed s₀) (requests m (n+1)) = shownAt n := by
  induction n with
  | zero =>
    have hbg : (setBackgroundColor m 0 bg).InRange := fun _ h => absurd h.symm setPosCmd_ne.1
    have hcell : Cell.initial.serve (setBackgroundColor m 0 bg) = ⟨bg,320,240⟩ := rfl
    have hholds := (probed_holds s₀).serve hbg
    rw [hcell] at hholds
    have hone : serve (probed s₀) (requests m 0) =
        (vgaBallIoctl (probed s₀) (setBackgroundColor m 0 bg)).sys := by
      rw [requests,List.range_zero,List.map_nil,serve,List.foldl_cons,List.foldl_nil]
    have hstart : serve (probed s₀) (requests m 0) = ⟨⟨bg,320,240⟩,⟨bg,320,240⟩⟩ := by
      rw [hone]
      exact Sys.ext hholds.regs hholds.dev
    rw [requests_succ,serve_concat,hstart,serve_position]
    decide
  | succ n ih =>
    have hX := accepted_next (by decide : 0 < 320) (k := 160+n)
    have hY := accepted_next (by decide : 0 < 240) (k := 120+n)
    rw [requests_succ,serve_concat,ih,serve_position,shownAt,shownAt]
    congr 2

theorem main_requests (m : Stacks) : (main true m).1 = requests m 10000 := by
  rw [main,if_pos rfl]

theorem take_main (m : Stacks) {n : ℕ} (hn : n ≤ 10000) :
    (main true m).1.take (n+1) = requests m n := by
  rw [main_requests,requests,requests,List.take_succ_cons,← List.map_take,List.take_range,
    Nat.min_eq_left hn]

theorem mirrored_shownAt (n : ℕ) : Mirrored (shownAt n) ↔ ballX n ≠ 640 ∧ ballY n ≠ 480 := by
  have hX := ballX_le n
  have hY := ballY_le n
  have heven : ∃ a b, ballX n = 2*a ∧ ballY n = 2*b := ⟨_,_,rfl,rfl⟩
  obtain ⟨a,b,ha,hb⟩ := heven
  have hinj : ∀ u v : ℕ, u < 65536 → v < 65536 →
      (BitVec.ofNat 16 u = BitVec.ofNat 16 v ↔ u = v) := by
    intro u v hu hv
    rw [BitVec.toNat_eq,BitVec.toNat_ofNat,BitVec.toNat_ofNat,Nat.mod_eq_of_lt hu,
      Nat.mod_eq_of_lt hv]
  have hx := hinj (min (ballX n) 638) (ballX n) (by omega) (by omega)
  have hy := hinj (min (ballY n) 478) (ballY n) (by omega) (by omega)
  constructor
  · intro h
    have h1 := hx.mp h.ballX
    have h2 := hy.mp h.ballY
    omega
  · rintro ⟨h1,h2⟩
    exact ⟨rfl,hx.mpr (by omega),hy.mpr (by omega)⟩

/-- The run of `main`, position by position: the request of the background and every request of a
position return 0, the mirror follows the triangular waves between `0` and `640` and between `0`
and `480`, the registers follow them up to `638` and `478`, and the two agree except at the right
and lower turning points. -/
theorem demo_registers (s₀ : Sys) (m : Stacks) (n : Fin 10000) :
    let rs := (main true m).1
    let s := serve (probed s₀) (rs.take (n.val+2))
    (∃ r, rs[0]? = some r ∧ r.cmd = writeBackgroundCmd ∧ r.arg.background = bg ∧
      (vgaBallIoctl (probed s₀) r).ret = 0) ∧
    (∃ r, rs[n.val+1]? = some r ∧ r.cmd = setPosCmd ∧ r.arg.ballX.toNat = ballX n ∧
      r.arg.ballY.toNat = ballY n ∧
      (vgaBallIoctl (serve (probed s₀) (rs.take (n.val+1))) r).ret = 0) ∧
    s.dev = ⟨bg,BitVec.ofNat 16 (ballX n),BitVec.ofNat 16 (ballY n)⟩ ∧
    s.regs = ⟨bg,BitVec.ofNat 16 (min (ballX n) 638),BitVec.ofNat 16 (min (ballY n) 478)⟩ ∧
    (Mirrored s ↔ ballX n ≠ 640 ∧ ballY n ≠ 480) := by
  intro rs s
  have hX := ballX_le n
  have hY := ballY_le n
  have hs : s = shownAt n := by
    have ht : rs.take (n.val+2) = requests m (n.val+1) := take_main m (by omega)
    simp only [s,ht]
    exact serve_requests s₀ m n
  rw [hs]
  refine ⟨⟨setBackgroundColor m 0 bg,?_,rfl,?_,?_⟩,⟨position m n,?_,rfl,?_,?_,?_⟩,rfl,rfl,
    mirrored_shownAt n⟩
  · simp only [rs]
    rw [main_requests,requests,List.getElem?_cons_zero]
  · exact Arg.background_setBackground _ bg
  · exact (vgaBallIoctl_ret _ _).mpr ⟨rfl,Or.inl rfl⟩
  · simp only [rs]
    rw [main_requests,requests,List.getElem?_cons_succ,List.getElem?_map,
      List.getElem?_range n.isLt,Option.map_some]
  · rw [position,setBallPos,setPosArg_ballX,loop_x]
    exact ushort_toNat (by omega)
  · rw [position,setBallPos,setPosArg_ballY,loop_y]
    exact ushort_toNat (by omega)
  · exact (vgaBallIoctl_ret _ _).mpr ⟨rfl,Or.inr (Or.inr rfl)⟩

section Picture

def active (b : Bus) : Bool := b.chipselect && b.write

/-- The write cycles that a sequence of driver steps puts on the bus. -/
def cycles (ops : List Op) : List Bus := ops.filterMap fun op =>
  match op with
  | .iowrite32 value offset => some (busCycle value offset)
  | _ => none

theorem foldl_exec_regs (s : Sys) (ops : List Op) :
    (ops.foldl exec s).regs = (cycles ops).foldl writeRegisters s.regs := by
  induction ops generalizing s with
  | nil => rfl
  | cons op ops ih =>
    rw [List.foldl_cons,ih]
    cases op <;> rfl

/-- Cycles that write nothing do not matter to the register file. -/
theorem foldl_active (r : Registers) (bs : List Bus) :
    bs.foldl writeRegisters r = (bs.filter active).foldl writeRegisters r := by
  induction bs generalizing r with
  | nil => rfl
  | cons b bs ih =>
    cases hb : active b with
    | true => rw [List.foldl_cons,ih,List.filter_cons_of_pos hb,List.foldl_cons]
    | false =>
      have hidle : writeRegisters r b = r := by
        unfold active at hb
        rw [writeRegisters,hb]
        rfl
      rw [List.foldl_cons,hidle,ih,List.filter_cons_of_neg (by simp [hb])]

def opsOf (rs : List Request) : List Op := rs.flatMap fun r => r.call.elim [] Call.ops

theorem serve_eq (s : Sys) (rs : List Request) : serve s rs = (opsOf rs).foldl exec s := by
  rw [opsOf,List.foldl_flatMap,serve]
  congr 1
  funext s r
  exact vgaBallIoctl_sys s r

/-- Everything that `vga_ball_probe` and `main`, up to position `n`, write over the bus. -/
def demoCycles (m : Stacks) (n : ℕ) : List Bus :=
  cycles (writeBackground beige ++ writeBallPos 320 240 ++ opsOf ((main true m).1.take (n+2)))

theorem demoCycles_regs (m : Stacks) {n : ℕ} (hn : n < 10000) :
    (demoCycles m n).foldl writeRegisters resetRegisters = (shownAt n).regs := by
  let s₀ : Sys := ⟨resetRegisters,⟨bg,0,0⟩⟩
  have hregs := foldl_exec_regs s₀
    (writeBackground beige ++ writeBallPos 320 240 ++ opsOf (requests m (n+1)))
  rw [List.foldl_append,← probed,← serve_eq,serve_requests] at hregs
  rw [demoCycles,take_main m (by omega)]
  exact hregs.symm

/-- The picture of a register file over the integers: a red ball of radius 16. -/
def picture (r : Registers) (x y : ℕ) : Color :=
  if ((x : ℤ)-r.ballX.toNat)^2+((y : ℤ)-r.ballY.toNat)^2 ≤ 256 then (0xff,0x0,0x0)
  else r.background

theorem vgaRgb_presents {s : VgaBall.State} {x y : ℕ} (h : Presents s x y)
    (hr : VgaBall.InRange s.regs) : vgaRgb s = picture s.regs x y := by
  obtain ⟨hblank,hpx,hpy⟩ := h
  have hball := inBall_iff hr
  rw [hpx,hpy] at hball
  rw [vgaRgb,if_pos hblank]
  exact if_congr hball rfl rfl

/-- Once the bus has carried the writes of `main` up to position `n` and no more, wherever idle
cycles stand between them, the edges that scan the pixel `(x, y)` show red within 16 of the ball,
which is `main`'s own position held back at `638` and `478`, and dark blue elsewhere. -/
theorem demo_picture (m : Stacks) {n : ℕ} (hn : n < 10000) (s₀ : VgaBall.State) (b₀ : Bus)
    (w : ℕ → Bus) {t x y : ℕ}
    (hbus : ((List.range t).map w).filter active = demoCycles m n) (hx : x < 640) (hy : y < 480)
    (ht : t % (1600*525) = 1600*y+2*x ∨ t % (1600*525) = 1600*y+2*x+1) :
    vgaRgb (afterReset s₀ b₀ w t) =
      if ((x : ℤ)-(min (ballX n) 638 : ℕ))^2+((y : ℤ)-(min (ballY n) 478 : ℕ))^2 ≤ 256
      then (0xff,0x0,0x0) else bg := by
  have hpixel := (presents_iff s₀ b₀ w hx hy t).mpr ht
  have hregs : (afterReset s₀ b₀ w t).regs = (shownAt n).regs := by
    rw [← demoCycles_regs m hn,← hbus,← foldl_active]
    exact afterReset_regs s₀ b₀ w t
  have hX := ballX_le n
  have hY := ballY_le n
  have hbx : (shownAt n).regs.ballX.toNat = min (ballX n) 638 := Nat.mod_eq_of_lt (by omega)
  have hby : (shownAt n).regs.ballY.toNat = min (ballY n) 478 := Nat.mod_eq_of_lt (by omega)
  rw [vgaRgb_presents hpixel (by rw [hregs]; exact ⟨by omega,by omega⟩),hregs,picture,hbx,hby]
  rfl

/-- A bus that carries `bs` without a pause and is idle afterwards. -/
def carrying (bs : List Bus) (t : ℕ) : Bus := bs.getD t ⟨0,false,false,0⟩

theorem map_carrying (bs : List Bus) : (List.range bs.length).map (carrying bs) = bs := by
  refine List.ext_getElem (by simp) ?_
  intro i hi hi'
  simp [carrying,hi']

theorem active_cycles (ops : List Op) : (cycles ops).filter active = cycles ops := by
  refine List.filter_eq_self.mpr ?_
  intro b hb
  obtain ⟨op,-,hop⟩ := List.mem_filterMap.mp hb
  cases op with
  | iowrite32 value offset =>
    obtain rfl := Option.some.inj hop
    rfl
  | setBackground c => exact absurd hop (by simp)
  | setBallX x => exact absurd hop (by simp)
  | setBallY y => exact absurd hop (by simp)

theorem demo_picture_corner :
    let m : Stacks := ⟨fun _ _ => 0,fun _ _ => 0⟩
    vgaRgb (afterReset ⟨resetRegisters,⟨0,0⟩⟩ ⟨0,false,false,0⟩ (carrying (demoCycles m 0)) 6) =
      (0x00,0x00,0x40) := by
  intro m
  have hlen : (demoCycles m 0).length = 6 := by
    rw [demoCycles,take_main m (by decide)]
    rfl
  have hbus : ((List.range 6).map (carrying (demoCycles m 0))).filter active = demoCycles m 0 := by
    rw [← hlen,map_carrying]
    exact active_cycles _
  refine (demo_picture m (by decide) _ _ _ hbus (by decide : 3 < 640) (by decide : 0 < 480)
    (Or.inl rfl)).trans ?_
  decide

end Picture

end Demo
end VgaDriver
end EmbeddedSystems
