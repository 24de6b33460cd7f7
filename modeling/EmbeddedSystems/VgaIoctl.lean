import EmbeddedSystems.VgaDriver

/-! `vga_ball_ioctl` moves one `vga_ball_arg_t` between user space and the device. The structure
is eight bytes long: the three colour components, one byte of padding and two little-endian
16-bit coordinates. Requests are served one at a time here; their interleavings are the
subject of `VgaDriver`. -/

namespace EmbeddedSystems
namespace VgaDriver

open VgaBall

abbrev Arg := Fin 8 → BitVec 8

namespace Arg

def background (a : Arg) : Color := (a 0,a 1,a 2)

def ballX (a : Arg) : BitVec 16 := a 5 ++ a 4

def ballY (a : Arg) : BitVec 16 := a 7 ++ a 6

/-- `vla.background = c` stores three bytes and leaves the other five alone. -/
def setBackground (a : Arg) (c : Color) : Arg :=
  Function.update (Function.update (Function.update a 0 c.1) 1 c.2.1) 2 c.2.2

theorem background_setBackground (a : Arg) (c : Color) : (a.setBackground c).background = c := rfl

theorem setBackground_eq_iff (a b : Arg) (c : Color) :
    a.setBackground c = b.setBackground c ↔ ∀ i : Fin 8, 3 ≤ i.val → a i = b i := by
  have hrest : ∀ (v : Arg) (i : Fin 8), 3 ≤ i.val → v.setBackground c i = v i := by
    intro v i hi
    have h0 : i ≠ 0 := by rintro rfl; exact absurd hi (by decide)
    have h1 : i ≠ 1 := by rintro rfl; exact absurd hi (by decide)
    have h2 : i ≠ 2 := by rintro rfl; exact absurd hi (by decide)
    simp only [setBackground,Function.update_of_ne h0,Function.update_of_ne h1,
      Function.update_of_ne h2]
  constructor
  · intro h i hi
    rw [← hrest a i hi,h,hrest b i hi]
  · intro h
    funext i
    by_cases hi : 3 ≤ i.val
    · rw [hrest a i hi,hrest b i hi,h i hi]
    · have hcases : i = 0 ∨ i = 1 ∨ i = 2 := by omega
      rcases hcases with rfl | rfl | rfl <;> rfl

end Arg

def ioc (dir nr : ℕ) : BitVec 32 := BitVec.ofNat 32 (dir*2^30 + 8*2^16 + 0x71*2^8 + nr)

def writeBackgroundCmd : BitVec 32 := ioc 1 1
def readBackgroundCmd : BitVec 32 := ioc 2 2
def setPosCmd : BitVec 32 := ioc 1 3

def eacces : ℤ := 13
def einval : ℤ := 22

/-- One call of `vga_ball_ioctl`: the command, the bytes at the user's pointer, whether the copy
between user and kernel space goes through, and what the stack holds where `vla` is put. -/
structure Request where
  cmd : BitVec 32
  arg : Arg
  copies : Bool
  vla : Arg
  deriving DecidableEq

structure Reply where
  ret : ℤ
  sys : Sys
  toUser : Option Arg

def vgaBallIoctl (s : Sys) (r : Request) : Reply :=
  if r.cmd = writeBackgroundCmd then
    if r.copies then ⟨0,(writeBackground r.arg.background).foldl exec s,none⟩
    else ⟨-eacces,s,none⟩
  else if r.cmd = readBackgroundCmd then
    if r.copies then ⟨0,s,some (r.vla.setBackground s.dev.background)⟩
    else ⟨-eacces,s,some (r.vla.setBackground s.dev.background)⟩
  else if r.cmd = setPosCmd then
    if r.copies then ⟨0,(writeBallPos r.arg.ballX r.arg.ballY).foldl exec s,none⟩
    else ⟨-eacces,s,none⟩
  else ⟨-einval,s,none⟩

def serve (s : Sys) (rs : List Request) : Sys := rs.foldl (fun s r => (vgaBallIoctl s r).sys) s

def beige : Color := (0xf9,0xe4,0xb7)

/-- The writes with which a successful `vga_ball_probe` ends. -/
def probed (s : Sys) : Sys := (writeBackground beige ++ writeBallPos 320 240).foldl exec s

def Request.call (r : Request) : Option Call :=
  if r.copies then
    if r.cmd = writeBackgroundCmd then some (.writeBackground r.arg.background)
    else if r.cmd = setPosCmd then some (.setPos r.arg.ballX r.arg.ballY)
    else none
  else none

theorem readBackgroundCmd_ne : readBackgroundCmd ≠ writeBackgroundCmd := by decide

theorem setPosCmd_ne : setPosCmd ≠ writeBackgroundCmd ∧ setPosCmd ≠ readBackgroundCmd := by decide

theorem vgaBallIoctl_sys (s : Sys) (r : Request) :
    (vgaBallIoctl s r).sys = (r.call.elim [] Call.ops).foldl exec s := by
  unfold vgaBallIoctl Request.call
  have hread : readBackgroundCmd ≠ setPosCmd := setPosCmd_ne.2.symm
  split_ifs with hw hc hr hc hp hc <;> simp_all [Call.ops]

theorem vgaBallIoctl_ret (s : Sys) (r : Request) :
    (vgaBallIoctl s r).ret = 0 ↔ r.copies = true ∧
      (r.cmd = writeBackgroundCmd ∨ r.cmd = readBackgroundCmd ∨ r.cmd = setPosCmd) := by
  unfold vgaBallIoctl eacces einval
  split_ifs with hw hc hr hc hp hc <;> simp [*]

theorem vgaBallIoctl_read {r : Request} (hr : r.cmd = readBackgroundCmd) (s : Sys) :
    (vgaBallIoctl s r).toUser = some (r.vla.setBackground s.dev.background) := by
  unfold vgaBallIoctl
  rw [if_neg (by rw [hr]; exact readBackgroundCmd_ne),if_pos hr]
  cases r.copies <;> rfl

/-- What reading the background hands to user space, after any two histories that leave the
same `dev`: the bytes are equal exactly if the stack held the same five bytes behind the
colour. -/
theorem readBackground_bytes_eq_iff (s s' : Sys) (rs rs' : List Request) (r r' : Request)
    (hdev : (serve s rs).dev = (serve s' rs').dev)
    (hr : r.cmd = readBackgroundCmd) (hr' : r'.cmd = readBackgroundCmd) :
    (vgaBallIoctl (serve s rs) r).toUser = (vgaBallIoctl (serve s' rs') r').toUser ↔
      ∀ i : Fin 8, 3 ≤ i.val → r.vla i = r'.vla i := by
  rw [vgaBallIoctl_read hr,vgaBallIoctl_read hr',← hdev,Option.some.injEq]
  exact Arg.setBackground_eq_iff _ _ _

/-- Two stacks that differ in the low byte of `ball_x` give different answers. -/
theorem readBackground_leaks_stack :
    let r (v : Arg) : Request := ⟨readBackgroundCmd,fun _ => 0,true,v⟩
    let s : Sys := ⟨resetRegisters,⟨beige,320,240⟩⟩
    (vgaBallIoctl (serve s []) (r fun _ => 0)).toUser ≠
      (vgaBallIoctl (serve s []) (r (Function.update (fun _ => 0) 4 0x5a))).toUser := by
  intro r s
  decide

theorem readBackground_bytes_eq_agreeing :
    let r (v : Arg) : Request := ⟨readBackgroundCmd,fun _ => 0,true,v⟩
    let s : Sys := ⟨resetRegisters,⟨beige,320,240⟩⟩
    (vgaBallIoctl (serve s []) (r fun _ => 0)).toUser =
      (vgaBallIoctl (serve s []) (r (Function.update (fun _ => 0) 1 0x5a))).toUser := by
  intro r s
  refine (readBackground_bytes_eq_iff s s [] [] _ _ rfl rfl rfl).mpr ?_
  decide

section Writes

theorem Port.call {α : Type} (p : Port α) {c : Call} (hc : c.InRange) (s : Sys) :
    p.get (c.ops.foldl exec s) = (p.val c).getD (p.get s) := by
  rw [p.run]
  unfold Clocked.latest
  rw [p.ops_accept c hc]
  cases p.val c <;> rfl

theorem exec_inRange {s : Sys} (h : InRange s.regs) (op : Op) : InRange (exec s op).regs := by
  cases op with
  | iowrite32 v o => exact h.write (busCycle v o)
  | setBackground c => exact h
  | setBallX x => exact h
  | setBallY y => exact h

theorem foldl_exec_inRange {s : Sys} (h : InRange s.regs) (l : List Op) :
    InRange (l.foldl exec s).regs := by
  induction l generalizing s with
  | nil => exact h
  | cons op l ih => exact ih (exec_inRange h op)

/-- The registers never hold a position off the screen, whatever is requested. -/
theorem serve_inRange {s : Sys} (h : InRange s.regs) (rs : List Request) :
    InRange (serve s rs).regs := by
  induction rs generalizing s with
  | nil => exact h
  | cons r rs ih =>
    have hr : InRange (vgaBallIoctl s r).sys.regs := by
      rw [vgaBallIoctl_sys]
      exact foldl_exec_inRange h _
    exact ih hr

/-- If the request sets the position, the position is on the screen. -/
def Request.InRange (r : Request) : Prop :=
  r.copies = true → r.cmd = setPosCmd → r.arg.ballX.toNat ≤ 639 ∧ r.arg.ballY.toNat ≤ 479

instance (r : Request) : Decidable r.InRange :=
  inferInstanceAs (Decidable (_ → _ → _))

end Writes

section Cell

@[ext] structure Cell where
  color : Color
  x : BitVec 16
  y : BitVec 16
  deriving DecidableEq, Repr

/-- A successful write sets the colour, a successful positioning sets the position, and nothing
else changes anything. -/
def Cell.serve (c : Cell) (r : Request) : Cell :=
  if r.copies = true ∧ r.cmd = writeBackgroundCmd then { c with color := r.arg.background }
  else if r.copies = true ∧ r.cmd = setPosCmd then { c with x := r.arg.ballX, y := r.arg.ballY }
  else c

def Cell.initial : Cell := ⟨beige,320,240⟩

structure Holds (s : Sys) (c : Cell) : Prop where
  regs : s.regs = ⟨c.color,c.x,c.y⟩
  dev : s.dev = ⟨c.color,c.x,c.y⟩

theorem Holds.call {s : Sys} {a : Cell} (h : Holds s a) {c : Call} (hc : c.InRange) :
    Holds (c.ops.foldl exec s) ⟨c.color.getD a.color,c.x.getD a.x,c.y.getD a.y⟩ := by
  have hcolor : s.regs.background = a.color := by rw [h.regs]
  have hx : s.regs.ballX = a.x := by rw [h.regs]
  have hy : s.regs.ballY = a.y := by rw [h.regs]
  have hcolor' : s.dev.background = a.color := by rw [h.dev]
  have hx' : s.dev.ballX = a.x := by rw [h.dev]
  have hy' : s.dev.ballY = a.y := by rw [h.dev]
  constructor
  · apply Registers.ext
    · exact (Port.regBackground.call hc s).trans (congrArg c.color.getD hcolor)
    · exact (Port.regBallX.call hc s).trans (congrArg c.x.getD hx)
    · exact (Port.regBallY.call hc s).trans (congrArg c.y.getD hy)
  · apply Dev.ext
    · exact (Port.devBackground.call hc s).trans (congrArg c.color.getD hcolor')
    · exact (Port.devBallX.call hc s).trans (congrArg c.x.getD hx')
    · exact (Port.devBallY.call hc s).trans (congrArg c.y.getD hy')

theorem probed_holds (s : Sys) : Holds (probed s) Cell.initial := by
  let s' := (Call.ops (.writeBackground beige)).foldl exec s
  have hpos : Call.InRange (.setPos 320 240) := by constructor <;> decide
  have hprobed : probed s = (Call.ops (.setPos 320 240)).foldl exec s' := by
    unfold probed
    rw [List.foldl_append]
    rfl
  have hbg : Call.InRange (.writeBackground beige) := trivial
  have hcolor : s'.regs.background = beige := Port.regBackground.call hbg s
  have hcolor' : s'.dev.background = beige := Port.devBackground.call hbg s
  rw [hprobed]
  constructor
  · apply Registers.ext
    · exact (Port.regBackground.call hpos s').trans hcolor
    · exact Port.regBallX.call hpos s'
    · exact Port.regBallY.call hpos s'
  · apply Dev.ext
    · exact (Port.devBackground.call hpos s').trans hcolor'
    · exact Port.devBallX.call hpos s'
    · exact Port.devBallY.call hpos s'

theorem Holds.serve {s : Sys} {a : Cell} (h : Holds s a) {r : Request} (hr : r.InRange) :
    Holds (vgaBallIoctl s r).sys (a.serve r) := by
  rw [vgaBallIoctl_sys]
  unfold Request.call Cell.serve
  by_cases hc : r.copies = true
  · by_cases hw : r.cmd = writeBackgroundCmd
    · simpa [hc,hw,Call.color,Call.x,Call.y] using
        h.call (c := .writeBackground r.arg.background) trivial
    · by_cases hp : r.cmd = setPosCmd
      · have hin : Call.InRange (.setPos r.arg.ballX r.arg.ballY) := hr hc hp
        simpa [hc,hp,setPosCmd_ne,Call.color,Call.x,Call.y] using h.call hin
      · simpa [hc,hw,hp] using h
  · simpa [hc] using h

theorem Holds.serve_all {s : Sys} {a : Cell} (h : Holds s a) {rs : List Request}
    (hrs : ∀ r ∈ rs, r.InRange) : Holds (VgaDriver.serve s rs) (rs.foldl Cell.serve a) := by
  induction rs generalizing s a with
  | nil => exact h
  | cons r rs ih =>
    have hr : r.InRange := hrs r List.mem_cons_self
    exact ih (h.serve hr) fun q hq => hrs q (List.mem_cons_of_mem r hq)

/-- Driver and device are the cell: after `vga_ball_probe` and any sequence of requests that
keep to the screen, the registers and the mirror hold the colour and the position of the cell,
a request succeeds exactly if its command is known and its copy goes through, and the colour
handed to a reader is the one in the hardware. -/
theorem driver_refines_cell (s₀ : Sys) (rs : List Request) (hrs : ∀ r ∈ rs, r.InRange) :
    let s := serve (probed s₀) rs
    let a := rs.foldl Cell.serve Cell.initial
    s.regs = ⟨a.color,a.x,a.y⟩ ∧ s.dev = ⟨a.color,a.x,a.y⟩ ∧
      ∀ r : Request, ((vgaBallIoctl s r).ret = 0 ↔ r.copies = true ∧
          (r.cmd = writeBackgroundCmd ∨ r.cmd = readBackgroundCmd ∨ r.cmd = setPosCmd)) ∧
        (r.cmd = readBackgroundCmd →
          (vgaBallIoctl s r).toUser.map Arg.background = some s.regs.background) := by
  intro s a
  have h : Holds s a := (probed_holds s₀).serve_all hrs
  refine ⟨h.regs,h.dev,?_⟩
  intro r
  refine ⟨vgaBallIoctl_ret s r,?_⟩
  intro hr
  rw [vgaBallIoctl_read hr,h.regs,h.dev,Option.map_some,Arg.background_setBackground]

theorem driver_refines_cell_mixed :
    let rs : List Request := [⟨setPosCmd,![0,0,0,0,0x7f,0x02,0xdf,0x01],true,fun _ => 0⟩,
      ⟨0,fun _ => 1,true,fun _ => 0⟩,⟨writeBackgroundCmd,fun _ => 1,false,fun _ => 0⟩]
    (∀ r ∈ rs, r.InRange) ∧
      (serve (probed ⟨resetRegisters,⟨(0,0,0),0,0⟩⟩) rs).regs = ⟨beige,639,479⟩ := by
  intro rs
  have hrs : ∀ r ∈ rs, r.InRange := by decide
  refine ⟨hrs,(driver_refines_cell _ rs hrs).1.trans ?_⟩
  decide

end Cell

section Position

/-- A positioning that returns 0 has set the registers and the mirror, and one that asks for a
position off the screen has changed none of them. -/
def AllOrNothing (s : Sys) (r : Request) : Prop :=
  let x := r.arg.ballX
  let y := r.arg.ballY
  let s' := (vgaBallIoctl s r).sys
  ((vgaBallIoctl s r).ret = 0 →
    s'.regs.ballX = x ∧ s'.regs.ballY = y ∧ s'.dev.ballX = x ∧ s'.dev.ballY = y) ∧
  (639 < x.toNat ∨ 479 < y.toNat →
    s'.regs.ballX = s.regs.ballX ∧ s'.regs.ballY = s.regs.ballY ∧
      s'.dev.ballX = s.dev.ballX ∧ s'.dev.ballY = s.dev.ballY)

/-- With the registers in range, one positioning is all-or-nothing exactly if it fails to copy
its argument or asks for a position on the screen. -/
theorem allOrNothing_iff {s : Sys} (h : InRange s.regs) {r : Request} (hr : r.cmd = setPosCmd) :
    AllOrNothing s r ↔ r.InRange := by
  have hret := vgaBallIoctl_ret s r
  have hsys := vgaBallIoctl_sys s r
  cases hc : r.copies with
  | false =>
    have hsame : (vgaBallIoctl s r).sys = s := by
      rw [hsys]
      simp [Request.call,hc]
    constructor
    · intro _ hc'
      rw [hc] at hc'
      exact absurd hc' Bool.false_ne_true
    · intro _
      refine ⟨?_,?_⟩
      · intro h0
        have hc' := (hret.mp h0).1
        rw [hc] at hc'
        exact absurd hc' Bool.false_ne_true
      · intro _
        rw [hsame]
        exact ⟨rfl,rfl,rfl,rfl⟩
  | true =>
    have hcall : r.call = some (.setPos r.arg.ballX r.arg.ballY) := by
      simp [Request.call,hc,hr,setPosCmd_ne]
    rw [hcall] at hsys
    constructor
    · intro hall _ _
      obtain ⟨hx,hy,-,-⟩ := hall.1 (hret.mpr ⟨hc,Or.inr (Or.inr hr)⟩)
      have hin : InRange (vgaBallIoctl s r).sys.regs := by
        rw [hsys]
        exact foldl_exec_inRange h _
      rw [← hx,← hy]
      exact ⟨hin.ballX,hin.ballY⟩
    · intro hin
      have hpos : Call.InRange (.setPos r.arg.ballX r.arg.ballY) := hin hc hr
      refine ⟨?_,?_⟩
      · intro _
        rw [hsys]
        exact ⟨Port.regBallX.call hpos s,Port.regBallY.call hpos s,Port.devBallX.call hpos s,
          Port.devBallY.call hpos s⟩
      · rintro (hx | hy)
        · exact absurd hpos.1 (by omega)
        · exact absurd hpos.2 (by omega)

/-- In a history of requests after `vga_ball_probe`, every positioning is all-or-nothing exactly
if every positioning whose argument is copied asks for a position on the screen. -/
theorem setPos_allOrNothing_iff (s₀ : Sys) (rs : List Request) :
    (∀ pre r post, rs = pre ++ r :: post → r.cmd = setPosCmd →
        AllOrNothing (serve (probed s₀) pre) r) ↔
      ∀ r ∈ rs, r.cmd = setPosCmd → r.copies = true →
        r.arg.ballX.toNat ≤ 639 ∧ r.arg.ballY.toNat ≤ 479 := by
  have hstart : InRange (probed s₀).regs := by
    rw [(probed_holds s₀).regs]
    constructor <;> decide
  constructor
  · intro h r hr hcmd hc
    obtain ⟨pre,post,he⟩ := List.append_of_mem hr
    exact (allOrNothing_iff (serve_inRange hstart pre) hcmd).mp (h pre r post he hcmd) hc hcmd
  · intro h pre r post he hcmd
    have hr : r ∈ rs := by
      rw [he]
      exact List.mem_append_right pre List.mem_cons_self
    exact (allOrNothing_iff (serve_inRange hstart pre) hcmd).mpr fun hc _ => h r hr hcmd hc

/-- `(700, 100)` returns 0 with the registers at `(320, 100)` and the mirror at `(700, 100)`. -/
theorem setPos_half_applied :
    let r : Request := ⟨setPosCmd,![0,0,0,0,0xbc,0x02,0x64,0x00],true,fun _ => 0⟩
    let s := probed ⟨resetRegisters,⟨(0,0,0),0,0⟩⟩
    r.arg.ballX = 700 ∧ r.arg.ballY = 100 ∧ ¬AllOrNothing s r := by
  intro r s
  refine ⟨by decide,by decide,?_⟩
  intro h
  have hx := (h.1 rfl).1
  revert hx
  decide

end Position

end VgaDriver
end EmbeddedSystems
