import EmbeddedSystems.VgaPicture
import EmbeddedSystems.Interleaving

/-! `vga_ball.c` writes the registers of the peripheral with `iowrite32` and keeps a mirror of
them in `dev`. A request is a straight-line sequence of register writes and mirror updates;
there is no lock, so the steps of concurrent `ioctl` calls interleave freely. -/

namespace EmbeddedSystems
namespace VgaDriver

open Clocked Interleaving VgaBall

@[ext] structure Dev where
  background : Color
  ballX : BitVec 16
  ballY : BitVec 16
  deriving DecidableEq, Repr

/-- The peripheral's register file and the driver's mirror of it. -/
@[ext] structure Sys where
  regs : Registers
  dev : Dev
  deriving DecidableEq, Repr

/-- Byte offsets of the registers from `dev.virtbase`. -/
def bgColor : ℕ := 0
def ballXOffset : ℕ := 4
def ballYOffset : ℕ := 8

/-- One step of the driver: a bus write or one assignment to a field of `dev`. -/
inductive Op
  | iowrite32 (value : BitVec 32) (offset : ℕ)
  | setBackground (c : Color)
  | setBallX (x : BitVec 16)
  | setBallY (y : BitVec 16)
  deriving DecidableEq, Repr

/-- `iowrite32` at a byte offset is one write cycle at the word address. -/
def busCycle (value : BitVec 32) (offset : ℕ) : Bus where
  writedata := value
  write := true
  chipselect := true
  address := BitVec.ofNat 3 (offset/4)

def exec (s : Sys) : Op → Sys
  | .iowrite32 value offset => { s with regs := writeRegisters s.regs (busCycle value offset) }
  | .setBackground c => { s with dev := { s.dev with background := c } }
  | .setBallX x => { s with dev := { s.dev with ballX := x } }
  | .setBallY y => { s with dev := { s.dev with ballY := y } }

def packColor (c : Color) : BitVec 32 :=
  c.1.setWidth 32 <<< 16 ||| c.2.1.setWidth 32 <<< 8 ||| c.2.2.setWidth 32

def writeBackground (background : Color) : List Op :=
  [.iowrite32 (packColor background) bgColor,.setBackground background]

def writeBallPos (x y : BitVec 16) : List Op :=
  [.iowrite32 (x.setWidth 32) ballXOffset,.iowrite32 (y.setWidth 32) ballYOffset,
    .setBallX x,.setBallY y]

inductive Call
  | writeBackground (background : Color)
  | setPos (x y : BitVec 16)
  deriving DecidableEq, Repr

def Call.ops : Call → List Op
  | .writeBackground c => VgaDriver.writeBackground c
  | .setPos x y => writeBallPos x y

def Call.isSetPos : Call → Bool
  | .setPos _ _ => true
  | .writeBackground _ => false

def Call.InRange : Call → Prop
  | .setPos x y => x.toNat ≤ 639 ∧ y.toNat ≤ 479
  | .writeBackground _ => True

structure Mirrored (s : Sys) : Prop where
  background : s.regs.background = s.dev.background
  ballX : s.regs.ballX = s.dev.ballX
  ballY : s.regs.ballY = s.dev.ballY

def sequential {n : ℕ} (calls : Fin n → Call) (s : Sys) (order : List (Fin n)) : Sys :=
  order.foldl (fun s i => (calls i).ops.foldl exec s) s

section Fields

def regBackground : Op → Option Color
  | .iowrite32 v o => acceptBackground (busCycle v o)
  | _ => none
def regBallX : Op → Option (BitVec 16)
  | .iowrite32 v o => acceptCoordinate 1 639 (busCycle v o)
  | _ => none
def regBallY : Op → Option (BitVec 16)
  | .iowrite32 v o => acceptCoordinate 2 479 (busCycle v o)
  | _ => none
def devBackground : Op → Option Color
  | .setBackground c => some c
  | _ => none
def devBallX : Op → Option (BitVec 16)
  | .setBallX x => some x
  | _ => none
def devBallY : Op → Option (BitVec 16)
  | .setBallY y => some y
  | _ => none

theorem exec_regBackground (s : Sys) (op : Op) :
    (exec s op).regs.background = (regBackground op).getD s.regs.background := by
  cases op <;> first | rfl | exact congrArg Registers.background (writeRegisters_eq _ _)
theorem exec_regBallX (s : Sys) (op : Op) :
    (exec s op).regs.ballX = (regBallX op).getD s.regs.ballX := by
  cases op <;> first | rfl | exact congrArg Registers.ballX (writeRegisters_eq _ _)
theorem exec_regBallY (s : Sys) (op : Op) :
    (exec s op).regs.ballY = (regBallY op).getD s.regs.ballY := by
  cases op <;> first | rfl | exact congrArg Registers.ballY (writeRegisters_eq _ _)
theorem exec_devBackground (s : Sys) (op : Op) :
    (exec s op).dev.background = (devBackground op).getD s.dev.background := by
  cases op <;> rfl
theorem exec_devBallX (s : Sys) (op : Op) :
    (exec s op).dev.ballX = (devBallX op).getD s.dev.ballX := by
  cases op <;> rfl
theorem exec_devBallY (s : Sys) (op : Op) :
    (exec s op).dev.ballY = (devBallY op).getD s.dev.ballY := by
  cases op <;> rfl

end Fields

def Call.color : Call → Option Color
  | .writeBackground c => some c
  | .setPos _ _ => none
def Call.x : Call → Option (BitVec 16)
  | .setPos x _ => some x
  | .writeBackground _ => none
def Call.y : Call → Option (BitVec 16)
  | .setPos _ y => some y
  | .writeBackground _ => none

/-- The colour packed by shifts in the driver is unpacked by slices in the peripheral. -/
theorem unpack_packColor (c : Color) :
    ((packColor c).extractLsb' 16 8,(packColor c).extractLsb' 8 8,(packColor c).extractLsb' 0 8) =
      c := by
  obtain ⟨r,g,b⟩ := c
  have hr : (packColor (r,g,b)).extractLsb' 16 8 = r := by
    ext i hi
    rw [packColor,BitVec.getElem_extractLsb']
    grind
  have hg : (packColor (r,g,b)).extractLsb' 8 8 = g := by
    ext i hi
    rw [packColor,BitVec.getElem_extractLsb']
    grind
  have hb : (packColor (r,g,b)).extractLsb' 0 8 = b := by
    ext i hi
    rw [packColor,BitVec.getElem_extractLsb']
    grind
  rw [hr,hg,hb]

theorem extract_setWidth (x : BitVec 16) : (x.setWidth 32).extractLsb' 0 16 = x := by
  ext i hi
  have h : i < 32 := by omega
  simp [hi,h]

section Ops

variable (c : Call) (h : c.InRange)

theorem ops_regBackground : c.ops.filterMap regBackground = c.color.toList := by
  cases c with
  | writeBackground c =>
    have hc : regBackground (.iowrite32 (packColor c) bgColor) = some c :=
      congrArg some (unpack_packColor c)
    rw [Call.ops,VgaDriver.writeBackground,List.filterMap_cons_some hc]
    rfl
  | setPos x y => rfl

theorem ops_devBackground : c.ops.filterMap devBackground = c.color.toList := by
  cases c <;> rfl

theorem ops_devBallX : c.ops.filterMap devBallX = c.x.toList := by
  cases c <;> rfl

theorem ops_devBallY : c.ops.filterMap devBallY = c.y.toList := by
  cases c <;> rfl

include h

theorem ops_regBallX : c.ops.filterMap regBallX = c.x.toList := by
  cases c with
  | writeBackground c => rfl
  | setPos x y =>
    have hx : x ≤ 639#16 := by simpa [BitVec.le_def] using h.1
    have hs := extract_setWidth x
    have hc : regBallX (.iowrite32 (x.setWidth 32) ballXOffset) = some x := by
      simp [regBallX,acceptCoordinate,busCycle,ballXOffset,hs,hx]
    rw [Call.ops,writeBallPos,List.filterMap_cons_some hc]
    rfl

theorem ops_regBallY : c.ops.filterMap regBallY = c.y.toList := by
  cases c with
  | writeBackground c => rfl
  | setPos x y =>
    have hy : y ≤ 479#16 := by simpa [BitVec.le_def] using h.2
    have hs := extract_setWidth y
    have hc : regBallY (.iowrite32 (y.setWidth 32) ballYOffset) = some y := by
      simp [regBallY,acceptCoordinate,busCycle,ballYOffset,hs,hy]
    have hc' : regBallY (.iowrite32 (x.setWidth 32) ballXOffset) = none := rfl
    rw [Call.ops,writeBallPos,List.filterMap_cons_none hc',List.filterMap_cons_some hc]
    rfl

end Ops

/-- A register or mirror field: how it is read, what a step puts into it, and what a call
passes for it. A call in range writes it exactly once or not at all. -/
structure Port (α : Type) where
  get : Sys → α
  accept : Op → Option α
  val : Call → Option α
  exec_get : ∀ s op, get (exec s op) = (accept op).getD (get s)
  ops_accept : ∀ c : Call, c.InRange → c.ops.filterMap accept = (val c).toList

namespace Port

def regBackground : Port Color :=
  ⟨fun s => s.regs.background,_,_,exec_regBackground,fun c _ => ops_regBackground c⟩
def regBallX : Port (BitVec 16) := ⟨fun s => s.regs.ballX,_,_,exec_regBallX,ops_regBallX⟩
def regBallY : Port (BitVec 16) := ⟨fun s => s.regs.ballY,_,_,exec_regBallY,ops_regBallY⟩
def devBackground : Port Color :=
  ⟨fun s => s.dev.background,_,_,exec_devBackground,fun c _ => ops_devBackground c⟩
def devBallX : Port (BitVec 16) :=
  ⟨fun s => s.dev.ballX,_,_,exec_devBallX,fun c _ => ops_devBallX c⟩
def devBallY : Port (BitVec 16) :=
  ⟨fun s => s.dev.ballY,_,_,exec_devBallY,fun c _ => ops_devBallY c⟩

theorem run {α : Type} (p : Port α) (s : Sys) (l : List Op) :
    p.get (l.foldl exec s) = latest p.accept (p.get s) l :=
  foldl_register exec p.get p.accept p.exec_get s l

end Port

section Concurrent

variable {n : ℕ} {calls : Fin n → Call} {tr : List (Fin n × Op)}

/-- A component holds what one of the callers passed for it, or its old value if none passed
anything. -/
def PassedOrKept {α : Type} (calls : Fin n → Call) (val : Call → Option α) (old new : α) : Prop :=
  (new = old ∧ ∀ i, val (calls i) = none) ∨ ∃ i, val (calls i) = some new

section Final

variable {α : Type} (p : Port α) (hin : ∀ i, (calls i).InRange)
  (htr : Interleaves (fun i => (calls i).ops) tr)

include hin htr

theorem Port.accepted {e : Fin n × Op} (he : e ∈ tr) {v : α} (hv : p.accept e.2 = some v) :
    p.val (calls e.1) = some v := by
  have hm : v ∈ (calls e.1).ops.filterMap p.accept :=
    List.mem_filterMap.mpr ⟨e.2,(htr.mem e.1 e.2).mp he,hv⟩
  rw [p.ops_accept _ (hin e.1)] at hm
  simpa using hm

theorem Port.written {i : Fin n} (hi : (p.val (calls i)).isSome = true) :
    ∃ op, (i,op) ∈ tr ∧ (p.accept op).isSome = true := by
  obtain ⟨v,hv⟩ := Option.isSome_iff_exists.mp hi
  have hm : v ∈ (calls i).ops.filterMap p.accept := by
    rw [p.ops_accept _ (hin i),hv]
    simp
  obtain ⟨op,hop,ha⟩ := List.mem_filterMap.mp hm
  exact ⟨op,(htr.mem i op).mpr hop,by rw [ha]; rfl⟩

theorem Port.lastWriter_eq_none :
    lastWriter p.accept tr = none ↔ ∀ i, p.val (calls i) = none := by
  rw [Interleaving.lastWriter_eq_none]
  constructor
  · intro hnone i
    by_contra hi
    obtain ⟨op,he,ha⟩ := p.written hin htr (Option.isSome_iff_ne_none.mpr hi)
    rw [hnone _ he] at ha
    exact absurd ha Bool.false_ne_true
  · intro hnone e he
    cases hv : p.accept e.2 with
    | none => rfl
    | some v => exact absurd ((hnone e.1).symm.trans (p.accepted hin htr he hv)) nofun

theorem Port.lastWriter_isSome {i : Fin n} (hi : lastWriter p.accept tr = some i) :
    (p.val (calls i)).isSome = true := by
  obtain ⟨op,he,ha⟩ := lastWriter_mem hi
  obtain ⟨v,hv⟩ := Option.isSome_iff_exists.mp ha
  rw [p.accepted hin htr he hv]
  rfl

/-- A register or field ends up with what its last writer passed for it. -/
theorem Port.final (s₀ : Sys) : p.get ((tr.map Prod.snd).foldl exec s₀) =
    ((lastWriter p.accept tr).bind fun i => p.val (calls i)).getD (p.get s₀) := by
  rw [p.run]
  exact latest_eq_lastWriter (fun e he v hv => p.accepted hin htr he hv) _

theorem Port.final_some {i : Fin n} (hi : lastWriter p.accept tr = some i) (s₀ : Sys) :
    p.val (calls i) = some (p.get ((tr.map Prod.snd).foldl exec s₀)) := by
  obtain ⟨v,hv⟩ := Option.isSome_iff_exists.mp (p.lastWriter_isSome hin htr hi)
  rw [p.final hin htr,hi,Option.bind_some,hv]
  rfl

theorem Port.passed (s₀ : Sys) :
    PassedOrKept calls p.val (p.get s₀) (p.get ((tr.map Prod.snd).foldl exec s₀)) := by
  cases hw : lastWriter p.accept tr with
  | none =>
    refine Or.inl ⟨?_,(p.lastWriter_eq_none hin htr).mp hw⟩
    rw [p.final hin htr,hw]
    rfl
  | some i => exact Or.inr ⟨i,p.final_some hin htr hw s₀⟩

end Final

/-- One call makes the last write of both coordinates, in the registers and in the mirror. -/
structure PosFromOne (tr : List (Fin n × Op)) : Prop where
  regY : lastWriter regBallY tr = lastWriter regBallX tr
  devX : lastWriter devBallX tr = lastWriter regBallX tr
  devY : lastWriter devBallY tr = lastWriter regBallX tr

def ColorFromOne (tr : List (Fin n × Op)) : Prop :=
  lastWriter devBackground tr = lastWriter regBackground tr

def Sys.position (s : Sys) : (BitVec 16 × BitVec 16) × (BitVec 16 × BitVec 16) :=
  ((s.regs.ballX,s.regs.ballY),(s.dev.ballX,s.dev.ballY))

def Sys.colors (s : Sys) : Color × Color := (s.regs.background,s.dev.background)

theorem Sys.eq_of_parts {s s' : Sys} (hp : s.position = s'.position) (hc : s.colors = s'.colors) :
    s = s' := by
  obtain ⟨hregs,hdev⟩ := Prod.ext_iff.mp hp
  obtain ⟨hrx,hry⟩ := Prod.ext_iff.mp hregs
  obtain ⟨hdx,hdy⟩ := Prod.ext_iff.mp hdev
  obtain ⟨hrc,hdc⟩ := Prod.ext_iff.mp hc
  exact Sys.ext (Registers.ext hrc hrx hry) (Dev.ext hdc hdx hdy)

/-- No two calls pass the same value. -/
def PassDifferent {α : Type} (calls : Fin n → Call) (val : Call → Option α) : Prop :=
  ∀ i j, (val (calls i)).isSome → val (calls i) = val (calls j) → i = j

theorem color_isSome (c : Call) : c.color.isSome = !c.isSetPos := by
  cases c <;> rfl

theorem x_isSome (c : Call) : c.x.isSome = c.isSetPos := by
  cases c <;> rfl

theorem y_isSome (c : Call) : c.y.isSome = c.isSetPos := by
  cases c <;> rfl

theorem lastWriter_of_noOverlap (hin : ∀ i, (calls i).InRange)
    (htr : Interleaves (fun i => (calls i).ops) tr) {K : Call → Bool}
    (hno : NoOverlap (fun i => K (calls i)) tr) :
    ∃ o : Option (Fin n), ∀ {α : Type} (p : Port α), (∀ c, (p.val c).isSome = K c) →
      lastWriter p.accept tr = o := by
  have hoff : ∀ {α : Type} (p : Port α), (∀ c, (p.val c).isSome = K c) → ∀ e ∈ tr,
      K (calls e.1) = false → p.accept e.2 = none := by
    intro α p hK e he hKe
    cases hv : p.accept e.2 with
    | none => rfl
    | some v =>
      have hsome := hK (calls e.1)
      rw [p.accepted hin htr he hv,hKe] at hsome
      exact absurd hsome.symm Bool.false_ne_true
  by_cases hex : ∃ e ∈ tr, K (calls e.1) = true
  · obtain ⟨i,pre,hl⟩ := hno.exists_last hex
    refine ⟨some i,fun p hK => ?_⟩
    exact hl.lastWriter (hoff p hK) (p.written hin htr ((hK _).trans hl.mem))
  · refine ⟨none,fun p hK => Interleaving.lastWriter_eq_none.mpr fun e he => ?_⟩
    exact hoff p hK e he (Bool.eq_false_iff.mpr fun hKe => hex ⟨e,he,hKe⟩)

theorem sequential_eq (calls : Fin n → Call) (s : Sys) (order : List (Fin n)) :
    sequential calls s order = (order.flatMap fun i => (calls i).ops).foldl exec s :=
  (List.foldl_flatMap).symm

theorem Port.sequential {α : Type} (p : Port α) (hin : ∀ i, (calls i).InRange) (s : Sys)
    (order : List (Fin n)) :
    p.get (sequential calls s order) = latest (fun i => p.val (calls i)) (p.get s) order := by
  rw [sequential_eq,p.run]
  unfold latest
  rw [List.filterMap_flatMap]
  simp only [p.ops_accept _ (hin _)]
  congr 2
  induction order with
  | nil => rfl
  | cons i order ih => cases h : p.val (calls i) <;> simp [h,ih]

theorem Port.sequential_concat {α : Type} (p : Port α) (hin : ∀ i, (calls i).InRange) (s : Sys)
    (order : List (Fin n)) (i : Fin n) :
    p.get (VgaDriver.sequential calls s (order ++ [i])) =
      (p.val (calls i)).getD (p.get (VgaDriver.sequential calls s order)) := by
  rw [p.sequential hin,p.sequential hin,latest_append_singleton]

theorem sequential_decided (hin : ∀ i, (calls i).InRange) (s₀ : Sys) {K : Call → Bool}
    (order : List (Fin n)) (hex : ∃ i ∈ order, K (calls i) = true) :
    ∃ i, ∀ {α : Type} (p : Port α), (∀ c, (p.val c).isSome = K c) →
      p.val (calls i) = some (p.get (sequential calls s₀ order)) := by
  induction order using List.reverseRecOn with
  | nil => simp at hex
  | append_singleton order i ih =>
    cases hi : K (calls i) with
    | true =>
      refine ⟨i,fun p hK => ?_⟩
      obtain ⟨v,hv⟩ := Option.isSome_iff_exists.mp ((hK _).trans hi)
      rw [p.sequential_concat hin,hv]
      rfl
    | false =>
      obtain ⟨k,hk,hKk⟩ := hex
      have hmem : k ∈ order := by
        rcases List.mem_append.mp hk with hk | hk
        · exact hk
        · rw [List.mem_singleton.mp hk,hi] at hKk
          exact absurd hKk Bool.false_ne_true
      obtain ⟨j,hj⟩ := ih ⟨k,hmem,hKk⟩
      refine ⟨j,fun p hK => ?_⟩
      have hnone : p.val (calls i) = none := by
        rw [← Option.isNone_iff_eq_none,← Option.isSome_eq_false_iff,hK]
        exact hi
      rw [p.sequential_concat hin,hnone]
      exact hj p hK

theorem latest_decided {ι α : Type} {f : ι → Option α} {l : List ι} {o : Option ι}
    (hl : l.getLast? = o) (ho : ∀ i, o = some i → (f i).isSome = true) (d : α) :
    latest f d l = (o.bind f).getD d := by
  cases o with
  | none =>
    rw [List.getLast?_eq_none_iff.mp hl]
    rfl
  | some i =>
    obtain ⟨v,hv⟩ := Option.isSome_iff_exists.mp (ho i rfl)
    rw [latest_getLast d hl hv]
    simp [hv]

theorem Port.exists_kind_order {α : Type} (p : Port α) (hin : ∀ i, (calls i).InRange)
    (htr : Interleaves (fun i => (calls i).ops) tr) {K : Call → Bool}
    (hK : ∀ c, (p.val c).isSome = K c) :
    ∃ l : List (Fin n), l.Perm ((List.finRange n).filter fun i => K (calls i)) ∧
      l.getLast? = lastWriter p.accept tr := by
  refine exists_perm_getLast _ _ ?_ ?_
  · intro i hi
    have hi' := p.lastWriter_isSome hin htr hi
    rw [hK] at hi'
    simpa using hi'
  · intro hnone
    rw [List.filter_eq_nil_iff]
    intro i _
    rw [← hK,(p.lastWriter_eq_none hin htr).mp hnone i]
    exact Bool.false_ne_true

/-- A port of the kind `K` ends up as in every order that puts the calls of `K` last and ends
with the port's last writer. -/
theorem Port.final_eq_sequential {α : Type} (p : Port α) (hin : ∀ i, (calls i).InRange)
    (htr : Interleaves (fun i => (calls i).ops) tr) {K : Call → Bool}
    (hK : ∀ c, (p.val c).isSome = K c) {pre l post : List (Fin n)}
    (hpre : ∀ i ∈ pre, K (calls i) = false) (hl : l.getLast? = lastWriter p.accept tr)
    (hpost : ∀ i ∈ post, K (calls i) = false) (s₀ : Sys) :
    p.get ((tr.map Prod.snd).foldl exec s₀) =
      p.get (VgaDriver.sequential calls s₀ (pre ++ l ++ post)) := by
  have hskip : ∀ {m : List (Fin n)}, (∀ i ∈ m, K (calls i) = false) →
      ∀ i ∈ m, p.val (calls i) = none := by
    intro m hm i hi
    rw [← Option.isNone_iff_eq_none,← Option.isSome_eq_false_iff,hK]
    exact hm i hi
  rw [p.final hin htr,p.sequential hin,latest_append,latest_append,latest_of_none _ (hskip hpost),
    latest_of_none _ (hskip hpre),
    latest_decided hl fun i hi => p.lastWriter_isSome hin htr hi]

/-- One order of the calls agrees with an interleaving on each kind that has one last writer. -/
theorem exists_order (hin : ∀ i, (calls i).InRange)
    (htr : Interleaves (fun i => (calls i).ops) tr) (s₀ : Sys) :
    ∃ order : List (Fin n), order.Perm (List.finRange n) ∧
      (PosFromOne tr → ((tr.map Prod.snd).foldl exec s₀).position =
        (sequential calls s₀ order).position) ∧
      (ColorFromOne tr → ((tr.map Prod.snd).foldl exec s₀).colors =
        (sequential calls s₀ order).colors) := by
  obtain ⟨lp,hlp,hlast⟩ := Port.regBallX.exists_kind_order hin htr x_isSome
  obtain ⟨lb,hlb,hlast'⟩ := Port.regBackground.exists_kind_order hin htr color_isSome
  have hmem : ∀ i ∈ lp, (!(calls i).isSetPos) = false := fun i hi => by
    simpa using (List.mem_filter.mp (hlp.mem_iff.mp hi)).2
  have hmem' : ∀ i ∈ lb, (calls i).isSetPos = false := fun i hi => by
    simpa using (List.mem_filter.mp (hlb.mem_iff.mp hi)).2
  refine ⟨lb ++ lp,?_,?_,?_⟩
  · refine (hlb.append hlp).trans ?_
    exact List.perm_append_comm.trans (List.filter_append_perm _ _)
  · intro hone
    have hpos : ∀ (p : Port (BitVec 16)), (∀ c, (p.val c).isSome = c.isSetPos) →
        lastWriter p.accept tr = lastWriter regBallX tr →
        p.get ((tr.map Prod.snd).foldl exec s₀) = p.get (sequential calls s₀ (lb ++ lp)) := by
      intro p hK hw
      have h := p.final_eq_sequential hin htr hK hmem' (hlast.trans hw.symm)
        (fun i hi => absurd hi List.not_mem_nil) s₀
      rwa [List.append_nil] at h
    exact Prod.ext (Prod.ext (hpos Port.regBallX x_isSome rfl)
        (hpos Port.regBallY y_isSome hone.regY))
      (Prod.ext (hpos Port.devBallX x_isSome hone.devX) (hpos Port.devBallY y_isSome hone.devY))
  · intro hone
    have hbg : ∀ (p : Port Color), (∀ c, (p.val c).isSome = !c.isSetPos) →
        lastWriter p.accept tr = lastWriter regBackground tr →
        p.get ((tr.map Prod.snd).foldl exec s₀) = p.get (sequential calls s₀ (lb ++ lp)) :=
      fun p hK hw => p.final_eq_sequential hin htr hK (fun i hi => absurd hi List.not_mem_nil)
        (hlast'.trans hw.symm) hmem s₀
    exact Prod.ext (hbg Port.regBackground color_isSome rfl)
      (hbg Port.devBackground color_isSome hone)

/-- Where the callers pass different values, a port that ends up as in a sequential order was
written last by the call that decides its kind there. -/
theorem Port.lastWriter_of_sequential {α : Type} (p : Port α) (hin : ∀ i, (calls i).InRange)
    (htr : Interleaves (fun i => (calls i).ops) tr) (hdiff : PassDifferent calls p.val)
    {s₀ s' : Sys} {i : Fin n} (hi : p.val (calls i) = some (p.get s'))
    (hs : p.get ((tr.map Prod.snd).foldl exec s₀) = p.get s') :
    lastWriter p.accept tr = some i := by
  cases hw : lastWriter p.accept tr with
  | none => exact absurd (((p.lastWriter_eq_none hin htr).mp hw i).symm.trans hi) nofun
  | some j =>
    have hj := p.final_some hin htr hw s₀
    rw [hs,← hi] at hj
    rw [hdiff i j (by rw [hi]; rfl) hj.symm]

section Kinds

variable (hin : ∀ i, (calls i).InRange) (htr : Interleaves (fun i => (calls i).ops) tr)

include hin htr

theorem posFromOne_of_noOverlap (hno : NoOverlap (fun i => (calls i).isSetPos) tr) :
    PosFromOne tr := by
  obtain ⟨o,ho⟩ := lastWriter_of_noOverlap hin htr (K := Call.isSetPos) hno
  have hx := ho Port.regBallX x_isSome
  exact ⟨(ho Port.regBallY y_isSome).trans hx.symm,(ho Port.devBallX x_isSome).trans hx.symm,
    (ho Port.devBallY y_isSome).trans hx.symm⟩

theorem colorFromOne_of_noOverlap (hno : NoOverlap (fun i => !(calls i).isSetPos) tr) :
    ColorFromOne tr := by
  obtain ⟨o,ho⟩ := lastWriter_of_noOverlap hin htr (K := fun c => !c.isSetPos) hno
  exact (ho Port.devBackground color_isSome).trans (ho Port.regBackground color_isSome).symm

theorem PosFromOne.pair (h : PosFromOne tr) (s₀ : Sys) (hex : ∃ i, (calls i).isSetPos = true) :
    ∃ i, calls i = .setPos ((tr.map Prod.snd).foldl exec s₀).regs.ballX
        ((tr.map Prod.snd).foldl exec s₀).regs.ballY ∧
      calls i = .setPos ((tr.map Prod.snd).foldl exec s₀).dev.ballX
        ((tr.map Prod.snd).foldl exec s₀).dev.ballY := by
  obtain ⟨k,hk⟩ := hex
  cases hw : lastWriter VgaDriver.regBallX tr with
  | none =>
    have hnone := (Port.regBallX.lastWriter_eq_none hin htr).mp hw k
    rw [← x_isSome,show (calls k).x = none from hnone] at hk
    exact absurd hk Bool.false_ne_true
  | some i =>
    have hx : (calls i).x = some _ := Port.regBallX.final_some hin htr hw s₀
    have hy : (calls i).y = some _ := Port.regBallY.final_some hin htr (h.regY.trans hw) s₀
    have hx' : (calls i).x = some _ := Port.devBallX.final_some hin htr (h.devX.trans hw) s₀
    have hy' : (calls i).y = some _ := Port.devBallY.final_some hin htr (h.devY.trans hw) s₀
    cases hc : calls i with
    | writeBackground c =>
      rw [hc] at hx
      exact absurd hx nofun
    | setPos x y =>
      rw [hc] at hx hy hx' hy'
      have hx : x = _ := Option.some.inj hx
      have hy : y = _ := Option.some.inj hy
      have hx' : x = _ := Option.some.inj hx'
      have hy' : y = _ := Option.some.inj hy'
      exact ⟨i,hc.trans (congrArg₂ Call.setPos hx hy),hc.trans (congrArg₂ Call.setPos hx' hy')⟩

theorem Port.final_eq {α : Type} (p q : Port α) (hval : p.val = q.val)
    (hw : lastWriter q.accept tr = lastWriter p.accept tr) {s₀ : Sys} (h₀ : p.get s₀ = q.get s₀) :
    p.get ((tr.map Prod.snd).foldl exec s₀) = q.get ((tr.map Prod.snd).foldl exec s₀) := by
  rw [p.final hin htr,q.final hin htr,hw,hval,h₀]

theorem PosFromOne.mirrored (h : PosFromOne tr) {s₀ : Sys}
    (h₀ : s₀.position.1 = s₀.position.2) :
    ((tr.map Prod.snd).foldl exec s₀).position.1 =
      ((tr.map Prod.snd).foldl exec s₀).position.2 := by
  obtain ⟨hx,hy⟩ := Prod.ext_iff.mp h₀
  exact Prod.ext (Port.final_eq hin htr Port.regBallX Port.devBallX rfl h.devX hx)
    (Port.final_eq hin htr Port.regBallY Port.devBallY rfl (h.devY.trans h.regY.symm) hy)

theorem posFromOne_of_sequential (hx : PassDifferent calls Call.x)
    (hy : PassDifferent calls Call.y) {s₀ : Sys} {order : List (Fin n)}
    (hperm : order.Perm (List.finRange n))
    (hs : ((tr.map Prod.snd).foldl exec s₀).position = (sequential calls s₀ order).position) :
    PosFromOne tr := by
  by_cases hex : ∃ i, (calls i).isSetPos = true
  · obtain ⟨k,hk⟩ := hex
    obtain ⟨i,hi⟩ := sequential_decided hin s₀ (K := Call.isSetPos) order
      ⟨k,hperm.mem_iff.mpr (List.mem_finRange k),hk⟩
    obtain ⟨hregs,hdev⟩ := Prod.ext_iff.mp hs
    obtain ⟨hrx,hry⟩ := Prod.ext_iff.mp hregs
    obtain ⟨hdx,hdy⟩ := Prod.ext_iff.mp hdev
    have h := Port.regBallX.lastWriter_of_sequential hin htr hx (hi _ x_isSome) hrx
    exact
      { regY := (Port.regBallY.lastWriter_of_sequential hin htr hy (hi _ y_isSome) hry).trans h.symm
        devX := (Port.devBallX.lastWriter_of_sequential hin htr hx (hi _ x_isSome) hdx).trans h.symm
        devY := (Port.devBallY.lastWriter_of_sequential hin htr hy (hi _ y_isSome) hdy).trans
          h.symm }
  · have hno : NoOverlap (fun i => (calls i).isSetPos) tr :=
      fun i _ _ _ _ hi => absurd ⟨i,hi⟩ hex
    exact posFromOne_of_noOverlap hin htr hno

theorem colorFromOne_of_sequential (hc : PassDifferent calls Call.color) {s₀ : Sys}
    {order : List (Fin n)} (hperm : order.Perm (List.finRange n))
    (hs : ((tr.map Prod.snd).foldl exec s₀).colors = (sequential calls s₀ order).colors) :
    ColorFromOne tr := by
  by_cases hex : ∃ i, (!(calls i).isSetPos) = true
  · obtain ⟨k,hk⟩ := hex
    obtain ⟨i,hi⟩ := sequential_decided hin s₀ (K := fun c => !c.isSetPos) order
      ⟨k,hperm.mem_iff.mpr (List.mem_finRange k),hk⟩
    obtain ⟨hreg,hdev⟩ := Prod.ext_iff.mp hs
    have h := Port.regBackground.lastWriter_of_sequential hin htr hc (hi _ color_isSome) hreg
    exact (Port.devBackground.lastWriter_of_sequential hin htr hc (hi _ color_isSome) hdev).trans
      h.symm
  · have hno : NoOverlap (fun i => !(calls i).isSetPos) tr :=
      fun i _ _ _ _ hi => absurd ⟨i,hi⟩ hex
    exact colorFromOne_of_noOverlap hin htr hno

theorem ColorFromOne.passed (h : ColorFromOne tr) (s₀ : Sys)
    (hex : ∃ i, (calls i).isSetPos = false) :
    ∃ i, calls i = .writeBackground ((tr.map Prod.snd).foldl exec s₀).regs.background ∧
      calls i = .writeBackground ((tr.map Prod.snd).foldl exec s₀).dev.background := by
  obtain ⟨k,hk⟩ := hex
  cases hw : lastWriter VgaDriver.regBackground tr with
  | none =>
    have hnone := (Port.regBackground.lastWriter_eq_none hin htr).mp hw k
    have hsome := color_isSome (calls k)
    rw [show (calls k).color = none from hnone,hk] at hsome
    exact absurd hsome Bool.false_ne_true
  | some i =>
    have hr : (calls i).color = some _ := Port.regBackground.final_some hin htr hw s₀
    have hd : (calls i).color = some _ := Port.devBackground.final_some hin htr (h.trans hw) s₀
    cases hc : calls i with
    | setPos x y =>
      rw [hc] at hr
      exact absurd hr nofun
    | writeBackground c =>
      rw [hc] at hr hd
      have hr : c = _ := Option.some.inj hr
      have hd : c = _ := Option.some.inj hd
      exact ⟨i,hc.trans (congrArg Call.writeBackground hr),
        hc.trans (congrArg Call.writeBackground hd)⟩

end Kinds

/-- Concurrent requests in any interleaving. Every register and every mirror field ends up with a
value that some caller passed for it. The position, or the colour, is that of a sequential order
where one call makes all the last writes of the kind; calls that do not overlap others of their
kind ensure this, and between callers that pass different values nothing less does. -/
theorem ioctls_interleaved (hin : ∀ i, (calls i).InRange)
    (htr : Interleaves (fun i => (calls i).ops) tr) (s₀ : Sys) :
    let s := (tr.map Prod.snd).foldl exec s₀
    (PassedOrKept calls Call.color s₀.regs.background s.regs.background ∧
      PassedOrKept calls Call.x s₀.regs.ballX s.regs.ballX ∧
      PassedOrKept calls Call.y s₀.regs.ballY s.regs.ballY ∧
      PassedOrKept calls Call.color s₀.dev.background s.dev.background ∧
      PassedOrKept calls Call.x s₀.dev.ballX s.dev.ballX ∧
      PassedOrKept calls Call.y s₀.dev.ballY s.dev.ballY) ∧
    (∃ order : List (Fin n), order.Perm (List.finRange n) ∧
      (PosFromOne tr → s.position = (sequential calls s₀ order).position) ∧
      (ColorFromOne tr → s.colors = (sequential calls s₀ order).colors) ∧
      (PosFromOne tr → ColorFromOne tr → s = sequential calls s₀ order)) ∧
    (PosFromOne tr →
      ((∃ i, (calls i).isSetPos = true) → ∃ i, calls i = .setPos s.regs.ballX s.regs.ballY ∧
        calls i = .setPos s.dev.ballX s.dev.ballY) ∧
      (s₀.position.1 = s₀.position.2 → s.position.1 = s.position.2)) ∧
    (ColorFromOne tr →
      ((∃ i, (calls i).isSetPos = false) → ∃ i, calls i = .writeBackground s.regs.background ∧
        calls i = .writeBackground s.dev.background) ∧
      (s₀.colors.1 = s₀.colors.2 → s.colors.1 = s.colors.2)) ∧
    (NoOverlap (fun i => (calls i).isSetPos) tr → PosFromOne tr) ∧
    (NoOverlap (fun i => !(calls i).isSetPos) tr → ColorFromOne tr) ∧
    (PassDifferent calls Call.x → PassDifferent calls Call.y →
      (∃ order : List (Fin n), order.Perm (List.finRange n) ∧
        s.position = (sequential calls s₀ order).position) → PosFromOne tr) ∧
    (PassDifferent calls Call.color →
      (∃ order : List (Fin n), order.Perm (List.finRange n) ∧
        s.colors = (sequential calls s₀ order).colors) → ColorFromOne tr) := by
  intro s
  refine ⟨?_,?_,?_,?_,posFromOne_of_noOverlap hin htr,colorFromOne_of_noOverlap hin htr,?_,?_⟩
  · exact ⟨Port.regBackground.passed hin htr s₀,Port.regBallX.passed hin htr s₀,
      Port.regBallY.passed hin htr s₀,Port.devBackground.passed hin htr s₀,
      Port.devBallX.passed hin htr s₀,Port.devBallY.passed hin htr s₀⟩
  · obtain ⟨order,hperm,hp,hc⟩ := exists_order hin htr s₀
    exact ⟨order,hperm,hp,hc,fun hpos hcolor => Sys.eq_of_parts (hp hpos) (hc hcolor)⟩
  · intro hone
    exact ⟨hone.pair hin htr s₀,hone.mirrored hin htr⟩
  · intro hone
    exact ⟨hone.passed hin htr s₀,
      Port.final_eq hin htr Port.regBackground Port.devBackground rfl hone⟩
  · rintro hx hy ⟨order,hperm,hs⟩
    exact posFromOne_of_sequential hin htr hx hy hperm hs
  · rintro hc ⟨order,hperm,hs⟩
    exact colorFromOne_of_sequential hin htr hc hperm hs

theorem ioctls_interleaved_pipelined :
    let calls : Fin 3 → Call := ![.setPos 3 4,.setPos 5 6,.writeBackground (1,2,3)]
    let tr : List (Fin 3 × Op) := [(0,.iowrite32 3 4),(1,.iowrite32 5 4),(2,.iowrite32 0x010203 0),
      (0,.iowrite32 4 8),(1,.iowrite32 6 8),(0,.setBallX 3),(1,.setBallX 5),
      (2,.setBackground (1,2,3)),(0,.setBallY 4),(1,.setBallY 6)]
    let s := (tr.map Prod.snd).foldl exec ⟨resetRegisters,⟨(0x80,0x0,0x80),320,240⟩⟩
    (∃ i, calls i = .setPos s.regs.ballX s.regs.ballY ∧
        calls i = .setPos s.dev.ballX s.dev.ballY) ∧
      ∃ i, calls i = .writeBackground s.regs.background ∧
        calls i = .writeBackground s.dev.background := by
  intro calls tr s
  have hin : ∀ i, (calls i).InRange := by
    intro i
    fin_cases i
    · exact ⟨by decide,by decide⟩
    · exact ⟨by decide,by decide⟩
    · trivial
  have htr : Interleaves (fun i => (calls i).ops) tr := by
    unfold Interleaves
    decide
  have hpos : PosFromOne tr := ⟨by decide,by decide,by decide⟩
  have hcolor : ColorFromOne tr := by
    unfold ColorFromOne
    decide
  obtain ⟨-,-,hp,hc,-⟩ := ioctls_interleaved hin htr ⟨resetRegisters,⟨(0x80,0x0,0x80),320,240⟩⟩
  exact ⟨(hp hpos).1 ⟨0,rfl⟩,(hc hcolor).1 ⟨2,rfl⟩⟩

/-- Two overlapping position requests leave the `x` of one and the `y` of the other, and two
overlapping colour requests leave the register with one colour and the mirror with the other. -/
theorem requests_torn :
    let s₀ : Sys := ⟨resetRegisters,⟨(0x80,0x0,0x80),320,240⟩⟩
    let positions : Fin 2 → Call := ![.setPos 1 2,.setPos 3 4]
    let tr : List (Fin 2 × Op) := [(0,.iowrite32 1 4),(1,.iowrite32 3 4),(1,.iowrite32 4 8),
      (0,.iowrite32 2 8),(0,.setBallX 1),(1,.setBallX 3),(1,.setBallY 4),(0,.setBallY 2)]
    let colors : Fin 2 → Call := ![.writeBackground (1,1,1),.writeBackground (2,2,2)]
    let tr' : List (Fin 2 × Op) := [(0,.iowrite32 0x010101 0),(1,.iowrite32 0x020202 0),
      (1,.setBackground (2,2,2)),(0,.setBackground (1,1,1))]
    (Interleaves (fun i => (positions i).ops) tr ∧
      ¬∃ order : List (Fin 2), order.Perm (List.finRange 2) ∧
        (tr.map Prod.snd).foldl exec s₀ = sequential positions s₀ order) ∧
    (Interleaves (fun i => (colors i).ops) tr' ∧
      ((tr'.map Prod.snd).foldl exec s₀).regs.background ≠
        ((tr'.map Prod.snd).foldl exec s₀).dev.background ∧
      ¬∃ order : List (Fin 2), order.Perm (List.finRange 2) ∧
        (tr'.map Prod.snd).foldl exec s₀ = sequential colors s₀ order) := by
  intro s₀ positions tr colors tr'
  refine ⟨⟨?_,?_⟩,?_,?_,?_⟩
  · unfold Interleaves
    decide
  · rintro ⟨order,hperm,hs⟩
    have hin : ∀ i, (positions i).InRange := by
      intro i
      fin_cases i <;> exact ⟨by decide,by decide⟩
    obtain ⟨i,hi⟩ := sequential_decided hin s₀ (K := Call.isSetPos) order
      ⟨0,hperm.mem_iff.mpr (List.mem_finRange 0),rfl⟩
    have hx := hi Port.regBallX x_isSome
    have hy := hi Port.regBallY y_isSome
    rw [← hs] at hx hy
    clear hi
    revert i
    decide
  · unfold Interleaves
    decide
  · decide
  · rintro ⟨order,hperm,hs⟩
    have hin : ∀ i, (colors i).InRange := by
      intro i
      fin_cases i <;> trivial
    obtain ⟨i,hi⟩ := sequential_decided hin s₀ (K := fun c => !c.isSetPos) order
      ⟨0,hperm.mem_iff.mpr (List.mem_finRange 0),rfl⟩
    have hr := hi Port.regBackground color_isSome
    have hd := hi Port.devBackground color_isSome
    rw [← hs] at hr hd
    clear hi
    revert i
    decide

end Concurrent

end VgaDriver
end EmbeddedSystems
