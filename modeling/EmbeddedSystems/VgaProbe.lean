import EmbeddedSystems.VgaIoctl

/-! `vga_ball_probe` registers the device, claims the register region and maps it, with a shared
clean-up chain for its failures. From the registration on, any number of processes can be
inside `vga_ball_ioctl`, so the steps of the probe and of the requests interleave. Only the
resources are followed here; what the register writes do is the subject of `VgaDriver`. -/

namespace EmbeddedSystems
namespace VgaDriver

/-- What the driver acquires: the misc device, the memory region and the mapping at
`dev.virtbase`. -/
inductive Resource
  | device | region | mapping
  deriving DecidableEq, Repr

inductive Pc
  | miscRegister | ofAddressToResource | requestMemRegion | ofIomap
  | initial (ops : List Op)
  | releaseMemRegion | miscDeregister
  | returned (ret : ℤ)
  deriving DecidableEq, Repr

/-- Where a process is in `vga_ball_ioctl`: outside, before the copy, or with register writes
and mirror updates left to do. -/
inductive Proc
  | out
  | entered (r : Request)
  | writing (ops : List Op)
  deriving DecidableEq

structure Probe where
  pc : Pc := .miscRegister
  ret : ℤ := 0
  held : Resource → Bool := fun _ => false
  procs : ℕ → Proc := fun _ => .out

/-- One step of the system. `probe r` executes the next statement of `vga_ball_probe`, whose
kernel function returns `r`: an error number from the first two, a pointer from the others. -/
inductive Event
  | probe (r : ℤ)
  | dispatch (p : ℕ) (req : Request)
  | advance (p : ℕ)
  deriving DecidableEq

def enoent : ℤ := 2
def ebusy : ℤ := 16
def enomem : ℤ := 12

namespace Probe

def acquire (s : Probe) (r : Resource) : Probe := { s with held := Function.update s.held r true }

def release (s : Probe) (r : Resource) : Probe := { s with held := Function.update s.held r false }

/-- The statements of `vga_ball_probe`. The result of `misc_register` is stored in `ret` and
overwritten before anything looks at it. -/
def probeStep (s : Probe) (r : ℤ) : Probe :=
  match s.pc with
  | .miscRegister =>
    { (if r = 0 then s.acquire .device else s) with ret := r, pc := .ofAddressToResource }
  | .ofAddressToResource =>
    if r ≠ 0 then { s with ret := -enoent, pc := .miscDeregister }
    else { s with ret := r, pc := .requestMemRegion }
  | .requestMemRegion =>
    if r = 0 then { s with ret := -ebusy, pc := .miscDeregister }
    else { s.acquire .region with pc := .ofIomap }
  | .ofIomap =>
    if r = 0 then { s with ret := -enomem, pc := .releaseMemRegion }
    else { s.acquire .mapping with pc := .initial (writeBackground beige ++ writeBallPos 320 240) }
  | .initial (_ :: ops) => { s with pc := .initial ops }
  | .initial [] => { s with pc := .returned 0 }
  | .releaseMemRegion => { s.release .region with pc := .miscDeregister }
  | .miscDeregister => { s.release .device with pc := .returned s.ret }
  | .returned _ => s

def Proc.next : Proc → Proc
  | .out => .out
  | .entered r => r.call.elim .out fun c => .writing c.ops
  | .writing (_ :: ops) => .writing ops
  | .writing [] => .out

/-- A request is dispatched only while the device is registered. -/
def step (s : Probe) : Event → Probe
  | .probe r => s.probeStep r
  | .dispatch p req =>
    if s.held .device = true ∧ s.procs p = .out then
      { s with procs := Function.update s.procs p (.entered req) }
    else s
  | .advance p => { s with procs := Function.update s.procs p (Proc.next (s.procs p)) }

def run (s : Probe) (es : List Event) : Probe := es.foldl step s

def opsNeed : List Op → Option Resource
  | .iowrite32 _ _ :: _ => some .mapping
  | _ => none

def need (s : Probe) : Event → Option Resource
  | .probe _ =>
    match s.pc with
    | .initial ops => opsNeed ops
    | .releaseMemRegion => some .region
    | .miscDeregister => some .device
    | _ => none
  | .dispatch _ _ => none
  | .advance p =>
    match s.procs p with
    | .writing ops => opsNeed ops
    | _ => none

/-- Every step that can be taken uses only what is held, and after a successful return of
`vga_ball_probe` everything is held. -/
structure Owning (s : Probe) : Prop where
  need_held : ∀ e r, s.need e = some r → s.held r = true
  returned : s.pc = .returned 0 → ∀ r, s.held r = true

/-- The steps that keep to what is held: `misc_register` succeeds, and no request gets past its
copy to a register write before `of_iomap` has returned. -/
def Careful (s : Probe) : Event → Prop
  | .probe r => s.pc = .miscRegister → r = 0
  | .dispatch _ _ => True
  | .advance p => ∀ req c, s.procs p = .entered req → req.call = some c → s.held .mapping = true

def CarefulRun (s : Probe) : List Event → Prop
  | [] => True
  | e :: es => s.Careful e ∧ (s.step e).CarefulRun es

def Stage (s : Probe) : Prop :=
  match s.pc with
  | .miscRegister => ∀ r, s.held r = false
  | .ofAddressToResource => s.held .device = true
  | .requestMemRegion => s.held .device = true
  | .ofIomap => s.held .device = true ∧ s.held .region = true
  | .initial _ => ∀ r, s.held r = true
  | .releaseMemRegion => s.held .device = true ∧ s.held .region = true ∧ s.ret ≠ 0
  | .miscDeregister => s.held .device = true ∧ s.ret ≠ 0
  | .returned ret => ret = 0 → ∀ r, s.held r = true

structure Inv (s : Probe) : Prop where
  stage : s.Stage
  writing : ∀ p ops, s.procs p = .writing ops → s.held .mapping = true

def fresh : Probe := {}

theorem fresh_inv : Inv fresh := by
  constructor
  · exact fun _ => rfl
  · intro p ops h
    exact absurd h (by simp [fresh])

theorem need_advance {s : Probe} {p : ℕ} {r : Resource} (h : s.need (.advance p) = some r) :
    r = .mapping ∧ ∃ ops, s.procs p = .writing ops := by
  simp only [need] at h
  split at h
  · rename_i ops hp
    refine ⟨?_,ops,hp⟩
    unfold opsNeed at h
    split at h
    · exact (Option.some.inj h).symm
    · exact absurd h (by simp)
  · exact absurd h (by simp)

theorem Inv.owning {s : Probe} (h : Inv s) : Owning s := by
  constructor
  · intro e r hn
    cases e with
    | probe x =>
      have hst := h.stage
      unfold Stage at hst
      simp only [need] at hn
      split at hn
      · rename_i ops hpc
        rw [hpc] at hst
        exact hst r
      · rename_i hpc
        rw [hpc] at hst
        rw [← Option.some.inj hn]
        exact hst.2.1
      · rename_i hpc
        rw [hpc] at hst
        rw [← Option.some.inj hn]
        exact hst.1
      · exact absurd hn (by simp)
    | dispatch p req => exact absurd hn (by simp [need])
    | advance p =>
      obtain ⟨rfl,ops,hp⟩ := need_advance hn
      exact h.writing p ops hp
  · intro hpc
    have hst := h.stage
    unfold Stage at hst
    rw [hpc] at hst
    exact hst rfl

theorem probeStep_mapping {s : Probe} (r : ℤ) (h : s.held .mapping = true) :
    (s.probeStep r).held .mapping = true := by
  unfold probeStep
  split <;> first | (split_ifs <;> simp [acquire,h]) | simp [release,h]

theorem probeStep_procs (s : Probe) (r : ℤ) : (s.probeStep r).procs = s.procs := by
  unfold probeStep
  split <;> first | (split_ifs <;> rfl) | rfl

theorem Stage.probeStep {s : Probe} (h : s.Stage) {r : ℤ} (hr : s.pc = .miscRegister → r = 0) :
    (s.probeStep r).Stage := by
  unfold Stage at h
  unfold Probe.probeStep
  cases hpc : s.pc with
  | miscRegister =>
    rw [if_pos (hr hpc)]
    simp [Stage,acquire]
  | ofAddressToResource =>
    rw [hpc] at h
    by_cases h0 : r ≠ 0
    · simpa [h0,Stage,enoent] using h
    · simpa [h0,Stage] using h
  | requestMemRegion =>
    rw [hpc] at h
    by_cases h0 : r = 0
    · simpa [h0,Stage,ebusy] using h
    · simpa [h0,Stage,acquire] using h
  | ofIomap =>
    rw [hpc] at h
    by_cases h0 : r = 0
    · simpa [h0,Stage,enomem] using h
    · simp only [h0,if_false,Stage,acquire]
      intro q
      cases q with
      | device => simpa using h.1
      | region => simpa using h.2
      | mapping => simp
  | initial ops =>
    rw [hpc] at h
    cases ops with
    | nil => exact fun _ => h
    | cons op ops => exact h
  | releaseMemRegion =>
    rw [hpc] at h
    simpa [Stage,release] using ⟨h.1,h.2.2⟩
  | miscDeregister =>
    rw [hpc] at h
    exact fun h0 => absurd h0 h.2
  | returned ret =>
    simpa [Stage,hpc] using h

section Writing

variable {s : Probe} (h : ∀ p ops, s.procs p = .writing ops → s.held .mapping = true)
include h

theorem update_writing (p : ℕ) {x : Proc} (hx : ∀ ops, x = .writing ops → s.held .mapping = true) :
    ∀ q ops, Function.update s.procs p x q = .writing ops → s.held .mapping = true := by
  intro q ops hq
  by_cases hqp : q = p
  · subst hqp
    rw [Function.update_self] at hq
    exact hx ops hq
  · rw [Function.update_of_ne hqp] at hq
    exact h q ops hq

theorem next_writing {p : ℕ} (he : s.Careful (.advance p)) :
    ∀ ops, Proc.next (s.procs p) = .writing ops → s.held .mapping = true := by
  intro ops hnext
  cases hpr : s.procs p with
  | out =>
    rw [hpr] at hnext
    exact absurd hnext (by simp [Proc.next])
  | entered req =>
    rw [hpr] at hnext
    cases hc : req.call with
    | none => exact absurd hnext (by simp [Proc.next,hc])
    | some c => exact he req c hpr hc
  | writing ops' => exact h p ops' hpr

end Writing

theorem Inv.step {s : Probe} (h : Inv s) {e : Event} (he : s.Careful e) : Inv (s.step e) := by
  cases e with
  | probe r =>
    refine ⟨h.stage.probeStep he,?_⟩
    intro p ops hp
    refine probeStep_mapping r (h.writing p ops ?_)
    rw [← probeStep_procs s r]
    exact hp
  | dispatch p req =>
    unfold Probe.step
    dsimp only
    split_ifs
    · exact ⟨h.stage,update_writing h.writing p (by simp)⟩
    · exact h
  | advance p => exact ⟨h.stage,update_writing h.writing p (next_writing h.writing he)⟩

theorem Inv.run {s : Probe} (h : Inv s) {es : List Event} (hes : s.CarefulRun es) :
    Inv (s.run es) := by
  induction es generalizing s with
  | nil => exact h
  | cons e es ih => exact ih (h.step hes.1) hes.2

/-- If `misc_register` fails, the clean-up chain can deregister a device that is not registered. -/
theorem not_owning_of_unregistered {s : Probe} (h : Inv s) (hpc : s.pc = .miscRegister) {r : ℤ}
    (hr : r ≠ 0) : ¬Owning (s.run [.probe r,.probe 1]) := by
  have hheld : s.held .device = false := by
    have hst := h.stage
    unfold Stage at hst
    rw [hpc] at hst
    exact hst .device
  intro ho
  have hn := ho.need_held (.probe 0) .device
  simp [run,step,probeStep,hpc,hr,need,hheld] at hn

theorem not_owning_of_unmapped {s : Probe} {p : ℕ} {req : Request} {c : Call}
    (hp : s.procs p = .entered req) (hc : req.call = some c) (hm : s.held .mapping = false) :
    ¬Owning (s.step (.advance p)) := by
  intro ho
  have hn := ho.need_held (.advance p) .mapping
  cases c <;>
    simp [step,need,Proc.next,hp,hc,Call.ops,writeBackground,writeBallPos,opsNeed,hm] at hn

/-- In every interleaving of `vga_ball_probe` with any number of requests: as long as
`misc_register` succeeds and no request gets past its copy to the register writes before the
registers are mapped, no step uses or releases what is not held and a successful return holds
everything. A step outside this condition can always be continued to one that breaks it. -/
theorem probe_owns_resources (es : List Event) (hes : fresh.CarefulRun es) :
    Owning (fresh.run es) ∧ ∀ e, ¬(fresh.run es).Careful e →
      ∃ es', ¬Owning (fresh.run (es ++ e :: es')) := by
  have h : Inv (fresh.run es) := fresh_inv.run hes
  refine ⟨h.owning,?_⟩
  intro e he
  have hrun : ∀ es', fresh.run (es ++ e :: es') = (fresh.run es).run (e :: es') :=
    fun es' => List.foldl_append
  cases e with
  | probe r =>
    simp only [Careful,not_forall] at he
    obtain ⟨hpc,hr⟩ := he
    refine ⟨[.probe 1],?_⟩
    rw [hrun]
    exact not_owning_of_unregistered h hpc hr
  | dispatch p req => exact absurd trivial he
  | advance p =>
    simp only [Careful,not_forall] at he
    obtain ⟨req,c,hp,hc,hm⟩ := he
    refine ⟨[],?_⟩
    rw [hrun]
    exact not_owning_of_unmapped hp hc (Bool.eq_false_iff.mpr hm)

theorem probe_owns_resources_served :
    let req : Request := ⟨setPosCmd,fun _ => 0,true,fun _ => 0⟩
    let es : List Event := [.probe 0,.dispatch 3 req,.probe 0,.probe 1,.probe 1,.advance 3,
      .probe 0,.advance 3,.probe 0,.probe 0,.advance 3,.probe 0,.probe 0,.probe 0,.probe 0]
    (fresh.run es).pc = .returned 0 ∧ Owning (fresh.run es) := by
  intro req es
  have hcopy : ∀ s : Probe, s.held .mapping = true → s.Careful (.advance 3) :=
    fun s hs _ _ _ _ => hs
  have hzero : ∀ s : Probe, s.Careful (.probe 0) := fun s _ => rfl
  have hes : fresh.CarefulRun es := by
    refine ⟨hzero _,trivial,hzero _,?_,?_,hcopy _ rfl,hzero _,hcopy _ rfl,hzero _,hzero _,
      hcopy _ rfl,hzero _,hzero _,hzero _,hzero _,trivial⟩
    · exact fun h => absurd h (by decide)
    · exact fun h => absurd h (by decide)
  exact ⟨rfl,(probe_owns_resources es hes).1⟩

/-- With a failed `misc_register` the device is deregistered without having been registered, and
a position request dispatched right after the registration writes through a null pointer. -/
theorem probe_breaks_ownership :
    let req : Request := ⟨setPosCmd,fun _ => 0,true,fun _ => 0⟩
    ¬Owning (fresh.run [.probe (-16),.probe 1]) ∧
      ¬Owning (fresh.run [.probe 0,.dispatch 0 req,.advance 0]) := by
  intro req
  constructor
  · exact not_owning_of_unregistered fresh_inv rfl (by decide)
  · have hcall : req.call = some (.setPos 0 0) := by decide
    exact not_owning_of_unmapped (s := fresh.run [.probe 0,.dispatch 0 req]) rfl hcall rfl

end Probe

end VgaDriver
end EmbeddedSystems
