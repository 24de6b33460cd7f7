import EmbeddedSystems.VgaProbe

/-! `vga_ball_init` runs `vga_ball_probe` and `vga_ball_exit` runs `vga_ball_remove`, any number of
times, while processes open the device, make requests and close it. Of the kernel it is assumed
that a file with an owner keeps its module loaded, that a module being unloaded cannot be opened,
and that a driver whose probe has failed is unregistered. `vga_ball_remove` unmaps the registers
before it deregisters the device, so it depends on the first two. -/

namespace EmbeddedSystems
namespace VgaDriver

inductive RemovePc
  | iounmap | releaseMemRegion | miscDeregister
  deriving DecidableEq, Repr

inductive Phase
  | unloaded | probing | live
  | removing (pc : RemovePc)
  deriving DecidableEq, Repr

structure Module where
  phase : Phase := .unloaded
  core : Probe := {}
  files : Finset ℕ := ∅

inductive ModuleEvent
  | load
  | probe (r : ℤ)
  | unload
  | remove
  | openFile (p : ℕ)
  | close (p : ℕ)
  | dispatch (p : ℕ) (req : Request)
  | advance (p : ℕ)
  deriving DecidableEq

namespace Module

def phaseAfter : Pc → Phase
  | .returned ret => if ret = 0 then .live else .unloaded
  | _ => .probing

def removeStep (s : Module) : Module :=
  match s.phase with
  | .removing .iounmap =>
    { s with core := s.core.release .mapping, phase := .removing .releaseMemRegion }
  | .removing .releaseMemRegion =>
    { s with core := s.core.release .region, phase := .removing .miscDeregister }
  | .removing .miscDeregister => { s with core := s.core.release .device, phase := .unloaded }
  | _ => s

def step (s : Module) : ModuleEvent → Module
  | .load =>
    if s.phase = .unloaded then
      { s with phase := .probing, core := { s.core with pc := .miscRegister, ret := 0 } }
    else s
  | .probe r =>
    if s.phase = .probing then
      { s with core := s.core.probeStep r, phase := phaseAfter (s.core.probeStep r).pc }
    else s
  | .unload => if s.phase = .live ∧ s.files = ∅ then { s with phase := .removing .iounmap } else s
  | .remove => s.removeStep
  | .openFile p =>
    if s.core.held .device = true ∧ (s.phase = .probing ∨ s.phase = .live) then
      { s with files := insert p s.files }
    else s
  | .close p => if s.core.procs p = .out then { s with files := s.files.erase p } else s
  | .dispatch p req =>
    if p ∈ s.files ∧ s.core.procs p = .out then
      { s with core := { s.core with procs := Function.update s.core.procs p (.entered req) } }
    else s
  | .advance p => { s with core := s.core.step (.advance p) }

def run (s : Module) (es : List ModuleEvent) : Module := es.foldl step s

def need (s : Module) : ModuleEvent → Option Resource
  | .probe r => if s.phase = .probing then s.core.need (.probe r) else none
  | .remove =>
    match s.phase with
    | .removing .iounmap => some .mapping
    | .removing .releaseMemRegion => some .region
    | .removing .miscDeregister => some .device
    | _ => none
  | .advance p => s.core.need (.advance p)
  | _ => none

def takes (s : Module) : ModuleEvent → Option Resource
  | .probe r =>
    if s.phase = .probing then
      match s.core.pc with
      | .miscRegister => if r = 0 then some .device else none
      | .requestMemRegion => if r = 0 then none else some .region
      | .ofIomap => if r = 0 then none else some .mapping
      | _ => none
    else none
  | _ => none

/-- As for `Probe`, and no process has the device open when a probe that fails deregisters it. -/
def Careful (s : Module) : ModuleEvent → Prop
  | .probe r => s.phase = .probing → (s.core.pc = .miscRegister → r = 0) ∧
      (s.core.pc = .miscDeregister → s.files = ∅)
  | .advance p => s.core.Careful (.advance p)
  | _ => True

def CarefulRun (s : Module) : List ModuleEvent → Prop
  | [] => True
  | e :: es => s.Careful e ∧ (s.step e).CarefulRun es

/-- Every step uses and gives back only what is held and acquires only what is not. -/
structure Sound (s : Module) : Prop where
  need_held : ∀ e r, s.need e = some r → s.core.held r = true
  takes_free : ∀ e r, s.takes e = some r → s.core.held r = false

def probeHolds : Pc → Resource → Bool
  | .miscRegister, _ => false
  | .ofAddressToResource, r | .requestMemRegion, r | .miscDeregister, r => r = .device
  | .ofIomap, r | .releaseMemRegion, r => r ≠ .mapping
  | .initial _, _ => true
  | .returned ret, _ => ret = 0

def holds (pc : Pc) : Phase → Resource → Bool
  | .unloaded, _ => false
  | .probing, r => probeHolds pc r
  | .live, _ => true
  | .removing .iounmap, _ => true
  | .removing .releaseMemRegion, r => r ≠ .mapping
  | .removing .miscDeregister, r => r = .device

structure Inv (s : Module) : Prop where
  held : ∀ r, s.core.held r = holds s.core.pc s.phase r
  inside : ∀ p, s.core.procs p ≠ .out → p ∈ s.files
  writing : ∀ p ops, s.core.procs p = .writing ops → s.core.held .mapping = true
  failing : s.phase = .probing → s.core.pc = .releaseMemRegion ∨ s.core.pc = .miscDeregister →
    s.core.ret ≠ 0
  running : s.phase = .probing → ∀ ret, s.core.pc ≠ .returned ret
  closed : s.phase ≠ .probing → s.phase ≠ .live → s.files = ∅

def start : Module := {}

theorem start_inv : Inv start where
  held := fun _ => rfl
  inside := fun p h => absurd rfl h
  writing := by
    intro p ops h
    exact absurd h (by simp [start])
  failing := fun h => absurd h (by decide)
  running := fun h => absurd h (by decide)
  closed := fun _ _ => rfl

theorem Inv.sound {s : Module} (h : Inv s) : Sound s where
  need_held := by
    intro e r hn
    cases e with
    | probe x =>
      simp only [need] at hn
      split_ifs at hn with hphase
      rw [h.held,hphase]
      cases hpc : s.core.pc with
      | initial ops => rfl
      | releaseMemRegion =>
        simp only [Probe.need,hpc,Option.some.injEq] at hn
        subst hn
        rfl
      | miscDeregister =>
        simp only [Probe.need,hpc,Option.some.injEq] at hn
        subst hn
        rfl
      | _ => simp [Probe.need,hpc] at hn
    | remove =>
      rw [h.held]
      simp only [need] at hn
      cases hphase : s.phase with
      | removing pc =>
        rw [hphase] at hn
        cases pc <;> (obtain rfl := Option.some.inj hn; rfl)
      | _ => simp [hphase] at hn
    | advance p =>
      obtain ⟨rfl,ops,hp⟩ := Probe.need_advance hn
      exact h.writing p ops hp
    | _ => exact absurd hn (by simp [need])
  takes_free := by
    intro e r ht
    cases e with
    | probe x =>
      by_cases hphase : s.phase = .probing
      · rw [takes,if_pos hphase] at ht
        rw [h.held,hphase]
        cases hpc : s.core.pc with
        | miscRegister => rfl
        | requestMemRegion =>
          rw [hpc] at ht
          split_ifs at ht
          obtain rfl := Option.some.inj ht
          rfl
        | ofIomap =>
          rw [hpc] at ht
          split_ifs at ht
          obtain rfl := Option.some.inj ht
          rfl
        | _ => simp [hpc] at ht
      · exact absurd ht (by simp [takes,hphase])
    | _ => exact absurd ht (by simp [takes])

section ProbeStep

variable {c : Probe} {x : ℤ}

/-- A statement of `vga_ball_probe` leaves what the next one, or its caller, starts with. -/
theorem probeStep_holds (h : ∀ r, c.held r = probeHolds c.pc r)
    (hx : c.pc = .miscRegister → x = 0)
    (hret : c.pc = .releaseMemRegion ∨ c.pc = .miscDeregister → c.ret ≠ 0) (r : Resource) :
    (c.probeStep x).held r = holds (c.probeStep x).pc (phaseAfter (c.probeStep x).pc) r := by
  cases hpc : c.pc with
  | miscRegister =>
    have hx' := hx hpc
    cases r <;> simp [Probe.probeStep,hpc,hx',Probe.acquire,phaseAfter,holds,probeHolds,h]
  | ofAddressToResource =>
    by_cases h0 : x = 0 <;> cases r <;>
      simp [Probe.probeStep,hpc,h0,phaseAfter,holds,probeHolds,h]
  | requestMemRegion =>
    by_cases h0 : x = 0 <;> cases r <;>
      simp [Probe.probeStep,hpc,h0,Probe.acquire,phaseAfter,holds,probeHolds,h]
  | ofIomap =>
    by_cases h0 : x = 0 <;> cases r <;>
      simp [Probe.probeStep,hpc,h0,Probe.acquire,phaseAfter,holds,probeHolds,h]
  | initial ops =>
    cases ops <;> simp [Probe.probeStep,hpc,phaseAfter,holds,probeHolds,h]
  | releaseMemRegion =>
    cases r <;> simp [Probe.probeStep,hpc,Probe.release,phaseAfter,holds,probeHolds,h]
  | miscDeregister =>
    have hret' := hret (Or.inr hpc)
    cases r <;> simp [Probe.probeStep,hpc,Probe.release,phaseAfter,holds,probeHolds,h,hret']
  | returned ret =>
    by_cases h0 : ret = 0 <;> simp [Probe.probeStep,hpc,phaseAfter,holds,probeHolds,h,h0]

theorem probeStep_failing
    (hret : c.pc = .releaseMemRegion ∨ c.pc = .miscDeregister → c.ret ≠ 0)
    (h : (c.probeStep x).pc = .releaseMemRegion ∨ (c.probeStep x).pc = .miscDeregister) :
    (c.probeStep x).ret ≠ 0 := by
  cases hpc : c.pc with
  | miscRegister => by_cases h0 : x = 0 <;> simp [Probe.probeStep,hpc,h0] at h
  | ofAddressToResource =>
    by_cases h0 : x = 0
    · simp [Probe.probeStep,hpc,h0] at h
    · simp [Probe.probeStep,hpc,h0,enoent]
  | requestMemRegion =>
    by_cases h0 : x = 0
    · simp [Probe.probeStep,hpc,h0,ebusy]
    · simp [Probe.probeStep,hpc,h0] at h
  | ofIomap =>
    by_cases h0 : x = 0
    · simp [Probe.probeStep,hpc,h0,enomem]
    · simp [Probe.probeStep,hpc,h0] at h
  | initial ops => cases ops <;> simp [Probe.probeStep,hpc] at h
  | releaseMemRegion => simpa [Probe.probeStep,hpc,Probe.release] using hret (Or.inl hpc)
  | miscDeregister => simp [Probe.probeStep,hpc] at h
  | returned ret => simp [Probe.probeStep,hpc] at h

theorem phaseAfter_probing {pc : Pc} (h : phaseAfter pc = .probing) (ret : ℤ) :
    pc ≠ .returned ret := by
  rintro rfl
  simp only [phaseAfter] at h
  split_ifs at h

theorem phaseAfter_unloaded (hrun : ∀ ret, c.pc ≠ .returned ret)
    (h : phaseAfter (c.probeStep x).pc ≠ .probing ∧ phaseAfter (c.probeStep x).pc ≠ .live) :
    c.pc = .miscDeregister := by
  cases hpc : c.pc with
  | miscRegister => by_cases h0 : x = 0 <;> simp [Probe.probeStep,hpc,h0,phaseAfter] at h
  | ofAddressToResource => by_cases h0 : x = 0 <;> simp [Probe.probeStep,hpc,h0,phaseAfter] at h
  | requestMemRegion => by_cases h0 : x = 0 <;> simp [Probe.probeStep,hpc,h0,phaseAfter] at h
  | ofIomap => by_cases h0 : x = 0 <;> simp [Probe.probeStep,hpc,h0,phaseAfter] at h
  | initial ops => cases ops <;> simp [Probe.probeStep,hpc,phaseAfter] at h
  | releaseMemRegion => simp [Probe.probeStep,hpc,phaseAfter] at h
  | miscDeregister => rfl
  | returned ret => exact absurd hpc (hrun ret)

end ProbeStep

section Steps

variable {s : Module}

theorem Inv.out (h : Inv s) (hfiles : s.files = ∅) (p : ℕ) : s.core.procs p = .out := by
  by_contra hp
  have hmem := h.inside p hp
  rw [hfiles] at hmem
  exact absurd hmem (Finset.notMem_empty p)

theorem Inv.probe (h : Inv s) {x : ℤ} (hx : s.Careful (.probe x)) : Inv (s.step (.probe x)) := by
  unfold step
  dsimp only
  split_ifs with hphase
  · obtain ⟨hreg,hfiles⟩ := hx hphase
    have hheld : ∀ r, s.core.held r = probeHolds s.core.pc r := by
      intro r
      rw [h.held,hphase]
      rfl
    have hret := h.failing hphase
    refine ⟨probeStep_holds hheld hreg hret,?_,?_,?_,?_,?_⟩
    · rw [Probe.probeStep_procs]
      exact h.inside
    · intro p ops hp
      rw [Probe.probeStep_procs] at hp
      exact Probe.probeStep_mapping x (h.writing p ops hp)
    · exact fun _ => probeStep_failing hret
    · exact fun hp => phaseAfter_probing hp
    · intro h₁ h₂
      exact hfiles (phaseAfter_unloaded (h.running hphase) ⟨h₁,h₂⟩)
  · exact h

theorem Inv.released (h : Inv s) {pc : RemovePc} (hphase : s.phase = .removing pc) {q : Resource}
    {phase : Phase} (hprobing : phase ≠ .probing)
    (hheld : ∀ r, (s.core.release q).held r = holds s.core.pc phase r) :
    Inv { s with core := s.core.release q, phase := phase } := by
  have hfiles : s.files = ∅ := h.closed (by simp [hphase]) (by simp [hphase])
  refine ⟨hheld,h.inside,?_,?_,?_,fun _ _ => hfiles⟩
  · intro p ops hp
    have hp' : s.core.procs p = .writing ops := hp
    rw [h.out hfiles p] at hp'
    exact absurd hp' (by simp)
  · exact fun hp => absurd hp hprobing
  · exact fun hp => absurd hp hprobing

theorem Inv.remove (h : Inv s) : Inv s.removeStep := by
  have hheld := h.held
  unfold removeStep
  split
  all_goals first | exact h | skip
  all_goals
    rename_i hphase
    rw [hphase] at hheld
    refine h.released hphase (by simp) ?_
    intro r
    cases r <;> simp [Probe.release,holds,hheld]

theorem Inv.procs (h : Inv s) {procs : ℕ → Proc} (hin : ∀ p, procs p ≠ .out → p ∈ s.files)
    (hwriting : ∀ p ops, procs p = .writing ops → s.core.held .mapping = true) :
    Inv { s with core := { s.core with procs := procs } } :=
  ⟨h.held,hin,hwriting,h.failing,h.running,h.closed⟩

theorem Inv.advance (h : Inv s) {p : ℕ} (hp : s.Careful (.advance p)) :
    Inv (s.step (.advance p)) := by
  refine h.procs ?_ ?_
  · intro q hq
    by_cases hqp : q = p
    · subst hqp
      refine h.inside q fun hout => hq ?_
      rw [Function.update_self,hout]
      rfl
    · rw [Function.update_of_ne hqp] at hq
      exact h.inside q hq
  · exact Probe.update_writing h.writing p (Probe.next_writing h.writing hp)

theorem Inv.step (h : Inv s) {e : ModuleEvent} (he : s.Careful e) : Inv (s.step e) := by
  cases e with
  | load =>
    unfold Module.step
    dsimp only
    split_ifs with hphase
    · have hfiles : s.files = ∅ := h.closed (by simp [hphase]) (by simp [hphase])
      refine ⟨?_,h.inside,?_,?_,?_,?_⟩
      · intro r
        have hr := h.held r
        rw [hphase] at hr
        exact hr
      · intro p ops hp
        rw [h.out hfiles p] at hp
        exact absurd hp (by simp)
      · exact fun _ hpc => absurd hpc (by simp)
      · exact fun _ ret => by simp
      · exact fun hp => absurd rfl hp
    · exact h
  | probe x => exact h.probe he
  | unload =>
    unfold Module.step
    dsimp only
    split_ifs with hlive
    · refine ⟨?_,h.inside,h.writing,?_,?_,?_⟩
      · intro r
        have hr := h.held r
        rw [hlive.1] at hr
        exact hr
      · exact fun hp => absurd hp (by simp)
      · exact fun hp => absurd hp (by simp)
      · exact fun _ _ => hlive.2
    · exact h
  | remove => exact h.remove
  | openFile p =>
    unfold Module.step
    dsimp only
    split_ifs with hopen
    · refine ⟨h.held,?_,h.writing,h.failing,h.running,?_⟩
      · exact fun q hq => Finset.mem_insert_of_mem (h.inside q hq)
      · intro h₁ h₂
        rcases hopen.2 with hp | hp
        · exact absurd hp h₁
        · exact absurd hp h₂
    · exact h
  | close p =>
    unfold Module.step
    dsimp only
    split_ifs with hout
    · refine ⟨h.held,?_,h.writing,h.failing,h.running,?_⟩
      · intro q hq
        refine Finset.mem_erase.mpr ⟨?_,h.inside q hq⟩
        rintro rfl
        exact hq hout
      · intro h₁ h₂
        rw [h.closed h₁ h₂]
        rfl
    · exact h
  | dispatch p req =>
    unfold Module.step
    dsimp only
    split_ifs with hp
    · refine h.procs ?_ ?_
      · intro q hq
        by_cases hqp : q = p
        · rw [hqp]
          exact hp.1
        · rw [Function.update_of_ne hqp] at hq
          exact h.inside q hq
      · exact Probe.update_writing h.writing p (by simp)
    · exact h
  | advance p => exact h.advance he

theorem Inv.run (h : Inv s) {es : List ModuleEvent} (hes : s.CarefulRun es) : Inv (s.run es) := by
  induction es generalizing s with
  | nil => exact h
  | cons e es ih => exact ih (h.step hes.1) hes.2

theorem run_unload (hphase : s.phase = .live) (hfiles : s.files = ∅) :
    (s.run [.unload,.remove,.remove,.remove]).phase = .unloaded := by
  have hunload : s.step .unload = { s with phase := .removing .iounmap } :=
    if_pos ⟨hphase,hfiles⟩
  rw [Module.run,List.foldl_cons,hunload]
  rfl

theorem CarefulRun.append {es es' : List ModuleEvent} (h : s.CarefulRun es)
    (h' : (s.run es).CarefulRun es') : s.CarefulRun (es ++ es') := by
  induction es generalizing s with
  | nil => exact h'
  | cons e es ih => exact ⟨h.1,ih h.2 h'⟩

end Steps

/-- Over any number of loads and unloads and in every interleaving with the processes: as long as
`misc_register` succeeds, no request gets past its copy before the registers are mapped and no
process has the device open when a failed probe deregisters it, every step uses and gives back
only what is held and acquires only what is not; a live driver holds everything and an unloaded
one nothing, with no process inside; and a live driver that nobody has open can be unloaded. -/
theorem lifecycle_sound (es : List ModuleEvent) (hes : start.CarefulRun es) :
    Sound (start.run es) ∧
      ((start.run es).phase = .live → ∀ r, (start.run es).core.held r = true) ∧
      ((start.run es).phase = .unloaded → (∀ r, (start.run es).core.held r = false) ∧
        (start.run es).files = ∅ ∧ ∀ p, (start.run es).core.procs p = .out) ∧
      ((start.run es).phase = .live → (start.run es).files = ∅ →
        start.CarefulRun (es ++ [.unload,.remove,.remove,.remove]) ∧
          (start.run (es ++ [.unload,.remove,.remove,.remove])).phase = .unloaded) := by
  have h : Inv (start.run es) := start_inv.run hes
  refine ⟨h.sound,?_,?_,?_⟩
  · intro hphase r
    rw [h.held,hphase]
    rfl
  · intro hphase
    have hfiles : (start.run es).files = ∅ := h.closed (by simp [hphase]) (by simp [hphase])
    refine ⟨?_,hfiles,h.out hfiles⟩
    intro r
    rw [h.held,hphase]
    rfl
  · intro hphase hfiles
    refine ⟨hes.append ⟨trivial,trivial,trivial,trivial,trivial⟩,?_⟩
    have hrun : start.run (es ++ [.unload,.remove,.remove,.remove]) =
        (start.run es).run [.unload,.remove,.remove,.remove] := List.foldl_append
    rw [hrun]
    exact run_unload hphase hfiles

theorem lifecycle_sound_cycle :
    let es : List ModuleEvent := [.load,.probe 0,.probe 0,.probe 1,.probe 1,.probe 0,.probe 0,
      .probe 0,.probe 0,.probe 0,.probe 0,.probe 0,.openFile 7,.close 7,.unload,.remove,.remove,
      .remove]
    (start.run es).phase = .unloaded ∧ ∀ r, (start.run es).core.held r = false := by
  intro es
  have hzero : ∀ s : Module, s.files = ∅ → s.Careful (.probe 0) :=
    fun s hs _ => ⟨fun _ => rfl,fun _ => hs⟩
  have hone : ∀ s : Module, s.core.pc ≠ .miscRegister → s.files = ∅ → s.Careful (.probe 1) :=
    fun s hpc hs _ => ⟨fun h => absurd h hpc,fun _ => hs⟩
  have hes : start.CarefulRun es :=
    ⟨trivial,hzero _ rfl,hzero _ rfl,hone _ (by decide) rfl,hone _ (by decide) rfl,hzero _ rfl,
      hzero _ rfl,hzero _ rfl,hzero _ rfl,hzero _ rfl,hzero _ rfl,hzero _ rfl,trivial,trivial,
      trivial,trivial,trivial,trivial,trivial⟩
  have hphase : (start.run es).phase = .unloaded := by decide
  exact ⟨hphase,((lifecycle_sound es hes).2.2.1 hphase).1⟩

end Module
end VgaDriver
end EmbeddedSystems
