import Mathlib.Tactic

/-! A loop is given by its iteration, which either ends the loop or emits some outputs and moves
to the next state. `loop` runs it with fuel and fails when the fuel is used up, so a loop ends
when some fuel is enough for it. -/

namespace EmbeddedSystems
namespace EmittingLoop

variable {σ ω : Type*} (iter : σ → Option (List ω × σ))

/-- Run the loop to its end: everything emitted and the last state. -/
def loop : ℕ → σ → Option (List ω × σ)
  | 0, _ => none
  | fuel+1, s =>
    match iter s with
    | none => some ([],s)
    | some (out,s') => (loop fuel s').map fun r => (out ++ r.1,r.2)

inductive Runs : σ → List ω → σ → Prop
  | refl (s : σ) : Runs s [] s
  | head {s s' s'' : σ} {out out' : List ω} (h : iter s = some (out,s')) (hr : Runs s' out' s'') :
    Runs s (out ++ out') s''

variable {iter}

theorem Runs.single {s s' : σ} {out : List ω} (h : iter s = some (out,s')) :
    Runs iter s out s' := by
  simpa only [List.append_nil] using Runs.head h (Runs.refl s')

theorem Runs.trans {s s' s'' : σ} {out out' : List ω} (h : Runs iter s out s')
    (h' : Runs iter s' out' s'') : Runs iter s (out ++ out') s'' := by
  induction h with
  | refl s => exact h'
  | head hi hr ih =>
    rw [List.append_assoc]
    exact Runs.head hi (ih h')

theorem loop_end {s : σ} (h : iter s = none) (fuel : ℕ) : loop iter (fuel+1) s = some ([],s) := by
  rw [loop,h]

theorem loop_next {s s' : σ} {out : List ω} (h : iter s = some (out,s')) (fuel : ℕ) :
    loop iter (fuel+1) s = (loop iter fuel s').map fun r => (out ++ r.1,r.2) := by
  rw [loop,h]

/-- A run into a state that ends the loop is what the loop computes, with enough fuel. -/
theorem Runs.loop {s s' : σ} {out : List ω} (h : Runs iter s out s') (hend : iter s' = none) :
    ∃ fuel, loop iter fuel s = some (out,s') := by
  induction h with
  | refl s => exact ⟨1,loop_end hend 0⟩
  | head hi hr ih =>
    obtain ⟨fuel,hfuel⟩ := ih hend
    exact ⟨fuel+1,by rw [loop_next hi,hfuel,Option.map_some]⟩

theorem loop_mono {fuel fuel' : ℕ} {s : σ} {r : List ω × σ} (h : loop iter fuel s = some r)
    (hle : fuel ≤ fuel') : loop iter fuel' s = some r := by
  induction fuel generalizing fuel' s r with
  | zero => exact absurd h (by simp [loop])
  | succ fuel ih =>
    obtain ⟨k,rfl⟩ := Nat.exists_eq_succ_of_ne_zero (by omega : fuel' ≠ 0)
    cases hi : iter s with
    | none =>
      rw [loop_end hi] at h ⊢
      exact h
    | some o =>
      obtain ⟨out,s'⟩ := o
      rw [loop_next hi] at h ⊢
      obtain ⟨r',hr',rfl⟩ := Option.map_eq_some_iff.mp h
      rw [ih hr' (by omega),Option.map_some]

theorem runs_of_loop {fuel : ℕ} {s s' : σ} {out : List ω}
    (h : loop iter fuel s = some (out,s')) : Runs iter s out s' ∧ iter s' = none := by
  induction fuel generalizing s out with
  | zero => exact absurd h (by simp [EmittingLoop.loop])
  | succ fuel ih =>
    cases hi : iter s with
    | none =>
      rw [loop_end hi] at h
      obtain ⟨rfl,rfl⟩ := Prod.mk.inj (Option.some.inj h)
      exact ⟨Runs.refl s,hi⟩
    | some r =>
      rw [loop_next hi] at h
      obtain ⟨⟨out',t⟩,hr,heq⟩ := Option.map_eq_some_iff.mp h
      obtain ⟨rfl,rfl⟩ := Prod.mk.inj heq
      obtain ⟨hruns,hend⟩ := ih hr
      exact ⟨Runs.head hi hruns,hend⟩

theorem Runs.unique {s s₁ s₂ : σ} {out₁ out₂ : List ω} (h₁ : Runs iter s out₁ s₁)
    (h₂ : Runs iter s out₂ s₂) (hend₁ : iter s₁ = none) (hend₂ : iter s₂ = none) :
    out₁ = out₂ ∧ s₁ = s₂ := by
  induction h₁ generalizing out₂ with
  | refl s =>
    cases h₂ with
    | refl => exact ⟨rfl,rfl⟩
    | head hi _ => exact absurd (hend₁.symm.trans hi) (by simp)
  | head hi hr ih =>
    cases h₂ with
    | refl => exact absurd (hend₂.symm.trans hi) (by simp)
    | head hi' hr' =>
      obtain ⟨rfl,rfl⟩ := Prod.mk.inj (Option.some.inj (hi.symm.trans hi'))
      obtain ⟨rfl,rfl⟩ := ih hr' hend₁
      exact ⟨rfl,rfl⟩

theorem not_ends {P : σ → Prop}
    (hstep : ∀ s, P s → ∃ out s', iter s = some (out,s') ∧ P s') {s : σ} (h : P s) (fuel : ℕ) :
    loop iter fuel s = none := by
  induction fuel generalizing s with
  | zero => rfl
  | succ fuel ih =>
    obtain ⟨out,s',hi,hP⟩ := hstep s h
    rw [loop_next hi,ih hP,Option.map_none]

/-- An invariant of the iterations holds at the end of a run, and what each iteration can
emit under it holds of all outputs. -/
theorem Runs.invariant {P : σ → Prop} {Q : ω → Prop}
    (hstep : ∀ s out s', P s → iter s = some (out,s') → P s' ∧ ∀ x ∈ out, Q x)
    {s s' : σ} {out : List ω} (h : Runs iter s out s') (hs : P s) :
    P s' ∧ ∀ x ∈ out, Q x := by
  induction h with
  | refl s => exact ⟨hs,by simp⟩
  | head hi hr ih =>
    obtain ⟨hP,hout⟩ := hstep _ _ _ hs hi
    obtain ⟨hP',hout'⟩ := ih hP
    refine ⟨hP',?_⟩
    intro x hx
    rcases List.mem_append.mp hx with hx | hx
    · exact hout x hx
    · exact hout' x hx

theorem Runs.exists_iter {s s' : σ} {out : List ω} (h : Runs iter s out s') {x : ω} (hx : x ∈ out) :
    ∃ out₁ s₁ out₂ s₂, Runs iter s out₁ s₁ ∧ iter s₁ = some (out₂,s₂) ∧ x ∈ out₂ := by
  induction h with
  | refl s => exact absurd hx (by simp)
  | @head s s₁ s' out out' hi hr ih =>
    rcases List.mem_append.mp hx with hx | hx
    · exact ⟨[],s,out,s₁,Runs.refl s,hi,hx⟩
    · obtain ⟨out₁,t₁,out₂,t₂,hr₁,hi₂,hx₂⟩ := ih hx
      exact ⟨out ++ out₁,t₁,out₂,t₂,Runs.head hi hr₁,hi₂,hx₂⟩

end EmittingLoop
end EmbeddedSystems
