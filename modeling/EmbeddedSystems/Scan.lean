import Mathlib.Tactic

/-! A loop over an array. Its body looks at an element and the index of it, and goes on to the
next element, or leaves the loop with a result, or does not come back at all because a loop inside
it does not end. So a loop can be the body of another one, and a result that leaves the inner loop
may leave the outer one too. -/

namespace EmbeddedSystems
namespace Scan

variable {α β : Type*}

/-- `some none` is the end of the array, `none` a body that does not come back. -/
def scan (body : ℕ → α → Option (Option β)) : List α → ℕ → Option (Option β)
  | [], _ => some none
  | x::xs, i =>
    match body i x with
    | none => none
    | some (some b) => some (some b)
    | some none => scan body xs (i+1)

def Passes (body : ℕ → α → Option (Option β)) (xs : List α) (i : ℕ) : Prop :=
  ∀ j x, xs[j]? = some x → body (i+j) x = some none

variable {body : ℕ → α → Option (Option β)} {x : α} {xs : List α} {i : ℕ}

theorem passes_nil : Passes body [] i := by
  intro j x h
  exact absurd h (by simp)

theorem passes_cons : Passes body (x::xs) i ↔ body i x = some none ∧ Passes body xs (i+1) := by
  constructor
  · intro h
    refine ⟨h 0 x rfl,?_⟩
    intro j y hj
    rw [Nat.add_right_comm]
    exact h (j+1) y hj
  · rintro ⟨h0,h⟩ j y hj
    cases j with
    | zero =>
      obtain rfl := Option.some.inj hj
      exact h0
    | succ j =>
      rw [← Nat.add_assoc,Nat.add_right_comm]
      exact h j y hj

theorem passes_iff_forall {p : α → Prop} (h : ∀ i x, body i x = some none ↔ p x) :
    Passes body xs i ↔ ∀ x ∈ xs, p x := by
  induction xs generalizing i with
  | nil => exact iff_of_true passes_nil (by simp)
  | cons x xs ih => rw [passes_cons,h,ih,List.forall_mem_cons]

/-- The loop reaches the end of the array exactly if the body goes on everywhere. -/
theorem scan_eq_end_iff : scan body xs i = some none ↔ Passes body xs i := by
  induction xs generalizing i with
  | nil => exact iff_of_true rfl passes_nil
  | cons x xs ih =>
    rw [scan,passes_cons]
    cases h : body i x with
    | none => simp
    | some o =>
      cases o with
      | none => simp [ih]
      | some b => simp

theorem scan_eq_of_stop {o : Option (Option β)} (ho : o ≠ some none) :
    scan body xs i = o ↔ ∃ before after x, xs = before ++ x::after ∧ Passes body before i ∧
      body (i+before.length) x = o := by
  induction xs generalizing i with
  | nil =>
    refine iff_of_false (fun h => ho h.symm) ?_
    rintro ⟨before,after,x,h,-,-⟩
    exact absurd h (by simp)
  | cons x xs ih =>
    have hsplit : (∃ before after y, x::xs = before ++ y::after ∧ Passes body before i ∧
        body (i+before.length) y = o) ↔ body i x = o ∨ (body i x = some none ∧
          ∃ before after y, xs = before ++ y::after ∧ Passes body before (i+1) ∧
            body (i+1+before.length) y = o) := by
      constructor
      · rintro ⟨before,after,y,he,hpass,hy⟩
        cases before with
        | nil =>
          obtain ⟨rfl,rfl⟩ := List.cons.inj he
          exact Or.inl hy
        | cons z before =>
          obtain ⟨rfl,rfl⟩ := List.cons.inj he
          rw [passes_cons] at hpass
          rw [List.length_cons,← Nat.add_assoc,Nat.add_right_comm] at hy
          exact Or.inr ⟨hpass.1,before,after,y,rfl,hpass.2,hy⟩
      · rintro (hx | ⟨hx,before,after,y,rfl,hpass,hy⟩)
        · exact ⟨[],xs,x,rfl,passes_nil,hx⟩
        · refine ⟨x::before,after,y,rfl,passes_cons.mpr ⟨hx,hpass⟩,?_⟩
          rwa [List.length_cons,← Nat.add_assoc,Nat.add_right_comm]
    rw [scan,hsplit]
    cases h : body i x with
    | none => simp
    | some r =>
      cases r with
      | none => simp [ih,Ne.symm ho]
      | some b => simp

end Scan
end EmbeddedSystems
