import EmbeddedSystems.MainLoop

/-! A press is a keycode of a complete packet that the complete packet before it did not have. The
press loop handles each of them once, and the keys that must not repeat are handled by nothing
else. -/

namespace EmbeddedSystems
namespace MainLoop

open Keyboard

/-- The keys pressed between two complete packets, in slot order. -/
def newKeys (previous p : Packet) : List Key :=
  (p.slots.filter fun k => k ≠ 0 ∧ k ∉ previous.slots).map fun k => ⟨k,p.modifiers⟩

theorem mem_slots (p : Packet) (k : UInt8) : k ∈ p.slots ↔ ∃ i, p.keycode i = k := by
  unfold Packet.slots
  rw [List.mem_ofFn]

theorem isNewKeypress_iff (previous : Packet) (k : UInt8) :
    isNewKeypress previous k = true ↔ k ≠ 0 ∧ k ∉ previous.slots := by
  unfold isNewKeypress
  rw [mem_slots,not_exists]
  by_cases hk : k = 0
  · simp [hk]
  · simp [hk]

theorem pressLoop_eq (previous p : Packet) : pressLoop previous p = newKeys previous p := by
  unfold pressLoop newKeys
  induction p.slots with
  | nil => rfl
  | cons k ks ih =>
    by_cases hk : k ≠ 0 ∧ k ∉ previous.slots
    · have hnew : isNewKeypress previous k = true := (isNewKeypress_iff previous k).mpr hk
      rw [List.filterMap_cons,List.filter_cons_of_pos (by simpa using hk),List.map_cons,ih]
      simp [hk.1,hnew]
    · have hnew : isNewKeypress previous k = false := by
        rw [Bool.eq_false_iff]
        exact fun h => hk ((isNewKeypress_iff previous k).mp h)
      rw [List.filterMap_cons,List.filter_cons_of_neg (by simpa using hk),ih]
      simp [hnew]

end MainLoop
end EmbeddedSystems
