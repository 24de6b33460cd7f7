import EmbeddedSystems.LineEditor

/-! The `for (;;)` loop of `lab2.c`. An iteration waits for one USB transfer; a complete packet is
compared with the saved one to find new key presses, and a key that stays down is repeated, with
or without a fresh packet. The clock is read at up to two places of an iteration; both readings
belong to the iteration here. Times are 64-bit milliseconds. -/

namespace EmbeddedSystems
namespace MainLoop

open Keyboard

structure Packet where
  modifiers : UInt8
  keycode : Fin 6 → UInt8

def Packet.zero : Packet := ⟨0,fun _ => 0⟩

def Packet.slots (p : Packet) : List UInt8 := List.ofFn p.keycode

/-- What one iteration gets from its environment: the result of the transfer and the clock where
the packet branch and the repeat at the end of the loop read it. -/
structure Iteration where
  transferRc : ℤ
  transferred : ℤ
  packet : Packet
  packetClock : ℕ
  idleClock : ℕ

def Iteration.complete (it : Iteration) : Bool := it.transferRc = 0 && it.transferred = 8

structure Key where
  keycode : UInt8
  modifiers : UInt8
  deriving DecidableEq, Repr

structure Loop where
  previousPacket : Packet
  repeatKeycode : UInt8
  repeatModifiers : UInt8
  nextRepeatMs : ℕ

def start : Loop := ⟨Packet.zero,0,0,0⟩

/-- The calls of `handle_keypress` in one iteration: those of the press loop, then those of the
two repeat branches with the clock reading each was made at. -/
structure Calls where
  presses : List Key
  repeats : List (Key × ℕ)

def Calls.keys (c : Calls) : List Key := c.presses ++ c.repeats.map Prod.fst

def initialDelay : ℕ := 500
def interval : ℕ := 80

def isNewKeypress (previous : Packet) (keycode : UInt8) : Bool :=
  if keycode = 0 then false else decide (∀ i, previous.keycode i ≠ keycode)

def isRepeatableKey (keycode : UInt8) : Bool :=
  !(keycode = hidEnter || keycode = hidEscape || keycode = hidCapslock)

/-- The loop over the six slots that handles new presses. -/
def pressLoop (previous p : Packet) : List Key :=
  p.slots.filterMap fun keycode =>
    if keycode ≠ 0 && isNewKeypress previous keycode then some ⟨keycode,p.modifiers⟩ else none

def heldKeycode (p : Packet) : UInt8 := (p.slots.find? (· ≠ 0)).getD 0

/-- The repeat branch that runs on a fresh packet. -/
def packetRepeat (s : Loop) (p : Packet) (now : ℕ) : Loop × List (Key × ℕ) :=
  if heldKeycode p = 0 then ({ s with repeatKeycode := 0 },[])
  else if heldKeycode p ≠ s.repeatKeycode ∨ p.modifiers ≠ s.repeatModifiers then
    ({ s with
      repeatKeycode := heldKeycode p
      repeatModifiers := p.modifiers
      nextRepeatMs := (now+initialDelay) % 2^64 },[])
  else if isRepeatableKey (heldKeycode p) = true ∧ now ≥ s.nextRepeatMs then
    ({ s with nextRepeatMs := (now+interval) % 2^64 },[(⟨heldKeycode p,p.modifiers⟩,now)])
  else (s,[])

/-- The repeat branch at the end of every iteration. -/
def idleRepeat (s : Loop) (now : ℕ) : Loop × List (Key × ℕ) :=
  if s.repeatKeycode ≠ 0 ∧ isRepeatableKey s.repeatKeycode = true then
    if now ≥ s.nextRepeatMs then
      ({ s with nextRepeatMs := (now+interval) % 2^64 },
        [(⟨s.repeatKeycode,s.repeatModifiers⟩,now)])
    else (s,[])
  else (s,[])

theorem packetRepeat_cases (s : Loop) (p : Packet) (now : ℕ) :
    (heldKeycode p = 0 ∧ packetRepeat s p now = ({ s with repeatKeycode := 0 },[])) ∨
    (heldKeycode p ≠ 0 ∧ (heldKeycode p ≠ s.repeatKeycode ∨ p.modifiers ≠ s.repeatModifiers) ∧
      packetRepeat s p now = (⟨s.previousPacket,heldKeycode p,p.modifiers,
        (now+initialDelay) % 2^64⟩,[])) ∨
    (heldKeycode p ≠ 0 ∧ heldKeycode p = s.repeatKeycode ∧ p.modifiers = s.repeatModifiers ∧
      isRepeatableKey (heldKeycode p) = true ∧ s.nextRepeatMs ≤ now ∧
      packetRepeat s p now = ({ s with nextRepeatMs := (now+interval) % 2^64 },
        [(⟨heldKeycode p,p.modifiers⟩,now)])) ∨
    (heldKeycode p ≠ 0 ∧ heldKeycode p = s.repeatKeycode ∧ p.modifiers = s.repeatModifiers ∧
      packetRepeat s p now = (s,[])) := by
  unfold packetRepeat
  split_ifs with h0 hnew hrep
  · exact Or.inl ⟨h0,rfl⟩
  · exact Or.inr (Or.inl ⟨h0,hnew,rfl⟩)
  · rw [not_or,not_not,not_not] at hnew
    exact Or.inr (Or.inr (Or.inl ⟨h0,hnew.1,hnew.2,hrep.1,hrep.2,rfl⟩))
  · rw [not_or,not_not,not_not] at hnew
    exact Or.inr (Or.inr (Or.inr ⟨h0,hnew.1,hnew.2,rfl⟩))

theorem idleRepeat_cases (s : Loop) (now : ℕ) :
    (s.repeatKeycode ≠ 0 ∧ isRepeatableKey s.repeatKeycode = true ∧ s.nextRepeatMs ≤ now ∧
      idleRepeat s now = ({ s with nextRepeatMs := (now+interval) % 2^64 },
        [(⟨s.repeatKeycode,s.repeatModifiers⟩,now)])) ∨
    idleRepeat s now = (s,[]) := by
  unfold idleRepeat
  split_ifs with hrep hnow
  · exact Or.inl ⟨hrep.1,hrep.2,hnow,rfl⟩
  · exact Or.inr rfl
  · exact Or.inr rfl

/-- What a complete packet does, up to and including `keyboard_save_packet`. -/
def packetBranch (s : Loop) (it : Iteration) : Loop × Calls :=
  if it.complete then
    let (s',repeats) := packetRepeat s it.packet it.packetClock
    ({ s' with previousPacket := it.packet },⟨pressLoop s.previousPacket it.packet,repeats⟩)
  else (s,⟨[],[]⟩)

def iterate (s : Loop) (it : Iteration) : Loop × Calls :=
  let (s₁,calls) := packetBranch s it
  let (s₂,repeats) := idleRepeat s₁ it.idleClock
  (s₂,{ calls with repeats := calls.repeats ++ repeats })

section Fields

variable (s : Loop) (it : Iteration)

theorem iterate_repeats : (iterate s it).2.repeats =
    (packetBranch s it).2.repeats ++ (idleRepeat (packetBranch s it).1 it.idleClock).2 := rfl

variable {s it}

theorem packetBranch_complete (h : it.complete = true) : packetBranch s it =
    ({ (packetRepeat s it.packet it.packetClock).1 with previousPacket := it.packet },
      ⟨pressLoop s.previousPacket it.packet,(packetRepeat s it.packet it.packetClock).2⟩) := by
  rw [packetBranch,if_pos h]

theorem packetBranch_incomplete (h : it.complete = false) : packetBranch s it = (s,⟨[],[]⟩) := by
  rw [packetBranch,if_neg (by simp [h])]

theorem mem_iterate_repeats {c : Key × ℕ} (h : c ∈ (iterate s it).2.repeats) :
    c ∈ (packetRepeat s it.packet it.packetClock).2 ∨
      c ∈ (idleRepeat (packetBranch s it).1 it.idleClock).2 := by
  rw [iterate_repeats] at h
  rcases List.mem_append.mp h with hp | hi
  · cases hc : it.complete with
    | true =>
      rw [packetBranch_complete hc] at hp
      exact Or.inl hp
    | false =>
      rw [packetBranch_incomplete hc] at hp
      exact absurd hp (by simp)
  · exact Or.inr hi

end Fields

def after (its : List Iteration) : Loop := its.foldl (fun s it => (iterate s it).1) start

def callsFrom : Loop → List Iteration → List Calls
  | _, [] => []
  | s, it :: its => (iterate s it).2 :: callsFrom (iterate s it).1 its

def calls (its : List Iteration) : List Calls := callsFrom start its

theorem after_concat (its : List Iteration) (it : Iteration) :
    after (its ++ [it]) = (iterate (after its) it).1 := by
  unfold after
  rw [List.foldl_append]
  rfl

theorem calls_concat (its : List Iteration) (it : Iteration) :
    calls (its ++ [it]) = calls its ++ [(iterate (after its) it).2] := by
  have hgen : ∀ s, callsFrom s (its ++ [it]) = callsFrom s its ++
      [(iterate (its.foldl (fun s it => (iterate s it).1) s) it).2] := by
    induction its with
    | nil => exact fun s => rfl
    | cons x its ih =>
      intro s
      rw [List.cons_append,callsFrom,callsFrom,ih]
      rfl
  exact hgen start

def lastPacket (its : List Iteration) : Packet :=
  its.foldl (fun p it => if it.complete then it.packet else p) Packet.zero

theorem lastPacket_concat (its : List Iteration) (it : Iteration) :
    lastPacket (its ++ [it]) = if it.complete then it.packet else lastPacket its := by
  unfold lastPacket
  rw [List.foldl_append]
  rfl

end MainLoop
end EmbeddedSystems
