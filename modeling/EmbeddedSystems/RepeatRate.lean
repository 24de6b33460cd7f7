import EmbeddedSystems.Ticker
import EmbeddedSystems.TypedText

/-! The two repeat branches of the keyboard loop read one deadline. While a key stays down they are
one timer, read once by an iteration without a packet and twice by one with a packet, so the
number of repeats is bounded from both sides by the time the key has been held. -/

namespace EmbeddedSystems
namespace MainLoop

open Keyboard

/-- The readings of the clock that the repeat branches make while a key is down. -/
def readings (it : Iteration) : List ℕ :=
  if it.complete then [it.packetClock,it.idleClock] else [it.idleClock]

def KeepsDown (k : Key) (it : Iteration) : Prop := it.complete = true → it.packet.Carries k

section Held

variable {k : Key} {deadline : ℕ} {s : Loop} {it : Iteration}

theorem Down.idleRepeat (h : Down k deadline s) (hk : k.keycode ≠ 0)
    (hrep : isRepeatableKey k.keycode = true) {now : ℕ} (hb : now+80 < 2^64) :
    let t := Ticker.step 80 ⟨deadline,0⟩ now
    Down k t.next (MainLoop.idleRepeat s now).1 ∧
      (MainLoop.idleRepeat s now).2.map Prod.fst = List.replicate t.fired k := by
  intro t
  have hactive : s.repeatKeycode ≠ 0 ∧ isRepeatableKey s.repeatKeycode = true := by
    rw [h.repeatKeycode]
    exact ⟨hk,hrep⟩
  have hmod : (now+interval) % 2^64 = now+80 := Nat.mod_eq_of_lt hb
  by_cases hdue : deadline ≤ now
  · have hr : MainLoop.idleRepeat s now = ({ s with nextRepeatMs := now+80 },[(k,now)]) := by
      rw [MainLoop.idleRepeat,if_pos hactive,if_pos (by rw [h.nextRepeatMs]; exact hdue),hmod,
        h.repeatKeycode,h.repeatModifiers]
    rw [show t = ⟨now+80,1⟩ from if_pos hdue,hr]
    exact ⟨⟨h.carries,h.repeatKeycode,h.repeatModifiers,rfl⟩,rfl⟩
  · rw [show t = ⟨deadline,0⟩ from if_neg hdue,
      idleRepeat_of_lt (by rw [h.nextRepeatMs]; exact not_le.mp hdue)]
    exact ⟨h,rfl⟩

theorem Down.packetRepeat (h : Down k deadline s) (hk : k.keycode ≠ 0)
    (hrep : isRepeatableKey k.keycode = true) {p : Packet} (hp : p.Carries k) {now : ℕ}
    (hb : now+80 < 2^64) :
    let t := Ticker.step 80 ⟨deadline,0⟩ now
    Down k t.next { (MainLoop.packetRepeat s p now).1 with previousPacket := p } ∧
      (MainLoop.packetRepeat s p now).2.map Prod.fst = List.replicate t.fired k := by
  intro t
  have hheld : heldKeycode p = k.keycode := by rw [heldKeycode_eq,hp.1]; rfl
  have hsame : ¬(k.keycode ≠ s.repeatKeycode ∨ p.modifiers ≠ s.repeatModifiers) := by
    rw [h.repeatKeycode,h.repeatModifiers,hp.2]
    simp
  have hmod : (now+interval) % 2^64 = now+80 := Nat.mod_eq_of_lt hb
  by_cases hdue : deadline ≤ now
  · have hr : MainLoop.packetRepeat s p now = ({ s with nextRepeatMs := now+80 },[(k,now)]) := by
      rw [MainLoop.packetRepeat,hheld,if_neg hk,if_neg hsame,
        if_pos ⟨hrep,by rw [h.nextRepeatMs]; exact hdue⟩,hmod,hp.2]
    rw [show t = ⟨now+80,1⟩ from if_pos hdue,hr]
    exact ⟨⟨hp,h.repeatKeycode,h.repeatModifiers,rfl⟩,rfl⟩
  · have hr : MainLoop.packetRepeat s p now = (s,[]) := by
      rw [MainLoop.packetRepeat,hheld,if_neg hk,if_neg hsame,
        if_neg (fun hh => hdue (by rw [← h.nextRepeatMs]; exact hh.2))]
    rw [show t = ⟨deadline,0⟩ from if_neg hdue,hr]
    exact ⟨⟨hp,h.repeatKeycode,h.repeatModifiers,h.nextRepeatMs⟩,rfl⟩

theorem Released.pressed (h : Released s) (hk : k.keycode ≠ 0)
    (hrep : isRepeatableKey k.keycode = true) (hc : it.complete = true)
    (hp : it.packet.Carries k) (hclock : it.packetClock+500 < 2^64)
    (hb : it.idleClock+80 < 2^64) :
    let t := Ticker.step 80 ⟨it.packetClock+500,0⟩ it.idleClock
    Down k t.next (MainLoop.iterate s it).1 ∧
      (MainLoop.iterate s it).2.keys = k :: List.replicate t.fired k := by
  intro t
  obtain ⟨s',hbranch,hd⟩ := h.packet hk hc hp hclock
  obtain ⟨hd',hkeys⟩ := hd.idleRepeat hk hrep hb
  rw [MainLoop.iterate,hbranch]
  exact ⟨hd',congrArg (List.cons k) hkeys⟩

/-- While `k` is down an iteration is one or two readings of a timer, and every call it makes is a
repeat of `k`. -/
theorem Down.iterate (h : Down k deadline s) (hk : k.keycode ≠ 0)
    (hrep : isRepeatableKey k.keycode = true) (hit : KeepsDown k it)
    (hb : ∀ now ∈ readings it, now+80 < 2^64) :
    let t := Ticker.run 80 ⟨deadline,0⟩ (readings it)
    Down k t.next (MainLoop.iterate s it).1 ∧
      (MainLoop.iterate s it).2.keys = List.replicate t.fired k := by
  intro t
  cases hc : it.complete with
  | false =>
    have hread : readings it = [it.idleClock] := if_neg (by simp [hc])
    have ht : t = Ticker.step 80 ⟨deadline,0⟩ it.idleClock := by
      simp only [t,hread]
      rfl
    rw [hread] at hb
    obtain ⟨hd,hkeys⟩ := h.idleRepeat hk hrep (hb it.idleClock (by simp))
    rw [ht,MainLoop.iterate,packetBranch_incomplete hc]
    exact ⟨hd,hkeys⟩
  | true =>
    have hread : readings it = [it.packetClock,it.idleClock] := if_pos hc
    have ht : t = Ticker.step 80 (Ticker.step 80 ⟨deadline,0⟩ it.packetClock) it.idleClock := by
      simp only [t,hread]
      rfl
    rw [hread] at hb
    obtain ⟨hd₁,hkeys₁⟩ := h.packetRepeat hk hrep (hit hc) (hb it.packetClock (by simp))
    obtain ⟨hd₂,hkeys₂⟩ := hd₁.idleRepeat hk hrep (hb it.idleClock (by simp))
    have hnew : newKeys s.previousPacket it.packet = [] := by
      rw [newKeys_filter,(hit hc).1]
      simp [h.carries.mem]
    rw [ht,Ticker.step_fired,MainLoop.iterate,packetBranch_complete hc,pressLoop_eq,hnew]
    refine ⟨hd₂,?_⟩
    rw [Calls.keys,List.nil_append,List.map_append,hkeys₁,hkeys₂,List.replicate_append_replicate]

theorem Down.run (h : Down k deadline s) (hk : k.keycode ≠ 0)
    (hrep : isRepeatableKey k.keycode = true) {its : List Iteration}
    (hits : ∀ it ∈ its, KeepsDown k it)
    (hb : ∀ now ∈ its.flatMap readings, now+80 < 2^64) :
    handledFrom s its =
      List.replicate (Ticker.run 80 ⟨deadline,0⟩ (its.flatMap readings)).fired k := by
  induction its generalizing s deadline with
  | nil => rfl
  | cons it its ih =>
    rw [List.flatMap_cons] at hb ⊢
    obtain ⟨hd,hkeys⟩ := h.iterate hk hrep (hits it (by simp))
      fun now hnow => hb now (List.mem_append_left _ hnow)
    have hrest := ih hd (fun x hx => hits x (by simp [hx]))
      fun now hnow => hb now (List.mem_append_right _ hnow)
    rw [handledFrom_cons,hkeys,hrest,Ticker.run_append,Ticker.run_fired 80 (Ticker.run _ _ _),
      List.replicate_append_replicate]

end Held

/-- A repeatable key that goes down alone at `T₀` and stays down alone is handled once and then
repeated. If the clock is read at most `gap` ms apart and the last reading is `c`, the number `R` of
repeats satisfies `c - (T₀+500) < R*(gap+79)` and `80*R ≤ c - (T₀+500) + 80`, whether the keyboard
sends the packet again or reports changes only. -/
theorem repeat_rate {s : Loop} (hs : Released s) {k : Key} (hk : k.keycode ≠ 0)
    (hrep : isRepeatableKey k.keycode = true) {down : Iteration} (hc : down.complete = true)
    (hp : down.packet.Carries k) (hclock : down.packetClock+500 < 2^64) {its : List Iteration}
    (hits : ∀ it ∈ its, KeepsDown k it)
    (hb : ∀ now ∈ down.idleClock :: its.flatMap readings, now+80 < 2^64) {gap : ℕ}
    (hchain : List.IsChain (fun a b => a ≤ b ∧ b ≤ a+gap)
      (down.packetClock :: down.idleClock :: its.flatMap readings)) :
    let c := (its.flatMap readings).getLastD down.idleClock
    ∃ R, handledFrom s (down :: its) = k :: List.replicate R k ∧
      c < down.packetClock+500+R*(gap+79) ∧ (0 < R → down.packetClock+500+80*R ≤ c+80) := by
  intro c
  rw [List.forall_mem_cons] at hb
  obtain ⟨hd,hkeys⟩ := hs.pressed hk hrep hc hp hclock hb.1
  have hset : Ticker.Paced 80 gap (down.packetClock+500) down.packetClock
      ⟨down.packetClock+500,0⟩ := Ticker.paced_set (by omega)
  have hpaced := hset.run (by decide) hchain
  rw [List.getLastD_cons] at hpaced
  refine ⟨_,?_,lt_of_lt_of_le hpaced.ahead hpaced.fast,?_⟩
  · have hrun : Ticker.run 80 ⟨down.packetClock+500,0⟩ (down.idleClock :: its.flatMap readings) =
        Ticker.run 80 (Ticker.step 80 ⟨down.packetClock+500,0⟩ down.idleClock)
          (its.flatMap readings) := rfl
    rw [handledFrom_cons,hkeys,hd.run hk hrep hits hb.2,hrun,
      Ticker.run_fired 80 (Ticker.step _ _ _),List.cons_append,List.replicate_append_replicate]
  · intro hpos
    exact hpaced.slow.trans (hpaced.recent hpos)

theorem repeat_rate_held :
    let k : Key := ⟨0x04,0⟩
    let down : Iteration := ⟨0,8,⟨0,![0x04,0,0,0,0,0]⟩,0,0⟩
    let its := (List.range 10).map fun i => (⟨-7,0,Packet.zero,0,100*(i+1)⟩ : Iteration)
    ∃ R, 3 ≤ R ∧ R ≤ 7 ∧ handledFrom start (down :: its) = k :: List.replicate R k := by
  intro k down its
  have hits : ∀ it ∈ its, KeepsDown k it := by
    intro it hit hc
    obtain ⟨i,-,rfl⟩ := List.mem_map.mp hit
    exact absurd hc (by simp [Iteration.complete])
  have hcarries : down.packet.Carries k := ⟨by decide,rfl⟩
  have hchain : List.IsChain (fun a b => a ≤ b ∧ b ≤ a+100)
      (down.packetClock :: down.idleClock :: its.flatMap readings) := by decide
  obtain ⟨R,hkeys,hlow,hhigh⟩ := repeat_rate released_start (by decide : k.keycode ≠ 0) (by decide)
    (rfl : down.complete = true) hcarries (by decide) hits (by decide) hchain
  have hc : (its.flatMap readings).getLastD down.idleClock = 1000 := by decide
  have hT : down.packetClock = 0 := rfl
  rw [hc,hT] at hlow hhigh
  exact ⟨R,by omega,by omega,hkeys⟩

end MainLoop
end EmbeddedSystems
