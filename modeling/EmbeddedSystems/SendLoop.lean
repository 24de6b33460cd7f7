import EmbeddedSystems.Keyboard

/-! The send loop under partial writes. Whether a send succeeds depends only on the answers
of `write()` and on how many bytes are to be sent; the accepted bytes are always a prefix of
the line. -/

namespace EmbeddedSystems
namespace Keyboard

open CArray

/-- From call number `call` on, `write()` accepts all `remaining` bytes without a result
`≤ 0` in between. The first argument bounds the number of calls. -/
def Writer.acceptsFrom (w : Writer) : ℕ → ℕ → ℕ → Bool
  | _, _, 0 => true
  | 0, _, _+1 => false
  | fuel+1, call, rem+1 =>
    if w.ret call (rem+1) ≤ 0 then false
    else w.acceptsFrom fuel (call+1) (rem+1-(w.ret call (rem+1)).toNat)

def Writer.accepts (w : Writer) (len : ℕ) : Bool := w.acceptsFrom len 0 len

theorem request_eq (b : Buffer) (sent k : ℕ) (h : sent+k ≤ 256) :
    request b sent k = some (slice b sent (sent+k)) := by
  induction k generalizing sent with
  | zero => simp [request]
  | succ k ih =>
    have hr := ih (sent+1) (by omega)
    rw [Nat.cast_add,Nat.cast_one] at hr
    rw [request,get_eq_peek b (by omega),hr,slice_cons b (by omega : sent < sent+(k+1))]
    simp [show sent+1+k = sent+(k+1) by omega]

theorem take_slice (b : Buffer) {i j k : ℕ} (h : k ≤ j-i) :
    (slice b i j).take k = slice b i (i+k) := by
  unfold slice
  rw [← List.map_take,List.take_range,Nat.min_eq_left h,Nat.add_sub_cancel_left]

/-- What the send loop does from `sent` on: it returns, the accepted bytes are the next `k`
bytes of the line, all of them are accepted exactly when it returns `0`, and none of them
exactly when the first answer is `≤ 0`. -/
theorem sendLoop_spec (w : Writer) (b : Buffer) {l : ℕ} (hl : l ≤ 256) (fuel call sent : ℕ)
    (hs : sent ≤ l) (hf : l-sent ≤ fuel) :
    ∃ k ≤ l-sent, sendLoop w b l fuel call sent =
        some (slice b sent (sent+k),if w.acceptsFrom fuel call (l-sent) then 0 else -1) ∧
      (k = l-sent ↔ w.acceptsFrom fuel call (l-sent) = true) ∧
      (sent < l → (k = 0 ↔ w.ret call (l-sent) ≤ 0)) := by
  induction fuel generalizing call sent with
  | zero =>
    obtain rfl : sent = l := by omega
    refine ⟨0,Nat.zero_le _,?_,?_,?_⟩
    · simp [sendLoop,Writer.acceptsFrom]
    · simp [Writer.acceptsFrom]
    · simp
  | succ fuel ih =>
    rcases Nat.eq_or_lt_of_le hs with rfl | hlt
    · refine ⟨0,Nat.zero_le _,?_,?_,?_⟩
      · simp [sendLoop,Writer.acceptsFrom]
      · simp [Writer.acceptsFrom]
      · simp
    · obtain ⟨r,hr⟩ : ∃ r, l-sent = r+1 := ⟨l-sent-1,by omega⟩
      have hcast : ((l : ℤ)-sent).toNat = r+1 := by omega
      have hreq : request b sent (r+1) = some (slice b sent l) := by
        rw [request_eq b sent (r+1) (by omega),show sent+(r+1) = l by omega]
      have hle := w.ret_le call (r+1)
      rw [sendLoop,if_pos (by omega),hcast,hreq,hr,Writer.acceptsFrom]
      by_cases hn : w.ret call (r+1) ≤ 0
      · refine ⟨0,Nat.zero_le _,?_,?_,?_⟩
        · simp [hn]
        · simp [hn]
        · simp [hn]
      · obtain ⟨m,hm⟩ := Int.eq_ofNat_of_zero_le (by omega : 0 ≤ w.ret call (r+1))
        obtain ⟨k,hk,hloop,hiff,-⟩ := ih (call+1) (sent+m) (by omega) (by omega)
        rw [show l-(sent+m) = r+1-m by omega] at hk hloop hiff
        rw [Nat.cast_add] at hloop
        refine ⟨m+k,by omega,?_,?_,?_⟩
        · simp only [hm,Int.toNat_natCast] at hn ⊢
          simp only [Option.bind_eq_bind,Option.bind_some,hn,if_false,hloop]
          rw [take_slice b (by omega : m ≤ l-sent),slice_append b (by omega) (by omega)]
          simp [Nat.add_assoc]
        · rw [if_neg hn,hm,Int.toNat_natCast,← hiff]
          omega
        · omega

theorem sendInputBufferToServer_spec (s : State) (w : Writer) {l : ℕ} (hl : l ≤ 255)
    (hs : s.inputLength = l) :
    ∃ k ≤ l, sendInputBufferToServer s w =
        some (slice s.inputBuffer 0 k,if w.accepts l then 0 else -1) ∧
      (k = l ↔ w.accepts l = true) ∧ (0 < l → (k = 0 ↔ w.ret 0 l ≤ 0)) := by
  obtain ⟨k,hk,hloop,hiff,hfirst⟩ :=
    sendLoop_spec w s.inputBuffer (by omega : l ≤ 256) l 0 0 (Nat.zero_le _) le_rfl
  rw [Nat.zero_add] at hloop
  refine ⟨k,hk,?_,hiff,hfirst⟩
  rw [sendInputBufferToServer,hs,Int.toNat_natCast]
  exact hloop

def Writer.remaining (w : Writer) (call rem : ℕ) : ℕ → ℕ
  | 0 => rem
  | k+1 => w.remaining (call+1) (rem-(w.ret call rem).toNat) k

theorem Writer.remaining_zero (w : Writer) (call k : ℕ) : w.remaining call 0 k = 0 := by
  induction k generalizing call with
  | zero => rfl
  | succ k ih =>
    rw [Writer.remaining,Nat.zero_sub]
    exact ih (call+1)

theorem Writer.acceptsFrom_iff (w : Writer) (fuel call rem : ℕ) (hf : rem ≤ fuel) :
    w.acceptsFrom fuel call rem = true ↔
      ∀ k, 0 < w.remaining call rem k → 0 < w.ret (call+k) (w.remaining call rem k) := by
  induction fuel generalizing call rem with
  | zero =>
    obtain rfl : rem = 0 := by omega
    simp [Writer.acceptsFrom,Writer.remaining_zero]
  | succ fuel ih =>
    cases rem with
    | zero => simp [Writer.acceptsFrom,Writer.remaining_zero]
    | succ r =>
      rw [Writer.acceptsFrom]
      by_cases hn : w.ret call (r+1) ≤ 0
      · rw [if_pos hn]
        constructor
        · intro h
          exact absurd h Bool.false_ne_true
        · intro h
          have h0 : 0 < w.ret call (r+1) := h 0 (Nat.succ_pos r)
          omega
      · rw [if_neg hn,ih (call+1) _ (by omega)]
        constructor
        · intro h k
          cases k with
          | zero =>
            intro _
            exact not_le.mp hn
          | succ k =>
            rw [← Nat.add_assoc,Nat.add_right_comm]
            exact h k
        · intro h k
          have hk := h (k+1)
          rw [← Nat.add_assoc,Nat.add_right_comm] at hk
          exact hk

theorem handleKeypress_enter {e : Event} (s : State) (h : e.keycode = hidEnter) :
    handleKeypress s e = handleEnter s e.writer := by
  rw [handleKeypress,h,if_neg (by decide),if_neg (by decide),if_neg (by decide),if_pos rfl]

theorem handleEnter_failed {s : State} {w : Writer} {wire : List UInt8} (hpos : s.inputLength > 0)
    (hsend : sendInputBufferToServer s w = some (wire,-1)) :
    handleEnter s w = some (s,⟨[],wire⟩) := by
  rw [handleEnter,if_pos hpos,hsend]
  rfl

/-- The send loop on a line of 1 to 255 bytes, whatever `write()` answers: it returns, `0`
exactly if no result `≤ 0` comes while bytes are left, and then the socket has accepted the line;
if it returns `-1` the socket has accepted a proper prefix and Enter changes nothing. -/
theorem send_under_partial_writes {s : State} {l : ℕ} (hs : s.inputLength = l) (hpos : 1 ≤ l)
    (hl : l ≤ 255) (w : Writer) :
    ∃ wire rc, sendInputBufferToServer s w = some (wire,rc) ∧ (rc = 0 ∨ rc = -1) ∧
      (rc = 0 ↔ ∀ k, 0 < w.remaining 0 l k → 0 < w.ret k (w.remaining 0 l k)) ∧
      (rc = 0 → wire = slice s.inputBuffer 0 l) ∧
      (rc = -1 → wire <+: slice s.inputBuffer 0 l ∧ wire ≠ slice s.inputBuffer 0 l ∧
        ∀ modifiers, handleKeypress s ⟨hidEnter,modifiers,w⟩ = some (s,⟨[],wire⟩)) := by
  obtain ⟨k,hk,hsend,hall,-⟩ := sendInputBufferToServer_spec s w hl hs
  have hiff := w.acceptsFrom_iff l 0 l le_rfl
  simp only [Nat.zero_add] at hiff
  cases hacc : w.accepts l with
  | true =>
    rw [hacc,if_pos rfl] at hsend
    obtain rfl : k = l := hall.mpr hacc
    refine ⟨_,0,hsend,Or.inl rfl,?_,fun _ => rfl,?_⟩
    · exact ⟨fun _ => hiff.mp hacc,fun _ => rfl⟩
    · intro h
      exact absurd h (by decide)
  | false =>
    rw [hacc,if_neg Bool.false_ne_true] at hsend
    have hlt : k ≠ l := by
      intro he
      rw [hall.mp he] at hacc
      exact absurd hacc Bool.noConfusion
    refine ⟨_,-1,hsend,Or.inr rfl,?_,?_,?_⟩
    · constructor
      · intro h
        exact absurd h (by decide)
      · intro h
        have htrue : w.accepts l = true := hiff.mpr h
        rw [hacc] at htrue
        exact absurd htrue Bool.false_ne_true
    · intro h
      exact absurd h (by decide)
    · intro _
      obtain ⟨hpre,hproper⟩ :=
        slice_initial_of_lt s.inputBuffer (Nat.zero_le k) (by omega : k < l)
      refine ⟨hpre,hproper,?_⟩
      intro modifiers
      rw [handleKeypress_enter s rfl]
      exact handleEnter_failed (by omega) hsend

theorem firstByteOnly_le (i count : ℕ) :
    (if i = 0 then min 1 (count : ℤ) else -1) ≤ (count : ℤ) := by
  by_cases hi : i = 0
  · rw [if_pos hi]
    exact min_le_right _ _
  · rw [if_neg hi]
    exact (neg_nonpos.mpr zero_le_one).trans (Int.natCast_nonneg count)

/-- Two bytes, of which `write()` takes one before it fails. -/
theorem send_one_of_two :
    let s : State := ⟨false,fun i => if i.val < 2 then 0x61 else 0,2,2⟩
    let w : Writer := ⟨fun i count => if i = 0 then min 1 count else -1,firstByteOnly_le⟩
    ∃ wire, sendInputBufferToServer s w = some (wire,-1) ∧ wire ≠ slice s.inputBuffer 0 2 := by
  intro s w
  obtain ⟨wire,rc,hsend,hrc,hzero,-,hfail⟩ :=
    send_under_partial_writes (rfl : s.inputLength = (2 : ℕ)) (by decide) (by decide) w
  have hne : rc ≠ 0 := by
    intro h0
    have h1 : 0 < w.ret 1 1 := hzero.mp h0 1 (by decide)
    exact absurd h1 (by decide)
  obtain rfl : rc = -1 := hrc.resolve_left hne
  exact ⟨wire,hsend,(hfail rfl).2.1⟩

end Keyboard
end EmbeddedSystems
