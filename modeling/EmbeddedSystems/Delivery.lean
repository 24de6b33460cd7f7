import EmbeddedSystems.LineEditor

/-! The outgoing byte stream along a run of key events, against the lines whose send succeeded.
The send loop keeps its progress in a local variable while the buffer is kept for a retry, so
a send that fails after a partial write puts its prefix on the stream a second time later. -/

namespace EmbeddedSystems
namespace Keyboard

open CArray Screen Clocked

def contents (s : State) : List UInt8 := slice s.inputBuffer 0 s.inputLength.toNat

def sendSucceeds (s : State) (e : Event) : Bool :=
  decide (e.keycode = hidEnter) && decide (s.inputLength > 0) &&
    (sendInputBufferToServer s e.writer).any fun r => decide (r.2 = 0)

/-- The input line with the bytes the socket has accepted and the lines whose send
succeeded. -/
structure Session where
  state : State
  stream : List UInt8
  sent : List (List UInt8)

namespace Session

def initial : Session := ⟨Keyboard.initial,[],[]⟩

def step (q : Option Session) (e : Event) : Option Session :=
  q.bind fun q => (handleKeypress q.state e).map fun (s,out) =>
    ⟨s,q.stream ++ out.wire,
      if sendSucceeds q.state e then q.sent ++ [contents q.state] else q.sent⟩

end Session

/-- After every Enter whose send succeeds, the stream is the concatenation of the lines whose
send succeeded. -/
def ExactlyOnce (w : ℕ → Event) : Prop :=
  ∀ t q, trace Session.step (some Session.initial) w t = some q → sendSucceeds q.state (w t) →
    ∃ q', trace Session.step (some Session.initial) w (t+1) = some q' ∧
      q'.stream = q'.sent.flatten

/-- An Enter on a line of `len` characters whose send goes through. -/
def GoesThrough (len : ℕ) (e : Event) : Prop :=
  e.keycode = hidEnter ∧ 0 < len ∧ e.writer.accepts len = true

/-- An Enter on a line of `len` characters whose send breaks off after a partial write: the
first `write()` accepts something, and a later one fails. -/
def BreaksOff (len : ℕ) (e : Event) : Prop :=
  e.keycode = hidEnter ∧ 0 < len ∧ 0 < e.writer.ret 0 len ∧ e.writer.accepts len = false

theorem edit_wire {r : Option (State × List Put)} {s : State} {out : Output}
    (h : edit r = some (s,out)) : out.wire = [] := by
  obtain ⟨⟨s',ps⟩,-,heq⟩ := Option.map_eq_some_iff.mp h
  obtain ⟨-,rfl⟩ := Prod.mk.inj heq
  rfl

theorem handleKeypress_wire {s s' : State} {e : Event} {out : Output} (hne : e.keycode ≠ hidEnter)
    (h : handleKeypress s e = some (s',out)) : out.wire = [] := by
  rcases handleKeypress_cases s e with ⟨s₁,heq⟩ | ⟨henter,-⟩ | ⟨f,heq,-⟩
  · rw [heq] at h
    obtain ⟨-,rfl⟩ := Prod.mk.inj (Option.some.inj h)
    rfl
  · exact absurd henter hne
  · rw [heq] at h
    exact edit_wire h

/-- What Enter on a nonempty line does to the socket: it puts `k` characters of the line on
the stream, all of them exactly when the send succeeds. -/
theorem handleEnter_wire {s s' : State} {e : Event} {out : Output} (h : Inv s) {l : ℕ}
    (hl : s.inputLength = l) (hpos : 0 < l) (he : e.keycode = hidEnter)
    (hs : handleKeypress s e = some (s',out)) :
    ∃ k ≤ l, out.wire = slice s.inputBuffer 0 k ∧ (k = l ↔ e.writer.accepts l = true) ∧
      (k = 0 ↔ e.writer.ret 0 l ≤ 0) ∧ sendSucceeds s e = e.writer.accepts l := by
  have hl255 := h.length_le
  obtain ⟨k,hk,hsend,hall,hfirst⟩ := sendInputBufferToServer_spec s e.writer (by omega) hl
  refine ⟨k,hk,?_,hall,hfirst hpos,?_⟩
  · rw [handleKeypress_enter s he,handleEnter,if_pos (by omega),hsend] at hs
    by_cases hacc : e.writer.accepts l = true
    · obtain ⟨s₁,ps,hclear,-⟩ := inputBufClear_performs s h
      simp only [hacc,hclear,if_true,Option.bind_eq_bind,Option.bind_some,Option.pure_def,
        Option.some.injEq,Prod.mk.injEq] at hs
      rw [← hs.2]
    · simp only [hacc,Option.bind_eq_bind,Option.bind_some,Option.pure_def] at hs
      obtain ⟨-,rfl⟩ := Prod.mk.inj (Option.some.inj hs)
      rfl
  · have hpos' : s.inputLength > 0 := by omega
    cases hacc : e.writer.accepts l <;> simp [sendSucceeds,he,hpos',hsend,hacc]

theorem idle_wire {s s' : State} {e : Event} {out : Output}
    (hs : handleKeypress s e = some (s',out)) (he : ¬ (e.keycode = hidEnter ∧ s.inputLength > 0)) :
    out.wire = [] ∧ sendSucceeds s e = false := by
  by_cases hk : e.keycode = hidEnter
  · have hl : ¬ s.inputLength > 0 := fun h => he ⟨hk,h⟩
    constructor
    · rw [handleKeypress_enter s hk,handleEnter,if_neg hl] at hs
      obtain ⟨-,rfl⟩ := Prod.mk.inj (Option.some.inj hs)
      rfl
    · simp [sendSucceeds,hl]
  · exact ⟨handleKeypress_wire hk hs,by simp [sendSucceeds,hk]⟩

/-- One event either adds the same characters to the stream and to the lines sent, or breaks
off and leaves some characters on the stream only. -/
theorem Session.step_spec {q : Session} (h : Inv q.state) (e : Event) :
    ∃ q' x, Session.step (some q) e = some q' ∧ Inv q'.state ∧
      editorOf q'.state = (editorOf q.state).press e ∧ q'.stream = q.stream ++ x ∧
      (¬ BreaksOff (editorOf q.state).line.length e ∧ q'.sent.flatten = q.sent.flatten ++ x ∨
        BreaksOff (editorOf q.state).line.length e ∧ q'.sent = q.sent ∧ x ≠ []) := by
  obtain ⟨p,l,hp,hl,hpl,hl255⟩ := h.nats
  obtain ⟨s',out,hs',hinv,hed,-⟩ := handleKeypress_shows h e
  have hlen : (editorOf q.state).line.length = l := by rw [h.line_length,hl,Int.toNat_natCast]
  have hstep : Session.step (some q) e = some ⟨s',q.stream ++ out.wire,
      if sendSucceeds q.state e then q.sent ++ [contents q.state] else q.sent⟩ := by
    rw [Session.step,Option.bind_some,hs',Option.map_some]
  refine ⟨_,out.wire,hstep,hinv,hed,rfl,?_⟩
  rw [hlen]
  by_cases he : e.keycode = hidEnter ∧ 0 < l
  · obtain ⟨k,hk,hwire,hall,hfirst,hsucc⟩ := handleEnter_wire h hl he.2 he.1 hs'
    have hwlen : out.wire.length = k := by rw [hwire,slice_length]; omega
    rw [hsucc]
    cases hacc : e.writer.accepts l with
    | true =>
      left
      have hkl := hall.mpr hacc
      refine ⟨?_,?_⟩
      · intro hb
        rw [hb.2.2.2] at hacc
        exact absurd hacc (by decide)
      · rw [if_pos rfl,List.flatten_append,hwire,hkl,contents,hl]
        simp
    | false =>
      rw [if_neg (by decide)]
      by_cases hret : e.writer.ret 0 l ≤ 0
      · left
        have hk0 := hfirst.mpr hret
        refine ⟨?_,?_⟩
        · intro hb
          have hb' := hb.2.2.1
          omega
        · simp [List.length_eq_zero_iff.mp (hwlen.trans hk0)]
      · right
        refine ⟨⟨he.1,he.2,by omega,hacc⟩,rfl,?_⟩
        intro hnil
        rw [hnil] at hwlen
        exact hret (hfirst.mp hwlen.symm)
  · obtain ⟨hwire,hns⟩ := idle_wire hs' fun h => he ⟨h.1,by omega⟩
    left
    refine ⟨fun hb => he ⟨hb.1,hb.2.1⟩,?_⟩
    simp [hns,hwire]

def lineAt (w : ℕ → Event) (t : ℕ) : Zipper UInt8 := (trace Editor.press Editor.initial w t).line

/-- The stream is exactly the lines sent as long as no send has broken off, and longer than
them from then on. -/
theorem session_run (w : ℕ → Event) (t : ℕ) :
    ∃ q, trace Session.step (some Session.initial) w t = some q ∧ Inv q.state ∧
      editorOf q.state = trace Editor.press Editor.initial w t ∧
      ((∀ i < t, ¬ BreaksOff (lineAt w i).length (w i)) ∧ q.stream = q.sent.flatten ∨
        (∃ i < t, BreaksOff (lineAt w i).length (w i)) ∧
          q.sent.flatten.length < q.stream.length) := by
  induction t with
  | zero => exact ⟨Session.initial,rfl,inv_initial,editorOf_initial,Or.inl ⟨by simp,rfl⟩⟩
  | succ t ih =>
    obtain ⟨q,hq,hinv,hed,hcase⟩ := ih
    obtain ⟨q',x,hq',hinv',hed',hstream,hx⟩ := Session.step_spec hinv (w t)
    refine ⟨q',?_,hinv',?_,?_⟩
    · rw [trace_succ,hq,hq']
    · rw [trace_succ,hed',hed]
    · rw [hed] at hx
      rw [hstream]
      rcases hcase with ⟨hnone,heq⟩ | ⟨⟨i,hi,hbi⟩,hlt⟩
      · rcases hx with ⟨hnb,hsent⟩ | ⟨hb,hsent,hne⟩
        · left
          refine ⟨?_,by rw [hsent,heq]⟩
          intro i hi
          rcases Nat.lt_succ_iff_lt_or_eq.mp hi with hlt | rfl
          · exact hnone i hlt
          · exact hnb
        · right
          refine ⟨⟨t,Nat.lt_succ_self t,hb⟩,?_⟩
          have hxpos := List.length_pos_iff.mpr hne
          rw [hsent,heq,List.length_append]
          omega
      · right
        refine ⟨⟨i,by omega,hbi⟩,?_⟩
        rcases hx with ⟨-,hsent⟩ | ⟨-,hsent,-⟩
        · rw [hsent,List.length_append,List.length_append]
          omega
        · rw [hsent,List.length_append]
          omega

theorem sendSucceeds_iff {s : State} (h : Inv s) (e : Event) :
    sendSucceeds s e = true ↔ GoesThrough (editorOf s).line.length e := by
  obtain ⟨p,l,hp,hl,hpl,hl255⟩ := h.nats
  obtain ⟨s',out,hs',-⟩ := handleKeypress_shows h e
  rw [h.line_length,hl,Int.toNat_natCast]
  by_cases he : e.keycode = hidEnter ∧ 0 < l
  · obtain ⟨k,-,-,-,-,hsucc⟩ := handleEnter_wire h hl he.2 he.1 hs'
    rw [hsucc]
    exact ⟨fun hacc => ⟨he.1,he.2,hacc⟩,fun hg => hg.2.2⟩
  · obtain ⟨-,hns⟩ := idle_wire hs' fun h => he ⟨h.1,by omega⟩
    rw [hns]
    exact ⟨fun h => absurd h (by decide),fun hg => absurd ⟨hg.1,hg.2.1⟩ he⟩

/-- Sent lines reach the server exactly once in exactly those runs in which no send breaks off
after a partial write before one that goes through. -/
theorem exactlyOnce_iff (w : ℕ → Event) :
    ExactlyOnce w ↔ ∀ t, GoesThrough (lineAt w t).length (w t) →
      ∀ i < t, ¬ BreaksOff (lineAt w i).length (w i) := by
  constructor
  · intro h t hgo i hi hbreak
    obtain ⟨q,hq,hinv,hed,-⟩ := session_run w t
    have hsucc : sendSucceeds q.state (w t) = true := by
      rw [sendSucceeds_iff hinv,hed]
      exact hgo
    obtain ⟨q',hq',heq⟩ := h t q hq hsucc
    obtain ⟨q'',hq'',-,-,hcase⟩ := session_run w (t+1)
    obtain rfl : q' = q'' := Option.some.inj (hq'.symm.trans hq'')
    rcases hcase with ⟨hnone,-⟩ | ⟨-,hlt⟩
    · exact hnone i (by omega) hbreak
    · rw [heq] at hlt
      exact absurd hlt (lt_irrefl _)
  · intro h t q hq hsucc
    obtain ⟨q₀,hq₀,hinv,hed,-⟩ := session_run w t
    obtain rfl : q = q₀ := Option.some.inj (hq.symm.trans hq₀)
    rw [sendSucceeds_iff hinv,hed] at hsucc
    obtain ⟨q',hq',-,-,hcase⟩ := session_run w (t+1)
    refine ⟨q',hq',?_⟩
    rcases hcase with ⟨-,heq⟩ | ⟨⟨i,hi,hbi⟩,-⟩
    · exact heq
    · rcases Nat.lt_succ_iff_lt_or_eq.mp hi with hlt | rfl
      · exact absurd hbi (h t hsucc i hlt)
      · have hacc := hsucc.2.2
        rw [← lineAt,hbi.2.2.2] at hacc
        exact absurd hacc (by decide)

def takesAll : Writer := ⟨fun _ count => count,fun _ _ => le_rfl⟩

def takesOneByte : Writer where
  ret call count := if call = 0 ∧ 0 < count then 1 else -1
  ret_le := by
    intro call count
    split_ifs <;> omega

def retryRun : ℕ → Event
  | 0 => ⟨0x04,0,takesAll⟩
  | 1 => ⟨0x05,0,takesAll⟩
  | 2 => ⟨hidEnter,0,takesOneByte⟩
  | 3 => ⟨hidEnter,0,takesAll⟩
  | _ => ⟨hidEscape,0,takesAll⟩

theorem retry_duplicates : ¬ ExactlyOnce retryRun := by
  have hsucc : (trace Session.step (some Session.initial) retryRun 3).any
      (fun q => sendSucceeds q.state (retryRun 3)) = true := by decide +kernel
  have hstream : (trace Session.step (some Session.initial) retryRun 4).map
      (fun q => (q.stream,q.sent)) = some ([0x61,0x61,0x62],[[0x61,0x62]]) := by decide +kernel
  intro h
  obtain ⟨q,hq,hs⟩ := (Option.any_eq_true _ _).mp hsucc
  obtain ⟨q',hq',heq⟩ := h 3 q hq hs
  rw [hq',Option.map_some] at hstream
  obtain ⟨h1,h2⟩ := Prod.mk.inj (Option.some.inj hstream)
  rw [h1,h2] at heq
  exact absurd heq (by decide)

end Keyboard
end EmbeddedSystems
