import EmbeddedSystems.Delivery
import EmbeddedSystems.KeyPresses

/-! The USB packets of somebody who taps one key after the other are followed through the keyboard
loop, the translation tables, the input line and the send loop. A tap is a packet with one
keycode, any packets and timeouts while the key is down, and a packet without a keycode before the
repeat delay is over. -/

namespace EmbeddedSystems
namespace MainLoop

open Keyboard

/-- `handle_keypress` reaches the translation tables with this keycode. -/
def Ordinary (k : UInt8) : Prop :=
  k ≠ 0 ∧ k ≠ hidCapslock ∧ k ≠ hidBackspace ∧ k ≠ hidTab ∧ k ≠ hidEnter ∧ k ≠ hidEscape ∧
    k ≠ hidLeft ∧ k ≠ hidRight

instance ordinaryDecidable (k : UInt8) : Decidable (Ordinary k) :=
  inferInstanceAs (Decidable (_ ∧ _))

/-- `k` types `c`, by the translation tables. -/
def Strikes (caps : Bool) (c : UInt8) (k : Key) : Prop :=
  Ordinary k.keycode ∧ keycodeToAscii caps k.keycode k.modifiers = c

instance strikesDecidable (caps : Bool) (c : UInt8) (k : Key) : Decidable (Strikes caps c k) :=
  inferInstanceAs (Decidable (_ ∧ _))

/-- The keys type the line and then send it. -/
inductive Spells (caps : Bool) : List UInt8 → List Key → Prop
  | enter {k : Key} (h : k.keycode = hidEnter) : Spells caps [] [k]
  | cons {c : UInt8} {k : Key} {line : List UInt8} {ks : List Key} (hk : Strikes caps c k)
      (h : Spells caps line ks) : Spells caps (c :: line) (k :: ks)

theorem Spells.keycode_ne {caps : Bool} {line : List UInt8} {ks : List Key}
    (h : Spells caps line ks) : ∀ k ∈ ks, k.keycode ≠ 0 := by
  induction h with
  | enter h =>
    intro k hk
    rw [List.mem_singleton.mp hk,h]
    decide
  | cons hk _ ih => exact List.forall_mem_cons.mpr ⟨hk.1.1,ih⟩

theorem exists_strikes (caps : Bool) {c : UInt8} (hc : Printable c) : ∃ k, Strikes caps c k := by
  have hall : ∀ n < 256, Printable (UInt8.ofNat n) → ∃ k < 128, ∃ m ∈ [0,usbLshift],
      Strikes caps (UInt8.ofNat n) ⟨UInt8.ofNat k,m⟩ := by
    cases caps <;> decide +kernel
  have h := hall c.toNat c.toNat_lt
  rw [UInt8.ofNat_toNat] at h
  obtain ⟨k,-,m,-,hk⟩ := h hc
  exact ⟨_,hk⟩

/-- Every line of printable characters can be typed, with Caps Lock on or off. -/
theorem exists_spells (caps : Bool) {line : List UInt8} (hl : ∀ c ∈ line, Printable c) :
    ∃ ks, Spells caps line ks := by
  induction line with
  | nil => exact ⟨[⟨hidEnter,0⟩],.enter rfl⟩
  | cons c line ih =>
    rw [List.forall_mem_cons] at hl
    obtain ⟨k,hk⟩ := exists_strikes caps hl.1
    obtain ⟨ks,hks⟩ := ih hl.2
    exact ⟨k :: ks,.cons hk hks⟩

def Packet.Carries (p : Packet) (k : Key) : Prop :=
  p.slots.filter (· ≠ 0) = [k.keycode] ∧ p.modifiers = k.modifiers

def Packet.Empty (p : Packet) : Prop := p.slots.filter (· ≠ 0) = []

theorem newKeys_filter (previous p : Packet) : newKeys previous p =
    ((p.slots.filter (· ≠ 0)).filter (· ∉ previous.slots)).map fun k => ⟨k,p.modifiers⟩ := by
  rw [newKeys,List.filter_filter]
  congr 2
  funext k
  simp [Bool.and_comm]

theorem heldKeycode_eq (p : Packet) : heldKeycode p = (p.slots.filter (· ≠ 0)).head?.getD 0 := by
  rw [heldKeycode,List.head?_filter]

theorem Packet.Empty.not_mem {p : Packet} (h : p.Empty) {k : UInt8} (hk : k ≠ 0) :
    k ∉ p.slots := by
  intro hmem
  have hf : k ∈ p.slots.filter (· ≠ 0) := List.mem_filter.mpr ⟨hmem,by simpa using hk⟩
  rw [h] at hf
  exact absurd hf (by simp)

theorem Packet.Carries.mem {p : Packet} {k : Key} (h : p.Carries k) : k.keycode ∈ p.slots := by
  have hf : k.keycode ∈ p.slots.filter (· ≠ 0) := by
    rw [h.1]
    exact List.mem_singleton_self _
  exact (List.mem_filter.mp hf).1

/-- No key is down and none is set up for repeating. -/
structure Released (s : Loop) : Prop where
  empty : s.previousPacket.Empty
  repeatKeycode : s.repeatKeycode = 0

/-- `k` is down, and its first repeat is not before `deadline`. -/
structure Down (k : Key) (deadline : ℕ) (s : Loop) : Prop where
  carries : s.previousPacket.Carries k
  repeatKeycode : s.repeatKeycode = k.keycode
  repeatModifiers : s.repeatModifiers = k.modifiers
  nextRepeatMs : s.nextRepeatMs = deadline

theorem released_start : Released start := by
  refine ⟨?_,rfl⟩
  unfold Packet.Empty
  decide

def Quiet (it : Iteration) : Prop := it.complete = true → it.packet.Empty

/-- An iteration while `k` is down: no packet or one that has the key again, in time. -/
def Holding (k : Key) (deadline : ℕ) (it : Iteration) : Prop :=
  (it.complete = true → it.packet.Carries k ∧ it.packetClock < deadline) ∧ it.idleClock < deadline

section Iterations

variable {s : Loop} {it : Iteration} {k : Key} {deadline : ℕ}

theorem idleRepeat_of_zero (h : s.repeatKeycode = 0) (now : ℕ) : idleRepeat s now = (s,[]) := by
  rw [idleRepeat,if_neg (fun hr => hr.1 h)]

theorem idleRepeat_of_lt {now : ℕ} (h : now < s.nextRepeatMs) : idleRepeat s now = (s,[]) := by
  rcases idleRepeat_cases s now with ⟨-,-,hle,-⟩ | he
  · omega
  · exact he

theorem iterate_release (s : Loop) (hc : it.complete = true) (hp : it.packet.Empty) :
    Released (iterate s it).1 ∧ (iterate s it).2.keys = [] := by
  have hheld : heldKeycode it.packet = 0 := by rw [heldKeycode_eq,hp]; rfl
  have hnew : newKeys s.previousPacket it.packet = [] := by rw [newKeys_filter,hp]; rfl
  rw [iterate,packetBranch_complete hc,pressLoop_eq,hnew,packetRepeat,if_pos hheld]
  dsimp only
  rw [idleRepeat_of_zero rfl]
  exact ⟨⟨hp,rfl⟩,rfl⟩

theorem Released.quiet (h : Released s) (hq : Quiet it) :
    Released (iterate s it).1 ∧ (iterate s it).2.keys = [] := by
  cases hc : it.complete with
  | false =>
    have hb := packetBranch_incomplete (s := s) hc
    simp only [iterate,hb,idleRepeat_of_zero h.repeatKeycode]
    exact ⟨h,rfl⟩
  | true => exact iterate_release s hc (hq hc)

theorem Released.packet (h : Released s) (hk : k.keycode ≠ 0) (hc : it.complete = true)
    (hp : it.packet.Carries k) (hb : it.packetClock+500 < 2^64) :
    ∃ s', packetBranch s it = (s',⟨[k],[]⟩) ∧ Down k (it.packetClock+500) s' := by
  have hheld : heldKeycode it.packet = k.keycode := by rw [heldKeycode_eq,hp.1]; rfl
  have hnew : newKeys s.previousPacket it.packet = [k] := by
    have hno := h.empty.not_mem hk
    rw [newKeys_filter,hp.1,hp.2]
    simp [hno]
  have hmod : (it.packetClock+initialDelay) % 2^64 = it.packetClock+500 := Nat.mod_eq_of_lt hb
  have hrep : packetRepeat s it.packet it.packetClock =
      ({ s with
        repeatKeycode := k.keycode
        repeatModifiers := k.modifiers
        nextRepeatMs := it.packetClock+500 },[]) := by
    rw [packetRepeat,hheld,if_neg hk,h.repeatKeycode,if_pos (Or.inl hk),hp.2,hmod]
  rw [packetBranch_complete hc,pressLoop_eq,hnew,hrep]
  exact ⟨_,rfl,hp,rfl,rfl,rfl⟩

theorem Released.press (h : Released s) (hk : k.keycode ≠ 0) (hc : it.complete = true)
    (hp : it.packet.Carries k) (hb : it.packetClock+500 < 2^64)
    (hidle : it.idleClock < it.packetClock+500) :
    Down k (it.packetClock+500) (iterate s it).1 ∧ (iterate s it).2.keys = [k] := by
  obtain ⟨s',hbranch,hd⟩ := h.packet hk hc hp hb
  rw [iterate,hbranch]
  dsimp only
  rw [idleRepeat_of_lt (by rw [hd.nextRepeatMs]; exact hidle)]
  exact ⟨hd,rfl⟩

theorem Down.holding (h : Down k deadline s) (hk : k.keycode ≠ 0) (hh : Holding k deadline it) :
    Down k deadline (iterate s it).1 ∧ (iterate s it).2.keys = [] := by
  have hidle : ∀ s' : Loop, s'.nextRepeatMs = deadline → idleRepeat s' it.idleClock = (s',[]) := by
    intro s' he
    exact idleRepeat_of_lt (by rw [he]; exact hh.2)
  cases hc : it.complete with
  | false =>
    rw [iterate,packetBranch_incomplete hc]
    dsimp only
    rw [hidle s h.nextRepeatMs]
    exact ⟨h,rfl⟩
  | true =>
    obtain ⟨hp,hlt⟩ := hh.1 hc
    have hheld : heldKeycode it.packet = k.keycode := by rw [heldKeycode_eq,hp.1]; rfl
    have hnew : newKeys s.previousPacket it.packet = [] := by
      rw [newKeys_filter,hp.1]
      simp [h.carries.mem]
    have hrep : packetRepeat s it.packet it.packetClock = (s,[]) := by
      have hsame : ¬(k.keycode ≠ s.repeatKeycode ∨ it.packet.modifiers ≠ s.repeatModifiers) := by
        rw [h.repeatKeycode,h.repeatModifiers,hp.2]
        simp
      have hearly : ¬(isRepeatableKey k.keycode = true ∧ it.packetClock ≥ s.nextRepeatMs) := by
        rw [h.nextRepeatMs]
        omega
      rw [packetRepeat,hheld,if_neg hk,if_neg hsame,if_neg hearly]
    rw [iterate,packetBranch_complete hc,pressLoop_eq,hnew,hrep]
    dsimp only
    rw [hidle { s with previousPacket := it.packet } h.nextRepeatMs]
    exact ⟨⟨hp,h.repeatKeycode,h.repeatModifiers,h.nextRepeatMs⟩,rfl⟩

end Iterations

/-- One tap of `k`: down, held in time, up, and quiet after it. -/
structure Tap (k : Key) (down : Iteration) (held : List Iteration) (up : Iteration)
    (rest : List Iteration) : Prop where
  down_complete : down.complete = true
  down_carries : down.packet.Carries k
  clock : down.packetClock+500 < 2^64
  down_idle : down.idleClock < down.packetClock+500
  held : ∀ it ∈ held, Holding k (down.packetClock+500) it
  up_complete : up.complete = true
  up_empty : up.packet.Empty
  rest : ∀ it ∈ rest, Quiet it

inductive Types : List Key → List Iteration → Prop
  | quiet {its : List Iteration} (h : ∀ it ∈ its, Quiet it) : Types [] its
  | tap {k : Key} {ks : List Key} {down up : Iteration} {held rest its : List Iteration}
      (hk : k.keycode ≠ 0) (h : Tap k down held up rest) (hrest : Types ks its) :
      Types (k :: ks) (down :: held ++ up :: rest ++ its)

def handledFrom (s : Loop) (its : List Iteration) : List Key :=
  (callsFrom s its).flatMap Calls.keys

def afterFrom (s : Loop) (its : List Iteration) : Loop :=
  its.foldl (fun s it => (iterate s it).1) s

theorem handledFrom_cons (s : Loop) (it : Iteration) (its : List Iteration) :
    handledFrom s (it :: its) = (iterate s it).2.keys ++ handledFrom (iterate s it).1 its := rfl

theorem handledFrom_append (s : Loop) (its its' : List Iteration) :
    handledFrom s (its ++ its') = handledFrom s its ++ handledFrom (afterFrom s its) its' := by
  induction its generalizing s with
  | nil => rfl
  | cons it its ih =>
    rw [List.cons_append,handledFrom_cons,handledFrom_cons,ih,List.append_assoc]
    rfl

theorem afterFrom_append (s : Loop) (its its' : List Iteration) :
    afterFrom s (its ++ its') = afterFrom (afterFrom s its) its' := by
  unfold afterFrom
  rw [List.foldl_append]

theorem Released.rest {s : Loop} (h : Released s) {its : List Iteration}
    (hq : ∀ it ∈ its, Quiet it) : Released (afterFrom s its) ∧ handledFrom s its = [] := by
  induction its generalizing s with
  | nil => exact ⟨h,rfl⟩
  | cons it its ih =>
    obtain ⟨hr,hkeys⟩ := h.quiet (hq it (by simp))
    obtain ⟨hr',hnil⟩ := ih hr fun x hx => hq x (by simp [hx])
    rw [handledFrom_cons,hkeys,hnil]
    exact ⟨hr',rfl⟩

theorem Down.held {k : Key} {deadline : ℕ} {s : Loop} (h : Down k deadline s)
    (hk : k.keycode ≠ 0) {its : List Iteration} (hh : ∀ it ∈ its, Holding k deadline it) :
    Down k deadline (afterFrom s its) ∧ handledFrom s its = [] := by
  induction its generalizing s with
  | nil => exact ⟨h,rfl⟩
  | cons it its ih =>
    obtain ⟨hd,hkeys⟩ := h.holding hk (hh it (by simp))
    obtain ⟨hd',hnil⟩ := ih hd fun x hx => hh x (by simp [hx])
    rw [handledFrom_cons,hkeys,hnil]
    exact ⟨hd',rfl⟩

theorem Tap.run {k : Key} {down up : Iteration} {held rest : List Iteration} {s : Loop}
    (h : Tap k down held up rest) (hk : k.keycode ≠ 0) (hs : Released s) :
    Released (afterFrom s (down :: held ++ up :: rest)) ∧
      handledFrom s (down :: held ++ up :: rest) = [k] := by
  obtain ⟨hd,hdown⟩ := hs.press hk h.down_complete h.down_carries h.clock h.down_idle
  obtain ⟨-,hheld⟩ := hd.held hk h.held
  obtain ⟨hr,hup⟩ := iterate_release (afterFrom (iterate s down).1 held) h.up_complete h.up_empty
  obtain ⟨hr',hrest⟩ := hr.rest h.rest
  rw [List.cons_append,handledFrom_cons,hdown,handledFrom_append,hheld,handledFrom_cons,hup,hrest]
  refine ⟨?_,rfl⟩
  have hsplit : afterFrom s (down :: (held ++ up :: rest)) =
      afterFrom (afterFrom (iterate s down).1 held) (up :: rest) := by
    rw [← afterFrom_append]
    rfl
  rw [hsplit]
  exact hr'

/-- Whoever taps keys has each of them handled once, in order. -/
theorem Types.run {ks : List Key} {its : List Iteration} (h : Types ks its) {s : Loop}
    (hs : Released s) : Released (afterFrom s its) ∧ handledFrom s its = ks := by
  induction h generalizing s with
  | quiet hq => exact hs.rest hq
  | tap hk ht _ ih =>
    obtain ⟨hr,hkeys⟩ := ht.run hk hs
    obtain ⟨hr',hkeys'⟩ := ih hr
    rw [afterFrom_append,handledFrom_append,hkeys,hkeys']
    exact ⟨hr',rfl⟩

def tapped (k : Key) : List Iteration :=
  [⟨0,8,⟨k.modifiers,![k.keycode,0,0,0,0,0]⟩,0,0⟩,⟨0,8,Packet.zero,10,10⟩]

theorem types_tapped {ks : List Key} (h : ∀ k ∈ ks, k.keycode ≠ 0) :
    Types ks (ks.flatMap tapped) := by
  induction ks with
  | nil => exact Types.quiet (by simp)
  | cons k ks ih =>
    have hk := h k (by simp)
    have hslots : (⟨k.modifiers,![k.keycode,0,0,0,0,0]⟩ : Packet).slots =
        [k.keycode,0,0,0,0,0] := rfl
    have hcarries : (⟨k.modifiers,![k.keycode,0,0,0,0,0]⟩ : Packet).Carries k :=
      ⟨by rw [hslots]; simp [hk],rfl⟩
    have htap : Tap k ⟨0,8,⟨k.modifiers,![k.keycode,0,0,0,0,0]⟩,0,0⟩ []
        ⟨0,8,Packet.zero,10,10⟩ [] :=
      ⟨rfl,hcarries,by norm_num,by norm_num,by simp,rfl,released_start.empty,by simp⟩
    exact Types.tap hk htap (ih fun x hx => h x (by simp [hx]))

end MainLoop

namespace Keyboard

open CArray MainLoop

theorem contents_eq {s : State} (h : Inv s) :
    contents s = (editorOf s).line.before ++ (editorOf s).line.after := by
  obtain ⟨caps,b,p,l,rfl,hpl,-⟩ := h.exists_natCast
  rw [editorOf_natCast,slice_append b (Nat.zero_le p) hpl,contents,Int.toNat_natCast]

structure Holds (text : List UInt8) (caps : Bool) (s : State) : Prop where
  inv : Inv s
  editor : editorOf s = ⟨caps,⟨text,[]⟩⟩

theorem Holds.contents {text : List UInt8} {caps : Bool} {s : State} (h : Holds text caps s) :
    contents s = text := by
  rw [contents_eq h.inv,h.editor]
  exact List.append_nil text

theorem Holds.inputLength {text : List UInt8} {caps : Bool} {s : State} (h : Holds text caps s) :
    s.inputLength = text.length := by
  obtain ⟨p,l,-,hl,-⟩ := h.inv.nats
  have hlen := h.inv.line_length
  rw [h.editor,hl,Int.toNat_natCast] at hlen
  rw [hl,← hlen]
  simp [Zipper.length]

def Session.At (text : List UInt8) (caps : Bool) (stream : List UInt8) (sent : List (List UInt8))
    (q : Session) : Prop := Holds text caps q.state ∧ q.stream = stream ∧ q.sent = sent

/-- `write()` never fails; it may take as little as one byte at a time. -/
def Writer.Reliable (w : Writer) : Prop := ∀ i count, 0 < count → 0 < w.ret i count

theorem Writer.Reliable.accepts {w : Writer} (h : w.Reliable) (len : ℕ) : w.accepts len = true :=
  (w.acceptsFrom_iff len 0 len le_rfl).mpr fun _ hk => h _ _ hk

section Typing

variable {text : List UInt8} {caps : Bool} {stream : List UInt8} {sent : List (List UInt8)}
  {q : Session} {e : Event}

theorem press_strikes {c : UInt8} (hc : Printable c) (hlen : text.length < 255)
    (he : Strikes caps c ⟨e.keycode,e.modifiers⟩) :
    (⟨caps,⟨text,[]⟩⟩ : Editor).press e = ⟨caps,⟨text ++ [c],[]⟩⟩ := by
  obtain ⟨⟨-,hcaps,hback,htab,henter,hescape,hleft,hright⟩,hascii⟩ := he
  have hins : Zipper.insert 255 c ⟨text,[]⟩ = ⟨text ++ [c],[]⟩ := by
    rw [Zipper.insert,if_pos (by simpa [Zipper.length] using hlen)]
  have hadd : c ≠ 0 ∧ c ≠ 0x0a ∧ c ≠ 0x09 := by
    refine ⟨?_,?_,?_⟩
    all_goals
      rintro rfl
      exact absurd hc (by decide)
  rw [Editor.press,if_neg hcaps,if_neg hback,if_neg htab,if_neg henter,if_neg hescape,
    if_neg hleft,if_neg hright]
  dsimp only at hascii ⊢
  rw [hascii,if_pos hadd,hins]

theorem Session.At.strikes {c : UInt8} (h : q.At text caps stream sent) (hc : Printable c)
    (hlen : text.length < 255) (he : Strikes caps c ⟨e.keycode,e.modifiers⟩) :
    ∃ q', Session.step (some q) e = some q' ∧ q'.At (text ++ [c]) caps stream sent := by
  obtain ⟨hholds,rfl,rfl⟩ := h
  obtain ⟨s',out,hs',hinv,hed,-⟩ := handleKeypress_shows hholds.inv e
  have hne : e.keycode ≠ hidEnter := he.1.2.2.2.2.1
  obtain ⟨hwire,hns⟩ := idle_wire hs' fun hh => hne hh.1
  refine ⟨⟨s',q.stream ++ [],q.sent⟩,?_,⟨hinv,?_⟩,List.append_nil _,rfl⟩
  · rw [Session.step,Option.bind_some,hs',Option.map_some]
    simp only [hwire,hns,Bool.false_eq_true,if_false]
  · rw [hed,hholds.editor,press_strikes hc hlen he]

theorem Session.At.enter (h : q.At text caps stream sent) (hpos : 0 < text.length)
    (he : e.keycode = hidEnter) (hw : e.writer.Reliable) :
    ∃ q', Session.step (some q) e = some q' ∧ q'.At [] caps (stream ++ text) (sent ++ [text]) := by
  obtain ⟨hholds,rfl,rfl⟩ := h
  obtain ⟨s',out,hs',hinv,hed,-⟩ := handleKeypress_shows hholds.inv e
  obtain ⟨k,-,hwire,hall,-,hsucc⟩ := handleEnter_wire hholds.inv hholds.inputLength hpos he hs'
  have hacc := hw.accepts text.length
  obtain rfl : k = text.length := hall.mpr hacc
  have hwire' : out.wire = text := by
    have hcont := hholds.contents
    rw [Keyboard.contents,hholds.inputLength,Int.toNat_natCast] at hcont
    exact hwire.trans hcont
  refine ⟨⟨s',q.stream ++ text,q.sent ++ [text]⟩,?_,⟨hinv,?_⟩,rfl,rfl⟩
  · rw [Session.step,Option.bind_some,hs',Option.map_some]
    simp only [hwire',hsucc,hacc,if_true,hholds.contents]
  · rw [hed,hholds.editor,Editor.press,he,if_neg (by decide),if_neg (by decide),if_neg (by decide),
      if_pos rfl]
    dsimp only
    have hlen : (⟨text,[]⟩ : Zipper UInt8).length = text.length := by simp [Zipper.length]
    rw [hlen,hacc,if_pos rfl]
    rfl

/-- What can be typed and sent as one line. -/
structure Sendable (line : List UInt8) : Prop where
  printable : ∀ c ∈ line, Printable c
  pos : 0 < line.length
  le : line.length ≤ 255

/-- The rest of a line and Enter: the whole line goes out. -/
theorem Session.At.line {rest : List UInt8} {ks : List Key} (hk : Spells caps rest ks)
    {events : List Event} (he : (events.map fun e => (⟨e.keycode,e.modifiers⟩ : Key)) = ks)
    (hw : ∀ e ∈ events, e.writer.Reliable) (h : q.At text caps stream sent)
    (hl : Sendable (text ++ rest)) : ∃ q', events.foldl Session.step (some q) = some q' ∧
      q'.At [] caps (stream ++ (text ++ rest)) (sent ++ [text ++ rest]) := by
  induction hk generalizing q text events with
  | enter hk =>
    obtain ⟨e,events,rfl,rfl,hnil⟩ := List.map_eq_cons_iff.mp he
    obtain rfl : events = [] := List.map_eq_nil_iff.mp hnil
    rw [List.append_nil] at hl ⊢
    obtain ⟨q',hq',h'⟩ := h.enter hl.pos hk (hw e (by simp))
    exact ⟨q',by rw [List.foldl_cons,List.foldl_nil,hq'],h'⟩
  | @cons c k rest ks hk _ ih =>
    obtain ⟨e,events,rfl,rfl,hkeys⟩ := List.map_eq_cons_iff.mp he
    have hlen := hl.le
    rw [List.length_append,List.length_cons] at hlen
    obtain ⟨q₁,hq₁,h₁⟩ := h.strikes (hl.printable c (by simp)) (by omega) hk
    rw [List.append_cons] at hl ⊢
    obtain ⟨q',hq',h'⟩ := ih hkeys (fun x hx => hw x (by simp [hx])) h₁ hl
    exact ⟨q',by rw [List.foldl_cons,hq₁,hq'],h'⟩

theorem Session.At.lines {lines : List (List UInt8)} {kss : List (List Key)}
    (hk : List.Forall₂ (Spells caps) lines kss) {events : List Event}
    (he : (events.map fun e => (⟨e.keycode,e.modifiers⟩ : Key)) = kss.flatten)
    (hw : ∀ e ∈ events, e.writer.Reliable) (hl : ∀ line ∈ lines, Sendable line)
    (h : q.At [] caps stream sent) : ∃ q', events.foldl Session.step (some q) = some q' ∧
      q'.At [] caps (stream ++ lines.flatten) (sent ++ lines) := by
  induction hk generalizing q stream sent events with
  | nil =>
    obtain rfl : events = [] := List.map_eq_nil_iff.mp he
    exact ⟨q,rfl,by simpa using h⟩
  | @cons line ks lines kss hk _ ih =>
    rw [List.flatten_cons] at he
    obtain ⟨first,rest,rfl,hfirst,hrest⟩ := List.map_eq_append_iff.mp he
    rw [List.forall_mem_cons] at hl
    obtain ⟨q₁,hq₁,h₁⟩ := h.line hk hfirst (fun e hx => hw e (by simp [hx])) hl.1
    obtain ⟨q',hq',h'⟩ := ih hrest (fun e hx => hw e (by simp [hx])) hl.2 h₁
    refine ⟨q',by rw [List.foldl_append,hq₁,hq'],?_⟩
    simpa [List.append_assoc] using h'

end Typing

/-- Whoever taps keys that type some lines, each followed by Enter, has exactly these lines put on
the socket, from any state in which no key is down and the line is empty: whatever the clock reads
as long as no key is held for the repeat delay, whatever timeouts and repeated packets come between,
and however few bytes a `write()` takes at a time. -/
theorem typed_lines_sent {s : Loop} (hs : Released s) {q : Session} (hq : Inv q.state)
    (h0 : q.state.inputLength = 0) {lines : List (List UInt8)}
    (hl : ∀ line ∈ lines, Sendable line) {kss : List (List Key)}
    (hk : List.Forall₂ (Spells q.state.isCapsOn) lines kss) {its : List Iteration}
    (ht : Types kss.flatten its) {events : List Event}
    (he : (events.map fun e => (⟨e.keycode,e.modifiers⟩ : Key)) =
      (callsFrom s its).flatMap Calls.keys)
    (hw : ∀ e ∈ events, e.writer.Reliable) :
    ∃ q', events.foldl Session.step (some q) = some q' ∧
      q'.stream = q.stream ++ lines.flatten ∧ q'.sent = q.sent ++ lines ∧
      contents q'.state = [] := by
  have hkeys : (callsFrom s its).flatMap Calls.keys = _ := (ht.run hs).2
  have hempty : Holds [] q.state.isCapsOn q.state := by
    have hc : q.state.cursorPosition = 0 := by
      have h1 := hq.cursor_nonneg
      have h2 := hq.cursor_le
      omega
    refine ⟨hq,?_⟩
    simp [editorOf,h0,hc]
  have hat : q.At [] q.state.isCapsOn q.stream q.sent := ⟨hempty,rfl,rfl⟩
  obtain ⟨q',hq',hholds,hstream,hsent⟩ := hat.lines hk (he.trans hkeys) hw hl
  exact ⟨q',hq',hstream,hsent,hholds.contents⟩

theorem typed_lines_sent_hi :
    let keys : List Key := [⟨0x0b,usbRshift⟩,⟨0x0c,0⟩,⟨hidEnter,0⟩]
    ∃ q', (keys.map fun k => (⟨k.keycode,k.modifiers,takesAll⟩ : Event)).foldl Session.step
      (some Session.initial) = some q' ∧ q'.stream = [0x48,0x69] := by
  intro keys
  have hspells : Spells false [0x48,0x69] keys :=
    .cons (by decide +kernel) (.cons (by decide +kernel) (.enter rfl))
  have htypes : Types [keys].flatten (keys.flatMap tapped) := by
    rw [List.flatten_singleton]
    exact types_tapped hspells.keycode_ne
  have hline : ∀ line ∈ ([[0x48,0x69]] : List (List UInt8)), Sendable line := by
    intro line hl
    rw [List.mem_singleton.mp hl]
    exact ⟨by decide +kernel,by decide,by decide⟩
  have hevents : ((keys.map fun k => (⟨k.keycode,k.modifiers,takesAll⟩ : Event)).map
      fun e => (⟨e.keycode,e.modifiers⟩ : Key)) =
        (callsFrom start (keys.flatMap tapped)).flatMap Calls.keys := by
    refine Eq.trans ?_ (htypes.run released_start).2.symm
    rw [List.flatten_singleton,List.map_map]
    exact List.map_id keys
  have hreliable : ∀ e ∈ keys.map fun k => (⟨k.keycode,k.modifiers,takesAll⟩ : Event),
      e.writer.Reliable := by
    intro e hx
    obtain ⟨k,-,rfl⟩ := List.mem_map.mp hx
    exact fun _ count hc => Int.natCast_pos.mpr hc
  obtain ⟨q',hq',hstream,-⟩ := typed_lines_sent (q := Session.initial) released_start inv_initial
    rfl hline (.cons hspells .nil) htypes hevents hreliable
  exact ⟨q',hq',hstream⟩

end Keyboard
end EmbeddedSystems
