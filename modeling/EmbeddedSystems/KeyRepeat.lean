import EmbeddedSystems.MainLoop

/-! The repeat state is one keycode, its modifiers and the time of the next repeat. `Tracks` ties it
to the whole history of packets: the key is still the first one of the latest packet, it has been
since a packet whose delay `nextRepeatMs` respects, and no earlier repeat is too recent for it. -/

namespace EmbeddedSystems
namespace MainLoop

def Holds (p : Packet) (k : Key) : Prop := heldKeycode p = k.keycode ∧ p.modifiers = k.modifiers

/-- Some complete packet was read at `T₀` with `T₀ + 500 ≤ T`, and it and every complete packet
since hold the key. -/
def HeldSince (its : List Iteration) (k : Key) (T : ℕ) : Prop :=
  ∃ pre it post, its = pre ++ it :: post ∧ it.complete = true ∧ it.packetClock+initialDelay ≤ T ∧
    ∀ x ∈ it :: post, x.complete = true → Holds x.packet k

def clocks (its : List Iteration) : List ℕ := its.flatMap fun it => [it.packetClock,it.idleClock]

def repeatTimes (its : List Iteration) : List ℕ :=
  (calls its).flatMap fun c => c.repeats.map Prod.snd

def Loop.key (s : Loop) : Key := ⟨s.repeatKeycode,s.repeatModifiers⟩

/-- The repeat state after the iterations `its`, with the repeats at the times `past`. -/
structure Tracks (its : List Iteration) (past : List ℕ) (s : Loop) : Prop where
  last : s.repeatKeycode ≠ 0 → Holds (lastPacket its) s.key
  since : s.repeatKeycode ≠ 0 → HeldSince its s.key s.nextRepeatMs
  gap : s.repeatKeycode ≠ 0 → ∀ T ∈ past, T+interval ≤ s.nextRepeatMs

/-- A repeat of `c.1` at the time `c.2`, after the repeats at the times `past`. -/
structure Justified (its : List Iteration) (past : List ℕ) (c : Key × ℕ) : Prop where
  nonzero : c.1.keycode ≠ 0
  repeatable : isRepeatableKey c.1.keycode = true
  last : Holds (lastPacket its) c.1
  since : HeldSince its c.1 c.2
  gap : ∀ T ∈ past, T+interval ≤ c.2

theorem HeldSince.mono {its : List Iteration} {k : Key} {T T' : ℕ} (h : HeldSince its k T)
    (hT : T ≤ T') : HeldSince its k T' := by
  obtain ⟨pre,it,post,he,hc,ht,hall⟩ := h
  exact ⟨pre,it,post,he,hc,ht.trans hT,hall⟩

theorem HeldSince.concat {its : List Iteration} {k : Key} {T : ℕ} (h : HeldSince its k T)
    {it : Iteration} (hit : it.complete = true → Holds it.packet k) :
    HeldSince (its ++ [it]) k T := by
  obtain ⟨pre,it₀,post,rfl,hc,ht,hall⟩ := h
  refine ⟨pre,it₀,post ++ [it],by simp,hc,ht,?_⟩
  intro x hx hxc
  rw [← List.cons_append,List.mem_append,List.mem_singleton] at hx
  rcases hx with hx | rfl
  · exact hall x hx hxc
  · exact hit hxc

theorem heldSince_self (its : List Iteration) {it : Iteration} {k : Key} (hc : it.complete = true)
    (hk : Holds it.packet k) : HeldSince (its ++ [it]) k (it.packetClock+initialDelay) := by
  refine ⟨its,it,[],rfl,hc,le_rfl,?_⟩
  intro x hx _
  rw [List.mem_singleton.mp hx]
  exact hk

theorem Tracks.fire {its : List Iteration} {past : List ℕ} {s : Loop} (h : Tracks its past s)
    (h0 : s.repeatKeycode ≠ 0) (hr : isRepeatableKey s.repeatKeycode = true) {now : ℕ}
    (hnow : s.nextRepeatMs ≤ now) (hb : now < 2^64-500) :
    Justified its past (s.key,now) ∧
      Tracks its (past ++ [now]) { s with nextRepeatMs := (now+interval) % 2^64 } := by
  have hnext : (now+interval) % 2^64 = now+interval := by
    unfold interval
    omega
  refine ⟨⟨h0,hr,h.last h0,(h.since h0).mono hnow,?_⟩,?_⟩
  · intro T hT
    exact (h.gap h0 T hT).trans hnow
  · rw [hnext]
    refine ⟨h.last,fun _ => (h.since h0).mono ?_,?_⟩
    · show s.nextRepeatMs ≤ now+interval
      omega
    · intro _ T hT
      rcases List.mem_append.mp hT with hT | hT
      · have hg := h.gap h0 T hT
        show T+interval ≤ now+interval
        omega
      · rw [List.mem_singleton.mp hT]

theorem Tracks.concat {its : List Iteration} {past : List ℕ} {s : Loop} (h : Tracks its past s)
    {it : Iteration} (hit : it.complete = true → s.repeatKeycode ≠ 0 → Holds it.packet s.key) :
    Tracks (its ++ [it]) past s where
  last := by
    intro h0
    rw [lastPacket_concat]
    split_ifs with hc
    · exact hit hc h0
    · exact h.last h0
  since := fun h0 => (h.since h0).concat fun hc => hit hc h0
  gap := h.gap

def AllJustified (its : List Iteration) : List ℕ → List (Key × ℕ) → Prop
  | _, [] => True
  | past, c :: cs => Justified its past c ∧ AllJustified its (past ++ [c.2]) cs

theorem AllJustified.append {its : List Iteration} {past : List ℕ} {cs cs' : List (Key × ℕ)}
    (h : AllJustified its past cs) (h' : AllJustified its (past ++ cs.map Prod.snd) cs') :
    AllJustified its past (cs ++ cs') := by
  induction cs generalizing past with
  | nil => simpa using h'
  | cons c cs ih => exact ⟨h.1,ih h.2 (by simpa using h')⟩

theorem AllJustified.split {its : List Iteration} {past : List ℕ} {before after : List (Key × ℕ)}
    {c : Key × ℕ} (h : AllJustified its past (before ++ c :: after)) :
    Justified its (past ++ before.map Prod.snd) c := by
  induction before generalizing past with
  | nil => simpa using h.1
  | cons b before ih => simpa using ih h.2

section Step

variable {its : List Iteration} {past : List ℕ} {s : Loop} (h : Tracks its past s)

include h

theorem Tracks.packetRepeat {it : Iteration} (hc : it.complete = true)
    (hpast : ∀ T ∈ past, T ≤ it.packetClock) (hb : it.packetClock < 2^64-500) :
    let r := MainLoop.packetRepeat s it.packet it.packetClock
    AllJustified (its ++ [it]) past r.2 ∧ Tracks (its ++ [it]) (past ++ r.2.map Prod.snd) r.1 := by
  intro r
  have hlast : lastPacket (its ++ [it]) = it.packet := by rw [lastPacket_concat,if_pos hc]
  rcases packetRepeat_cases s it.packet it.packetClock with
    ⟨-,he⟩ | ⟨h0,-,he⟩ | ⟨h0,hk,hm,hrep,hnow,he⟩ | ⟨-,hk,hm,he⟩
  · rw [show r = _ from he]
    refine ⟨trivial,?_⟩
    constructor <;> exact fun h0 => absurd rfl h0
  · rw [show r = _ from he]
    have hnext : (it.packetClock+initialDelay) % 2^64 = it.packetClock+initialDelay := by
      unfold initialDelay
      omega
    rw [hnext]
    refine ⟨trivial,?_,?_,?_⟩
    · intro _
      rw [hlast]
      exact ⟨rfl,rfl⟩
    · exact fun _ => heldSince_self its hc ⟨rfl,rfl⟩
    · intro _ T hT
      have hle := hpast T (by simpa using hT)
      show T+interval ≤ it.packetClock+initialDelay
      unfold interval initialDelay
      omega
  · rw [show r = _ from he]
    have hkey : (⟨heldKeycode it.packet,it.packet.modifiers⟩ : Key) = s.key := by
      rw [hk,hm]
      rfl
    have ht : Tracks (its ++ [it]) past s := h.concat fun _ _ => ⟨hk,hm⟩
    rw [hk] at h0 hrep
    obtain ⟨hj,ht'⟩ := ht.fire h0 hrep hnow hb
    rw [hkey]
    exact ⟨⟨hj,trivial⟩,ht'⟩
  · rw [show r = _ from he]
    have ht : Tracks (its ++ [it]) past s := h.concat fun _ _ => ⟨hk,hm⟩
    exact ⟨trivial,by simpa using ht⟩

theorem Tracks.idleRepeat {now : ℕ} (hb : now < 2^64-500) :
    let r := MainLoop.idleRepeat s now
    AllJustified its past r.2 ∧ Tracks its (past ++ r.2.map Prod.snd) r.1 := by
  intro r
  rcases idleRepeat_cases s now with ⟨h0,hrep,hnow,he⟩ | he
  · rw [show r = _ from he]
    obtain ⟨hj,ht⟩ := h.fire h0 hrep hnow hb
    exact ⟨⟨hj,trivial⟩,ht⟩
  · rw [show r = _ from he]
    exact ⟨trivial,by simpa using h⟩

theorem Tracks.packetBranch {it : Iteration} (hpast : ∀ T ∈ past, T ≤ it.packetClock)
    (hb : it.packetClock < 2^64-500) :
    let r := MainLoop.packetBranch s it
    AllJustified (its ++ [it]) past r.2.repeats ∧
      Tracks (its ++ [it]) (past ++ r.2.repeats.map Prod.snd) r.1 := by
  intro r
  cases hc : it.complete with
  | true =>
    rw [show r = _ from packetBranch_complete hc]
    obtain ⟨hj,ht⟩ := h.packetRepeat hc hpast hb
    exact ⟨hj,ht.last,ht.since,ht.gap⟩
  | false =>
    rw [show r = _ from packetBranch_incomplete hc]
    refine ⟨trivial,?_⟩
    have hcontra : it.complete = true → s.repeatKeycode ≠ 0 → Holds it.packet s.key := by
      intro hc'
      rw [hc] at hc'
      exact absurd hc' Bool.false_ne_true
    simpa using h.concat hcontra

/-- One iteration makes only justified repeats and keeps track of the key. -/
theorem Tracks.iterate {it : Iteration} (hpast : ∀ T ∈ past, T ≤ it.packetClock)
    (hb : it.packetClock < 2^64-500) (hb' : it.idleClock < 2^64-500) :
    let r := MainLoop.iterate s it
    AllJustified (its ++ [it]) past r.2.repeats ∧
      Tracks (its ++ [it]) (past ++ r.2.repeats.map Prod.snd) r.1 := by
  intro r
  obtain ⟨hj,ht⟩ := h.packetBranch hpast hb
  obtain ⟨hj',ht'⟩ := ht.idleRepeat hb'
  refine ⟨hj.append hj',?_⟩
  rw [show r.2.repeats = _ from iterate_repeats s it,List.map_append,← List.append_assoc]
  exact ht'

end Step

section Run

theorem packetRepeat_times {s : Loop} {p : Packet} {now : ℕ} {c : Key × ℕ}
    (h : c ∈ (packetRepeat s p now).2) : c.2 = now := by
  rcases packetRepeat_cases s p now with ⟨-,he⟩ | ⟨-,-,he⟩ | ⟨-,-,-,-,-,he⟩ | ⟨-,-,-,he⟩
  · simp [he] at h
  · simp [he] at h
  · rw [he,List.mem_singleton] at h
    rw [h]
  · simp [he] at h

theorem idleRepeat_times {s : Loop} {now : ℕ} {c : Key × ℕ} (h : c ∈ (idleRepeat s now).2) :
    c.2 = now := by
  rcases idleRepeat_cases s now with ⟨-,-,-,he⟩ | he
  · rw [he,List.mem_singleton] at h
    rw [h]
  · simp [he] at h

theorem iterate_times {s : Loop} {it : Iteration} {c : Key × ℕ}
    (h : c ∈ (iterate s it).2.repeats) : c.2 = it.packetClock ∨ c.2 = it.idleClock := by
  rcases mem_iterate_repeats h with hp | hi
  · exact Or.inl (packetRepeat_times hp)
  · exact Or.inr (idleRepeat_times hi)

theorem repeatTimes_concat (its : List Iteration) (it : Iteration) :
    repeatTimes (its ++ [it]) =
      repeatTimes its ++ (iterate (after its) it).2.repeats.map Prod.snd := by
  simp [repeatTimes,calls_concat]

theorem clocks_concat (its : List Iteration) (it : Iteration) :
    clocks (its ++ [it]) = clocks its ++ [it.packetClock,it.idleClock] := by
  simp [clocks]

theorem mem_clocks_of_repeat {its : List Iteration} {T : ℕ} (h : T ∈ repeatTimes its) :
    T ∈ clocks its := by
  induction its using List.reverseRecOn with
  | nil => exact absurd h (by simp [repeatTimes,calls,callsFrom])
  | append_singleton its it ih =>
    rw [repeatTimes_concat,List.mem_append] at h
    rw [clocks_concat,List.mem_append]
    rcases h with h | h
    · exact Or.inl (ih h)
    · obtain ⟨c,hc,rfl⟩ := List.mem_map.mp h
      rcases iterate_times hc with ht | ht
      · exact Or.inr (by simp [ht])
      · exact Or.inr (by simp [ht])

theorem tracks_start : Tracks [] [] start := by
  constructor <;> exact fun h0 => absurd rfl h0

theorem tracks_run {its : List Iteration} (hmono : (clocks its).Pairwise (· ≤ ·))
    (hb : ∀ T ∈ clocks its, T < 2^64-500) : Tracks its (repeatTimes its) (after its) := by
  induction its using List.reverseRecOn with
  | nil => exact tracks_start
  | append_singleton its it ih =>
    rw [clocks_concat] at hmono hb
    obtain ⟨hmono',-,hle⟩ := List.pairwise_append.mp hmono
    have ht := ih hmono' fun T hT => hb T (List.mem_append_left _ hT)
    have hpast : ∀ T ∈ repeatTimes its, T ≤ it.packetClock :=
      fun T hT => hle T (mem_clocks_of_repeat hT) _ (by simp)
    rw [after_concat,repeatTimes_concat]
    exact (ht.iterate hpast (hb _ (by simp)) (hb _ (by simp))).2

/-- Every repeat of every run is justified: the key is repeatable, it is the first key down in the
latest complete packet and has been since a packet read at least 500 ms earlier, with the same
modifiers, and all repeats before it are at least 80 ms older. -/
theorem repeats_justified {its : List Iteration} (hmono : (clocks its).Pairwise (· ≤ ·))
    (hb : ∀ T ∈ clocks its, T < 2^64-500) {pre post : List Iteration} {it : Iteration}
    (hits : its = pre ++ it :: post) {before later : List (Key × ℕ)} {k : Key} {T : ℕ}
    (hcall : (iterate (after pre) it).2.repeats = before ++ (k,T) :: later) :
    k.keycode ≠ 0 ∧ isRepeatableKey k.keycode = true ∧
    heldKeycode (lastPacket (pre ++ [it])) = k.keycode ∧
    (lastPacket (pre ++ [it])).modifiers = k.modifiers ∧
    (∃ pre₀ it₀ post₀, pre ++ [it] = pre₀ ++ it₀ :: post₀ ∧ it₀.complete = true ∧
      it₀.packetClock+500 ≤ T ∧ ∀ x ∈ it₀ :: post₀, x.complete = true →
        heldKeycode x.packet = k.keycode ∧ x.packet.modifiers = k.modifiers) ∧
    ∀ T' ∈ repeatTimes pre ++ before.map Prod.snd, T'+80 ≤ T := by
  have hclocks : clocks its = clocks pre ++ [it.packetClock,it.idleClock] ++ clocks post := by
    rw [hits]
    simp [clocks]
  rw [hclocks] at hmono hb
  obtain ⟨hmono',-,-⟩ := List.pairwise_append.mp hmono
  obtain ⟨hpre,-,hle⟩ := List.pairwise_append.mp hmono'
  have ht := tracks_run hpre fun T hT => hb T (by simp [hT])
  have hpast : ∀ T ∈ repeatTimes pre, T ≤ it.packetClock :=
    fun T hT => hle T (mem_clocks_of_repeat hT) _ (by simp)
  obtain ⟨hj,-⟩ := ht.iterate hpast (hb _ (by simp)) (hb _ (by simp))
  rw [hcall] at hj
  have hcase := hj.split
  exact ⟨hcase.nonzero,hcase.repeatable,hcase.last.1,hcase.last.2,hcase.since,hcase.gap⟩

theorem repeats_justified_letter :
    let p : Packet := ⟨0,![0x04,0,0,0,0,0]⟩
    let it : Iteration := ⟨0,8,p,0,10⟩
    let it' : Iteration := ⟨0,8,p,600,600⟩
    (iterate (after [it]) it').2.repeats = [(⟨0x04,0⟩,600)] ∧
      ∃ pre₀ it₀ post₀, [it] ++ [it'] = pre₀ ++ it₀ :: post₀ ∧ it₀.complete = true ∧
        it₀.packetClock+500 ≤ 600 ∧ ∀ x ∈ it₀ :: post₀, x.complete = true →
          heldKeycode x.packet = 0x04 ∧ x.packet.modifiers = 0 := by
  intro p it it'
  have hcall : (iterate (after [it]) it').2.repeats = [] ++ (⟨0x04,0⟩,600) :: [] := by decide
  have hmono : (clocks [it,it']).Pairwise (· ≤ ·) := by decide
  have hb : ∀ T ∈ clocks [it,it'], T < 2^64-500 := by decide
  have hits : [it,it'] = [it] ++ it' :: [] := rfl
  exact ⟨hcall,(repeats_justified hmono hb hits hcall).2.2.2.2.1⟩

end Run

end MainLoop
end EmbeddedSystems
