import EmbeddedSystems.Delivery
import EmbeddedSystems.FontLookup
import EmbeddedSystems.NetworkReads

/-! What one program writes to its socket another one reads. The line editor holds printable
characters only, so whatever keys are pressed and however the stream is cut on its way, the
reader never gets stuck on it, never looks outside the font and shows every byte once. -/

namespace EmbeddedSystems

namespace Keyboard

open CArray Clocked

theorem Session.step_printable {q q' : Session} (h : Inv q.state) {e : Event}
    (hq : ∀ c ∈ q.stream, Printable c) (hs : Session.step (some q) e = some q') :
    ∀ c ∈ q'.stream, Printable c := by
  obtain ⟨p,l,-,hl,-,-⟩ := h.nats
  rw [Session.step,Option.bind_some] at hs
  obtain ⟨⟨s',out⟩,hs',rfl⟩ := Option.map_eq_some_iff.mp hs
  have hwire : ∀ c ∈ out.wire, Printable c := by
    by_cases he : e.keycode = hidEnter ∧ 0 < l
    · obtain ⟨k,hk,hout,-⟩ := handleEnter_wire h hl he.2 he.1 hs'
      rw [hout]
      intro c hc
      obtain ⟨d,hd,rfl⟩ := List.mem_map.mp hc
      rw [List.mem_range] at hd
      exact h.printable (0+d) (by omega)
    · obtain ⟨hnil,-⟩ := idle_wire hs' fun h => he ⟨h.1,by omega⟩
      simp [hnil]
  intro c hc
  rcases List.mem_append.mp hc with hc | hc
  · exact hq c hc
  · exact hwire c hc

theorem session_printable (w : ℕ → Event) {t : ℕ} {q : Session}
    (h : trace Session.step (some Session.initial) w t = some q) :
    ∀ c ∈ q.stream, Printable c := by
  induction t generalizing q with
  | zero =>
    obtain rfl := Option.some.inj h
    simp [Session.initial]
  | succ t ih =>
    obtain ⟨q₀,hq₀,hinv,-⟩ := session_run w t
    rw [trace_succ,hq₀] at h
    exact Session.step_printable hinv (ih hq₀) h

end Keyboard

namespace MessageArea

open CArray Screen EmittingLoop Keyboard Clocked

theorem iter_chars {msg : List UInt8} {l l' : Loop} {acts : List Act} (h : ∀ c ∈ l.p, c ∈ msg)
    (hi : iter msg l = some (acts,l')) :
    (∀ c ∈ l'.p, c ∈ msg) ∧ ∀ act ∈ acts, ∀ p ∈ act.puts, p.2 = space ∨ p.2 ∈ msg := by
  obtain ⟨p,cursor⟩ := l
  have hclear : ∀ act ∈ [Act.clear], ∀ p ∈ act.puts, p.2 = space ∨ p.2 ∈ msg := by
    intro act hact p hp
    obtain rfl := List.mem_singleton.mp hact
    exact Or.inl (mem_clearMessageArea.mp hp).2
  cases p with
  | nil => exact absurd hi (by simp [iter])
  | cons c p =>
    have hp : ∀ c ∈ p, c ∈ msg := fun c hc => h c (List.mem_cons_of_mem _ hc)
    have hput : ∀ row col, ∀ act ∈ [Act.put (fbputchar c row col)], ∀ p ∈ act.puts,
        p.2 = space ∨ p.2 ∈ msg := by
      intro row col act hact p hp
      obtain rfl := List.mem_singleton.mp hact
      obtain rfl := List.mem_singleton.mp hp
      exact Or.inr (h c List.mem_cons_self)
    simp only [iter] at hi
    split_ifs at hi <;> obtain ⟨rfl,rfl⟩ := Prod.mk.inj (Option.some.inj hi)
    · exact ⟨fun c hc => hc,hclear⟩
    · exact ⟨hp,by simp⟩
    · exact ⟨fun c hc => hc,hclear⟩
    · exact ⟨hp,hput _ _⟩
    · exact ⟨hp,hput _ _⟩

theorem finish_puts (cursor : Cursor) :
    ∀ act ∈ (finish cursor).1, ∀ p ∈ act.puts, p.2 = space := by
  unfold finish
  dsimp only
  split_ifs
  · intro act hact p hp
    obtain rfl := List.mem_singleton.mp hact
    exact (mem_clearMessageArea.mp hp).2
  · simp
  · simp

theorem displayMessage_chars {fuel : ℕ} {msg : List UInt8} {cursor : Cursor} {d : Display}
    (h : displayMessage fuel msg cursor = some d) :
    ∀ p ∈ d.puts, p.2 = space ∨ p.2 ∈ msg := by
  obtain ⟨l,hloop,hf⟩ := displayMessage_eq_some.mp h
  obtain ⟨hruns,-⟩ := runs_of_loop hloop
  obtain ⟨-,hacts⟩ := hruns.invariant (P := fun l => ∀ c ∈ l.p, c ∈ msg)
    (fun l acts l' hl hi => iter_chars hl hi) (fun c hc => hc)
  have hfinal := finish_puts l.cursor
  rw [hf] at hfinal
  intro p hp
  obtain ⟨act,hact,hp⟩ := List.mem_flatMap.mp hp
  rcases List.mem_append.mp hact with hact | hact
  · exact hacts act hact p hp
  · exact Or.inl (hfinal act hact p hp)

theorem networkThreadF_calls {fuel : ℕ} {s s' : Reader} {reads : List Read}
    {shown : List (List UInt8 × Display)} (h : networkThreadF fuel s reads = some (shown,s')) :
    ∀ m ∈ shown, ∃ cursor, displayMessage fuel m.1 cursor = some m.2 := by
  induction reads generalizing s shown with
  | nil =>
    obtain ⟨rfl,-⟩ := Prod.mk.inj (Option.some.inj h)
    simp
  | cons r reads ih =>
    by_cases hn : r.n > 0
    · cases hr : receive s.recvBuf r with
      | none => simp [networkThreadF,hn,hr] at h
      | some m =>
        obtain ⟨msg,recvBuf⟩ := m
        rw [networkThreadF_data hn hr] at h
        obtain ⟨d,hd,h⟩ := Option.bind_eq_some_iff.mp h
        obtain ⟨⟨shown',t⟩,ho,he⟩ := Option.map_eq_some_iff.mp h
        obtain ⟨rfl,rfl⟩ := Prod.mk.inj he
        intro m hm
        rcases List.mem_cons.mp hm with rfl | hm
        · exact ⟨s.cursor,hd⟩
        · exact ih ho m hm
    · rw [networkThreadF_stop hn] at h
      obtain ⟨rfl,-⟩ := Prod.mk.inj (Option.some.inj h)
      simp

theorem plain_of_printable {c : UInt8} (h : Printable c) :
    c ≠ newline ∧ c ≠ 0 ∧ c.toNat < 128 := by
  have hlo := UInt8.le_iff_toNat_le.mp h.1
  have hhi := UInt8.le_iff_toNat_le.mp h.2
  have hnl : newline.toNat = 10 := rfl
  have hlo' : (0x20 : UInt8).toNat = 32 := rfl
  have hhi' : (0x7e : UInt8).toNat = 126 := rfl
  refine ⟨?_,?_,by omega⟩
  · rintro rfl
    omega
  · rintro rfl
    exact absurd hlo (by decide)

/-- Two programs on one stream. For every sequence of key presses on the one side, with any
results of `write`, and every way the stream is cut into reads on the other side, at any reachable
screen and with anything in the buffer: the reader gets through and shows each read as one string,
so that these together are the stream, and all its glyphs are in the font. If no send has broken
off, they are together the lines that were sent; where one line ends and the next begins is not in
the stream. -/
theorem peer_shows_stream (w : ℕ → Event) (t : ℕ) :
    ∃ q, trace Session.step (some Session.initial) w t = some q ∧
      ∀ (a : Area) (recvBuf : Fin bufferSize → UInt8) (reads : List Read), Reached a →
        Cut q.stream reads → ∃ fuel shown s,
          networkThreadF fuel ⟨recvBuf,a.cursor⟩ reads = some (shown,s) ∧
          shown.map Prod.fst = reads.map Read.bytes ∧
          (shown.map Prod.fst).flatten = q.stream ∧
          (∀ signed, ∀ m ∈ shown, ∀ p ∈ m.2.puts, InFont signed p.2) ∧
          ((∀ i < t, ¬BreaksOff (lineAt w i).length (w i)) →
            (shown.map Prod.fst).flatten = q.sent.flatten) := by
  obtain ⟨q,hq,-,-,hsent⟩ := session_run w t
  refine ⟨q,hq,?_⟩
  intro a recvBuf reads ha hcut
  have hprint := session_printable w hq
  have hbytes : ∀ r ∈ reads, ∀ c ∈ r.bytes, Printable c := by
    intro r hr c hc
    refine hprint c ?_
    rw [← hcut.stream_eq]
    exact List.mem_flatMap.mpr ⟨r,hr,hc⟩
  have hshort : ∀ r ∈ received reads, rowBreaks r.bytes ≤ 20 := by
    intro r hr
    rw [hcut.received_eq] at hr
    have hcount : r.bytes.count newline = 0 := by
      rw [List.count_eq_zero]
      exact fun h => (plain_of_printable (hbytes r hr newline h)).1 rfl
    obtain ⟨hn,-,hle⟩ := hcut.count r hr
    have hlen : r.bytes.length ≤ 127 := by
      simp only [bufferSize] at hle
      omega
    have hrows := rowBreaks_le_count hlen
    omega
  obtain ⟨fuel,⟨shown,s⟩,ho⟩ :=
    (networkThreadF_returns_iff ha.areaInv recvBuf hcut.ok).mpr hshort
  obtain ⟨hmap,-⟩ := networkThreadF_shown ha hcut.ok ho
  have hnul : (0 : UInt8) ∉ reads.flatMap Read.bytes := by
    rw [hcut.stream_eq]
    exact fun h => (plain_of_printable (hprint 0 h)).2.1 rfl
  rw [hcut.received_eq,map_text_eq hnul] at hmap
  have hstream : (shown.map Prod.fst).flatten = q.stream := by
    rw [hmap]
    exact hcut.stream_eq
  refine ⟨fuel,shown,s,ho,hmap,hstream,?_,?_⟩
  · intro signed m hm p hp
    rw [inFont_iff]
    obtain ⟨cursor,hd⟩ := networkThreadF_calls ho m hm
    rcases displayMessage_chars hd p hp with hsp | hmem
    · rw [hsp]
      decide
    · have hin : m.1 ∈ reads.map Read.bytes := by
        rw [← hmap]
        exact List.mem_map_of_mem hm
      obtain ⟨r,hr,hre⟩ := List.mem_map.mp hin
      rw [← hre] at hmem
      exact (plain_of_printable (hbytes r hr p.2 hmem)).2.2
  · intro hnone
    rcases hsent with ⟨-,heq⟩ | ⟨⟨i,hi,hb⟩,-⟩
    · rw [hstream,heq]
    · exact absurd hb (hnone i hi)

theorem peer_shows_stream_retry : ∃ q reads,
    trace Session.step (some Session.initial) retryRun 4 = some q ∧ Cut q.stream reads ∧
      ∃ fuel shown s, networkThreadF fuel ⟨fun _ => 0x7a,home⟩ reads = some (shown,s) ∧
        (shown.map Prod.fst).flatten = q.stream := by
  obtain ⟨q,hq,hread⟩ := peer_shows_stream retryRun 4
  obtain ⟨reads,hcut⟩ := Cut.exists_bytes q.stream
  obtain ⟨fuel,shown,s,ho,-,hstream,-⟩ :=
    hread ⟨fbclear,home,[]⟩ (fun _ => 0x7a) reads Reached.start hcut
  exact ⟨q,reads,hq,hcut,fuel,shown,s,ho,hstream⟩

end MessageArea
end EmbeddedSystems
