import EmbeddedSystems.MessageVisible

/-! `network_thread_f` reads up to 127 bytes at a time into a buffer that it never clears, puts a
NUL behind them and shows the string. TCP may cut the stream of the server anywhere, so every
result here is about all ways to cut a stream into reads. -/

namespace EmbeddedSystems

namespace CArray

section Fill

variable {n : ℕ} {β : Type*}

def fill (a : Fin n → β) (i : ℕ) : List β → Option (Fin n → β)
  | [] => some a
  | c::cs => do
    let a ← set a i c
    fill a (i+1) cs

theorem fill_writes [Inhabited β] (a : Fin n → β) {i : ℕ} {cs : List β} (h : i+cs.length ≤ n) :
    ∃ a', fill a i cs = some a' ∧ Writes a a' i cs.length fun d => cs.getD d default := by
  induction cs generalizing a i with
  | nil => exact ⟨a,rfl,Writes.nil a i _⟩
  | cons c cs ih =>
    rw [List.length_cons] at h
    obtain ⟨a₁,h₁,hw₁⟩ := set_writes a (by omega : i < n) c
    obtain ⟨a₂,h₂,hw₂⟩ := ih a₁ (i := i+1) (by omega)
    refine ⟨a₂,?_,?_⟩
    · rw [fill,h₁]
      exact h₂
    · rw [List.length_cons,Nat.add_comm cs.length 1]
      refine hw₁.append hw₂ ?_ ?_
      · intro d hd
        obtain rfl : d = 0 := by omega
        rfl
      · intro d _
        rw [Nat.add_comm 1 d,List.getD_cons_succ]

end Fill

end CArray

namespace MessageArea

open CArray Screen EmittingLoop

theorem cStringFrom_text {n : ℕ} {a : Fin n → UInt8} {i k : ℕ} {bs : List UInt8}
    (hn : i+bs.length < n) (hbs : ∀ d < bs.length, peek a (i+d) = bs.getD d 0)
    (h0 : peek a (i+bs.length) = 0) (hk : bs.length < k) :
    cStringFrom a k (i : ℤ) = some (text bs) := by
  induction bs generalizing i k with
  | nil =>
    obtain ⟨k,rfl⟩ := Nat.exists_eq_succ_of_ne_zero (by omega : k ≠ 0)
    rw [List.length_nil,Nat.add_zero] at h0
    simp [cStringFrom,get_eq_peek a (by omega : i < n),h0,text]
  | cons c bs ih =>
    obtain ⟨k,rfl⟩ := Nat.exists_eq_succ_of_ne_zero (by omega : k ≠ 0)
    rw [List.length_cons] at hn hbs h0 hk
    have hc : peek a i = c := hbs 0 (by omega)
    have hrest : cStringFrom a k ((i+1 : ℕ) : ℤ) = some (text bs) := by
      refine ih (by omega) ?_ ?_ (by omega)
      · intro d hd
        have hd' := hbs (d+1) (by omega)
        rwa [List.getD_cons_succ,show i+(d+1) = i+1+d by omega] at hd'
      · rwa [show i+1+bs.length = i+(bs.length+1) by omega]
    rw [Nat.cast_add,Nat.cast_one] at hrest
    rw [cStringFrom,get_eq_peek a (by omega : i < n),hc,text]
    by_cases h : c = 0
    · simp [h]
    · simp [h,hrest]

def bufferSize : ℕ := 128

/-- What `read` returns, and the bytes it has put at the start of the buffer. -/
structure Read where
  n : ℤ
  bytes : List UInt8

/-- `read` is asked for `BUFFER_SIZE - 1` bytes and returns how many it has stored. -/
def Read.Ok (r : Read) : Prop := 0 < r.n → r.n = r.bytes.length ∧ r.n ≤ bufferSize-1

def receive (recvBuf : Fin bufferSize → UInt8) (r : Read) :
    Option (List UInt8 × (Fin bufferSize → UInt8)) := do
  let recvBuf ← fill recvBuf 0 r.bytes
  let recvBuf ← set recvBuf r.n 0
  let msg ← cString recvBuf
  return (msg,recvBuf)

structure Reader where
  recvBuf : Fin bufferSize → UInt8
  cursor : Cursor

/-- `network_thread_f` on the results of its calls of `read`: what it has passed to
`display_message` with what that drew, and the state when the reads are used up or one of them
has ended the loop. -/
def networkThreadF (fuel : ℕ) (s : Reader) :
    List Read → Option (List (List UInt8 × Display) × Reader)
  | [] => some ([],s)
  | r::reads =>
    if r.n > 0 then do
      let (msg,recvBuf) ← receive s.recvBuf r
      let d ← displayMessage fuel msg s.cursor
      let (shown,s') ← networkThreadF fuel ⟨recvBuf,d.cursor⟩ reads
      return ((msg,d)::shown,s')
    else some ([],s)

def received (reads : List Read) : List Read := reads.takeWhile fun r => r.n > 0

/-- The string does not depend on what the buffer held before, and no store leaves the buffer. -/
theorem receive_eq (recvBuf : Fin bufferSize → UInt8) {r : Read} (hr : r.Ok) (hpos : r.n > 0) :
    ∃ recvBuf', receive recvBuf r = some (text r.bytes,recvBuf') := by
  obtain ⟨hn,hle⟩ := hr hpos
  have hlen : r.bytes.length < bufferSize := by
    simp only [bufferSize] at hle ⊢
    omega
  obtain ⟨a₁,h₁,hw₁⟩ := fill_writes recvBuf (by omega : 0+r.bytes.length ≤ bufferSize)
  obtain ⟨a₂,h₂,hw₂⟩ := set_writes a₁ hlen 0
  have hstr : cString a₂ = some (text r.bytes) := by
    refine cStringFrom_text (i := 0) (by omega) ?_ ?_ (by omega)
    · intro d hd
      rw [hw₂.outside (by omega),hw₁.inside hd]
      rfl
    · rw [Nat.zero_add]
      exact hw₂.inside (d := 0) (by omega)
  refine ⟨a₂,?_⟩
  rw [receive,h₁,hn]
  simp only [Option.bind_eq_bind,Option.bind_some,h₂,hstr]
  rfl

theorem text_text (bs : List UInt8) : text (text bs) = text bs := by
  induction bs with
  | nil => rfl
  | cons c bs ih =>
    by_cases h : c = 0
    · simp [text,h]
    · simp [text,h,ih]

theorem text_eq_self {bs : List UInt8} (h : (0 : UInt8) ∉ bs) : text bs = bs := by
  induction bs with
  | nil => rfl
  | cons c bs ih =>
    rw [List.mem_cons,not_or] at h
    rw [text,if_neg (Ne.symm h.1),ih h.2]

theorem map_text_eq {reads : List Read} (h : (0 : UInt8) ∉ reads.flatMap Read.bytes) :
    reads.map (fun r => text r.bytes) = reads.map Read.bytes := by
  apply List.map_congr_left
  intro r hr
  exact text_eq_self fun h0 => h (List.mem_flatMap.mpr ⟨r,hr,h0⟩)

theorem rowBreaks_text (bs : List UInt8) : rowBreaks (text bs) = rowBreaks bs := by
  rw [rowBreaks,rowBreaks,text_text]

theorem displayMessage_mono {fuel fuel' : ℕ} {msg : List UInt8} {cursor : Cursor} {d : Display}
    (h : displayMessage fuel msg cursor = some d) (hle : fuel ≤ fuel') :
    displayMessage fuel' msg cursor = some d := by
  obtain ⟨l,hloop,hf⟩ := displayMessage_eq_some.mp h
  exact displayMessage_eq_some.mpr ⟨l,loop_mono hloop hle,hf⟩

theorem AreaInv.displayMessage_short {a : Area} (ha : AreaInv a) {msg : List UInt8}
    (hshort : rowBreaks msg ≤ 20) : ∃ fuel d, displayMessage fuel msg a.cursor = some d := by
  obtain ⟨acts,l,hruns,hend,-⟩ := runs_result ha.length_le ha.grid_matches hshort
  obtain ⟨fuel,hfuel⟩ := hruns.loop hend
  refine ⟨fuel,⟨acts,(finish l.cursor).1,(finish l.cursor).2⟩,?_⟩
  rw [ha.cursor_eq]
  exact displayMessage_eq_some.mpr ⟨l,hfuel,rfl⟩

section Run

variable {fuel : ℕ} {s : Reader} {r : Read} {reads : List Read}

theorem networkThreadF_stop (hn : ¬r.n > 0) : networkThreadF fuel s (r::reads) = some ([],s) := by
  rw [networkThreadF,if_neg hn]

theorem networkThreadF_data {recvBuf : Fin bufferSize → UInt8} {msg : List UInt8} (hn : r.n > 0)
    (hr : receive s.recvBuf r = some (msg,recvBuf)) :
    networkThreadF fuel s (r::reads) = (displayMessage fuel msg s.cursor).bind fun d =>
      (networkThreadF fuel ⟨recvBuf,d.cursor⟩ reads).map fun o => ((msg,d)::o.1,o.2) := by
  rw [networkThreadF,if_pos hn,hr]
  simp only [Option.bind_eq_bind,Option.bind_some]
  cases displayMessage fuel msg s.cursor with
  | none => rfl
  | some d =>
    simp only [Option.bind_some]
    cases networkThreadF fuel ⟨recvBuf,d.cursor⟩ reads <;> rfl

theorem networkThreadF_mono {fuel' : ℕ} {o : List (List UInt8 × Display) × Reader}
    (h : networkThreadF fuel s reads = some o) (hle : fuel ≤ fuel') :
    networkThreadF fuel' s reads = some o := by
  induction reads generalizing s o with
  | nil => exact h
  | cons r reads ih =>
    by_cases hn : r.n > 0
    · cases hr : receive s.recvBuf r with
      | none => simp [networkThreadF,hn,hr] at h
      | some m =>
        obtain ⟨msg,recvBuf⟩ := m
        rw [networkThreadF_data hn hr] at h ⊢
        obtain ⟨d,hd,h⟩ := Option.bind_eq_some_iff.mp h
        obtain ⟨o',ho',rfl⟩ := Option.map_eq_some_iff.mp h
        rw [displayMessage_mono hd hle,Option.bind_some,ih ho',Option.map_some]
    · rw [networkThreadF_stop hn] at h ⊢
      exact h

end Run

/-- The thread gets through its reads exactly if each of them closes at most 20 rows. -/
theorem networkThreadF_returns_iff {a : Area} (ha : AreaInv a) (recvBuf : Fin bufferSize → UInt8)
    {reads : List Read} (hok : ∀ r ∈ reads, r.Ok) :
    (∃ fuel o, networkThreadF fuel ⟨recvBuf,a.cursor⟩ reads = some o) ↔
      ∀ r ∈ received reads, rowBreaks r.bytes ≤ 20 := by
  induction reads generalizing a recvBuf with
  | nil => simp [networkThreadF,received]
  | cons r reads ih =>
    by_cases hn : r.n > 0
    · obtain ⟨recvBuf',hr⟩ := receive_eq recvBuf (hok r List.mem_cons_self) hn
      have hok' : ∀ r ∈ reads, r.Ok := fun r h => hok r (List.mem_cons_of_mem _ h)
      have hrec : received (r::reads) = r::received reads := by simp [received,hn]
      rw [hrec,List.forall_mem_cons]
      constructor
      · rintro ⟨fuel,o,ho⟩
        rw [networkThreadF_data hn hr] at ho
        obtain ⟨d,hd,ho⟩ := Option.bind_eq_some_iff.mp ho
        obtain ⟨o',ho',-⟩ := Option.map_eq_some_iff.mp ho
        obtain ⟨l,hloop,-⟩ := displayMessage_eq_some.mp hd
        rw [ha.cursor_eq] at hloop
        have hshort := rowBreaks_le_of_loop ha.length_le hloop
        rw [rowBreaks_text] at hshort
        exact ⟨hshort,(ih (ha.show hd) recvBuf' hok').mp ⟨fuel,o',ho'⟩⟩
      · rintro ⟨hshort,hrest⟩
        rw [← rowBreaks_text] at hshort
        obtain ⟨fuel₁,d,hd⟩ := ha.displayMessage_short hshort
        obtain ⟨fuel₂,o,ho⟩ := (ih (ha.show hd) recvBuf' hok').mpr hrest
        have ho' := networkThreadF_mono ho (le_max_right fuel₁ fuel₂)
        refine ⟨max fuel₁ fuel₂,((text r.bytes,d)::o.1,o.2),?_⟩
        rw [networkThreadF_data hn hr,displayMessage_mono hd (le_max_left _ _),Option.bind_some]
        exact Option.map_eq_some_iff.mpr ⟨o,ho',rfl⟩
    · simp [networkThreadF_stop hn,received,hn]

theorem networkThreadF_shown {a : Area} (ha : Reached a) {recvBuf : Fin bufferSize → UInt8}
    {reads : List Read} (hok : ∀ r ∈ reads, r.Ok) {fuel : ℕ}
    {shown : List (List UInt8 × Display)} {s : Reader}
    (h : networkThreadF fuel ⟨recvBuf,a.cursor⟩ reads = some (shown,s)) :
    shown.map Prod.fst = (received reads).map (fun r => text r.bytes) ∧
      ∃ a', Reached a' ∧ a'.cursor = s.cursor ∧
        a'.grid = draw a.grid (shown.flatMap fun m => m.2.puts) := by
  induction reads generalizing a recvBuf shown with
  | nil =>
    obtain ⟨rfl,rfl⟩ := Prod.mk.inj (Option.some.inj h)
    exact ⟨rfl,a,ha,rfl,rfl⟩
  | cons r reads ih =>
    by_cases hn : r.n > 0
    · obtain ⟨recvBuf',hr⟩ := receive_eq recvBuf (hok r List.mem_cons_self) hn
      rw [networkThreadF_data hn hr] at h
      obtain ⟨d,hd,h⟩ := Option.bind_eq_some_iff.mp h
      obtain ⟨⟨shown',s'⟩,ho',he⟩ := Option.map_eq_some_iff.mp h
      obtain ⟨rfl,rfl⟩ := Prod.mk.inj he
      obtain ⟨hmap,a',ha',hcur,hgrid⟩ :=
        ih (Reached.call ha hd) (fun r h => hok r (List.mem_cons_of_mem _ h)) ho'
      refine ⟨?_,a',ha',hcur,?_⟩
      · simp [received,hn,hmap]
      · rw [hgrid,List.flatMap_cons,draw_append]
        rfl
    · rw [networkThreadF_stop hn] at h
      obtain ⟨rfl,rfl⟩ := Prod.mk.inj (Option.some.inj h)
      exact ⟨by simp [received,hn],a,ha,rfl,rfl⟩

/-- From every reachable screen and whatever the buffer holds, the network thread shows of every
read the bytes up to the first NUL, and gets back to `read` exactly if no read closes more than 20
rows. No store leaves the buffer, also for a read whose message is never drawn to its end. If the
server sends no NUL, the strings shown one after the other are the stream it has sent. -/
theorem reads_delivered {a : Area} (ha : Reached a) (recvBuf : Fin bufferSize → UInt8)
    {reads : List Read} (hok : ∀ r ∈ reads, r.Ok) :
    ((∃ fuel o, networkThreadF fuel ⟨recvBuf,a.cursor⟩ reads = some o) ↔
        ∀ r ∈ received reads, rowBreaks r.bytes ≤ 20) ∧
      (∀ r ∈ received reads, ∀ recvBuf,
        ∃ recvBuf', receive recvBuf r = some (text r.bytes,recvBuf')) ∧
      ∀ fuel shown s, networkThreadF fuel ⟨recvBuf,a.cursor⟩ reads = some (shown,s) →
        shown.map Prod.fst = (received reads).map (fun r => text r.bytes) ∧
        ((0 : UInt8) ∉ (received reads).flatMap Read.bytes →
          (shown.map Prod.fst).flatten = (received reads).flatMap Read.bytes) ∧
        ∃ a', Reached a' ∧ a'.cursor = s.cursor ∧
          a'.grid = draw a.grid (shown.flatMap fun m => m.2.puts) := by
  refine ⟨networkThreadF_returns_iff ha.areaInv recvBuf hok,?_,?_⟩
  · intro r hr recvBuf
    have hpos : r.n > 0 := by simpa using List.all_eq_true.mp List.all_takeWhile r hr
    exact receive_eq recvBuf (hok r (List.takeWhile_subset _ hr)) hpos
  · intro fuel shown s h
    obtain ⟨hmap,harea⟩ := networkThreadF_shown ha hok h
    refine ⟨hmap,?_,harea⟩
    intro hnul
    rw [hmap,map_text_eq hnul]
    rfl

theorem reads_delivered_hi : ∃ fuel shown s,
    networkThreadF fuel ⟨fun _ => 0x7a,home⟩ [⟨2,[0x68,0x69]⟩,⟨3,[0x61,0,0x62]⟩,⟨0,[]⟩] =
      some (shown,s) ∧ shown.map Prod.fst = [[0x68,0x69],[0x61]] := by
  have hok : ∀ r ∈ [(⟨2,[0x68,0x69]⟩ : Read),⟨3,[0x61,0,0x62]⟩,⟨0,[]⟩], r.Ok := by
    simp [Read.Ok,bufferSize]
  obtain ⟨hreturns,-,hshown⟩ := reads_delivered Reached.start (fun _ => 0x7a) hok
  obtain ⟨fuel,⟨shown,s⟩,ho⟩ := hreturns.mpr (by decide)
  exact ⟨fuel,shown,s,ho,(hshown fuel shown s ho).1⟩

/-- Reads of 1 to 127 bytes that make up the stream. -/
structure Cut (stream : List UInt8) (reads : List Read) : Prop where
  count : ∀ r ∈ reads, r.n = r.bytes.length ∧ 0 < r.n ∧ r.n ≤ bufferSize-1
  stream_eq : reads.flatMap Read.bytes = stream

namespace Cut

variable {stream stream' : List UInt8} {reads reads' : List Read}

theorem ok (h : Cut stream reads) : ∀ r ∈ reads, r.Ok :=
  fun r hr _ => ⟨(h.count r hr).1,(h.count r hr).2.2⟩

theorem received_eq (h : Cut stream reads) : received reads = reads := by
  have hpos : ∀ r ∈ reads, decide (r.n > 0) = true := fun r hr => decide_eq_true (h.count r hr).2.1
  have happend : (reads ++ []).takeWhile (fun r => decide (r.n > 0)) = reads ++ [] := by
    rw [List.takeWhile_append_of_pos hpos,List.takeWhile_nil]
  rwa [List.append_nil] at happend

theorem append (h : Cut stream reads) (h' : Cut stream' reads') :
    Cut (stream ++ stream') (reads ++ reads') := by
  refine ⟨?_,?_⟩
  · intro r hr
    rcases List.mem_append.mp hr with hr | hr
    · exact h.count r hr
    · exact h'.count r hr
  · rw [List.flatMap_append,h.stream_eq,h'.stream_eq]

theorem single {w : List UInt8} (hne : w ≠ []) (hw : w.length ≤ 127) : Cut w [⟨w.length,w⟩] := by
  have hpos := List.length_pos_iff.mpr hne
  refine ⟨?_,by simp⟩
  intro r hr
  obtain rfl := List.mem_singleton.mp hr
  have hsize : bufferSize = 128 := rfl
  refine ⟨rfl,?_,?_⟩
  · exact Int.natCast_pos.mpr hpos
  · rw [hsize]
    push_cast
    omega

theorem exists_bytes (stream : List UInt8) : ∃ reads, Cut stream reads := by
  induction stream with
  | nil => exact ⟨[],by simp,rfl⟩
  | cons c stream ih =>
    obtain ⟨reads,h⟩ := ih
    have hc : Cut [c] _ := single (by simp) (by simp)
    exact ⟨_,hc.append h⟩

end Cut

/-- A message closes at most one row for each newline and one for each 64 bytes. -/
theorem wrap_rows_le (cur cs : List UInt8) :
    (wrap cur cs).1.length ≤ cs.count newline+(cur.length+cs.length)/64 := by
  induction cs generalizing cur with
  | nil => simp [wrap]
  | cons c cs ih =>
    rw [wrap]
    split_ifs with hnl hlen
    · have hrest := ih []
      rw [hnl,List.count_cons_self]
      simp only [List.length_cons,List.length_nil] at hrest ⊢
      omega
    · have hrest := ih (cur ++ [c])
      rw [List.count_cons_of_ne hnl]
      simp only [List.length_append,List.length_cons,List.length_nil] at hrest ⊢
      rw [show cur.length+(cs.length+1) = cur.length+(0+1)+cs.length by omega]
      exact hrest
    · have hrest := ih [c]
      rw [List.count_cons_of_ne hnl]
      simp only [List.length_cons,List.length_nil] at hrest ⊢
      omega

theorem text_isPrefix_self (bs : List UInt8) : text bs <+: bs := by
  induction bs with
  | nil => exact List.prefix_rfl
  | cons c bs ih =>
    rw [text]
    split_ifs
    · exact ⟨_,List.nil_append _⟩
    · exact List.prefix_cons_iff.mpr (Or.inr ⟨_,rfl,ih⟩)

theorem rowBreaks_le_count {w : List UInt8} (hw : w.length ≤ 127) :
    rowBreaks w ≤ w.count newline+1 := by
  have hrows := wrap_rows_le [] (text w)
  have hcount := (text_isPrefix_self w).sublist.count_le newline
  have hlen := (text_isPrefix_self w).length_le
  rw [List.length_nil,Nat.zero_add] at hrows
  unfold rowBreaks
  omega

/-- No way to cut the stream stops the network thread for good exactly if no stretch of up to 127
bytes closes more than 20 rows. It is enough that no such stretch has more than 19 newlines. -/
theorem no_cut_hangs_iff {a : Area} (ha : Reached a) (recvBuf : Fin bufferSize → UInt8)
    (stream : List UInt8) :
    ((∀ reads, Cut stream reads →
        ∃ fuel o, networkThreadF fuel ⟨recvBuf,a.cursor⟩ reads = some o) ↔
      ∀ w, w <:+: stream → w.length ≤ 127 → rowBreaks w ≤ 20) ∧
    ((∀ w, w <:+: stream → w.length ≤ 127 → w.count newline ≤ 19) →
      ∀ reads, Cut stream reads →
        ∃ fuel o, networkThreadF fuel ⟨recvBuf,a.cursor⟩ reads = some o) := by
  have hcut : ∀ reads, Cut stream reads →
      ((∃ fuel o, networkThreadF fuel ⟨recvBuf,a.cursor⟩ reads = some o) ↔
        ∀ r ∈ reads, rowBreaks r.bytes ≤ 20) := by
    intro reads h
    have hiff := networkThreadF_returns_iff ha.areaInv recvBuf h.ok
    rwa [h.received_eq] at hiff
  have henough : (∀ w, w <:+: stream → w.length ≤ 127 → rowBreaks w ≤ 20) →
      ∀ reads, Cut stream reads →
        ∃ fuel o, networkThreadF fuel ⟨recvBuf,a.cursor⟩ reads = some o := by
    intro hwin reads h
    rw [hcut reads h]
    intro r hr
    obtain ⟨hn,-,hle⟩ := h.count r hr
    refine hwin r.bytes ?_ ?_
    · rw [← h.stream_eq]
      exact List.infix_of_mem_flatten (List.mem_map_of_mem hr)
    · simp only [bufferSize] at hle
      omega
  refine ⟨⟨?_,henough⟩,?_⟩
  · rintro hall w ⟨before,after,rfl⟩ hw
    by_cases hne : w = []
    · subst hne
      decide
    · obtain ⟨reads₁,h₁⟩ := Cut.exists_bytes before
      obtain ⟨reads₂,h₂⟩ := Cut.exists_bytes after
      have h := (h₁.append (Cut.single hne hw)).append h₂
      exact (hcut _ h).mp (hall _ h) ⟨w.length,w⟩ (by simp)
  · intro hnl
    refine henough fun w hin hw => ?_
    have hcount := hnl w hin hw
    have hrows := rowBreaks_le_count hw
    omega

theorem no_cut_hangs_hi : Reached ⟨fbclear,home,[]⟩ ∧
    ∀ reads, Cut [0x68,0x69,0x0a,0x68,0x6f,0x0a] reads →
      ∃ fuel o, networkThreadF fuel ⟨fun _ => 0,home⟩ reads = some o := by
  refine ⟨Reached.start,(no_cut_hangs_iff Reached.start (fun _ => 0) _).2 ?_⟩
  intro w hin _
  exact (hin.sublist.count_le newline).trans (by decide)

end MessageArea
end EmbeddedSystems
