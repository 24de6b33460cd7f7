import EmbeddedSystems.FontLookup
import EmbeddedSystems.ThreadProgress

/-! A key event costs the main thread one computation and at most 512 calls of `fbputchar`, so a
fixed share of its steps is spent on each event, whatever the network thread does at the same time
and also if that hangs in a message that is too long. The network thread gets to a message if and
only if all messages before it fit the screen, whatever is typed. -/

namespace EmbeddedSystems

namespace Keyboard

open Screen

theorem drawText_length {n : ℕ} {buffer : Fin n → UInt8} {length row : ℤ} {k : ℕ} {i col : ℤ}
    {ps : List Put} (h : drawText buffer length row k i col = some ps) : ps.length ≤ k := by
  induction k generalizing i col ps with
  | zero =>
    obtain rfl := Option.some.inj h
    exact le_rfl
  | succ k ih =>
    obtain ⟨-,c,rest,-,hrest,rfl⟩ | ⟨-,rfl⟩ := drawText_succ_cases h
    · exact Nat.succ_le_succ (ih hrest)
    · exact Nat.zero_le _

theorem display_length {s : State} {ps : List Put} (h : display s = some ps) :
    ps.length ≤ 128 := by
  obtain ⟨text,htext,heq⟩ := Option.bind_eq_some_iff.mp h
  have htext' := drawText_length htext
  have hrow : (clearRow (inputAreaTop+1)).length = 64 := by
    rw [clearRow,List.length_map,List.length_range]
    rfl
  have hcursor : ∀ row col, (drawCursor row col).length ≤ 1 := by
    intro row col
    unfold drawCursor
    split_ifs <;> simp
  have hwidth : (msgAreaCols-1).toNat = 63 := rfl
  rw [← Option.some.inj heq,List.length_append,List.length_append,hrow]
  have hlast := hcursor (inputAreaTop+1) (s.cursorPosition-windowStart s.cursorPosition)
  omega

theorem Refreshes.length_le {f : State → Option (State × List Put)} (hf : Refreshes f)
    {s s' : State} {ps : List Put} (h : f s = some (s',ps)) : ps.length ≤ 128 := by
  rcases hf s s' ps h with ⟨-,rfl⟩ | hd
  · exact Nat.zero_le 128
  · exact display_length hd

theorem handleTab_length {s s' : State} {ps : List Put} (h : handleTab s = some (s',ps)) :
    ps.length ≤ 512 := by
  have hadd := inputBufAddChar_refreshes space
  obtain ⟨⟨s₁,ps₁⟩,h₁,h⟩ := Option.bind_eq_some_iff.mp h
  obtain ⟨⟨s₂,ps₂⟩,h₂,h⟩ := Option.bind_eq_some_iff.mp h
  obtain ⟨⟨s₃,ps₃⟩,h₃,h⟩ := Option.bind_eq_some_iff.mp h
  obtain ⟨⟨s₄,ps₄⟩,h₄,h⟩ := Option.bind_eq_some_iff.mp h
  obtain ⟨rfl,rfl⟩ := Prod.mk.inj (Option.some.inj h)
  have hl₁ := hadd.length_le h₁
  have hl₂ := hadd.length_le h₂
  have hl₃ := hadd.length_le h₃
  have hl₄ := hadd.length_le h₄
  simp only [List.length_append]
  omega

theorem handleEnter_length {s s' : State} {w : Writer} {out : Output}
    (h : handleEnter s w = some (s',out)) : out.puts.length ≤ 512 := by
  have hidle : ∀ wire, some (s,(⟨[],wire⟩ : Output)) = some (s',out) → out.puts.length ≤ 512 := by
    intro wire heq
    obtain ⟨-,rfl⟩ := Prod.mk.inj (Option.some.inj heq)
    exact Nat.zero_le 512
  unfold handleEnter at h
  split_ifs at h
  · obtain ⟨⟨wire,rc⟩,-,h⟩ := Option.bind_eq_some_iff.mp h
    dsimp only at h
    split_ifs at h
    · obtain ⟨⟨s₁,ps⟩,hclear,h⟩ := Option.bind_eq_some_iff.mp h
      obtain ⟨-,rfl⟩ := Prod.mk.inj (Option.some.inj h)
      have hle := inputBufClear_refreshes.length_le hclear
      simp only
      omega
    · exact hidle wire h
  · exact hidle [] h

theorem handleKeypress_length {s s' : State} {e : Event} {out : Output}
    (h : handleKeypress s e = some (s',out)) : out.puts.length ≤ 512 := by
  rcases handleKeypress_cases s e with ⟨caps,heq⟩ | ⟨-,heq⟩ | ⟨f,heq,hf⟩
  · rw [heq] at h
    obtain ⟨-,rfl⟩ := Prod.mk.inj (Option.some.inj h)
    exact Nat.zero_le 512
  · rw [heq] at h
    exact handleEnter_length h
  · rw [heq] at h
    obtain ⟨⟨s₁,ps⟩,hps,heq'⟩ := Option.map_eq_some_iff.mp h
    obtain ⟨-,rfl⟩ := Prod.mk.inj heq'
    have hone : ∀ {f : State → Option (State × List Put)}, Refreshes f → f s = some (s₁,ps) →
        ps.length ≤ 512 := fun hr hs => (hr.length_le hs).trans (by decide)
    rcases hf with rfl | rfl | rfl | rfl | ⟨c,-,rfl⟩
    · exact hone inputBufDeleteChar_refreshes hps
    · exact handleTab_length hps
    · exact hone cursorMoveLeft_refreshes hps
    · exact hone cursorMoveRight_refreshes hps
    · exact hone (inputBufAddChar_refreshes c) hps

theorem Rendered.congr {g g' : Grid} {s : State} (h : Rendered g s)
    (hrow : ∀ a, InInputRow a → g' a = g a) : Rendered g' s := by
  have hcell : ∀ j : ℕ, j ≤ 63 → g' (23,(j : ℤ)) = g (23,(j : ℤ)) :=
    fun j hj => hrow _ ⟨rfl,Int.natCast_nonneg j,by simpa using hj⟩
  refine ⟨h.column,?_,?_,?_⟩
  · rw [hrow _ ⟨rfl,h.column.1,h.column.2⟩]
    exact h.cursor
  · intro j hj hne hlt
    rw [hcell j (by omega)]
    exact h.text j hj hne hlt
  · intro j hj hne hout
    rw [hcell j hj]
    exact h.blank j hj hne hout

end Keyboard

namespace ChatScreen

open Screen MessageArea Keyboard SharedStore Clocked

theorem main_computed (keys : ℕ → Event) (k : ℕ) :
    ∃ v, trace View.step (some ⟨startScreen,initial⟩) keys k = some v ∧ Keyboard.Inv v.state ∧
      computed (advanceMain keys) ⟨0,some initial⟩ k = ⟨k,some v.state⟩ ∧
      draw startScreen (emitted (advanceMain keys) ⟨0,some initial⟩ k) = v.grid ∧
      (emitted (advanceMain keys) ⟨0,some initial⟩ k).length ≤ 512*k := by
  induction k with
  | zero => exact ⟨⟨startScreen,initial⟩,rfl,inv_initial,rfl,rfl,le_rfl⟩
  | succ k ih =>
    obtain ⟨v,hv,hinv,hcomp,hgrid,hlen⟩ := ih
    obtain ⟨s',out,hkey,hinv',-⟩ := handleKeypress_shows hinv (keys k)
    have hadv : advanceMain keys ⟨k,some v.state⟩ = (out.puts,⟨k+1,some s'⟩) := by
      rw [advanceMain,Option.bind_some,hkey]
    have hputs := handleKeypress_length hkey
    refine ⟨⟨draw v.grid out.puts,s'⟩,?_,hinv',?_,?_,?_⟩
    · rw [trace_succ,hv,View.step,Option.bind_some,hkey]
      rfl
    · rw [computed_succ,hcomp,hadv]
    · rw [emitted_succ,hcomp,hadv,draw_append,hgrid]
    · rw [emitted_succ,hcomp,hadv,List.length_append]
      simp only
      omega

/-- Whatever the network thread does, also if it hangs, after `n` steps of the main thread at least
`n/513` key events are handled, as `handle_keypress` alone would handle them; and whenever nothing
is left to draw, the input row is that of the line. -/
theorem typing_unblocked (msgs : ℕ → List UInt8) (keys : ℕ → Event) (sched : List Who) :
    let c := run (advance msgs keys) start sched
    ∃ k v queue, c.threads .main = ⟨(⟨k,some v.state⟩ : Main),queue⟩ ∧
      trace View.step (some ⟨startScreen,initial⟩) keys k = some v ∧
      sched.count .main+queue.length ≤ 513*k ∧
      (queue = [] → (∀ a, InInputRow a → c.mem a = v.grid a) ∧
        (Changed startScreen keys k → Rendered c.mem v.state)) := by
  intro c
  obtain ⟨k,queue,hth,hcount,hmem⟩ := run_progress (advance_confined msgs keys) own_disjoint
    start_good (rfl : start.threads .main = ⟨(⟨0,some initial⟩ : Main),[]⟩) sched
  obtain ⟨v,hv,-,hcomp,hgrid,hlen⟩ := main_computed keys k
  refine ⟨k,v,queue,?_,hv,?_,?_⟩
  · rw [← hcomp]
    exact hth
  · have hcount' : sched.count .main+queue.length =
        k+(emitted (advanceMain keys) ⟨0,some initial⟩ k).length := hcount
    omega
  · intro hnil
    have hrow : ∀ a, InInputRow a → c.mem a = v.grid a := by
      intro a ha
      rw [← hgrid]
      exact hmem hnil a ha
    refine ⟨hrow,fun hchanged => ?_⟩
    obtain ⟨v',hv',-,hrendered⟩ := view_run startScreen keys k
    obtain rfl := Option.some.inj (hv.symm.trans hv')
    exact (hrendered hchanged).congr hrow

def Net.message : Net → ℕ
  | .reading k _ => k
  | .showing k _ => k

theorem advanceNet_message (msgs : ℕ → List UInt8) (s : Net) :
    s.message ≤ (advanceNet msgs s).2.message := by
  cases s with
  | reading k cursor => exact le_rfl
  | showing k l =>
    rw [advanceNet]
    cases iter (msgs k) l with
    | none => exact Nat.le_succ k
    | some r => exact le_rfl

theorem net_message_mono (msgs : ℕ → List UInt8) (n m : ℕ) (th : Thread Cell UInt8 Net)
    (h : n ≤ m) : ((fun th => (tick (advanceNet msgs) th).2)^[n] th).state.message ≤
      ((fun th => (tick (advanceNet msgs) th).2)^[m] th).state.message := by
  induction m, h using Nat.le_induction with
  | base => exact le_rfl
  | succ m _ ih =>
    refine ih.trans ?_
    rw [Function.iterate_succ_apply']
    generalize (fun th => (tick (advanceNet msgs) th).2)^[m] th = th'
    obtain ⟨s,queue⟩ := th'
    cases queue with
    | nil => exact advanceNet_message msgs s
    | cons w queue => exact le_rfl

/-- The network thread gets to message `k` in all schedules that let it make enough steps,
whatever is typed meanwhile, if and only if no message before it closes more than 20 rows. -/
theorem net_reaches_iff (msgs : ℕ → List UInt8) (keys : ℕ → Event) (k : ℕ) :
    (∃ n, ∀ sched : List Who, n ≤ sched.count .net →
      k ≤ Net.message ((run (advance msgs keys) start sched).threads .net).state) ↔
      ∀ i < k, rowBreaks (msgs i) ≤ 20 := by
  constructor
  · rintro ⟨n,hn⟩ i hi
    have hreach := hn (List.replicate n .net) (by rw [List.count_replicate_self])
    have hstart : ∀ i, LocalChars msgs i (start.threads i).state ∧
        ∀ w ∈ (start.threads i).queue, Ascii w ∨ NetDraws msgs w :=
      fun i => ⟨start_chars msgs i,by simp [start_queue]⟩
    have hlaying : NetLaying msgs
        ((run (advance msgs keys) start (List.replicate n .net)).threads .net).state :=
      (run_queued (advance_chars msgs keys) hstart (List.replicate n .net) .net).1
    generalize ((run (advance msgs keys) start (List.replicate n .net)).threads .net).state = s
      at hreach hlaying
    cases s with
    | reading k' cursor => exact hlaying.1 i (hi.trans_le hreach)
    | showing k' l => exact hlaying.1 i (hi.trans_le hreach)
  · intro h
    obtain ⟨sched₀,row,-,hth⟩ := exists_reading msgs keys h
    refine ⟨sched₀.count .net,fun sched hle => ?_⟩
    have hmono := net_message_mono msgs _ _ (start.threads .net) hle
    have hk : Net.message ((run (advance msgs keys) start sched₀).threads .net).state = k := by
      rw [hth]
      rfl
    rw [run_threads] at hk ⊢
    exact hk.symm.le.trans hmono

end ChatScreen
end EmbeddedSystems
