import EmbeddedSystems.LineEditor
import EmbeddedSystems.MessageLayout
import EmbeddedSystems.SharedStore

/-! The network thread shows received messages and the main thread handles key events, without a
lock and with one `fbputchar` call at a time in any order. The network thread goes through
`display_message` one loop iteration at a time, so a call that never returns is covered. -/

namespace EmbeddedSystems
namespace ChatScreen

open Screen MessageArea Keyboard SharedStore

def prompt : List UInt8 :=
  [0x54,0x79,0x70,0x65,0x20,0x68,0x65,0x72,0x65,0x3a,0x20]

/-- The `fbputchar` calls of `fb_init_screen` after its `fbclear`. -/
def fbInitScreen : List Put := fbDrawLineDivider 0x2d dividerRow

def startScreen : Grid := draw fbclear (fbInitScreen ++ fbputs prompt inputAreaTop 0)

inductive Who
  | net
  | main
  deriving DecidableEq

/-- The network thread is about to read message `k`, or in the character loop of the call
that shows it. -/
inductive Net
  | reading (k : ℕ) (cursor : Cursor)
  | showing (k : ℕ) (l : Loop)

structure Main where
  k : ℕ
  state : Option State

def advanceNet (msgs : ℕ → List UInt8) : Net → List Put × Net
  | .reading k cursor => ([],.showing k ⟨msgs k,cursor⟩)
  | .showing k l =>
    match iter (msgs k) l with
    | some (acts,l') => (acts.flatMap Act.puts,.showing k l')
    | none => ((finish l.cursor).1.flatMap Act.puts,.reading (k+1) (finish l.cursor).2)

def advanceMain (keys : ℕ → Event) (m : Main) : List Put × Main :=
  match m.state.bind fun s => handleKeypress s (keys m.k) with
  | some (s,out) => (out.puts,⟨m.k+1,some s⟩)
  | none => ([],⟨m.k+1,none⟩)

def Local : Who → Type
  | .net => Net
  | .main => Main

def advance (msgs : ℕ → List UInt8) (keys : ℕ → Event) : ∀ i, Local i → List Put × Local i
  | .net => advanceNet msgs
  | .main => advanceMain keys

def startThreads : ∀ i, Thread Cell UInt8 (Local i)
  | .net => ⟨Net.reading 0 home,[]⟩
  | .main => ⟨(⟨0,some initial⟩ : Main),[]⟩

def start : Config Cell UInt8 Local := ⟨startScreen,startThreads⟩

/-- The cells each thread draws on. -/
def Own : Who → Cell → Prop
  | .net => InArea
  | .main => InInputRow

def Net.Inv : Net → Prop
  | .reading _ cursor => Valid cursor
  | .showing _ l => Valid l.cursor

def Main.Inv (m : Main) : Prop := ∃ s, m.state = some s ∧ Keyboard.Inv s

def LocalInv : ∀ i, Local i → Prop
  | .net => Net.Inv
  | .main => Main.Inv

theorem advanceNet_confined (msgs : ℕ → List UInt8) :
    Confined (advanceNet msgs) Net.Inv InArea := by
  have hputs : ∀ acts : List Act, (∀ act ∈ acts, act.InArea) →
      ∀ p ∈ acts.flatMap Act.puts, InArea p.1 := by
    intro acts hacts p hp
    obtain ⟨act,hact,hp⟩ := List.mem_flatMap.mp hp
    exact hacts act hact p hp
  intro s hs
  cases s with
  | reading k cursor => exact ⟨hs,by simp [advanceNet]⟩
  | showing k l =>
    rw [advanceNet]
    cases hi : iter (msgs k) l with
    | none =>
      obtain ⟨hv,hacts⟩ := finish_inArea hs
      exact ⟨hv,hputs _ hacts⟩
    | some r =>
      obtain ⟨hv,hacts⟩ := iter_inArea (msgs k) l r.1 r.2 hs hi
      exact ⟨hv,hputs _ hacts⟩

theorem advanceMain_confined (keys : ℕ → Event) :
    Confined (advanceMain keys) Main.Inv InInputRow := by
  rintro ⟨k,state⟩ ⟨s,hs,hinv⟩
  obtain rfl : state = some s := hs
  obtain ⟨s',out,hf,hinv',-,hrow⟩ := handleKeypress_shows hinv (keys k)
  have heq : advanceMain keys ⟨k,some s⟩ = (out.puts,⟨k+1,some s'⟩) := by
    rw [advanceMain,Option.bind_some,hf]
  rw [heq]
  exact ⟨⟨s',rfl,hinv'⟩,hrow⟩

theorem advance_confined (msgs : ℕ → List UInt8) (keys : ℕ → Event) :
    ∀ i, Confined (advance msgs keys i) (LocalInv i) (Own i)
  | .net => advanceNet_confined msgs
  | .main => advanceMain_confined keys

theorem start_good : ∀ i, (start.threads i).Good (LocalInv i) (Own i)
  | .net => ⟨valid_home,by simp [start,startThreads]⟩
  | .main => ⟨⟨initial,rfl,inv_initial⟩,by simp [start,startThreads]⟩

theorem own_disjoint (i j : Who) (a : Cell) (hi : Own i a) (hj : Own j a) : i = j := by
  cases i <;> cases j <;> simp only [Own,InArea,InInputRow] at hi hj <;> first | rfl | omega

theorem draw_fbputs (g : Grid) (s : List UInt8) (row : ℤ) (col k : ℕ) :
    draw g (fbputs s row col) (row,(k : ℤ)) =
      if col ≤ k ∧ k < col+s.length then s.getD (k-col) space else g (row,(k : ℤ)) := by
  induction s generalizing g col with
  | nil => rw [if_neg (by simp only [List.length_nil]; omega),fbputs,draw_nil]
  | cons c s ih =>
    have htail := ih (draw g [fbputchar c row col]) (col+1)
    rw [Nat.cast_add,Nat.cast_one] at htail
    rw [fbputs,← List.singleton_append,draw_append,htail,List.length_cons]
    rcases lt_trichotomy k col with h | h | h
    · rw [if_neg (by omega),if_neg (by omega),draw_fbputchar,if_neg (by omega)]
    · subst h
      rw [if_neg (by omega),if_pos (by omega),Nat.sub_self,draw_fbputchar,if_pos rfl]
      rfl
    · have hk : k-col = k-(col+1)+1 := by omega
      rw [draw_fbputchar,if_neg (by omega : ¬(k : ℤ) = col),hk,List.getD_cons_succ]
      exact if_congr (by omega) rfl rfl

theorem mem_fbDrawLineDivider {c : UInt8} {row : ℤ} {p : Put} (h : p ∈ fbDrawLineDivider c row) :
    p.1.1 = row ∧ p.2 = c := by
  obtain ⟨k,-,rfl⟩ := List.mem_map.mp h
  exact ⟨rfl,rfl⟩

theorem startScreen_divider {c : ℤ} (h0 : 0 ≤ c) (hc : c ≤ 63) : startScreen (21,c) = 0x2d := by
  rw [startScreen,draw_append,draw_frame]
  · apply draw_const
    · intro p hp
      exact (mem_fbDrawLineDivider hp).2
    · refine ⟨fbputchar 0x2d 21 c,List.mem_map.mpr ⟨c.toNat,?_,?_⟩,rfl⟩
      · rw [List.mem_range]
        omega
      · rw [Int.toNat_of_nonneg h0]
        rfl
  · rintro p hp heq
    have hrow := (mem_fbputs hp).1
    rw [heq] at hrow
    exact absurd hrow (by simp [inputAreaTop])

theorem startScreen_prompt (c : ℕ) : startScreen (22,(c : ℤ)) = prompt.getD c space := by
  have hclear : draw fbclear fbInitScreen (22,(c : ℤ)) = space := by
    rw [draw_frame]
    · rfl
    · rintro p hp heq
      have hrow := (mem_fbDrawLineDivider hp).1
      rw [heq] at hrow
      exact absurd hrow (by simp [dividerRow])
  have hputs := draw_fbputs (draw fbclear fbInitScreen) prompt 22 0 c
  rw [hclear,Nat.sub_zero,Nat.cast_zero] at hputs
  rw [startScreen,draw_append]
  refine hputs.trans ?_
  split_ifs with h
  · rfl
  · rw [List.getD_eq_default _ _ (by omega)]

/-- The threads do not disturb each other: after every schedule of single `fbputchar` calls the
divider and the prompt stand, the message area is what the network thread alone has drawn, and
the input row is what the main thread alone has drawn. -/
theorem threads_apart (msgs : ℕ → List UInt8) (keys : ℕ → Event) (sched : List Who) :
    (∀ c : ℤ, 0 ≤ c → c ≤ 63 → (run (advance msgs keys) start sched).mem (21,c) = 0x2d) ∧
      (∀ c : ℕ, c ≤ 63 →
        (run (advance msgs keys) start sched).mem (22,(c : ℤ)) = prompt.getD c space) ∧
      (∀ a, InArea a → (run (advance msgs keys) start sched).mem a =
        (run (advance msgs keys) start (sched.filter (· = .net))).mem a) ∧
      (∀ a, InInputRow a → (run (advance msgs keys) start sched).mem a =
        (run (advance msgs keys) start (sched.filter (· = .main))).mem a) := by
  have hconf := advance_confined msgs keys
  have hfree : ∀ (r c : ℤ), r = 21 ∨ r = 22 → ∀ i, ¬ Own i (r,c) := by
    intro r c hr i hi
    cases i <;> simp only [Own,InArea,InInputRow] at hi <;> omega
  refine ⟨?_,?_,?_,?_⟩
  · intro c h0 hc
    rw [run_eq_of_unowned hconf start_good sched (hfree 21 c (Or.inl rfl))]
    exact startScreen_divider h0 hc
  · intro c _
    rw [run_eq_of_unowned hconf start_good sched (hfree 22 c (Or.inr rfl))]
    exact startScreen_prompt c
  · intro a ha
    exact run_eq_solo hconf own_disjoint start_good sched (i := .net) ha
  · intro a ha
    exact run_eq_solo hconf own_disjoint start_good sched (i := .main) ha

theorem advance_showing {msgs : ℕ → List UInt8} (keys : ℕ → Event) {k : ℕ} {l l' : Loop}
    {acts : List Act} (hi : iter (msgs k) l = some (acts,l')) :
    advance msgs keys .net (Net.showing k l) = (acts.flatMap Act.puts,Net.showing k l') := by
  change advanceNet msgs (Net.showing k l) = _
  rw [advanceNet,hi]

theorem net_runs (msgs : ℕ → List UInt8) (keys : ℕ → Event) {k : ℕ} {l l' : Loop}
    {acts : List Act} (hr : EmittingLoop.Runs (iter (msgs k)) l acts l')
    (c : Config Cell UInt8 Local) (h : c.threads .net = ⟨Net.showing k l,[]⟩) :
    ∃ n, (run (advance msgs keys) c (List.replicate n .net)).mem =
        draw c.mem (acts.flatMap Act.puts) ∧
      (run (advance msgs keys) c (List.replicate n .net)).threads .net =
        ⟨Net.showing k l',[]⟩ := by
  induction hr generalizing c with
  | refl l => exact ⟨0,rfl,h⟩
  | @head l l₁ l' acts₁ acts₂ hi hr ih =>
    obtain ⟨n₁,hmem₁,hth₁⟩ := run_advance (advance msgs keys) c h
    rw [advance_showing keys hi] at hmem₁ hth₁
    obtain ⟨n₂,hmem₂,hth₂⟩ := ih _ hth₁
    refine ⟨n₁+n₂,?_,?_⟩
    · rw [List.replicate_add,run_append,hmem₂,hmem₁,List.flatMap_append,draw_append]
      rfl
    · rw [List.replicate_add,run_append,hth₂]

/-- A call of `display_message` that returns is what the network thread does between two reads. -/
theorem net_shows_message (msgs : ℕ → List UInt8) (keys : ℕ → Event) {k fuel : ℕ}
    {cursor : Cursor} {d : Display} (hd : displayMessage fuel (msgs k) cursor = some d)
    (c : Config Cell UInt8 Local) (h : c.threads .net = ⟨Net.reading k cursor,[]⟩) :
    ∃ n, (run (advance msgs keys) c (List.replicate n .net)).mem = draw c.mem d.puts ∧
      (run (advance msgs keys) c (List.replicate n .net)).threads .net =
        ⟨Net.reading (k+1) d.cursor,[]⟩ := by
  obtain ⟨l,hloop,hf⟩ := displayMessage_eq_some.mp hd
  obtain ⟨hr,hend⟩ := EmittingLoop.runs_of_loop hloop
  obtain ⟨n₁,hmem₁,hth₁⟩ := run_advance (advance msgs keys) c h
  obtain ⟨n₂,hmem₂,hth₂⟩ := net_runs msgs keys hr _ hth₁
  obtain ⟨n₃,hmem₃,hth₃⟩ := run_advance (advance msgs keys) _ hth₂
  have hadv : advance msgs keys .net (Net.showing k l) =
      (d.final.flatMap Act.puts,Net.reading (k+1) d.cursor) := by
    change advanceNet msgs (Net.showing k l) = _
    rw [advanceNet,hend,hf]
  rw [hadv] at hmem₃ hth₃
  refine ⟨n₁+n₂+n₃,?_,?_⟩
  · rw [List.replicate_add,List.replicate_add,run_append,run_append,hmem₃,hmem₂,hmem₁]
    simp only [Display.puts,List.flatMap_append,draw_append]
    rfl
  · rw [List.replicate_add,List.replicate_add,run_append,run_append,hth₃]

end ChatScreen
end EmbeddedSystems
