import EmbeddedSystems.LineEditor

/-! `display_user_input` draws a window of the line that slides once the cursor leaves the row, with
the cursor over it. Every editing function redraws what it has changed, so from the first change
on the row shows the line. -/

namespace EmbeddedSystems
namespace Screen

open CArray

theorem windowStart_eq (cursorPos : ℤ) : windowStart cursorPos = max 0 (cursorPos-63) := by
  simp only [windowStart,msgAreaCols]
  split_ifs <;> omega

theorem draw_drawText {n : ℕ} {buffer : Fin n → UInt8} {length row : ℤ} {k i col : ℕ}
    {ps : List Put} (h : drawText buffer length row k i col = some ps) (g : Grid) (j : ℕ) :
    draw g ps (row,(j : ℤ)) =
      if col ≤ j ∧ j < col+k ∧ ((i+(j-col) : ℕ) : ℤ) < length then peek buffer (i+(j-col))
      else g (row,(j : ℤ)) := by
  induction k generalizing i col ps g with
  | zero =>
    obtain rfl := Option.some.inj h
    rw [if_neg (by omega),draw_nil]
  | succ k ih =>
    obtain ⟨hlt,c,rest,hc,hrest,rfl⟩ | ⟨hlt,rfl⟩ := drawText_succ_cases h
    · obtain rfl := eq_peek_of_get hc
      rw [← Nat.cast_succ,← Nat.cast_succ] at hrest
      rw [← List.singleton_append,draw_append,ih hrest,draw_fbputchar]
      by_cases hj : j = col
      · subst hj
        rw [if_neg (by omega),if_pos rfl,if_pos (by simpa using hlt),Nat.sub_self,Nat.add_zero]
      · rw [if_neg (by omega : ¬(j : ℤ) = col)]
        by_cases hin : col+1 ≤ j
        · rw [show i+1+(j-(col+1)) = i+(j-col) by omega]
          exact if_congr (by omega) rfl rfl
        · rw [if_neg (by omega),if_neg (by omega)]
    · rw [if_neg (by omega),draw_nil]

theorem draw_clearRow (g : Grid) {j : ℕ} (hj : j ≤ 63) :
    draw g (clearRow 23) (23,(j : ℤ)) = space := by
  apply draw_const
  · intro p hp
    obtain ⟨c,-,rfl⟩ := List.mem_map.mp hp
    rfl
  · refine ⟨fbputchar space 23 j,List.mem_map.mpr ⟨j,?_,rfl⟩,rfl⟩
    rw [List.mem_range,show msgAreaCols.toNat = 64 from rfl]
    omega

theorem draw_drawCursor (g : Grid) {col : ℤ} (h0 : 0 ≤ col) (h63 : col ≤ 63) (j : ℤ) :
    draw g (drawCursor 23 col) (23,j) = if j = col then 0x7c else g (23,j) := by
  rw [drawCursor,if_pos (by simp only [msgAreaCols]; omega)]
  exact draw_fbputchar g 0x7c 23 col j

/-- What `display_user_input` leaves in the row, whatever was there. -/
theorem draw_displayUserInput {n : ℕ} {buffer : Fin n → UInt8} {length cursorPos : ℤ}
    {ps : List Put} (hcur : 0 ≤ cursorPos)
    (h : displayUserInput buffer length cursorPos = some ps) (g : Grid) {j : ℕ} (hj : j ≤ 63) :
    draw g ps (23,(j : ℤ)) =
      if (j : ℤ) = cursorPos-max 0 (cursorPos-63) then 0x7c
      else if j < 63 ∧ max 0 (cursorPos-63)+j < length then
        peek buffer (max 0 (cursorPos-63)+j).toNat
      else space := by
  obtain ⟨text,htext,heq⟩ := Option.bind_eq_some_iff.mp h
  obtain rfl := Option.some.inj heq
  rw [windowStart_eq] at htext ⊢
  obtain ⟨i,hi⟩ := Int.eq_ofNat_of_zero_le (le_max_left 0 (cursorPos-63))
  rw [hi] at htext ⊢
  have hcol : ((0 : ℕ) : ℤ) = 0 := rfl
  rw [← hcol] at htext
  have hrow : inputAreaTop+1 = 23 := rfl
  rw [hrow] at htext ⊢
  rw [draw_append,draw_append,draw_drawCursor _ (by omega) (by omega),draw_drawText htext,
    draw_clearRow g hj]
  have hwidth : (msgAreaCols-1).toNat = 63 := rfl
  rw [hwidth]
  split_ifs with h1 h2 h3 h3
  · rfl
  · rw [show ((i : ℤ)+j).toNat = i+(j-0) by omega]
  · exact absurd ⟨by omega,by omega⟩ h3
  · exact absurd ⟨by omega,by omega,by omega⟩ h2
  · rfl

theorem drawText_castLE {n l : ℕ} (buffer : Fin n → UInt8) (hl : l ≤ n) (row : ℤ) (k i : ℕ)
    (col : ℤ) : drawText (fun j : Fin l => buffer (Fin.castLE hl j)) l row k i col =
      drawText buffer l row k i col := by
  induction k generalizing i col with
  | zero => rfl
  | succ k ih =>
    have hrest := ih (i+1) (col+1)
    rw [Nat.cast_succ] at hrest
    rw [drawText,drawText,hrest]
    by_cases hi : (i : ℤ) < l
    · have hil : i < l := by omega
      have hin : i < n := by omega
      have hget : CArray.get (fun j : Fin l => buffer (Fin.castLE hl j)) (i : ℤ) =
          CArray.get buffer (i : ℤ) := by
        rw [get_eq_peek _ hil,get_eq_peek _ hin]
        simp [peek,hil,hin]
      rw [hget]
    · rw [if_neg hi,if_neg hi]

theorem displayUserInput_castLE {n l : ℕ} (buffer : Fin n → UInt8) (hl : l ≤ n) (cursorPos : ℤ) :
    displayUserInput (fun j : Fin l => buffer (Fin.castLE hl j)) l cursorPos =
      displayUserInput buffer l cursorPos := by
  obtain ⟨i,hi⟩ := Int.eq_ofNat_of_zero_le (le_max_left 0 (cursorPos-63))
  rw [displayUserInput,displayUserInput,windowStart_eq,hi,drawText_castLE]

end Screen

namespace Keyboard

open CArray Screen Clocked

def SameLine (s s' : State) : Prop :=
  s'.inputBuffer = s.inputBuffer ∧ s'.inputLength = s.inputLength ∧
    s'.cursorPosition = s.cursorPosition

def display (s : State) : Option (List Put) :=
  displayUserInput s.inputBuffer s.inputLength s.cursorPosition

theorem SameLine.display_eq {s s' : State} (h : SameLine s s') : display s' = display s := by
  unfold display
  rw [h.1,h.2.1,h.2.2]

/-- A function changes nothing and draws nothing, or draws the line as it leaves it. -/
def Refreshes (f : State → Option (State × List Put)) : Prop :=
  ∀ s s' ps, f s = some (s',ps) → SameLine s s' ∧ ps = [] ∨ display s' = some ps

section Functions

variable {s s' : State} {ps : List Put}

theorem refreshed_shown (h : ((display s).bind fun ps => some (s,ps)) = some (s',ps)) {s₀ : State} :
    SameLine s₀ s' ∧ ps = [] ∨ display s' = some ps := by
  obtain ⟨ps',hps,heq⟩ := Option.bind_eq_some_iff.mp h
  obtain ⟨rfl,rfl⟩ := Prod.mk.inj (Option.some.inj heq)
  exact Or.inr hps

theorem refreshed_redraw (h : redraw s = some (s',ps)) {s₀ : State} :
    SameLine s₀ s' ∧ ps = [] ∨ display s' = some ps := by
  obtain ⟨str,-,h⟩ := Option.bind_eq_some_iff.mp h
  exact refreshed_shown h

theorem refreshed_idle (h : some (s,([] : List Put)) = some (s',ps)) :
    SameLine s s' ∧ ps = [] ∨ display s' = some ps := by
  obtain ⟨rfl,rfl⟩ := Prod.mk.inj (Option.some.inj h)
  exact Or.inl ⟨⟨rfl,rfl,rfl⟩,rfl⟩

theorem inputBufAddChar_refreshes (c : UInt8) : Refreshes (inputBufAddChar c) := by
  intro s s' ps h
  unfold inputBufAddChar at h
  split_ifs at h
  · obtain ⟨b₁,-,h⟩ := Option.bind_eq_some_iff.mp h
    obtain ⟨b₂,-,h⟩ := Option.bind_eq_some_iff.mp h
    obtain ⟨b₃,-,h⟩ := Option.bind_eq_some_iff.mp h
    exact refreshed_redraw h
  · exact refreshed_idle h

theorem inputBufDeleteChar_refreshes : Refreshes inputBufDeleteChar := by
  intro s s' ps h
  unfold inputBufDeleteChar at h
  split_ifs at h
  · obtain ⟨b₁,-,h⟩ := Option.bind_eq_some_iff.mp h
    obtain ⟨b₂,-,h⟩ := Option.bind_eq_some_iff.mp h
    exact refreshed_redraw h
  · exact refreshed_idle h

theorem inputBufClear_refreshes : Refreshes inputBufClear := by
  intro s s' ps h
  unfold inputBufClear at h
  obtain ⟨b,-,h⟩ := Option.bind_eq_some_iff.mp h
  exact refreshed_redraw h

theorem cursorMoveLeft_refreshes : Refreshes cursorMoveLeft := by
  intro s s' ps h
  unfold cursorMoveLeft at h
  split_ifs at h
  · exact refreshed_shown h
  · exact refreshed_idle h

theorem cursorMoveRight_refreshes : Refreshes cursorMoveRight := by
  intro s s' ps h
  unfold cursorMoveRight at h
  split_ifs at h
  · exact refreshed_shown h
  · exact refreshed_idle h

end Functions

/-- From `s` to `s'` with the calls `ps`: nothing has changed and nothing is drawn, or the last
thing drawn is the line of `s'`. -/
def Repainted (s s' : State) (ps : List Put) : Prop :=
  SameLine s s' ∧ ps = [] ∨ ∃ before last, ps = before ++ last ∧ display s' = some last

theorem Repainted.trans {s s₁ s₂ : State} {ps₁ ps₂ : List Put} (h : Repainted s s₁ ps₁)
    (h' : Repainted s₁ s₂ ps₂) : Repainted s s₂ (ps₁ ++ ps₂) := by
  rcases h' with ⟨hsame',rfl⟩ | ⟨before,last,rfl,hd⟩
  · rw [List.append_nil]
    rcases h with ⟨hsame,rfl⟩ | ⟨before,last,rfl,hd⟩
    · exact Or.inl ⟨⟨hsame'.1.trans hsame.1,hsame'.2.1.trans hsame.2.1,
        hsame'.2.2.trans hsame.2.2⟩,rfl⟩
    · exact Or.inr ⟨before,last,rfl,hsame'.display_eq.trans hd⟩
  · exact Or.inr ⟨ps₁ ++ before,last,by rw [List.append_assoc],hd⟩

theorem Refreshes.repainted {f : State → Option (State × List Put)} (hf : Refreshes f)
    {s s' : State} {ps : List Put} (h : f s = some (s',ps)) : Repainted s s' ps := by
  rcases hf s s' ps h with hidle | hd
  · exact Or.inl hidle
  · exact Or.inr ⟨[],ps,rfl,hd⟩

theorem handleTab_repainted {s s' : State} {ps : List Put} (h : handleTab s = some (s',ps)) :
    Repainted s s' ps := by
  have hadd := inputBufAddChar_refreshes space
  obtain ⟨⟨s₁,ps₁⟩,h₁,h⟩ := Option.bind_eq_some_iff.mp h
  obtain ⟨⟨s₂,ps₂⟩,h₂,h⟩ := Option.bind_eq_some_iff.mp h
  obtain ⟨⟨s₃,ps₃⟩,h₃,h⟩ := Option.bind_eq_some_iff.mp h
  obtain ⟨⟨s₄,ps₄⟩,h₄,h⟩ := Option.bind_eq_some_iff.mp h
  obtain ⟨rfl,rfl⟩ := Prod.mk.inj (Option.some.inj h)
  exact (((hadd.repainted h₁).trans (hadd.repainted h₂)).trans (hadd.repainted h₃)).trans
    (hadd.repainted h₄)

theorem handleEnter_repainted {s s' : State} {w : Writer} {out : Output}
    (h : handleEnter s w = some (s',out)) : Repainted s s' out.puts := by
  have hidle : ∀ wire, some (s,(⟨[],wire⟩ : Output)) = some (s',out) →
      Repainted s s' out.puts := by
    intro wire heq
    obtain ⟨rfl,rfl⟩ := Prod.mk.inj (Option.some.inj heq)
    exact Or.inl ⟨⟨rfl,rfl,rfl⟩,rfl⟩
  unfold handleEnter at h
  split_ifs at h
  · obtain ⟨⟨wire,rc⟩,-,h⟩ := Option.bind_eq_some_iff.mp h
    dsimp only at h
    split_ifs at h
    · obtain ⟨⟨s₁,ps⟩,hclear,h⟩ := Option.bind_eq_some_iff.mp h
      obtain ⟨rfl,rfl⟩ := Prod.mk.inj (Option.some.inj h)
      exact inputBufClear_refreshes.repainted hclear
    · exact hidle wire h
  · exact hidle [] h

theorem repainted_edit {r : Option (State × List Put)} {s s' : State} {out : Output}
    (hr : ∀ ps, r = some (s',ps) → Repainted s s' ps) (h : edit r = some (s',out)) :
    Repainted s s' out.puts := by
  obtain ⟨⟨s₁,ps⟩,hps,heq⟩ := Option.map_eq_some_iff.mp h
  obtain ⟨rfl,rfl⟩ := Prod.mk.inj heq
  exact hr ps hps

/-- Every key event repaints what it has changed. -/
theorem handleKeypress_repainted {s s' : State} {e : Event} {out : Output}
    (h : handleKeypress s e = some (s',out)) : Repainted s s' out.puts := by
  rcases handleKeypress_cases s e with ⟨caps,heq⟩ | ⟨-,heq⟩ | ⟨f,heq,hf⟩
  · rw [heq] at h
    obtain ⟨rfl,rfl⟩ := Prod.mk.inj (Option.some.inj h)
    exact Or.inl ⟨⟨rfl,rfl,rfl⟩,rfl⟩
  · rw [heq] at h
    exact handleEnter_repainted h
  · rw [heq] at h
    refine repainted_edit ?_ h
    intro ps hps
    rcases hf with rfl | rfl | rfl | rfl | ⟨c,-,rfl⟩
    · exact inputBufDeleteChar_refreshes.repainted hps
    · exact handleTab_repainted hps
    · exact cursorMoveLeft_refreshes.repainted hps
    · exact cursorMoveRight_refreshes.repainted hps
    · exact (inputBufAddChar_refreshes c).repainted hps

structure View where
  grid : Grid
  state : State

def View.step (v : Option View) (e : Event) : Option View :=
  v.bind fun v => (handleKeypress v.state e).map fun (s,out) => ⟨draw v.grid out.puts,s⟩

def windowFrom (s : State) : ℤ := max 0 (s.cursorPosition-63)

def cursorColumn (s : State) : ℤ := s.cursorPosition-windowFrom s

/-- Row 23 is the window rendering of the line. -/
structure Rendered (g : Grid) (s : State) : Prop where
  column : 0 ≤ cursorColumn s ∧ cursorColumn s ≤ 63
  cursor : g (23,cursorColumn s) = 0x7c
  text : ∀ j : ℕ, j < 63 → (j : ℤ) ≠ cursorColumn s → windowFrom s+j < s.inputLength →
    g (23,(j : ℤ)) = peek s.inputBuffer (windowFrom s+j).toNat
  blank : ∀ j : ℕ, j ≤ 63 → (j : ℤ) ≠ cursorColumn s →
    ¬(j < 63 ∧ windowFrom s+j < s.inputLength) → g (23,(j : ℤ)) = space

theorem rendered_display {s : State} (h : Inv s) {ps : List Put} (hd : display s = some ps)
    (g : Grid) : Rendered (draw g ps) s := by
  have h0 := h.cursor_nonneg
  have hrow : ∀ {j : ℕ}, j ≤ 63 → draw g ps (23,(j : ℤ)) =
      if (j : ℤ) = cursorColumn s then 0x7c
      else if j < 63 ∧ windowFrom s+j < s.inputLength then
        peek s.inputBuffer (windowFrom s+j).toNat
      else space := fun hj => draw_displayUserInput h0 hd g hj
  have hcol : 0 ≤ cursorColumn s ∧ cursorColumn s ≤ 63 := by
    unfold cursorColumn windowFrom
    omega
  refine ⟨hcol,?_,?_,?_⟩
  · obtain ⟨j,hj⟩ := Int.eq_ofNat_of_zero_le hcol.1
    have hj63 : j ≤ 63 := by omega
    have hcell := hrow hj63
    rw [if_pos hj.symm,← hj] at hcell
    exact hcell
  · intro j hj hne hlt
    rw [hrow (by omega),if_neg hne,if_pos ⟨hj,hlt⟩]
  · intro j hj hne hout
    rw [hrow hj,if_neg hne,if_neg hout]

theorem SameLine.rendered {g : Grid} {s s' : State} (hs : SameLine s s') (h : Rendered g s) :
    Rendered g s' := by
  have hwin : windowFrom s' = windowFrom s := by rw [windowFrom,hs.2.2,windowFrom]
  have hcol : cursorColumn s' = cursorColumn s := by
    rw [cursorColumn,hs.2.2,hwin,cursorColumn]
  constructor
  · rw [hcol]
    exact h.column
  · rw [hcol]
    exact h.cursor
  · rw [hcol,hwin,hs.1,hs.2.1]
    exact h.text
  · rw [hcol,hwin,hs.2.1]
    exact h.blank

theorem Rendered.before_cursor {g : Grid} {s : State} (h : Rendered g s) (hinv : Inv s)
    (hpos : 0 < s.cursorPosition) :
    0 ≤ cursorColumn s-1 ∧
      g (23,cursorColumn s-1) = peek s.inputBuffer (s.cursorPosition-1).toNat := by
  have hle := hinv.cursor_le
  obtain ⟨hc0,hc63⟩ := h.column
  have hfrom : cursorColumn s = s.cursorPosition-windowFrom s := rfl
  have hwin : windowFrom s = max 0 (s.cursorPosition-63) := rfl
  have hnonneg : 0 ≤ cursorColumn s-1 := by omega
  obtain ⟨j,hj⟩ := Int.eq_ofNat_of_zero_le hnonneg
  have htext := h.text j (by omega) (by omega) (by omega)
  rw [show windowFrom s+(j : ℤ) = s.cursorPosition-1 by omega,← hj] at htext
  exact ⟨hnonneg,htext⟩

/-- One of the first `t` calls changes the buffer, the length or the cursor. -/
def Changed (g₀ : Grid) (w : ℕ → Event) (t : ℕ) : Prop :=
  ∃ u < t, ∃ v v', trace View.step (some ⟨g₀,initial⟩) w u = some v ∧
    trace View.step (some ⟨g₀,initial⟩) w (u+1) = some v' ∧ ¬SameLine v.state v'.state

theorem view_run (g₀ : Grid) (w : ℕ → Event) (t : ℕ) :
    ∃ v, trace View.step (some ⟨g₀,initial⟩) w t = some v ∧ Inv v.state ∧
      (Changed g₀ w t → Rendered v.grid v.state) := by
  induction t with
  | zero =>
    refine ⟨⟨g₀,initial⟩,rfl,inv_initial,?_⟩
    rintro ⟨u,hu,-⟩
    exact absurd hu (Nat.not_lt_zero u)
  | succ t ih =>
    obtain ⟨v,hv,hinv,hshown⟩ := ih
    obtain ⟨s',out,hkey,hinv',-⟩ := handleKeypress_shows hinv (w t)
    have hstep : trace View.step (some ⟨g₀,initial⟩) w (t+1) =
        some ⟨draw v.grid out.puts,s'⟩ := by
      rw [trace_succ,hv,View.step,Option.bind_some,hkey]
      rfl
    refine ⟨_,hstep,hinv',?_⟩
    rintro ⟨u,hu,v₁,v₂,hv₁,hv₂,hchange⟩
    rcases handleKeypress_repainted hkey with ⟨hsame,hnil⟩ | ⟨before,last,hputs,hd⟩
    · have hlt : u ≠ t := by
        rintro rfl
        obtain rfl := Option.some.inj (hv.symm.trans hv₁)
        obtain rfl := Option.some.inj (hstep.symm.trans hv₂)
        exact hchange hsame
      have hold := hshown ⟨u,by omega,v₁,v₂,hv₁,hv₂,hchange⟩
      rw [hnil,draw_nil]
      exact hsame.rendered hold
    · rw [hputs,draw_append]
      exact rendered_display hinv' hd _

/-- From the first call of `handle_keypress` that changes the line on, row 23 is the window
rendering of the line after every call, with the character before the cursor in view; and
`display_user_input` writes only cells of the row and reads nothing behind the line. -/
theorem inputRow_shows_line (g₀ : Grid) (w : ℕ → Event) :
    (∀ t, ∃ v, trace View.step (some ⟨g₀,initial⟩) w t = some v ∧
      (Changed g₀ w t → Rendered v.grid v.state ∧ (0 < v.state.cursorPosition →
        0 ≤ cursorColumn v.state-1 ∧ v.grid (23,cursorColumn v.state-1) =
          peek v.state.inputBuffer (v.state.cursorPosition-1).toNat))) ∧
      ∀ (buffer : Buffer) (l : ℕ) (hl : l ≤ 256) (cursorPos : ℤ),
        ∃ ps, displayUserInput buffer l cursorPos = some ps ∧ (∀ p ∈ ps, InInputRow p.1) ∧
          displayUserInput (fun j : Fin l => buffer (Fin.castLE hl j)) l cursorPos = some ps := by
  constructor
  · intro t
    obtain ⟨v,hv,hinv,hshown⟩ := view_run g₀ w t
    refine ⟨v,hv,?_⟩
    intro hchanged
    have hr := hshown hchanged
    exact ⟨hr,hr.before_cursor hinv⟩
  · intro buffer l hl cursorPos
    obtain ⟨ps,hps,hrow⟩ := displayUserInput_spec buffer (by omega : (l : ℤ) ≤ (256 : ℕ)) cursorPos
    exact ⟨ps,hps,hrow,(displayUserInput_castLE buffer hl cursorPos).trans hps⟩

theorem inputRow_shows_line_letter :
    let w : ℕ → Event := fun _ => ⟨0x04,0,⟨fun _ _ => 0,fun _ count => Int.natCast_nonneg count⟩⟩
    Changed (fun _ => space) w 1 ∧ ∃ v,
      trace View.step (some ⟨fun _ => space,initial⟩) w 1 = some v ∧ v.grid (23,0) = 0x61 := by
  intro w
  obtain ⟨s',out,hkey,hinv,hed,-⟩ := handleKeypress_shows inv_initial (w 0)
  have hstep : trace View.step (some ⟨fun _ => space,initial⟩) w 1 =
      some ⟨draw (fun _ => space) out.puts,s'⟩ := by
    rw [trace_succ,trace_zero,View.step,Option.bind_some,hkey]
    rfl
  have hpress : Editor.initial.press (w 0) = ⟨false,⟨[0x61],[]⟩⟩ := by
    have hascii : keycodeToAscii false 0x04 0 = 0x61 := by decide +kernel
    simp only [Editor.press,Editor.initial,w,hascii]
    rfl
  rw [editorOf_initial,hpress] at hed
  obtain ⟨caps,b,p,l,rfl,hpl,-⟩ := hinv.exists_natCast
  rw [editorOf_natCast] at hed
  obtain ⟨-,hline⟩ := Editor.mk.inj hed
  obtain ⟨hbefore,hafter⟩ := Zipper.mk.inj hline
  have hp : p = 1 := by simpa using congrArg List.length hbefore
  have hl : l = 1 := by
    have hlen : l-p = 0 := by simpa using congrArg List.length hafter
    omega
  subst hp hl
  have hchanged : Changed (fun _ => space) w 1 := by
    refine ⟨0,Nat.one_pos,_,_,rfl,hstep,?_⟩
    rintro ⟨-,hlen,-⟩
    have hone : (1 : ℤ) = 0 := hlen
    omega
  obtain ⟨v,hv,hshown⟩ := (inputRow_shows_line (fun _ => space) w).1 1
  obtain rfl := Option.some.inj (hstep.symm.trans hv)
  have hcell := ((hshown hchanged).2 (show (0 : ℤ) < 1 by decide)).2
  have hpeek : peek b 0 = 0x61 := by
    rw [slice_cons b Nat.one_pos] at hbefore
    exact (List.cons.inj hbefore).1
  exact ⟨hchanged,_,hstep,hcell.trans hpeek⟩

end Keyboard
end EmbeddedSystems
