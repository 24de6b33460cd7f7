import EmbeddedSystems.Framebuffer

/-! The screen of characters is an abstraction of the framebuffer: a memory shows a grid if every
pixel of every cell is that of the glyph of the character in the grid. `fbclear` makes the memory
show spaces, and every call of `fbputchar` on a cell of the screen carries the memory along with
`Screen.draw`, so what is proved of the grid holds of the pixels. -/

namespace EmbeddedSystems
namespace Framebuffer

open CArray Screen

/-- Every cell of the memory shows the character that the grid has in it. -/
def Shows (g : Geometry) (font : Font) (fb : Memory g) (grid : Grid) : Prop :=
  ∀ row < 24, ∀ col < 64, ∀ dy < 32, ∀ dx < 16, ∀ k < 4,
    peek fb (cellByte g row col dy dx k) =
      glyphByte font (grid ((row : ℤ),(col : ℤ))).toNat dy dx k

structure OnScreen (p : Put) : Prop where
  row : 0 ≤ p.1.1 ∧ p.1.1 < 24
  col : 0 ≤ p.1.2 ∧ p.1.2 < 64
  ascii : Ascii p

/-- One call, on a machine where plain `char` is signed or not. -/
def put (g : Geometry) (font : Font) (signed : Bool) (fb : Memory g) (p : Put) :
    Option (Memory g) :=
  fbputchar g font (charValue signed p.2) p.1.1 p.1.2 fb

section Refinement

variable {g : Geometry} {font : Font} {fb : Memory g} {grid : Grid}

theorem Shows.put (h : Shows g font fb grid) (hg : g.Fits) (signed : Bool) {p : Put}
    (hp : OnScreen p) : ∃ fb', put g font signed fb p = some fb' ∧
      Shows g font fb' (draw grid [p]) := by
  obtain ⟨⟨prow,pcol⟩,c⟩ := p
  obtain ⟨⟨hr0,hr⟩,⟨hc0,hc⟩,hascii⟩ := hp
  obtain ⟨row,rfl⟩ := Int.eq_ofNat_of_zero_le hr0
  obtain ⟨col,rfl⟩ := Int.eq_ofNat_of_zero_le hc0
  obtain ⟨fb',hfb',hin,hout⟩ :=
    fbputchar_spec hg font hascii (Int.ofNat_lt.mp hr) (Int.ofNat_lt.mp hc) fb
  refine ⟨fb',?_,?_⟩
  · rw [Framebuffer.put,charValue_of_lt signed hascii]
    exact hfb'
  · intro row' hr' col' hc' dy hdy dx hdx k hk
    rw [draw_singleton]
    by_cases hsame : row' = row ∧ col' = col
    · obtain ⟨rfl,rfl⟩ := hsame
      rw [Function.update_self]
      exact hin dy hdy dx hdx k hk
    · have hcell : ((row' : ℤ),(col' : ℤ)) ≠ ((row : ℤ),(col : ℤ)) := by
        intro heq
        simp only [Prod.mk.injEq] at heq
        omega
      have hbyte : InCell g row' col' (cellByte g row' col' dy dx k) :=
        ⟨dy,hdy,dx,hdx,k,hk,rfl⟩
      rw [Function.update_of_ne hcell,← h row' hr' col' hc' dy hdy dx hdx k hk]
      refine hout _ fun hin' => hsame ?_
      exact inCell_unique hg (Int.ofNat_lt.mp hc) hc' hin' hbyte

/-- Any sequence of calls on the screen does to the pixels what it does to the grid. -/
theorem Shows.puts (h : Shows g font fb grid) (hg : g.Fits) (signed : Bool) {ps : List Put}
    (hps : ∀ p ∈ ps, OnScreen p) : ∃ fb', ps.foldlM (Framebuffer.put g font signed) fb = some fb' ∧
      Shows g font fb' (draw grid ps) := by
  induction ps generalizing fb grid with
  | nil => exact ⟨fb,rfl,h⟩
  | cons p ps ih =>
    obtain ⟨fb₁,h₁,hs₁⟩ := h.put hg signed (hps p List.mem_cons_self)
    obtain ⟨fb₂,h₂,hs₂⟩ := ih hs₁ fun q hq => hps q (List.mem_cons_of_mem p hq)
    refine ⟨fb₂,?_,hs₂⟩
    rw [List.foldlM_cons,h₁]
    exact h₂

end Refinement

section Fbclear

variable {n : ℕ}

def clearPixel (s : (Fin n → UInt8) × ℤ) : Option ((Fin n → UInt8) × ℤ) := do
  let fb ← store4 s.1 s.2 0 0 0 0
  return (fb,s.2+4)

def clearLine (g : Geometry) (xres : BitVec 32) (y : ℤ) (fb : Memory g) : Option (Memory g) := do
  let row := ((BitVec.ofInt 32 y+g.yoffset)*g.lineLength).toNat+
    (g.xoffset*(bitsPerPixel/8)).toNat
  let s ← forUp 0 xres.toNat (fun _ => clearPixel) (fb,(row : ℤ))
  return s.1

def fbclear (g : Geometry) (xres yres : BitVec 32) (fb : Memory g) : Option (Memory g) :=
  forUp 0 yres.toNat (clearLine g xres) fb

/-- The visible area holds the screen of characters and lies inside the memory. -/
structure Visible (g : Geometry) (xres yres : BitVec 32) : Prop where
  wide : 1024 ≤ xres.toNat
  high : 768 ≤ yres.toNat
  line : 4*(g.xoffset.toNat+xres.toNat) ≤ g.lineLength.toNat
  memory : (g.yoffset.toNat+yres.toNat)*g.lineLength.toNat ≤ g.smemLen.toNat

variable {g : Geometry} {xres yres : BitVec 32}

theorem Visible.fits (h : Visible g xres yres) : g.Fits := by
  obtain ⟨hwide,hhigh,hline,hmem⟩ := h
  have hrows := Nat.add_le_add_left hhigh g.yoffset.toNat
  have hcols := Nat.add_le_add_left hwide g.xoffset.toNat
  exact ⟨(Nat.mul_le_mul_left 4 hcols).trans hline,(Nat.mul_le_mul_right _ hrows).trans hmem⟩

theorem clearPixels_writes (fb : Fin n → UInt8) {left m : ℕ} (hn : left+4*m ≤ n) :
    ∃ s, forUp 0 m (fun _ => clearPixel) (fb,(left : ℤ)) = some s ∧
      Writes fb s.1 left (4*m) fun _ => 0 := by
  obtain ⟨s,hs,-,hw⟩ : ∃ s, forUp 0 m (fun _ => clearPixel) (fb,(left : ℤ)) = some s ∧
      s.2 = (left+4*m : ℕ) ∧ Writes fb s.1 left (4*m) fun _ => 0 := by
    refine forUp_zero_rule
      (P := fun x (s : (Fin n → UInt8) × ℤ) =>
        s.2 = (left+4*x : ℕ) ∧ Writes fb s.1 left (4*x) fun _ => 0)
      ?_ ⟨rfl,Writes.nil fb left _⟩
    rintro x s hx ⟨hpixel,hw⟩
    obtain ⟨fb',hfb',hw'⟩ := store4_writes s.1 (by omega : left+4*x+4 ≤ n) 0
    refine ⟨(fb',s.2+4),?_,?_,hw.append hw' (fun _ _ => rfl) ?_⟩
    · rw [clearPixel,hpixel,hfb']
      rfl
    · rw [hpixel]
      push_cast
      ring
    · intro d hd
      exact (ite_self 0).symm
  exact ⟨s,hs,hw⟩

theorem clearLine_writes (h : Visible g xres yres) {y : ℕ} (hy : y < yres.toNat) (fb : Memory g) :
    ∃ fb', clearLine g xres y fb = some fb' ∧
      Writes fb fb' (address g g.yoffset.toNat g.xoffset.toNat 0+y*g.lineLength.toNat)
        (4*xres.toNat) fun _ => 0 := by
  have hline := h.line
  have hwide := h.wide
  have hL := g.lineLength.isLt
  have hprod : (g.yoffset.toNat+y+1)*g.lineLength.toNat ≤
      (g.yoffset.toNat+yres.toNat)*g.lineLength.toNat := Nat.mul_le_mul_right _ (by omega)
  have hmem := hprod.trans h.memory
  have hrow := lineOffset_eq (by omega) hmem
  have hcol : (g.xoffset*(bitsPerPixel/8)).toNat = 4*g.xoffset.toNat := by
    have h4 : (bitsPerPixel/8).toNat = 4 := rfl
    rw [BitVec.toNat_mul,h4]
    omega
  have horigin : (g.yoffset.toNat+y)*g.lineLength.toNat+4*g.xoffset.toNat =
      address g g.yoffset.toNat g.xoffset.toNat 0+y*g.lineLength.toNat := by
    unfold address
    ring
  rw [Nat.succ_mul] at hmem
  obtain ⟨s,hs,hw⟩ := clearPixels_writes fb
    (by omega : (g.yoffset.toNat+y)*g.lineLength.toNat+4*g.xoffset.toNat+4*xres.toNat ≤ _)
  refine ⟨s.1,?_,?_⟩
  · simp only [clearLine,hrow,hcol]
    rw [hs]
    rfl
  · rw [← horigin]
    exact hw

theorem fbclear_shows (h : Visible g xres yres) {font : Font}
    (hblank : ∀ i < 16, peek font (16*32+i) = 0) (fb : Memory g) :
    ∃ fb', fbclear g xres yres fb = some fb' ∧ Shows g font fb' Screen.fbclear := by
  have hwide := h.wide
  have hhigh := h.high
  have hline := h.line
  obtain ⟨fb',hfb',hw⟩ : ∃ fb', fbclear g xres yres fb = some fb' ∧
      WritesRows fb fb' (address g g.yoffset.toNat g.xoffset.toNat 0) g.lineLength.toNat
        (4*xres.toNat) yres.toNat fun _ _ => 0 := by
    refine forUp_zero_rule (P := fun y fb' =>
      WritesRows fb fb' (address g g.yoffset.toNat g.xoffset.toNat 0) g.lineLength.toNat
        (4*xres.toNat) y fun _ _ => 0) ?_ (WritesRows.nil _ _ _ _ _)
    intro y fb₁ hy h₁
    obtain ⟨fb₂,hfb₂,hw₂⟩ := clearLine_writes h hy fb₁
    exact ⟨fb₂,hfb₂,h₁.succ (by omega) hw₂⟩
  refine ⟨fb',hfb',?_⟩
  intro row hr col hc dy hdy dx hdx k hk
  have hplace : cellByte g row col dy dx k = address g g.yoffset.toNat g.xoffset.toNat 0+
      (32*row+dy)*g.lineLength.toNat+(64*col+4*dx+k) := by
    unfold cellByte address
    ring
  have hglyph : peek font (16*(Screen.fbclear ((row : ℤ),(col : ℤ))).toNat+dy/2) = 0 :=
    hblank (dy/2) (by omega)
  rw [hplace,hw.inside _ (by omega) _ (by omega),glyphByte,hglyph]
  simp [pixelByte]

end Fbclear

section Program

open ChatScreen MessageArea SharedStore

theorem start_onScreen : ∀ p ∈ fbInitScreen ++ fbputs prompt inputAreaTop 0, OnScreen p := by
  intro p hp
  rcases List.mem_append.mp hp with hp | hp
  · obtain ⟨col,hcol,rfl⟩ := List.mem_map.mp hp
    have hlt : col < 64 := List.mem_range.mp hcol
    refine ⟨(by decide : 0 ≤ dividerRow ∧ dividerRow < 24),?_,?_⟩
    · exact ⟨Int.natCast_nonneg col,Int.ofNat_lt.mpr hlt⟩
    · exact (by decide : (0x2d : UInt8).toNat < 128)
  · obtain ⟨hrow,hlo,hhi,hmem⟩ := mem_fbputs hp
    have htop : inputAreaTop = 22 := rfl
    have hlen : prompt.length = 11 := rfl
    exact ⟨by omega,by omega,prompt_ascii p.2 hmem⟩

theorem own_onScreen {i : Who} {a : Cell} (h : Own i a) :
    (0 ≤ a.1 ∧ a.1 < 24) ∧ 0 ≤ a.2 ∧ a.2 < 64 := by
  cases i <;> simp only [Own,InArea,InInputRow] at h <;> omega

/-- The threads of the program call `fbputchar` only on cells of the screen, and with glyphs of
the font if the messages that get shown are ASCII. -/
theorem advance_onScreen {msgs : ℕ → List UInt8}
    (hmsgs : ∀ k, Arrives msgs k → ∀ c ∈ drawn (msgs k), c.toNat < 128)
    (keys : ℕ → Keyboard.Event) (i : Who) (s : Local i) (h : LocalInv i s ∧ LocalChars msgs i s) :
    (LocalInv i (advance msgs keys i s).2 ∧ LocalChars msgs i (advance msgs keys i s).2) ∧
      ∀ p ∈ (advance msgs keys i s).1, OnScreen p := by
  obtain ⟨hinv,hchars⟩ := h
  obtain ⟨hinv',hown⟩ := advance_confined msgs keys i s hinv
  obtain ⟨hchars',hdraws⟩ := advance_chars msgs keys i s hchars
  refine ⟨⟨hinv',hchars'⟩,?_⟩
  intro p hp
  obtain ⟨hrow,hcol⟩ := own_onScreen (hown p hp)
  refine ⟨hrow,hcol,?_⟩
  rcases hdraws p hp with hascii | hspace | ⟨k,harr,hmem⟩
  · exact hascii
  · rw [Ascii,hspace]
    decide
  · exact hmsgs k harr p.2 hmem

theorem performed_onScreen {msgs : ℕ → List UInt8}
    (hmsgs : ∀ k, Arrives msgs k → ∀ c ∈ drawn (msgs k), c.toNat < 128)
    (keys : ℕ → Keyboard.Event) (sched : List Who) :
    ∀ p ∈ performed (advance msgs keys) start sched, OnScreen p := by
  have hstart : ∀ i, (LocalInv i (start.threads i).state ∧
      LocalChars msgs i (start.threads i).state) ∧ ∀ p ∈ (start.threads i).queue, OnScreen p :=
    fun i => ⟨⟨(start_good i).1,start_chars msgs i⟩,by simp [start_queue]⟩
  exact performed_of_queued (advance_onScreen hmsgs keys) hstart sched

/-- The framebuffer follows the screen, if the screen lies in the memory, a space is blank and the
messages are ASCII where they are drawn: from any memory, clearing it, drawing the start screen and
then making the calls of any schedule of the two threads never leaves the memory, and the pixels
are at the end those of the characters on the screen. -/
theorem pixels_follow_run {g : Geometry} {xres yres : BitVec 32} (hv : Visible g xres yres)
    {font : Font} (hblank : ∀ i < 16, peek font (16*32+i) = 0) (signed : Bool)
    {msgs : ℕ → List UInt8}
    (hmsgs : ∀ k, Arrives msgs k → ∀ c ∈ drawn (msgs k), c.toNat < 128)
    (keys : ℕ → Keyboard.Event) (sched : List Who) (fb : Memory g) :
    ∃ fb₀ fb₁ fb₂, fbclear g xres yres fb = some fb₀ ∧
      (fbInitScreen ++ fbputs prompt inputAreaTop 0).foldlM (Framebuffer.put g font signed) fb₀ =
        some fb₁ ∧
      (performed (advance msgs keys) start sched).foldlM (Framebuffer.put g font signed) fb₁ =
        some fb₂ ∧
      Shows g font fb₂ (run (advance msgs keys) start sched).mem := by
  obtain ⟨fb₀,h₀,hs₀⟩ := fbclear_shows hv hblank fb
  obtain ⟨fb₁,h₁,hs₁⟩ := hs₀.puts hv.fits signed start_onScreen
  obtain ⟨fb₂,h₂,hs₂⟩ := hs₁.puts hv.fits signed (performed_onScreen hmsgs keys sched)
  refine ⟨fb₀,fb₁,fb₂,h₀,h₁,h₂,?_⟩
  rw [run_mem]
  exact hs₂

def barFont : Font := fun j => if j.val/16 = 32 then 0 else 0x80

theorem barFont_space : ∀ i < 16, peek barFont (16*32+i) = 0 := by
  intro i hi
  have hlt : 16*32+i < 2048 := by omega
  have hglyph : (16*32+i)/16 = 32 := by omega
  rw [peek,dif_pos hlt]
  exact if_pos hglyph

theorem plain_visible : Visible plain 1024 768 := ⟨by decide,by decide,by decide,by decide⟩

theorem hi_ascii : ∀ c ∈ drawn [0x68,0x69], c.toNat < 128 := by
  decide +kernel

theorem pixels_follow_run_hi : Visible plain 1024 768 ∧
    ∃ fb₂ : Memory plain, Shows plain barFont fb₂
      (run (advance (fun _ => [0x68,0x69])
        (fun _ => ⟨0,0,⟨fun _ _ => 0,fun _ count => Int.natCast_nonneg count⟩⟩)) start
        [.net,.net,.net]).mem := by
  obtain ⟨-,-,fb₂,-,-,-,hs⟩ := pixels_follow_run plain_visible barFont_space true
    (fun _ _ => hi_ascii) (fun _ => ⟨0,0,⟨fun _ _ => 0,fun _ count => Int.natCast_nonneg count⟩⟩)
    [.net,.net,.net] (fun _ => 7)
  exact ⟨plain_visible,fb₂,hs⟩

end Program

end Framebuffer
end EmbeddedSystems
