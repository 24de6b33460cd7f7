import EmbeddedSystems.FontLookup
import Mathlib.Data.Nat.Bitwise

/-! `fbputchar` at the level of bytes: the framebuffer is a memory of `smem_len` bytes, `left` walks
down the lines of a cell, `pixel` along a line and `pixelp` through the glyph, with every row and
column of the glyph drawn twice. Addresses are computed in unsigned 32-bit arithmetic from the
offsets and the line length the device reports. The cells of `Screen` are blocks of this memory
that do not overlap, so drawing characters one after another is what `Screen.draw` says. -/

namespace EmbeddedSystems
namespace Framebuffer

open CArray Screen

/-- The fields of `fb_vinfo` and `fb_finfo` that an address depends on. -/
structure Geometry where
  xoffset : BitVec 32
  yoffset : BitVec 32
  lineLength : BitVec 32
  smemLen : BitVec 32

abbrev Memory (g : Geometry) := Fin g.smemLen.toNat → UInt8

abbrev Font := Fin 2048 → UInt8

def fontWidth : ℕ := 8
def bitsPerPixel : BitVec 32 := 32

section Code

variable {n : ℕ}

def store4 (fb : Fin n → UInt8) (pixel : ℤ) (b0 b1 b2 b3 : UInt8) : Option (Fin n → UInt8) := do
  let fb ← set fb pixel b0
  let fb ← set fb (pixel+1) b1
  let fb ← set fb (pixel+2) b2
  set fb (pixel+3) b3

def putPixel (fb : Fin n → UInt8) (pixel : ℤ) (pixels mask : UInt8) : Option (Fin n → UInt8) :=
  if pixels &&& mask ≠ 0 then store4 fb pixel 255 255 255 0 else store4 fb pixel 0 0 0 0

structure Strip (n : ℕ) where
  fb : Fin n → UInt8
  pixel : ℤ
  mask : UInt8

/-- One round of the inner loop: two pixels for one bit of the glyph. -/
def putBit (pixels : UInt8) (s : Strip n) : Option (Strip n) := do
  let fb ← putPixel s.fb s.pixel pixels s.mask
  let fb ← putPixel fb (s.pixel+4) pixels s.mask
  return ⟨fb,s.pixel+4+4,s.mask >>> 1⟩

structure Pen (n : ℕ) where
  fb : Fin n → UInt8
  left : ℤ
  pixelp : ℤ

/-- One round of the outer loop: a line of the cell. -/
def putLine (lineLength : BitVec 32) (font : Font) (y : ℤ) (s : Pen n) : Option (Pen n) := do
  let pixels ← get font s.pixelp
  let strip ← forUp 0 fontWidth (fun _ => putBit pixels) ⟨s.fb,s.left,0x80⟩
  return ⟨strip.fb,s.left+lineLength.toNat,if y % 2 ≠ 0 then s.pixelp+1 else s.pixelp⟩

/-- The offset of the first byte of a cell, in the arithmetic of the source. -/
def cellAddress (g : Geometry) (row col : ℤ) : ℤ :=
  ((BitVec.ofInt 32 (row*fontHeight*2)+g.yoffset)*g.lineLength).toNat +
    ((BitVec.ofInt 32 (col*fontWidth*2)+g.xoffset)*bitsPerPixel/8).toNat

def fbputchar (g : Geometry) (font : Font) (c row col : ℤ) (fb : Memory g) :
    Option (Memory g) := do
  let pen ← forUp 0 (fontHeight*2 : ℕ) (putLine g.lineLength font)
    ⟨fb,cellAddress g row col,fontHeight*c⟩
  return pen.fb

end Code

def pixelByte (lit : Bool) (k : ℕ) : UInt8 := if lit = true ∧ k < 3 then 255 else 0

def lineByte (pixels : UInt8) (d : ℕ) : UInt8 :=
  pixelByte (pixels.toNat.testBit (7-d/8)) (d%4)

section Line

variable {n : ℕ}

theorem store4_writes (fb : Fin n → UInt8) {p : ℕ} (hp : p+4 ≤ n) (v : UInt8) :
    ∃ fb', store4 fb p v v v 0 = some fb' ∧
      Writes fb fb' p 4 fun k => if k < 3 then v else 0 := by
  obtain ⟨fb₁,h₁,hw₁⟩ := set_writes fb (by omega : p < n) v
  obtain ⟨fb₂,h₂,hw₂⟩ := set_writes fb₁ (by omega : p+1 < n) v
  obtain ⟨fb₃,h₃,hw₃⟩ := set_writes fb₂ (by omega : p+2 < n) v
  obtain ⟨fb₄,h₄,hw₄⟩ := set_writes fb₃ (by omega : p+3 < n) 0
  push_cast at h₂ h₃ h₄
  refine ⟨fb₄,?_,?_⟩
  · simp only [store4,h₁,h₂,h₃,h₄,Option.bind_eq_bind,Option.bind_some]
  · have hw : Writes fb fb₃ p (1+1+1) fun _ => v :=
      (hw₁.append hw₂ (fun _ _ => rfl) fun _ _ => rfl).append hw₃ (fun _ _ => rfl) fun _ _ => rfl
    refine hw.append hw₄ ?_ ?_
    · intro d hd
      exact if_pos hd
    · intro d hd
      exact if_neg (by omega)

theorem putPixel_writes (fb : Fin n → UInt8) {p : ℕ} (hp : p+4 ≤ n) (pixels mask : UInt8) :
    ∃ fb', putPixel fb p pixels mask = some fb' ∧
      Writes fb fb' p 4 (pixelByte (decide (pixels &&& mask ≠ 0))) := by
  unfold putPixel
  by_cases hlit : pixels &&& mask ≠ 0
  · rw [if_pos hlit,decide_eq_true hlit]
    obtain ⟨fb',hfb',hw⟩ := store4_writes fb hp 255
    refine ⟨fb',hfb',?_⟩
    simpa [Writes,pixelByte] using hw
  · rw [if_neg hlit,decide_eq_false hlit]
    obtain ⟨fb',hfb',hw⟩ := store4_writes fb hp 0
    refine ⟨fb',hfb',?_⟩
    simpa [Writes,pixelByte] using hw

theorem and_mask (pixels : UInt8) {mask : UInt8} {x : ℕ} (hx : x < 8)
    (hm : mask.toNat = 128/2^x) :
    decide (pixels &&& mask ≠ 0) = pixels.toNat.testBit (7-x) := by
  have hpow : 128/2^x = 2^(7-x) := by
    rw [show 128 = 2^7 from rfl,Nat.pow_div (by omega) (by omega)]
  have hand : (pixels &&& mask).toNat = (pixels.toNat.testBit (7-x)).toNat*2^(7-x) := by
    rw [UInt8.toNat_and,hm,hpow,Nat.and_two_pow]
  have hzero : pixels &&& mask = 0 ↔ (pixels &&& mask).toNat = 0 := by
    rw [← UInt8.toNat_inj]
    rfl
  by_cases hlit : pixels.toNat.testBit (7-x) = true
  · rw [hlit] at hand ⊢
    refine decide_eq_true fun h => ?_
    have hpos := Nat.two_pow_pos (7-x)
    rw [hzero,hand,Bool.toNat_true,Nat.one_mul] at h
    omega
  · rw [Bool.not_eq_true] at hlit
    rw [hlit] at hand ⊢
    refine decide_eq_false (not_not.mpr ?_)
    rw [hzero,hand,Bool.toNat_false,Nat.zero_mul]

/-- After `x` rounds the first `2*x` pixels of the line are drawn. -/
structure Striped (fb : Fin n → UInt8) (pixels : UInt8) (left x : ℕ) (s : Strip n) : Prop where
  pixel : s.pixel = (left+8*x : ℕ)
  mask : s.mask.toNat = 128/2^x
  writes : Writes fb s.fb left (8*x) (lineByte pixels)

theorem Striped.putBit {fb : Fin n → UInt8} {pixels : UInt8} {left x : ℕ} {s : Strip n}
    (h : Striped fb pixels left x s) (hx : x < 8) (hn : left+64 ≤ n) :
    ∃ s', putBit pixels s = some s' ∧ Striped fb pixels left (x+1) s' := by
  obtain ⟨fb₁,h₁,hw₁⟩ := putPixel_writes s.fb (by omega : left+8*x+4 ≤ n) pixels s.mask
  obtain ⟨fb₂,h₂,hw₂⟩ := putPixel_writes fb₁ (by omega : left+8*x+4+4 ≤ n) pixels s.mask
  rw [and_mask pixels hx h.mask] at hw₁ hw₂
  push_cast at h₂
  refine ⟨⟨fb₂,s.pixel+4+4,s.mask >>> 1⟩,?_,?_,?_,?_⟩
  · simp only [Framebuffer.putBit,h.pixel,h₁]
    push_cast
    simp only [Option.bind_eq_bind,Option.bind_some,h₂]
    rfl
  · rw [h.pixel]
    push_cast
    ring
  · have hshift : (s.mask >>> 1).toNat = s.mask.toNat/2 := by
      rw [UInt8.toNat_shiftRight]
      exact Nat.shiftRight_one _
    rw [hshift,h.mask,Nat.div_div_eq_div_mul,pow_succ]
  · have he : 8*(x+1) = 8*x+4+4 := by ring
    rw [he]
    refine (h.writes.append hw₁ (fun _ _ => rfl) ?_).append hw₂ (fun _ _ => rfl) ?_
    · intro d hd
      rw [lineByte,show (8*x+d)/8 = x by omega,show (8*x+d)%4 = d by omega]
    · intro d hd
      rw [lineByte,show (8*x+4+d)/8 = x by omega,show (8*x+4+d)%4 = d by omega]

/-- The inner loop draws the sixteen pixels of a line and touches no other byte. -/
theorem putBits_writes (fb : Fin n → UInt8) (pixels : UInt8) {left : ℕ} (hn : left+64 ≤ n) :
    ∃ s', forUp 0 fontWidth (fun _ => putBit pixels) ⟨fb,left,0x80⟩ = some s' ∧
      Writes fb s'.fb left 64 (lineByte pixels) := by
  have hstart : Striped fb pixels left 0 ⟨fb,left,0x80⟩ := ⟨rfl,rfl,Writes.nil fb left _⟩
  obtain ⟨s',hs',hend⟩ : ∃ s', forUp 0 fontWidth (fun _ => putBit pixels) ⟨fb,left,0x80⟩ = some s' ∧
      Striped fb pixels left 8 s' :=
    forUp_zero_rule (P := Striped fb pixels left) (fun x s hx h => h.putBit hx hn) hstart
  exact ⟨s',hs',hend.writes⟩

end Line

section Cell

variable {n : ℕ}

/-- After `y` rounds of the outer loop the first `y` lines of the cell at `origin` are drawn. -/
structure Drawn (font : Font) (c origin L : ℕ) (fb : Fin n → UInt8) (y : ℕ) (s : Pen n) : Prop where
  left : s.left = (origin+y*L : ℕ)
  pixelp : s.pixelp = (16*c+y/2 : ℕ)
  writes : WritesRows fb s.fb origin L 64 y fun dy => lineByte (peek font (16*c+dy/2))

theorem Drawn.putLine {font : Font} {c origin y : ℕ} {lineLength : BitVec 32} {fb : Fin n → UInt8}
    {s : Pen n} (h : Drawn font c origin lineLength.toNat fb y s) (hc : c < 128) (hy : y < 32)
    (hL : 64 ≤ lineLength.toNat) (hn : origin+31*lineLength.toNat+64 ≤ n) :
    ∃ s', putLine lineLength font y s = some s' ∧
      Drawn font c origin lineLength.toNat fb (y+1) s' := by
  generalize hLdef : lineLength.toNat = L at h hL hn
  have hyL : y*L ≤ 31*L := Nat.mul_le_mul_right L (by omega)
  have hread : get font s.pixelp = some (peek font (16*c+y/2)) := by
    rw [h.pixelp]
    exact get_eq_peek font (by omega)
  obtain ⟨strip,hstrip,hw⟩ :=
    putBits_writes s.fb (peek font (16*c+y/2)) (by omega : origin+y*L+64 ≤ n)
  rw [← h.left] at hstrip
  refine ⟨⟨strip.fb,s.left+lineLength.toNat,
    if (y : ℤ) % 2 ≠ 0 then s.pixelp+1 else s.pixelp⟩,?_,?_,?_,h.writes.succ hL hw⟩
  · simp only [Framebuffer.putLine,hread,Option.bind_eq_bind,Option.bind_some,hstrip]
    rfl
  · rw [h.left,hLdef]
    push_cast
    ring
  · change (if (y : ℤ) % 2 ≠ 0 then s.pixelp+1 else s.pixelp) = _
    rw [h.pixelp]
    by_cases hodd : (y : ℤ) % 2 ≠ 0
    · rw [if_pos hodd]
      omega
    · rw [if_neg hodd]
      omega

end Cell

/-- The visible 1024 by 768 pixels lie inside a line and inside the memory. -/
structure Geometry.Fits (g : Geometry) : Prop where
  line : 4*(g.xoffset.toNat+1024) ≤ g.lineLength.toNat
  memory : (g.yoffset.toNat+768)*g.lineLength.toNat ≤ g.smemLen.toNat

def address (g : Geometry) (line column k : ℕ) : ℕ := line*g.lineLength.toNat+4*column+k

section Addresses

variable {g : Geometry} {row col : ℕ}

/-- A line inside the memory is found without a product or sum that wraps. -/
theorem lineOffset_eq {i : ℕ} (hL : 0 < g.lineLength.toNat)
    (hi : (g.yoffset.toNat+i+1)*g.lineLength.toNat ≤ g.smemLen.toNat) :
    ((BitVec.ofInt 32 (i : ℤ)+g.yoffset)*g.lineLength).toNat =
      (g.yoffset.toNat+i)*g.lineLength.toNat := by
  have hlen := g.smemLen.isLt
  have hpos : g.yoffset.toNat+i+1 ≤ (g.yoffset.toNat+i+1)*g.lineLength.toNat :=
    Nat.le_mul_of_pos_right _ hL
  rw [Nat.succ_mul] at hi hpos
  rw [BitVec.ofInt_natCast,BitVec.toNat_mul,BitVec.toNat_add,BitVec.toNat_ofNat,
    Nat.mod_eq_of_lt (by omega : i < 2^32),Nat.add_comm i,
    Nat.mod_eq_of_lt (by omega : g.yoffset.toNat+i < 2^32)]
  exact Nat.mod_eq_of_lt (by omega)

theorem lineAddress_eq (hg : g.Fits) (hr : row < 24) :
    ((BitVec.ofInt 32 ((row : ℤ)*fontHeight*2)+g.yoffset)*g.lineLength).toNat =
      (g.yoffset.toNat+32*row)*g.lineLength.toNat := by
  have hrow : (row : ℤ)*fontHeight*2 = (32*row : ℕ) := by
    simp only [fontHeight]
    push_cast
    ring
  have hline := hg.line
  have hprod : (g.yoffset.toNat+32*row+1)*g.lineLength.toNat ≤
      (g.yoffset.toNat+768)*g.lineLength.toNat := Nat.mul_le_mul_right _ (by omega)
  rw [hrow]
  exact lineOffset_eq (by omega) (hprod.trans hg.memory)

theorem columnAddress_eq (hg : g.Fits) (hc : col < 64) :
    ((BitVec.ofInt 32 ((col : ℤ)*fontWidth*2)+g.xoffset)*bitsPerPixel/8).toNat =
      4*(g.xoffset.toNat+16*col) := by
  have hline := hg.line
  have hmem := hg.memory
  have hlen := g.smemLen.isLt
  have hcol : BitVec.ofInt 32 ((col : ℤ)*fontWidth*2) = BitVec.ofNat 32 (16*col) := by
    rw [← BitVec.ofInt_natCast]
    congr 1
    simp only [fontWidth]
    push_cast
    ring
  have hL : 768*g.lineLength.toNat ≤ (g.yoffset.toNat+768)*g.lineLength.toNat :=
    Nat.mul_le_mul_right _ (by omega)
  have h32 : bitsPerPixel.toNat = 32 := rfl
  have h8 : (8 : BitVec 32).toNat = 8 := rfl
  rw [hcol,BitVec.toNat_udiv,BitVec.toNat_mul,BitVec.toNat_add,BitVec.toNat_ofNat,h32,h8]
  omega

theorem cellAddress_eq (hg : g.Fits) (hr : row < 24) (hc : col < 64) : cellAddress g row col =
    (address g (g.yoffset.toNat+32*row) (g.xoffset.toNat+16*col) 0 : ℕ) := by
  unfold cellAddress address
  rw [lineAddress_eq hg hr,columnAddress_eq hg hc]
  push_cast
  ring

def cellByte (g : Geometry) (row col dy dx k : ℕ) : ℕ :=
  address g (g.yoffset.toNat+32*row+dy) (g.xoffset.toNat+16*col+dx) k

/-- The byte belongs to the cell. -/
def InCell (g : Geometry) (row col j : ℕ) : Prop :=
  ∃ dy < 32, ∃ dx < 16, ∃ k < 4, j = cellByte g row col dy dx k

theorem cellByte_eq (g : Geometry) (row col dy dx k : ℕ) : cellByte g row col dy dx k =
    address g (g.yoffset.toNat+32*row) (g.xoffset.toNat+16*col) 0+
      dy*g.lineLength.toNat+(4*dx+k) := by
  unfold cellByte address
  ring

theorem cellByte_lt (hg : g.Fits) (hr : row < 24) (hc : col < 64) {dy dx k : ℕ} (hdy : dy < 32)
    (hdx : dx < 16) (hk : k < 4) : cellByte g row col dy dx k < g.smemLen.toNat := by
  have hline := hg.line
  have hmem := hg.memory
  have hprod : (g.yoffset.toNat+32*row+dy+1)*g.lineLength.toNat ≤
      (g.yoffset.toNat+768)*g.lineLength.toNat := Nat.mul_le_mul_right _ (by omega)
  rw [Nat.succ_mul] at hprod
  unfold cellByte address
  omega

theorem line_unique {L a b r s : ℕ} (hr : r < L) (hs : s < L) (h : a*L+r = b*L+s) :
    a = b ∧ r = s := by
  have hab : a = b := by
    rcases Nat.lt_trichotomy a b with hlt | heq | hgt
    · have hstep : (a+1)*L ≤ b*L := Nat.mul_le_mul_right L hlt
      rw [Nat.succ_mul] at hstep
      omega
    · exact heq
    · have hstep : (b+1)*L ≤ a*L := Nat.mul_le_mul_right L hgt
      rw [Nat.succ_mul] at hstep
      omega
  subst hab
  exact ⟨rfl,by omega⟩

theorem inCell_unique (hg : g.Fits) (hc : col < 64) {row' col' j : ℕ} (hc' : col' < 64)
    (h : InCell g row col j) (h' : InCell g row' col' j) : row' = row ∧ col' = col := by
  have hline := hg.line
  obtain ⟨dy,hdy,dx,hdx,k,hk,rfl⟩ := h
  obtain ⟨dy',hdy',dx',hdx',k',hk',he⟩ := h'
  unfold cellByte address at he
  rw [Nat.add_assoc,Nat.add_assoc (_*_)] at he
  obtain ⟨hrow,hcol⟩ := line_unique (by omega) (by omega) he
  omega

end Addresses

/-- Byte `k` of a pixel of the glyph of `c`, every row and column of it drawn twice. -/
def glyphByte (font : Font) (c dy dx k : ℕ) : UInt8 :=
  pixelByte ((peek font (16*c+dy/2)).toNat.testBit (7-dx/2)) k

section Fbputchar

variable {g : Geometry} {font : Font} {c row col : ℕ}

/-- A character is drawn without leaving the memory, and its cell is all that changes. -/
theorem fbputchar_spec (hg : g.Fits) (font : Font) (hc : c < 128) (hr : row < 24) (hcol : col < 64)
    (fb : Memory g) : ∃ fb', fbputchar g font c row col fb = some fb' ∧
      (∀ dy < 32, ∀ dx < 16, ∀ k < 4,
        peek fb' (cellByte g row col dy dx k) = glyphByte font c dy dx k) ∧
      ∀ j, ¬InCell g row col j → peek fb' j = peek fb j := by
  have hline := hg.line
  have hend := cellByte_lt hg hr hcol (by omega : 31 < 32) (by omega : 15 < 16) (by omega : 3 < 4)
  rw [cellByte_eq] at hend
  generalize ho : address g (g.yoffset.toNat+32*row) (g.xoffset.toNat+16*col) 0 = origin at hend
  have hstart : Drawn font c origin g.lineLength.toNat fb 0
      ⟨fb,cellAddress g row col,fontHeight*(c : ℤ)⟩ := by
    refine ⟨?_,rfl,WritesRows.nil _ _ _ _ _⟩
    rw [Nat.zero_mul,Nat.add_zero,← ho]
    exact cellAddress_eq hg hr hcol
  obtain ⟨pen,hpen,hdrawn⟩ : ∃ pen, forUp 0 (fontHeight*2 : ℕ) (putLine g.lineLength font)
      ⟨fb,cellAddress g row col,fontHeight*(c : ℤ)⟩ = some pen ∧
        Drawn font c origin g.lineLength.toNat fb 32 pen :=
    forUp_zero_rule (P := Drawn font c origin g.lineLength.toNat fb)
      (fun y s hy h => h.putLine hc hy (by omega) (by omega)) hstart
  refine ⟨pen.fb,?_,?_,?_⟩
  · rw [fbputchar,hpen]
    rfl
  · intro dy hdy dx hdx k hk
    rw [cellByte_eq,ho,hdrawn.writes.inside dy hdy (4*dx+k) (by omega),lineByte,glyphByte,
      show (4*dx+k)/8 = dx/2 by omega,show (4*dx+k)%4 = k by omega]
  · intro j hj
    refine hdrawn.writes.outside j fun dy hdy hin => hj ?_
    generalize hd : j-(origin+dy*g.lineLength.toNat) = d
    refine ⟨dy,hdy,d/4,by omega,d%4,by omega,?_⟩
    rw [cellByte_eq,ho]
    omega

def pixelAt (g : Geometry) (fb : Memory g) (line column : ℕ) : List UInt8 :=
  [0,1,2,3].map fun k => peek fb (address g line column k)

/-- The characters of the screen are isolated blocks of pixels. -/
theorem fbputchar_isolated (hg : g.Fits) (font : Font) (hc : c < 128) (hr : row < 24)
    (hcol : col < 64) (fb : Memory g) :
    ∃ fb', fbputchar g font c row col fb = some fb' ∧
      (∀ dy < 32, ∀ dx < 16,
        pixelAt g fb' (g.yoffset.toNat+32*row+dy) (g.xoffset.toNat+16*col+dx) =
          if (peek font (16*c+dy/2)).toNat.testBit (7-dx/2) then [255,255,255,0]
          else [0,0,0,0]) ∧
      (∀ j, InCell g row col j → j < g.smemLen.toNat) ∧
      (∀ j, ¬InCell g row col j → peek fb' j = peek fb j) ∧
      ∀ row' col', row' < 24 → col' < 64 → ¬(row' = row ∧ col' = col) →
        ∀ j, InCell g row' col' j → peek fb' j = peek fb j := by
  obtain ⟨fb',hfb',hin,hout⟩ := fbputchar_spec hg font hc hr hcol fb
  refine ⟨fb',hfb',?_,?_,hout,?_⟩
  · intro dy hdy dx hdx
    have hbyte : ∀ k < 4, peek fb' (address g (g.yoffset.toNat+32*row+dy)
        (g.xoffset.toNat+16*col+dx) k) = glyphByte font c dy dx k := hin dy hdy dx hdx
    simp only [pixelAt,List.map_cons,List.map_nil,hbyte 0 (by omega),hbyte 1 (by omega),
      hbyte 2 (by omega),hbyte 3 (by omega),glyphByte,pixelByte]
    by_cases hbit : (peek font (16*c+dy/2)).toNat.testBit (7-dx/2) = true
    · simp [hbit]
    · simp [hbit]
  · rintro j ⟨dy,hdy,dx,hdx,k,hk,rfl⟩
    exact cellByte_lt hg hr hcol hdy hdx hk
  · intro row' col' hr' hcol' hne j hj
    refine hout j fun hj' => hne ?_
    exact inCell_unique hg hcol hcol' hj' hj

def plain : Geometry := ⟨0,0,4096,3145728⟩

theorem fbputchar_isolated_plain : plain.Fits ∧
    ∃ fb', fbputchar plain (fun _ => 0x80) (65 : ℕ) (23 : ℕ) (63 : ℕ) (fun _ => 7) = some fb' ∧
      pixelAt plain fb' (0+32*23+31) (0+16*63+1) = [255,255,255,0] ∧
      pixelAt plain fb' (0+32*23+31) (0+16*63+15) = [0,0,0,0] := by
  have hfits : plain.Fits := ⟨by decide,by decide⟩
  obtain ⟨fb',hfb',hpix,-⟩ := fbputchar_isolated hfits (fun _ => 0x80) (by omega : 65 < 128)
    (by omega : 23 < 24) (by omega : 63 < 64) (fun _ => 7)
  exact ⟨hfits,fb',hfb',hpix 31 (by omega) 1 (by omega),hpix 31 (by omega) 15 (by omega)⟩

end Fbputchar

end Framebuffer
end EmbeddedSystems
