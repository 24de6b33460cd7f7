import EmbeddedSystems.ScreenPixels
import EmbeddedSystems.SplitWrites

/-! `fbputchar` stores 2048 bytes, and the other thread may run between any two of them. The stores
of a call are the bytes of one cell of the screen, so the threads never store to the same byte:
what a schedule of single stores leaves in the framebuffer is what a schedule of whole calls
leaves there, but for the two cells that are just being drawn. -/

namespace EmbeddedSystems

namespace CArray

variable {n : ℕ} {β σ : Type*}

/-- The stores of a list, one after the other. -/
def storeAll (a : Fin n → β) (xs : List (ℕ × β)) : Option (Fin n → β) :=
  xs.foldlM (fun a x => set a (x.1 : ℤ) x.2) a

theorem storeAll_append (a : Fin n → β) (xs ys : List (ℕ × β)) :
    storeAll a (xs ++ ys) = (storeAll a xs).bind fun a' => storeAll a' ys :=
  List.foldlM_append

theorem forUp_storeAll {m : ℕ → (Fin n → β) → σ} {f : ℤ → σ → Option σ}
    {w : ℕ → List (ℕ × β)} {hi : ℕ}
    (h : ∀ i < hi, ∀ a, f i (m i a) = (storeAll a (w i)).map (m (i+1)))
    (a : Fin n → β) : forUp 0 hi f (m 0 a) =
      (storeAll a ((List.range hi).flatMap w)).map (m hi) := by
  have hloop : ∀ k lo a, lo+k ≤ hi → loopUp f lo k (m lo a) =
      (storeAll a ((List.range' lo k).flatMap w)).map (m (lo+k)) := by
    intro k
    induction k with
    | zero =>
      intro lo a hk
      rfl
    | succ k ih =>
      intro lo a hk
      rw [loopUp,h lo (by omega),List.range'_succ,List.flatMap_cons,storeAll_append]
      cases hs : storeAll a (w lo) with
      | none => rfl
      | some a' =>
        have hrest := ih (lo+1) a' (by omega)
        rw [Nat.cast_add,Nat.cast_one] at hrest
        rw [Option.map_some,Option.bind_some,Option.bind_some,hrest,
          show lo+1+k = lo+(k+1) by omega]
  have hzero := hloop hi 0 a (by omega)
  rw [Nat.zero_add,← List.range_eq_range'] at hzero
  exact hzero

end CArray

namespace Framebuffer

open CArray Screen

def pixelStores (p : ℕ) (lit : Bool) : List (ℕ × UInt8) :=
  (List.range 4).map fun k => (p+k,pixelByte lit k)

def bitStores (pixels : UInt8) (left x : ℕ) : List (ℕ × UInt8) :=
  pixelStores (left+8*x) (pixels.toNat.testBit (7-x)) ++
    pixelStores (left+8*x+4) (pixels.toNat.testBit (7-x))

def lineStores (pixels : UInt8) (left : ℕ) : List (ℕ × UInt8) :=
  (List.range fontWidth).flatMap (bitStores pixels left)

def charStores (g : Geometry) (font : Font) (c : ℕ) (row col : ℤ) : List (ℕ × UInt8) :=
  (List.range (fontHeight*2)).flatMap fun y =>
    lineStores (peek font (16*c+y/2)) ((cellAddress g row col).toNat+y*g.lineLength.toNat)

section Order

variable {n : ℕ}

theorem putPixel_stores (fb : Fin n → UInt8) (p : ℕ) (pixels mask : UInt8) :
    putPixel fb p pixels mask =
      storeAll fb (pixelStores p (decide (pixels &&& mask ≠ 0))) := by
  unfold putPixel
  by_cases hlit : pixels &&& mask ≠ 0
  · rw [if_pos hlit,decide_eq_true hlit]
    simp [store4,storeAll,pixelStores,pixelByte,List.range_succ]
  · rw [if_neg hlit,decide_eq_false hlit]
    simp [store4,storeAll,pixelStores,pixelByte,List.range_succ]

theorem putBit_stores (fb : Fin n → UInt8) (pixels : UInt8) (left : ℕ) {x : ℕ} (hx : x < 8) :
    putBit pixels ⟨fb,(left+8*x : ℕ),UInt8.ofNat (128/2^x)⟩ =
      (storeAll fb (bitStores pixels left x)).map fun fb' =>
        ⟨fb',(left+8*(x+1) : ℕ),UInt8.ofNat (128/2^(x+1))⟩ := by
  have hmask : (UInt8.ofNat (128/2^x)).toNat = 128/2^x ∧
      UInt8.ofNat (128/2^x) >>> 1 = UInt8.ofNat (128/2^(x+1)) := by
    revert hx x
    decide
  have hpixel : ((left+8*x : ℕ) : ℤ)+4 = (left+8*x+4 : ℕ) := by
    push_cast
    ring
  have hnext : ((left+8*x : ℕ) : ℤ)+4+4 = (left+8*(x+1) : ℕ) := by
    push_cast
    ring
  simp only [putBit,hnext]
  rw [hpixel,hmask.2,bitStores,storeAll_append,putPixel_stores,and_mask pixels hx hmask.1]
  cases storeAll fb (pixelStores (left+8*x) (pixels.toNat.testBit (7-x))) with
  | none => rfl
  | some fb' =>
    simp only [Option.bind_eq_bind,Option.bind_some,putPixel_stores,and_mask pixels hx hmask.1]
    cases storeAll fb' (pixelStores (left+8*x+4) (pixels.toNat.testBit (7-x))) <;> rfl

theorem putLine_stores (lineLength : BitVec 32) {font : Font} (fb : Fin n → UInt8) {c y : ℕ}
    (hc : c < 128) (hy : y < 32) (left : ℕ) :
    putLine lineLength font y ⟨fb,(left+y*lineLength.toNat : ℕ),(16*c+y/2 : ℕ)⟩ =
      (storeAll fb (lineStores (peek font (16*c+y/2)) (left+y*lineLength.toNat))).map fun fb' =>
        ⟨fb',(left+(y+1)*lineLength.toNat : ℕ),(16*c+(y+1)/2 : ℕ)⟩ := by
  have hread : get font ((16*c+y/2 : ℕ) : ℤ) = some (peek font (16*c+y/2)) :=
    get_eq_peek font (by omega)
  have hleft : ((left+y*lineLength.toNat : ℕ) : ℤ)+lineLength.toNat =
      (left+(y+1)*lineLength.toNat : ℕ) := by
    push_cast
    ring
  have hpixelp : (if (y : ℤ) % 2 ≠ 0 then ((16*c+y/2 : ℕ) : ℤ)+1 else ((16*c+y/2 : ℕ) : ℤ)) =
      (16*c+(y+1)/2 : ℕ) := by
    by_cases hodd : (y : ℤ) % 2 ≠ 0
    · rw [if_pos hodd]
      omega
    · rw [if_neg hodd]
      omega
  have hbits := forUp_storeAll
    (m := fun x (fb : Fin n → UInt8) =>
      (⟨fb,(left+y*lineLength.toNat+8*x : ℕ),UInt8.ofNat (128/2^x)⟩ : Strip n))
    (f := fun _ => putBit (peek font (16*c+y/2)))
    (w := bitStores (peek font (16*c+y/2)) (left+y*lineLength.toNat))
    (fun x (hx : x < fontWidth) fb =>
      putBit_stores fb (peek font (16*c+y/2)) (left+y*lineLength.toNat) hx) fb
  simp only [putLine,hread,hleft,hpixelp,Option.bind_eq_bind,Option.bind_some]
  rw [Nat.mul_zero,Nat.add_zero] at hbits
  rw [lineStores]
  refine (congrArg (fun o => Option.bind o _) hbits).trans ?_
  cases storeAll fb ((List.range fontWidth).flatMap (bitStores (peek font (16*c+y/2))
    (left+y*lineLength.toNat))) <;> rfl

/-- `fbputchar` is the list of its stores, also where it leaves the memory. -/
theorem fbputchar_stores (g : Geometry) (font : Font) {c : ℕ} (hc : c < 128) (row col : ℤ)
    (fb : Memory g) :
    fbputchar g font c row col fb = storeAll fb (charStores g font c row col) := by
  have haddr : cellAddress g row col = ((cellAddress g row col).toNat : ℕ) := by
    unfold cellAddress
    omega
  have hlines := forUp_storeAll
    (m := fun y (fb : Memory g) =>
      (⟨fb,((cellAddress g row col).toNat+y*g.lineLength.toNat : ℕ),(16*c+y/2 : ℕ)⟩ : Pen _))
    (f := putLine g.lineLength font)
    (w := fun y => lineStores (peek font (16*c+y/2))
      ((cellAddress g row col).toNat+y*g.lineLength.toNat))
    (fun y (hy : y < fontHeight*2) fb => putLine_stores g.lineLength fb hc hy _) fb
  have hstart : ((16*c+0/2 : ℕ) : ℤ) = fontHeight*(c : ℤ) := by
    rw [fontHeight]
    push_cast
    ring
  rw [Nat.zero_mul,Nat.add_zero,← haddr,hstart] at hlines
  rw [fbputchar,hlines,charStores]
  cases storeAll fb ((List.range (fontHeight*2)).flatMap fun y => lineStores (peek font (16*c+y/2))
    ((cellAddress g row col).toNat+y*g.lineLength.toNat)) <;> rfl

end Order

section Places

variable {g : Geometry} {font : Font} {row col : ℕ}

theorem mem_pixelStores {p : ℕ} {lit : Bool} {x : ℕ × UInt8} :
    x ∈ pixelStores p lit ↔ ∃ k < 4, x = (p+k,pixelByte lit k) := by
  simp only [pixelStores,List.mem_map,List.mem_range]
  exact exists_congr fun k => and_congr_right fun _ => eq_comm

theorem mem_lineStores {pixels : UInt8} {left : ℕ} {x : ℕ × UInt8} :
    x ∈ lineStores pixels left ↔ ∃ dx < 16, ∃ k < 4,
      x = (left+(4*dx+k),pixelByte (pixels.toNat.testBit (7-dx/2)) k) := by
  simp only [lineStores,bitStores,List.mem_flatMap,List.mem_range,List.mem_append,mem_pixelStores,
    fontWidth]
  constructor
  · rintro ⟨b,hb,⟨k,hk,rfl⟩ | ⟨k,hk,rfl⟩⟩
    · refine ⟨2*b,by omega,k,hk,?_⟩
      rw [show 2*b/2 = b by omega,show left+8*b+k = left+(4*(2*b)+k) by omega]
    · refine ⟨2*b+1,by omega,k,hk,?_⟩
      rw [show (2*b+1)/2 = b by omega,show left+8*b+4+k = left+(4*(2*b+1)+k) by omega]
  · rintro ⟨dx,hdx,k,hk,rfl⟩
    refine ⟨dx/2,by omega,?_⟩
    rcases Nat.mod_two_eq_zero_or_one dx with h | h
    · refine Or.inl ⟨k,hk,?_⟩
      rw [show left+8*(dx/2)+k = left+(4*dx+k) by omega]
    · refine Or.inr ⟨k,hk,?_⟩
      rw [show left+8*(dx/2)+4+k = left+(4*dx+k) by omega]

theorem mem_charStores (hg : g.Fits) (hr : row < 24) (hc : col < 64) {c : ℕ} {x : ℕ × UInt8} :
    x ∈ charStores g font c row col ↔ ∃ dy < 32, ∃ dx < 16, ∃ k < 4,
      x = (cellByte g row col dy dx k,glyphByte font c dy dx k) := by
  simp only [charStores,List.mem_flatMap,List.mem_range,mem_lineStores,cellAddress_eq hg hr hc,
    Int.toNat_natCast,cellByte_eq,fontHeight]
  rfl

/-- What the byte at `j` holds when its cell shows `c`. -/
def shade (g : Geometry) (font : Font) (j : ℕ) (c : UInt8) : UInt8 :=
  glyphByte font c.toNat ((j/g.lineLength.toNat-g.yoffset.toNat) % 32)
    ((j % g.lineLength.toNat/4-g.xoffset.toNat) % 16) (j % g.lineLength.toNat % 4)

theorem shade_cellByte (hg : g.Fits) (hc : col < 64) {dy dx k : ℕ} (hdy : dy < 32) (hdx : dx < 16)
    (hk : k < 4) (c : UInt8) :
    shade g font (cellByte g row col dy dx k) c = glyphByte font c.toNat dy dx k := by
  have hline := hg.line
  have hlt : 4*(g.xoffset.toNat+16*col+dx)+k < g.lineLength.toNat := by omega
  have hbyte : cellByte g row col dy dx k = 4*(g.xoffset.toNat+16*col+dx)+k+
      g.lineLength.toNat*(g.yoffset.toNat+32*row+dy) := by
    unfold cellByte address
    ring
  have hdiv : cellByte g row col dy dx k/g.lineLength.toNat = g.yoffset.toNat+32*row+dy := by
    rw [hbyte,Nat.add_mul_div_left _ _ (by omega),Nat.div_eq_of_lt hlt,Nat.zero_add]
  have hmod : cellByte g row col dy dx k % g.lineLength.toNat =
      4*(g.xoffset.toNat+16*col+dx)+k := by
    rw [hbyte,Nat.add_mul_mod_self_left,Nat.mod_eq_of_lt hlt]
  rw [shade,hdiv,hmod,show (g.yoffset.toNat+32*row+dy-g.yoffset.toNat) % 32 = dy by omega,
    show ((4*(g.xoffset.toNat+16*col+dx)+k)/4-g.xoffset.toNat) % 16 = dx by omega,
    show (4*(g.xoffset.toNat+16*col+dx)+k) % 4 = k by omega]

def PartOf (g : Geometry) (j : ℕ) (a : Cell) : Prop :=
  ∃ row col : ℕ, row < 24 ∧ col < 64 ∧ a = ((row : ℤ),(col : ℤ)) ∧ InCell g row col j

def putStores (g : Geometry) (font : Font) (p : Put) : List (ℕ × UInt8) :=
  charStores g font p.2.toNat p.1.1 p.1.2

theorem OnScreen.exists_cell {p : Put} (h : OnScreen p) :
    ∃ row col : ℕ, row < 24 ∧ col < 64 ∧ p.1 = ((row : ℤ),(col : ℤ)) := by
  obtain ⟨⟨prow,pcol⟩,c⟩ := p
  obtain ⟨⟨hr0,hr⟩,⟨hc0,hc⟩,-⟩ := h
  obtain ⟨row,rfl⟩ := Int.eq_ofNat_of_zero_le hr0
  obtain ⟨col,rfl⟩ := Int.eq_ofNat_of_zero_le hc0
  exact ⟨row,col,Int.ofNat_lt.mp hr,Int.ofNat_lt.mp hc,rfl⟩

theorem put_stores (signed : Bool) {p : Put} (h : OnScreen p) (fb : Memory g) :
    Framebuffer.put g font signed fb p = storeAll fb (putStores g font p) := by
  rw [Framebuffer.put,charValue_of_lt signed h.ascii]
  exact fbputchar_stores g font h.ascii _ _ fb

/-- The calls on the screen reach the bytes of their cells, each cell its own. -/
theorem putStores_carries (hg : g.Fits) (font : Font) :
    SharedStore.Carries (putStores g font) (PartOf g) (shade g font) OnScreen where
  ne_nil := by
    intro p hp hnil
    obtain ⟨row,col,hr,hc,hcell⟩ := hp.exists_cell
    have hmem : (cellByte g row col 0 0 0,glyphByte font p.2.toNat 0 0 0) ∈ putStores g font p := by
      rw [putStores,hcell]
      exact (mem_charStores hg hr hc).mpr ⟨0,by omega,0,by omega,0,by omega,rfl⟩
    rw [hnil] at hmem
    exact absurd hmem List.not_mem_nil
  places := by
    intro p hp x hx
    obtain ⟨row,col,hr,hc,hcell⟩ := hp.exists_cell
    rw [putStores,hcell] at hx
    obtain ⟨dy,hdy,dx,hdx,k,hk,rfl⟩ := (mem_charStores hg hr hc).mp hx
    refine ⟨⟨row,col,hr,hc,hcell,dy,hdy,dx,hdx,k,hk,rfl⟩,?_⟩
    exact (shade_cellByte hg hc hdy hdx hk p.2).symm
  covers := by
    rintro p hp b ⟨row,col,hr,hc,hcell,dy,hdy,dx,hdx,k,hk,rfl⟩
    refine ⟨(_,glyphByte font p.2.toNat dy dx k),?_,rfl⟩
    rw [putStores,hcell]
    exact (mem_charStores hg hr hc).mpr ⟨dy,hdy,dx,hdx,k,hk,rfl⟩
  unique := by
    rintro b a a' ⟨row,col,hr,hc,rfl,hin⟩ ⟨row',col',hr',hc',rfl,hin'⟩
    obtain ⟨rfl,rfl⟩ := inCell_unique hg hc hc' hin hin'
    rfl

end Places

section Program

open ChatScreen MessageArea SharedStore

/-- The threads of the program, one store to the framebuffer at a time. -/
def advanceBytes (g : Geometry) (font : Font) (msgs : ℕ → List UInt8)
    (keys : ℕ → Keyboard.Event) : ∀ i, Local i → List (ℕ × UInt8) × Local i :=
  split (putStores g font) (advance msgs keys)

def startBytes {g : Geometry} (fb : Memory g) : Config ℕ UInt8 Local :=
  ⟨peek fb,fun i => ⟨(start.threads i).state,[]⟩⟩

/-- Between two stores: a byte of the screen shows the character that the grid has in its cell,
or the one that a thread is just drawing there. -/
def Torn (g : Geometry) (font : Font) (cells : Config Cell UInt8 Local)
    (bytes : Config ℕ UInt8 Local) : Prop :=
  ∀ row < 24, ∀ col < 64, ∀ dy < 32, ∀ dx < 16, ∀ k < 4,
    bytes.mem (cellByte g row col dy dx k) =
        glyphByte font (cells.mem ((row : ℤ),(col : ℤ))).toNat dy dx k ∨
      ∃ i c q, (cells.threads i).queue = (((row : ℤ),(col : ℤ)),c)::q ∧
        (bytes.threads i).queue ≠ [] ∧
        bytes.mem (cellByte g row col dy dx k) = glyphByte font c.toNat dy dx k

variable {g : Geometry} {font : Font} {msgs : ℕ → List UInt8}

theorem startBytes_simulates (hg : g.Fits) {fb : Memory g} (hs : Shows g font fb startScreen) :
    Simulates (putStores g font) (PartOf g) (shade g font) start (fun _ => []) (startBytes fb) where
  behind := by
    intro i
    refine ⟨rfl,?_,Or.inl rfl⟩
    rw [start_queue]
    rfl
  kept := by simp
  agree := by
    rintro b a ⟨row,col,hr,hc,rfl,dy,hdy,dx,hdx,k,hk,rfl⟩
    left
    rw [shade_cellByte hg hc hdy hdx hk]
    exact hs row hr col hc dy hdy dx hdx k hk

def ByteInv (msgs : ℕ → List UInt8) (i : Who) (s : Local i) : Prop :=
  LocalInv i s ∧ LocalChars msgs i s

theorem start_byteInv (msgs : ℕ → List UInt8) (i : Who) : ByteInv msgs i (start.threads i).state :=
  ⟨(start_good i).1,start_chars msgs i⟩

section Runs

variable (hmsgs : ∀ k, Arrives msgs k → ∀ c ∈ drawn (msgs k), c.toNat < 128)
  (keys : ℕ → Keyboard.Event)

include hmsgs

theorem advance_byteInv (i : Who) :
    Confined (advance msgs keys i) (ByteInv msgs i) (Own i) :=
  fun s h => ⟨(advance_onScreen hmsgs keys i s h).1,(advance_confined msgs keys i s h.1).2⟩

/-- A schedule of single stores is one of whole calls but for the cells that are being drawn. -/
theorem bytes_follow_cells (hg : g.Fits) (sched : List Who) {fb : Memory g}
    (hs : Shows g font fb startScreen) :
    ∃ sched', Torn g font (run (advance msgs keys) start sched')
        (run (advanceBytes g font msgs keys) (startBytes fb) sched) ∧
      ∀ i, ((run (advanceBytes g font msgs keys) (startBytes fb) sched).threads i).state =
        ((run (advance msgs keys) start sched').threads i).state := by
  have hcar := putStores_carries hg font
  have hqueue : ∀ i, ∀ p ∈ (start.threads i).queue, OnScreen p := by simp [start_queue]
  have hgood : ∀ i, (start.threads i).Good (ByteInv msgs i) (Own i) :=
    fun i => ⟨start_byteInv msgs i,(start_good i).2⟩
  obtain ⟨sched',past,hsim,hP⟩ := Simulates.run hcar (advance_byteInv hmsgs keys)
    (fun i s h => (advance_onScreen hmsgs keys i s h).2) own_disjoint (startBytes_simulates hg hs)
    hqueue hgood sched
  refine ⟨sched',?_,fun i => (hsim.behind i).state⟩
  intro row hr col hc dy hdy dx hdx k hk
  have hpart : PartOf g (cellByte g row col dy dx k) ((row : ℤ),(col : ℤ)) :=
    ⟨row,col,hr,hc,rfl,dy,hdy,dx,hdx,k,hk,rfl⟩
  have hcases := hsim.mem_cases hcar hP hpart
  simp only [shade_cellByte hg hc hdy hdx hk] at hcases
  exact hcases

theorem stores_inside (hg : g.Fits) (sched : List Who) (fb : Memory g) :
    ∀ x ∈ performed (advanceBytes g font msgs keys) (startBytes fb) sched,
      x.1 < g.smemLen.toNat := by
  have hstep : ∀ i s, ByteInv msgs i s → ByteInv msgs i (advanceBytes g font msgs keys i s).2 ∧
      ∀ x ∈ (advanceBytes g font msgs keys i s).1, x.1 < g.smemLen.toNat := by
    intro i s h
    obtain ⟨h',hon⟩ := advance_onScreen hmsgs keys i s h
    refine ⟨h',?_⟩
    intro x hx
    obtain ⟨p,hp,hx⟩ := List.mem_flatMap.mp hx
    obtain ⟨row,col,hr,hc,-,dy,hdy,dx,hdx,k,hk,he⟩ :=
      ((putStores_carries hg font).places p (hon p hp) x hx).1
    rw [he]
    exact cellByte_lt hg hr hc hdy hdx hk
  exact performed_of_queued hstep (fun i => ⟨start_byteInv msgs i,by simp [startBytes]⟩) sched

theorem bytes_unowned (hg : g.Fits) (sched : List Who) (fb : Memory g) {j : ℕ}
    (hj : ∀ i a, PartOf g j a → ¬Own i a) :
    (run (advanceBytes g font msgs keys) (startBytes fb) sched).mem j = peek fb j := by
  have hconf := Confined.split (advance_byteInv hmsgs keys) (putStores_carries hg font)
    fun i s h => (advance_onScreen hmsgs keys i s h).2
  refine run_eq_of_unowned hconf (c := startBytes fb) ?_ sched ?_
  · exact fun i => ⟨start_byteInv msgs i,by simp [startBytes]⟩
  · rintro i ⟨a,hpart,hown⟩
    exact hj i a hpart hown

end Runs

/-- Tearing is confined to the cells that are being drawn, if the screen lies in the memory, a space
is blank and the messages are ASCII where they are drawn. After `fbclear` and the start screen, run
the two threads one byte store at a time in any order. Every store is inside the memory, the bytes
of the divider, of the prompt and outside the screen stay as they are, and there is a schedule of
whole `fbputchar` calls with the same threads such that every byte of every cell is that of the
character on its screen, or that of the character a thread is drawing there. -/
theorem tearing_confined {xres yres : BitVec 32} (hv : Visible g xres yres)
    (hblank : ∀ i < 16, peek font (16*32+i) = 0) (signed : Bool)
    (hmsgs : ∀ k, Arrives msgs k → ∀ c ∈ drawn (msgs k), c.toNat < 128)
    (keys : ℕ → Keyboard.Event) (sched : List Who) (fb : Memory g) :
    (∀ p, OnScreen p → ∀ fb' : Memory g,
        Framebuffer.put g font signed fb' p = storeAll fb' (putStores g font p)) ∧
      ∃ fb₀ fb₁, fbclear g xres yres fb = some fb₀ ∧
        (fbInitScreen ++ fbputs prompt inputAreaTop 0).foldlM (Framebuffer.put g font signed) fb₀ =
          some fb₁ ∧
        (∀ x ∈ performed (advanceBytes g font msgs keys) (startBytes fb₁) sched,
          x.1 < g.smemLen.toNat) ∧
        (∀ j, (∀ i a, PartOf g j a → ¬Own i a) →
          (run (advanceBytes g font msgs keys) (startBytes fb₁) sched).mem j = peek fb₁ j) ∧
        ∃ sched', Torn g font (run (advance msgs keys) start sched')
            (run (advanceBytes g font msgs keys) (startBytes fb₁) sched) ∧
          ∀ i, ((run (advanceBytes g font msgs keys) (startBytes fb₁) sched).threads i).state =
            ((run (advance msgs keys) start sched').threads i).state := by
  obtain ⟨fb₀,h₀,hs₀⟩ := fbclear_shows hv hblank fb
  obtain ⟨fb₁,h₁,hs₁⟩ := hs₀.puts hv.fits signed start_onScreen
  refine ⟨fun p hp fb' => put_stores signed hp fb',fb₀,fb₁,h₀,h₁,?_,?_,?_⟩
  · exact stores_inside hmsgs keys hv.fits sched fb₁
  · intro j hj
    exact bytes_unowned hmsgs keys hv.fits sched fb₁ hj
  · exact bytes_follow_cells hmsgs keys hv.fits sched hs₁

theorem tearing_confined_hi : Visible plain 1024 768 ∧
    ∃ fb₁ : Memory plain, ∃ sched', Torn plain barFont
      (run (advance (fun _ => [0x68,0x69])
        (fun _ => ⟨0,0,⟨fun _ _ => 0,fun _ count => Int.natCast_nonneg count⟩⟩)) start sched')
      (run (advanceBytes plain barFont (fun _ => [0x68,0x69])
        (fun _ => ⟨0,0,⟨fun _ _ => 0,fun _ count => Int.natCast_nonneg count⟩⟩)) (startBytes fb₁)
        [.net,.net,.net,.net,.net]) := by
  obtain ⟨-,fb₀,fb₁,-,-,-,-,sched',htorn,-⟩ := tearing_confined plain_visible barFont_space true
    (fun _ _ => hi_ascii) (fun _ => ⟨0,0,⟨fun _ _ => 0,fun _ count => Int.natCast_nonneg count⟩⟩)
    [.net,.net,.net,.net,.net] (fun _ => 7)
  exact ⟨plain_visible,fb₁,sched',htorn⟩

end Program

end Framebuffer
end EmbeddedSystems
