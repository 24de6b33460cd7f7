import EmbeddedSystems.PixelStores

/-! `fbopen` accepts every device with 32 bits per pixel, and no function compares an address with
`smem_len`. Whether a store can leave the mapped memory depends on the geometry alone: `fbclear`
goes over the visible area, and some run of the threads draws on each cell of the layout. On a
device whose lines are packed this bounds the resolution from below. -/

namespace EmbeddedSystems

namespace CArray

section Checked

variable {n : ℕ} {β σ α : Type*}

theorem foldlM_isSome_iff {f : σ → α → Option σ} {P : α → Prop}
    {xs : List α} (h : ∀ s, ∀ x ∈ xs, (f s x).isSome ↔ P x) (s : σ) :
    (xs.foldlM f s).isSome ↔ ∀ x ∈ xs, P x := by
  induction xs generalizing s with
  | nil => simp
  | cons x xs ih =>
    have hx := h s x List.mem_cons_self
    rw [List.foldlM_cons,List.forall_mem_cons,← hx]
    cases hs : f s x with
    | none => simp
    | some s' =>
      have hrest := ih (fun s y hy => h s y (List.mem_cons_of_mem x hy)) s'
      simpa using hrest

theorem set_isSome_iff (a : Fin n → β) (j : ℕ) (c : β) : (set a (j : ℤ) c).isSome ↔ j < n := by
  unfold set
  split_ifs with hj
  · simpa using hj
  · simpa using hj

theorem storeAll_isSome_iff (a : Fin n → β) (xs : List (ℕ × β)) :
    (storeAll a xs).isSome ↔ ∀ x ∈ xs, x.1 < n :=
  foldlM_isSome_iff (fun a x _ => set_isSome_iff a x.1 x.2) a

end Checked

end CArray

namespace Framebuffer

open CArray Screen

structure FixScreeninfo where
  lineLength : BitVec 32
  smemLen : BitVec 32

structure VarScreeninfo where
  xres : BitVec 32
  yres : BitVec 32
  xoffset : BitVec 32
  yoffset : BitVec 32
  bitsPerPixel : BitVec 32

/-- How the calls of `fbopen` end: `open`, the two `ioctl`s and `mmap`. -/
structure Device where
  opens : Bool
  fscreeninfo : Option FixScreeninfo
  vscreeninfo : Option VarScreeninfo
  maps : Bool

structure Opened where
  geometry : Geometry
  xres : BitVec 32
  yres : BitVec 32

def fbopenDev : ℤ := -1
def fbopenFscreeninfo : ℤ := -2
def fbopenVscreeninfo : ℤ := -3
def fbopenMmap : ℤ := -4
def fbopenBpp : ℤ := -5

def fbopen (d : Device) : Except ℤ Opened :=
  if d.opens = false then .error fbopenDev
  else match d.fscreeninfo with
    | none => .error fbopenFscreeninfo
    | some fix => match d.vscreeninfo with
      | none => .error fbopenVscreeninfo
      | some var =>
        if var.bitsPerPixel ≠ 32 then .error fbopenBpp
        else if d.maps = false then .error fbopenMmap
        else .ok ⟨⟨var.xoffset,var.yoffset,fix.lineLength,fix.smemLen⟩,var.xres,var.yres⟩

theorem fbopen_eq_ok {d : Device} {o : Opened} : fbopen d = .ok o ↔
    d.opens = true ∧ d.maps = true ∧ ∃ fix var, d.fscreeninfo = some fix ∧
      d.vscreeninfo = some var ∧ var.bitsPerPixel = 32 ∧
      o = ⟨⟨var.xoffset,var.yoffset,fix.lineLength,fix.smemLen⟩,var.xres,var.yres⟩ := by
  obtain ⟨opens,fscreeninfo,vscreeninfo,maps⟩ := d
  cases opens with
  | false => simp [fbopen]
  | true =>
    cases fscreeninfo with
    | none => simp [fbopen]
    | some fix =>
      cases vscreeninfo with
      | none => simp [fbopen]
      | some var =>
        by_cases hbpp : var.bitsPerPixel = 32#32
        · cases maps <;> simp [fbopen,hbpp,eq_comm]
        · simp [fbopen,hbpp]

section Stores

variable {g : Geometry} {font : Font}

/-- The 32 lines of the cell lie inside the memory. -/
def CellInside (g : Geometry) (row col : ℤ) : Prop :=
  cellAddress g row col+31*g.lineLength.toNat+64 ≤ g.smemLen.toNat

theorem charStores_inside_iff {c : ℕ} {row col : ℤ} :
    (∀ x ∈ charStores g font c row col, x.1 < g.smemLen.toNat) ↔ CellInside g row col := by
  have haddr : cellAddress g row col = ((cellAddress g row col).toNat : ℕ) := by
    unfold cellAddress
    omega
  rw [CellInside,haddr,charStores]
  generalize (cellAddress g row col).toNat = left
  simp only [List.mem_flatMap,List.mem_range,mem_lineStores]
  constructor
  · intro h
    have hlast := h _ ⟨31,by decide,15,by decide,3,by decide,rfl⟩
    simp only at hlast
    omega
  · rintro h x ⟨y,hy,dx,hdx,k,hk,rfl⟩
    have hline : y*g.lineLength.toNat ≤ 31*g.lineLength.toNat :=
      Nat.mul_le_mul_right _ (Nat.le_of_lt_succ hy)
    simp only
    omega

theorem put_isSome_iff (signed : Bool) {p : Put} (hp : Ascii p) (fb : Memory g) :
    (put g font signed fb p).isSome ↔ CellInside g p.1.1 p.1.2 := by
  rw [put,charValue_of_lt signed hp,fbputchar_stores g font hp,storeAll_isSome_iff]
  exact charStores_inside_iff

/-- The value of `row` in round `y` of `fbclear`, as an offset. -/
def clearStart (g : Geometry) (y : ℕ) : ℕ :=
  ((BitVec.ofInt 32 (y : ℤ)+g.yoffset)*g.lineLength).toNat+(g.xoffset*(bitsPerPixel/8)).toNat

def clearStores (g : Geometry) (xres : BitVec 32) (y : ℕ) : List (ℕ × UInt8) :=
  (List.range xres.toNat).flatMap fun x => pixelStores (clearStart g y+4*x) false

theorem clearPixel_stores {n : ℕ} (fb : Fin n → UInt8) (p : ℕ) :
    clearPixel (fb,(p : ℤ)) =
      (storeAll fb (pixelStores p false)).map fun fb' => (fb',(p : ℤ)+4) := by
  have hstore : store4 fb p 0 0 0 0 = storeAll fb (pixelStores p false) := by
    simp [store4,storeAll,pixelStores,pixelByte,List.range_succ]
  rw [clearPixel,hstore]
  cases storeAll fb (pixelStores p false) <;> rfl

theorem clearLine_stores (g : Geometry) (xres : BitVec 32) (y : ℕ) (fb : Memory g) :
    clearLine g xres y fb = storeAll fb (clearStores g xres y) := by
  have hloop := forUp_storeAll
    (m := fun x (fb : Memory g) => (fb,((clearStart g y+4*x : ℕ) : ℤ)))
    (f := fun _ => clearPixel) (w := fun x => pixelStores (clearStart g y+4*x) false)
    (fun x (_ : x < xres.toNat) fb => by
      rw [clearPixel_stores]
      push_cast
      simp only [mul_add,mul_one,add_assoc]) fb
  rw [Nat.mul_zero,Nat.add_zero] at hloop
  rw [clearLine,clearStores]
  refine (congrArg (fun o => Option.bind o _) hloop).trans ?_
  cases storeAll fb ((List.range xres.toNat).flatMap fun x =>
    pixelStores (clearStart g y+4*x) false) <;> rfl

theorem fbclear_stores (g : Geometry) (xres yres : BitVec 32) (fb : Memory g) :
    fbclear g xres yres fb =
      storeAll fb ((List.range yres.toNat).flatMap (clearStores g xres)) := by
  have hloop := forUp_storeAll (m := fun _ (fb : Memory g) => fb) (f := clearLine g xres)
    (w := clearStores g xres)
    (fun y (_ : y < yres.toNat) fb => by rw [clearLine_stores,Option.map_id']) fb
  rw [Option.map_id'] at hloop
  exact hloop

/-- The lines that `fbclear` goes over lie inside the memory. -/
def ClearInside (g : Geometry) (xres yres : BitVec 32) : Prop :=
  ∀ y < yres.toNat, 0 < xres.toNat → clearStart g y+4*xres.toNat ≤ g.smemLen.toNat

theorem fbclear_isSome_iff (g : Geometry) (xres yres : BitVec 32) (fb : Memory g) :
    (fbclear g xres yres fb).isSome ↔ ClearInside g xres yres := by
  rw [fbclear_stores,storeAll_isSome_iff]
  simp only [List.mem_flatMap,List.mem_range,clearStores,mem_pixelStores]
  constructor
  · intro h y hy hx
    have hlast := h _ ⟨y,hy,xres.toNat-1,by omega,3,by omega,rfl⟩
    simp only at hlast
    omega
  · rintro h x ⟨y,hy,dx,hdx,k,hk,rfl⟩
    have hline := h y hy (by omega)
    simp only
    omega

end Stores

section Program

open ChatScreen MessageArea SharedStore Keyboard

/-- The cells that get drawn on; of row 22 those of the prompt. -/
def OnLayout (row col : ℤ) : Prop :=
  (0 ≤ row ∧ row < 24) ∧ (0 ≤ col ∧ col < 64) ∧ (row = 22 → col < 11)

def calls (msgs : ℕ → List UInt8) (keys : ℕ → Event) (sched : List Who) : List Put :=
  fbInitScreen ++ fbputs prompt inputAreaTop 0 ++ performed (advance msgs keys) start sched

/-- The messages that get shown are ASCII where they are drawn. -/
def ShownAscii (msgs : ℕ → List UInt8) : Prop :=
  ∀ k, Arrives msgs k → ∀ c ∈ drawn (msgs k), c.toNat < 128

/-- No run leaves the memory. -/
def Safe (o : Opened) (font : Font) (signed : Bool) : Prop :=
  ∀ msgs, ShownAscii msgs → ∀ keys sched (fb : Memory o.geometry),
    ∃ fb₀ fb₁, fbclear o.geometry o.xres o.yres fb = some fb₀ ∧
      (calls msgs keys sched).foldlM (put o.geometry font signed) fb₀ = some fb₁

theorem calls_onScreen {msgs : ℕ → List UInt8} (h : ShownAscii msgs) (keys : ℕ → Event)
    (sched : List Who) : ∀ p ∈ calls msgs keys sched, OnScreen p := by
  intro p hp
  rcases List.mem_append.mp hp with hp | hp
  · exact start_onScreen p hp
  · exact performed_onScreen h keys sched p hp

theorem calls_onLayout (msgs : ℕ → List UInt8) (keys : ℕ → Event) (sched : List Who) :
    ∀ p ∈ calls msgs keys sched, OnLayout p.1.1 p.1.2 := by
  intro p hp
  rcases List.mem_append.mp hp with hp | hp
  · have hon := start_onScreen p hp
    refine ⟨hon.row,hon.col,?_⟩
    rcases List.mem_append.mp hp with hp | hp
    · have hrow : p.1.1 = 21 := (mem_fbDrawLineDivider hp).1
      omega
    · have hcol := (mem_fbputs hp).2.2.1
      have hlen : prompt.length = 11 := rfl
      omega
  · have hstart : ∀ i, LocalInv i (start.threads i).state ∧
        ∀ w ∈ (start.threads i).queue, OnLayout w.1.1 w.1.2 :=
      fun i => ⟨(start_good i).1,by simp [start_queue]⟩
    refine performed_of_queued (P := fun w => OnLayout w.1.1 w.1.2) ?_ hstart sched p hp
    intro i s hs
    obtain ⟨hinv,hown⟩ := advance_confined msgs keys i s hs
    refine ⟨hinv,fun w hw => ?_⟩
    have hcell := hown w hw
    obtain ⟨hrow,hcol⟩ := own_onScreen hcell
    refine ⟨hrow,hcol,?_⟩
    cases i <;> simp only [Own,InArea,InInputRow] at hcell <;> omega

theorem mem_calls_of_advance (msgs : ℕ → List UInt8) (keys : ℕ → Event) {sched : List Who} {i : Who}
    {s : Local i} (h : (run (advance msgs keys) start sched).threads i = ⟨s,[]⟩) {p : Put}
    (hp : p ∈ (advance msgs keys i s).1) : ∃ sched', p ∈ calls msgs keys sched' := by
  obtain ⟨n,hn⟩ := exists_tick h hp
  rw [← run_append] at hn
  refine ⟨sched ++ List.replicate n i ++ [i],List.mem_append_right _ ?_⟩
  rw [performed_append]
  refine List.mem_append_right _ ?_
  simp [performed,hn]

def newlines : List UInt8 := List.replicate 21 newline

theorem newlines_ascii : ShownAscii fun _ => newlines := by
  have hdrawn : drawn newlines = [] := by decide +kernel
  intro k _
  simp [hdrawn]

theorem area_drawn (keys : ℕ → Event) {row col : ℤ} (h : InArea (row,col)) :
    ∃ sched, ((row,col),space) ∈ calls (fun _ => newlines) keys sched := by
  have hover : 20 < 0+(wrap [] (text newlines)).1.length := by decide +kernel
  obtain ⟨acts,hr⟩ := runs_overflow newlines (Nat.zero_le 20) hover
  obtain ⟨acts₁,l₁,acts₂,l₂,hr₁,hi,hclear⟩ :=
    hr.exists_iter (List.mem_append_right acts (List.mem_singleton_self Act.clear))
  obtain ⟨n₁,-,hth₁⟩ := run_advance (advance (fun _ => newlines) keys) start
    (rfl : start.threads .net = ⟨Net.reading 0 home,[]⟩)
  obtain ⟨n₂,-,hth₂⟩ := net_runs (fun _ => newlines) keys hr₁ _ hth₁
  rw [← run_append] at hth₂
  refine mem_calls_of_advance _ keys hth₂ ?_
  rw [advance_showing keys hi]
  exact List.mem_flatMap.mpr ⟨_,hclear,mem_clearMessageArea.mpr ⟨h,rfl⟩⟩

def typing : ℕ → Event := fun _ => ⟨0x04,0,⟨fun _ _ => 0,fun _ count => Int.natCast_nonneg count⟩⟩

theorem inputRow_drawn (msgs : ℕ → List UInt8) {col : ℕ} (h : col < 64) :
    ∃ sched, ((23,(col : ℤ)),space) ∈ calls msgs typing sched := by
  have hblank : ∀ col < 64, ((23,((col : ℕ) : ℤ)),space) ∈
      (advanceMain typing ⟨0,some initial⟩).1 := by
    decide +kernel
  have hstart : (run (advance msgs typing) start []).threads .main =
      ⟨(⟨0,some initial⟩ : Main),[]⟩ := rfl
  exact mem_calls_of_advance msgs typing hstart (hblank col h)

theorem exists_call {row col : ℤ} (h : OnLayout row col) :
    ∃ msgs keys sched c, ShownAscii msgs ∧ ((row,col),c) ∈ calls msgs keys sched := by
  obtain ⟨⟨hr0,hr⟩,⟨hc0,hc⟩,hprompt⟩ := h
  obtain ⟨col,rfl⟩ := Int.eq_ofNat_of_zero_le hc0
  rcases (by omega : row ≤ 20 ∨ row = 21 ∨ row = 22 ∨ row = 23) with harea | rfl | rfl | rfl
  · have hcell : InArea (row,(col : ℤ)) := ⟨hr0,harea,hc0,by simp only; omega⟩
    obtain ⟨sched,hmem⟩ := area_drawn typing hcell
    exact ⟨_,typing,sched,space,newlines_ascii,hmem⟩
  · refine ⟨_,typing,[],0x2d,newlines_ascii,List.mem_append_left _ (List.mem_append_left _ ?_)⟩
    exact List.mem_map.mpr ⟨col,List.mem_range.mpr (Int.ofNat_lt.mp hc),rfl⟩
  · have hputs : ∀ col < 11, ((22,((col : ℕ) : ℤ)),prompt.getD col space) ∈
        fbputs prompt inputAreaTop 0 := by
      decide +kernel
    refine ⟨_,typing,[],prompt.getD col space,newlines_ascii,List.mem_append_left _ ?_⟩
    exact List.mem_append_right _ (hputs col (Int.ofNat_lt.mp (hprompt rfl)))
  · obtain ⟨sched,hmem⟩ := inputRow_drawn (fun _ => newlines) (Int.ofNat_lt.mp hc)
    exact ⟨_,typing,sched,space,newlines_ascii,hmem⟩

/-- Whether all runs are safe depends on the geometry alone. -/
theorem safe_iff (o : Opened) (font : Font) (signed : Bool) : Safe o font signed ↔
    ClearInside o.geometry o.xres o.yres ∧
      ∀ row col, OnLayout row col → CellInside o.geometry row col := by
  have hcalls : ∀ {msgs}, ShownAscii msgs → ∀ keys sched (fb : Memory o.geometry),
      ((calls msgs keys sched).foldlM (put o.geometry font signed) fb).isSome ↔
        ∀ p ∈ calls msgs keys sched, CellInside o.geometry p.1.1 p.1.2 := by
    intro msgs hascii keys sched fb
    exact foldlM_isSome_iff
      (fun fb p hp => put_isSome_iff signed (calls_onScreen hascii keys sched p hp).ascii fb) fb
  constructor
  · intro h
    obtain ⟨fb₀,-,h₀,-⟩ := h _ newlines_ascii typing [] fun _ => 0
    refine ⟨(fbclear_isSome_iff _ _ _ _).mp (Option.isSome_of_eq_some h₀),?_⟩
    intro row col hcell
    obtain ⟨msgs,keys,sched,c,hascii,hmem⟩ := exists_call hcell
    obtain ⟨fb₀,fb₁,-,h₁⟩ := h msgs hascii keys sched fun _ => 0
    have hall := (hcalls hascii keys sched fb₀).mp (Option.isSome_of_eq_some h₁)
    exact hall ((row,col),c) hmem
  · rintro ⟨hclear,hcells⟩ msgs hascii keys sched fb
    obtain ⟨fb₀,h₀⟩ := Option.isSome_iff_exists.mp ((fbclear_isSome_iff _ _ _ fb).mpr hclear)
    have hinside : ∀ p ∈ calls msgs keys sched, CellInside o.geometry p.1.1 p.1.2 :=
      fun p hp => hcells _ _ (calls_onLayout msgs keys sched p hp)
    obtain ⟨fb₁,h₁⟩ := Option.isSome_iff_exists.mp ((hcalls hascii keys sched fb₀).mpr hinside)
    exact ⟨fb₀,fb₁,h₀,h₁⟩

/-- The memory is the visible lines, one after another. -/
structure Packed (fix : FixScreeninfo) (var : VarScreeninfo) : Prop where
  xoffset : var.xoffset = 0
  yoffset : var.yoffset = 0
  line : fix.lineLength.toNat = 4*var.xres.toNat
  memory : fix.smemLen.toNat = fix.lineLength.toNat*var.yres.toNat

section Packed

variable {L M xres yres : BitVec 32}

theorem cellAddress_packed {row col : ℕ} (hwrap : 32*row*L.toNat < 2^32) (hr : row < 24)
    (hc : col < 64) : cellAddress ⟨0,0,L,M⟩ row col = (32*row*L.toNat+64*col : ℕ) := by
  have hrow : (row : ℤ)*fontHeight*2 = (32*row : ℕ) := by
    simp only [fontHeight]
    push_cast
    ring
  have hcol : (col : ℤ)*fontWidth*2 = (16*col : ℕ) := by
    simp only [fontWidth]
    push_cast
    ring
  have h32 : bitsPerPixel.toNat = 32 := rfl
  have h8 : (8 : BitVec 32).toNat = 8 := rfl
  have h0 : (0 : BitVec 32).toNat = 0 := rfl
  have hline : ((BitVec.ofNat 32 (32*row)+0)*L).toNat = 32*row*L.toNat := by
    rw [BitVec.toNat_mul,BitVec.toNat_add,BitVec.toNat_ofNat,h0,Nat.add_zero,Nat.mod_mod,
      Nat.mod_eq_of_lt (by omega : 32*row < 2^32),Nat.mod_eq_of_lt hwrap]
  have hcolumn : ((BitVec.ofNat 32 (16*col)+0)*bitsPerPixel/8).toNat = 64*col := by
    rw [BitVec.toNat_udiv,BitVec.toNat_mul,BitVec.toNat_add,BitVec.toNat_ofNat,h32,h8,h0]
    omega
  simp only [cellAddress]
  rw [hrow,hcol,BitVec.ofInt_natCast,BitVec.ofInt_natCast,hline,hcolumn]
  push_cast
  ring

theorem clearStart_packed {y : ℕ} (hwrap : y*L.toNat < 2^32) (hy : y < 2^32) :
    clearStart ⟨0,0,L,M⟩ y = y*L.toNat := by
  have h0 : (0 : BitVec 32).toNat = 0 := rfl
  have hline : ((BitVec.ofNat 32 y+0)*L).toNat = y*L.toNat := by
    rw [BitVec.toNat_mul,BitVec.toNat_add,BitVec.toNat_ofNat,h0,Nat.add_zero,Nat.mod_mod,
      Nat.mod_eq_of_lt hy,Nat.mod_eq_of_lt hwrap]
  simp only [clearStart]
  rw [BitVec.ofInt_natCast,hline]
  rfl

theorem high_of_cells (hmem : M.toNat = L.toNat*yres.toNat)
    (h : ∀ row : ℕ, row < 24 → CellInside ⟨0,0,L,M⟩ row 0) {row : ℕ} (hr : row ≤ 24) :
    32*row ≤ yres.toNat := by
  induction row with
  | zero => omega
  | succ row ih =>
    have hprev : 32*row*L.toNat ≤ yres.toNat*L.toNat := Nat.mul_le_mul_right _ (ih (by omega))
    have hlt := M.isLt
    rw [hmem,Nat.mul_comm] at hlt
    have hcell := h row (by omega)
    have haddr := cellAddress_packed (M := M) (hprev.trans_lt hlt) (by omega)
      (by omega : 0 < 64)
    rw [Nat.cast_zero] at haddr
    simp only [CellInside] at hcell
    rw [haddr,hmem] at hcell
    by_contra hlow
    have hbound : yres.toNat*L.toNat ≤ (32*row+31)*L.toNat := Nat.mul_le_mul_right _ (by omega)
    rw [Nat.add_mul,Nat.mul_comm yres.toNat] at hbound
    omega

theorem packed_safe_iff {fix : FixScreeninfo} {var : VarScreeninfo} (h : Packed fix var) :
    (ClearInside ⟨var.xoffset,var.yoffset,fix.lineLength,fix.smemLen⟩ var.xres var.yres ∧
        ∀ row col, OnLayout row col →
          CellInside ⟨var.xoffset,var.yoffset,fix.lineLength,fix.smemLen⟩ row col) ↔
      767*var.xres.toNat+1024 ≤ var.xres.toNat*var.yres.toNat := by
  obtain ⟨L,M⟩ := fix
  obtain ⟨xres,yres,xoffset,yoffset,bpp⟩ := var
  obtain ⟨rfl,rfl,hL,hM⟩ := h
  simp only at hL hM ⊢
  have hlt := M.isLt
  have harea : M.toNat = 4*(xres.toNat*yres.toNat) := by
    rw [hM,hL]
    ring
  constructor
  · rintro ⟨-,hcells⟩
    have hcol0 : ∀ row : ℕ, row < 24 → CellInside ⟨0,0,L,M⟩ row 0 :=
      fun row hr => hcells row 0 ⟨by omega,by omega,by omega⟩
    have hhigh := high_of_cells hM hcol0 le_rfl
    have hprod : 32*23*L.toNat ≤ yres.toNat*L.toNat := Nat.mul_le_mul_right _ (by omega)
    rw [Nat.mul_comm yres.toNat,← hM] at hprod
    have hlast := hcells 23 63 ⟨by omega,by omega,by omega⟩
    have haddr : cellAddress ⟨0,0,L,M⟩ 23 63 = (32*23*L.toNat+64*63 : ℕ) :=
      cellAddress_packed (hprod.trans_lt hlt) (by omega : 23 < 24) (by omega : 63 < 64)
    simp only [CellInside] at hlast
    rw [haddr] at hlast
    omega
  · intro hsize
    have hhigh : 768 ≤ yres.toNat := by
      by_contra hlow
      have hprod : xres.toNat*yres.toNat ≤ xres.toNat*767 := Nat.mul_le_mul_left _ (by omega)
      omega
    constructor
    · intro y hy hx
      have hprod : (y+1)*L.toNat ≤ yres.toNat*L.toNat := Nat.mul_le_mul_right _ hy
      rw [Nat.succ_mul,Nat.mul_comm yres.toNat,← hM] at hprod
      rw [clearStart_packed (by omega) (by omega)]
      simp only
      omega
    · rintro row col ⟨⟨hr0,hr⟩,⟨hc0,hc⟩,-⟩
      obtain ⟨row,rfl⟩ := Int.eq_ofNat_of_zero_le hr0
      obtain ⟨col,rfl⟩ := Int.eq_ofNat_of_zero_le hc0
      have hprod : 32*row*L.toNat ≤ 736*L.toNat := Nat.mul_le_mul_right _ (by omega)
      simp only [CellInside]
      rw [cellAddress_packed (by omega) (by omega) (by omega)]
      omega

/-- `fbopen` looks at the depth of the pixels only. On what it accepts, no run of the program
leaves the memory if and only if `fbclear` and each cell of the layout stay inside it; if the
memory is the visible lines one after another, if and only if it holds 767 lines and 1024 more
pixels. -/
theorem accepted_safe_iff {d : Device} {fix : FixScreeninfo} {var : VarScreeninfo} {o : Opened}
    (h : fbopen d = .ok o) (hfix : d.fscreeninfo = some fix) (hvar : d.vscreeninfo = some var)
    (font : Font) (signed : Bool) :
    (Safe o font signed ↔ ClearInside o.geometry o.xres o.yres ∧
        ∀ row col, OnLayout row col → CellInside o.geometry row col) ∧
      (Packed fix var → (Safe o font signed ↔
        767*var.xres.toNat+1024 ≤ var.xres.toNat*var.yres.toNat)) := by
  refine ⟨safe_iff o font signed,fun hp => ?_⟩
  obtain ⟨-,-,fix',var',hfix',hvar',-,rfl⟩ := fbopen_eq_ok.mp h
  obtain rfl := Option.some.inj (hfix.symm.trans hfix')
  obtain rfl := Option.some.inj (hvar.symm.trans hvar')
  rw [safe_iff]
  exact packed_safe_iff hp

def packedDevice (xres yres : BitVec 32) : Device :=
  ⟨true,some ⟨4*xres,4*xres*yres⟩,some ⟨xres,yres,0,0,32⟩,true⟩

theorem accepted_safe_vga :
    (∃ o, fbopen (packedDevice 1024 768) = .ok o ∧ Safe o barFont true) ∧
      ∃ o, fbopen (packedDevice 640 480) = .ok o ∧ ¬Safe o barFont true := by
  constructor
  · refine ⟨_,rfl,?_⟩
    rw [(accepted_safe_iff (d := packedDevice 1024 768) rfl rfl rfl barFont true).2
      ⟨rfl,rfl,by decide,by decide⟩]
    decide
  · refine ⟨_,rfl,?_⟩
    rw [(accepted_safe_iff (d := packedDevice 640 480) rfl rfl rfl barFont true).2
      ⟨rfl,rfl,by decide,by decide⟩]
    decide

end Packed

end Program

end Framebuffer
end EmbeddedSystems
