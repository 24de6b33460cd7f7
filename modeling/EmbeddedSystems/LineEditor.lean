import EmbeddedSystems.SendLoop
import EmbeddedSystems.Clocked

/-! The abstract editor is a zipper: the characters before and after the cursor. The buffer of
`keyboard.c` with its in-place shifting loops refines it, key by key and over every run. -/

namespace EmbeddedSystems

/-- A line with a cursor between `before` and `after`. -/
@[ext] structure Zipper (α : Type*) where
  before : List α
  after : List α

namespace Zipper

variable {α : Type*}

def length (z : Zipper α) : ℕ := z.before.length+z.after.length

def empty : Zipper α := ⟨[],[]⟩

def insert (cap : ℕ) (c : α) (z : Zipper α) : Zipper α :=
  if z.length < cap then ⟨z.before ++ [c],z.after⟩ else z

def backspace (z : Zipper α) : Zipper α := ⟨z.before.dropLast,z.after⟩

def left (z : Zipper α) : Zipper α := ⟨z.before.dropLast,z.before.getLast?.toList ++ z.after⟩

def right (z : Zipper α) : Zipper α := ⟨z.before ++ z.after.head?.toList,z.after.tail⟩

end Zipper

namespace Keyboard

open CArray Screen Clocked

@[ext] structure Editor where
  caps : Bool
  line : Zipper UInt8

def Editor.initial : Editor := ⟨false,Zipper.empty⟩

/-- What a key does to the abstract line. -/
def Editor.press (ed : Editor) (e : Event) : Editor :=
  if e.keycode = hidCapslock then ⟨!ed.caps,ed.line⟩
  else if e.keycode = hidBackspace then ⟨ed.caps,ed.line.backspace⟩
  else if e.keycode = hidTab then ⟨ed.caps,(Zipper.insert 255 space)^[4] ed.line⟩
  else if e.keycode = hidEnter then
    if e.writer.accepts ed.line.length then ⟨ed.caps,Zipper.empty⟩ else ed
  else if e.keycode = hidEscape then ed
  else if e.keycode = hidLeft then ⟨ed.caps,ed.line.left⟩
  else if e.keycode = hidRight then ⟨ed.caps,ed.line.right⟩
  else
    let ascii := keycodeToAscii ed.caps e.keycode e.modifiers
    if ascii ≠ 0 ∧ ascii ≠ 0x0a ∧ ascii ≠ 0x09 then ⟨ed.caps,ed.line.insert 255 ascii⟩ else ed

def editorOf (s : State) : Editor where
  caps := s.isCapsOn
  line := ⟨slice s.inputBuffer 0 s.cursorPosition.toNat,
    slice s.inputBuffer s.cursorPosition.toNat s.inputLength.toNat⟩

def Printable (c : UInt8) : Prop := 0x20 ≤ c ∧ c ≤ 0x7e

instance printableDecidable (c : UInt8) : Decidable (Printable c) :=
  inferInstanceAs (Decidable (_ ∧ _))

structure Inv (s : State) : Prop where
  cursor_nonneg : 0 ≤ s.cursorPosition
  cursor_le : s.cursorPosition ≤ s.inputLength
  length_le : s.inputLength ≤ 255
  nul : peek s.inputBuffer s.inputLength.toNat = 0
  printable : ∀ j < s.inputLength.toNat, Printable (peek s.inputBuffer j)

theorem inv_initial : Inv initial := by
  constructor <;> simp [initial,peek]

theorem editorOf_initial : editorOf initial = Editor.initial := by
  simp [editorOf,initial,Editor.initial,Zipper.empty]

theorem Inv.nats {s : State} (h : Inv s) :
    ∃ p l : ℕ, s.cursorPosition = p ∧ s.inputLength = l ∧ p ≤ l ∧ l ≤ 255 := by
  obtain ⟨p,hp⟩ := Int.eq_ofNat_of_zero_le h.cursor_nonneg
  obtain ⟨l,hl⟩ := Int.eq_ofNat_of_zero_le (h.cursor_nonneg.trans h.cursor_le)
  have h1 := h.cursor_le
  have h2 := h.length_le
  exact ⟨p,l,hp,hl,by omega,by omega⟩

theorem inv_natCast {caps : Bool} {b : Buffer} {p l : ℕ} (hpl : p ≤ l) (hl : l ≤ 255)
    (hnul : peek b l = 0) (hprint : ∀ j < l, Printable (peek b j)) : Inv ⟨caps,b,l,p⟩ := by
  constructor
  · exact Int.natCast_nonneg p
  · exact Int.ofNat_le.mpr hpl
  · exact Int.ofNat_le.mpr hl
  · simpa only [Int.toNat_natCast] using hnul
  · simpa only [Int.toNat_natCast] using hprint

theorem Inv.exists_natCast {s : State} (h : Inv s) :
    ∃ (caps : Bool) (b : Buffer) (p l : ℕ), s = ⟨caps,b,l,p⟩ ∧ p ≤ l ∧ l ≤ 255 ∧ peek b l = 0 ∧
      ∀ j < l, Printable (peek b j) := by
  obtain ⟨p,l,hp,hl,hpl,hl255⟩ := h.nats
  obtain ⟨caps,b,len,pos⟩ := s
  obtain rfl : len = l := hl
  obtain rfl : pos = p := hp
  have hnul := h.nul
  have hprint := h.printable
  simp only [Int.toNat_natCast] at hnul hprint
  exact ⟨caps,b,p,l,rfl,hpl,hl255,hnul,hprint⟩

theorem editorOf_natCast (caps : Bool) (b : Buffer) (p l : ℕ) :
    editorOf ⟨caps,b,l,p⟩ = ⟨caps,slice b 0 p,slice b p l⟩ := by
  simp only [editorOf,Int.toNat_natCast]

theorem Inv.line_length {s : State} (h : Inv s) : (editorOf s).line.length = s.inputLength.toNat := by
  obtain ⟨p,l,hp,hl,hpl,-⟩ := h.nats
  simp only [editorOf,Zipper.length,slice_length,hp,hl,Int.toNat_natCast]
  omega

/-- An editing function performs `op` on the line: from every valid state it returns a valid
state that shows the edited line, and it draws only in the input row. -/
def Performs (f : State → Option (State × List Put)) (op : Zipper UInt8 → Zipper UInt8) : Prop :=
  ∀ s, Inv s → ∃ s' ps, f s = some (s',ps) ∧ Inv s' ∧
    editorOf s' = ⟨s.isCapsOn,op (editorOf s).line⟩ ∧ ∀ p ∈ ps, InInputRow p.1

theorem redraw_spec {s : State} (h : Inv s) :
    ∃ ps, redraw s = some (s,ps) ∧ ∀ p ∈ ps, InInputRow p.1 := by
  obtain ⟨p,l,-,hl,-,hl255⟩ := h.nats
  have h0 := h.nul
  rw [hl,Int.toNat_natCast] at h0
  obtain ⟨str,hstr⟩ := cString_isSome (by omega : l < 256) h0
  obtain ⟨ps,hps,hb⟩ := displayUserInput_spec s.inputBuffer
    (by omega : s.inputLength ≤ (256 : ℕ)) s.cursorPosition
  exact ⟨ps,by simp [redraw,hstr,hps],hb⟩

theorem shiftRight_spec (b : Buffer) {p l : ℕ} (hpl : p ≤ l) (hl : l < 256) :
    ∃ b', forDown (l : ℤ) p copyFromLeft b = some b' ∧
      ∀ j, peek b' j = if p < j ∧ j ≤ l then peek b (j-1) else peek b j := by
  let P : ℤ → Buffer → Prop := fun i b' =>
    ∀ j : ℕ, peek b' j = if i < j ∧ j ≤ l then peek b (j-1) else peek b j
  have hstart : P l b := by
    intro j
    rw [if_neg (by omega)]
  have hbody : ∀ i b', (p : ℤ) < i → i ≤ l → P i b' →
      ∃ b'', copyFromLeft i b' = some b'' ∧ P (i-1) b'' := by
    intro i b' hlo hhi hP
    obtain ⟨k,rfl⟩ : ∃ k : ℕ, i = (k+1 : ℕ) := ⟨(i-1).toNat,by omega⟩
    obtain ⟨b'',hset,hb''⟩ := set_spec b' (by omega : k+1 < 256) (peek b' k)
    refine ⟨b'',?_,?_⟩
    · rw [copyFromLeft,show ((k+1 : ℕ) : ℤ)-1 = (k : ℕ) by omega,get_eq_peek b' (by omega),
        Option.bind_eq_bind,Option.bind_some,hset]
    · intro j
      rw [hb'' j]
      by_cases hj : j = k+1
      · subst hj
        rw [if_pos rfl,hP k,if_neg (by omega),if_pos (by omega)]
        rfl
      · rw [if_neg hj,hP j]
        exact if_congr (by omega) rfl rfl
  obtain ⟨b',hb',hP⟩ := forDown_rule (by omega) hbody hstart
  refine ⟨b',hb',?_⟩
  intro j
  simpa only [Nat.cast_lt] using hP j

theorem shiftLeft_spec (b : Buffer) {p l : ℕ} (hpl : p < l) (hl : l ≤ 256) :
    ∃ b', forUp (p : ℤ) (l-1) copyFromRight b = some b' ∧
      ∀ j, peek b' j = if p ≤ j ∧ j < l-1 then peek b (j+1) else peek b j := by
  let P : ℤ → Buffer → Prop := fun i b' =>
    ∀ j : ℕ, peek b' j = if p ≤ j ∧ (j : ℤ) < i then peek b (j+1) else peek b j
  have hstart : P p b := by
    intro j
    rw [if_neg (by omega)]
  have hbody : ∀ i b', (p : ℤ) ≤ i → i < (l : ℤ)-1 → P i b' →
      ∃ b'', copyFromRight i b' = some b'' ∧ P (i+1) b'' := by
    intro i b' hlo hhi hP
    obtain ⟨k,rfl⟩ : ∃ k : ℕ, i = k := ⟨i.toNat,by omega⟩
    obtain ⟨b'',hset,hb''⟩ := set_spec b' (by omega : k < 256) (peek b' (k+1))
    refine ⟨b'',?_,?_⟩
    · rw [copyFromRight,show (k : ℤ)+1 = (k+1 : ℕ) by omega,get_eq_peek b' (by omega),
        Option.bind_eq_bind,Option.bind_some,hset]
    · intro j
      rw [hb'' j]
      by_cases hj : j = k
      · subst hj
        rw [if_pos rfl,hP (j+1),if_neg (by omega),if_pos (by omega)]
      · rw [if_neg hj,hP j]
        exact if_congr (by omega) rfl rfl
  obtain ⟨b',hb',hP⟩ := forUp_rule (by omega) hbody hstart
  refine ⟨b',hb',?_⟩
  intro j
  rw [hP j]
  exact if_congr (by omega) rfl rfl

/-- Inserting a character: the shift, the store and the new terminator together put `c` before
the cursor. -/
theorem inputBufAddChar_performs {c : UInt8} (hc : Printable c) :
    Performs (inputBufAddChar c) (Zipper.insert 255 c) := by
  intro s h
  obtain ⟨caps,b,p,l,rfl,hpl,hl255,hnul,hprint⟩ := h.exists_natCast
  have hlen : (editorOf ⟨caps,b,l,p⟩).line.length = l := h.line_length
  by_cases hlt : l < 255
  · obtain ⟨b₁,hb₁,hpeek₁⟩ := shiftRight_spec b hpl (by omega : l < 256)
    obtain ⟨b₂,hb₂,hpeek₂⟩ := set_spec b₁ (by omega : p < 256) c
    obtain ⟨b₃,hb₃,hpeek₃⟩ := set_spec b₂ (by omega : l+1 < 256) 0
    have hpeek : ∀ j, peek b₃ j = if j = l+1 then 0 else if j = p then c
        else if p < j ∧ j ≤ l then peek b (j-1) else peek b j := by
      intro j
      rw [hpeek₃ j,hpeek₂ j,hpeek₁ j]
    have hinv : Inv ⟨caps,b₃,(l+1 : ℕ),(p+1 : ℕ)⟩ := by
      apply inv_natCast (by omega) (by omega)
      · rw [hpeek,if_pos rfl]
      · intro j hj
        rw [hpeek,if_neg (by omega)]
        split_ifs with h1 h2
        · exact hc
        · exact hprint (j-1) (by omega)
        · exact hprint j (by omega)
    obtain ⟨ps,hps,hrow⟩ := redraw_spec hinv
    refine ⟨_,ps,?_,hinv,?_,hrow⟩
    · rw [Nat.cast_add,Nat.cast_one] at hb₃
      rw [Nat.cast_add,Nat.cast_one,Nat.cast_add,Nat.cast_one] at hps ⊢
      rw [inputBufAddChar,if_pos (by simp only; omega)]
      simp only [hb₁,hb₂,hb₃,Option.bind_eq_bind,Option.bind_some]
      exact hps
    · have hbefore : slice b₃ 0 p = slice b 0 p := by
        apply slice_congr rfl
        intro d hd
        rw [hpeek,if_neg (by omega),if_neg (by omega),if_neg (by omega)]
      have hafter : slice b₃ (p+1) (l+1) = slice b p l := by
        apply slice_congr (by omega)
        intro d hd
        rw [hpeek,if_neg (by omega),if_neg (by omega),if_pos (by omega),
          show p+1+d-1 = p+d by omega]
      have hcur : peek b₃ p = c := by
        rw [hpeek,if_neg (by omega),if_pos rfl]
      rw [Zipper.insert,hlen,if_pos hlt,editorOf_natCast,editorOf_natCast,
        slice_succ b₃ (Nat.zero_le p),hbefore,hafter,hcur]
  · refine ⟨_,[],?_,h,?_,by simp⟩
    · rw [inputBufAddChar,if_neg (by simp only; omega)]
    · rw [Zipper.insert,hlen,if_neg hlt]
      rfl

theorem inputBufDeleteChar_performs : Performs inputBufDeleteChar Zipper.backspace := by
  intro s h
  obtain ⟨caps,b,p,l,rfl,hpl,hl255,hnul,hprint⟩ := h.exists_natCast
  rcases Nat.eq_zero_or_pos p with rfl | hpos
  · refine ⟨_,[],?_,h,?_,by simp⟩
    · rw [inputBufDeleteChar,if_neg (by simp)]
    · rw [editorOf_natCast,slice_self]
      rfl
  · obtain ⟨q,rfl⟩ : ∃ q, p = q+1 := ⟨p-1,by omega⟩
    obtain ⟨m,rfl⟩ : ∃ m, l = m+1 := ⟨l-1,by omega⟩
    obtain ⟨b₁,hb₁,hpeek₁⟩ := shiftLeft_spec b (by omega : q < m+1) (by omega)
    obtain ⟨b₂,hb₂,hpeek₂⟩ := set_spec b₁ (by omega : m < 256) 0
    have hpeek : ∀ j, peek b₂ j = if j = m then 0
        else if q ≤ j ∧ j < m then peek b (j+1) else peek b j := by
      intro j
      rw [hpeek₂ j,hpeek₁ j]
      rfl
    have hinv : Inv ⟨caps,b₂,m,q⟩ := by
      apply inv_natCast (by omega) (by omega)
      · rw [hpeek,if_pos rfl]
      · intro j hj
        rw [hpeek,if_neg (by omega)]
        split_ifs with h1
        · exact hprint (j+1) (by omega)
        · exact hprint j (by omega)
    obtain ⟨ps,hps,hrow⟩ := redraw_spec hinv
    refine ⟨_,ps,?_,hinv,?_,hrow⟩
    · have hq : ((q+1 : ℕ) : ℤ)-1 = q := by omega
      have hm : ((m+1 : ℕ) : ℤ)-1 = m := by omega
      rw [hm] at hb₁
      rw [inputBufDeleteChar,if_pos (by simp only; omega)]
      simp only [hq,hm,hb₁,hb₂,Option.bind_eq_bind,Option.bind_some]
      exact hps
    · have hbefore : slice b₂ 0 q = slice b 0 q := by
        apply slice_congr rfl
        intro d hd
        rw [hpeek,if_neg (by omega),if_neg (by omega)]
      have hafter : slice b₂ q m = slice b (q+1) (m+1) := by
        apply slice_congr (by omega)
        intro d hd
        rw [hpeek,if_neg (by omega),if_pos (by omega),show q+1+d = q+d+1 by omega]
      rw [editorOf_natCast,editorOf_natCast,Zipper.backspace,slice_succ b (Nat.zero_le q),hbefore,
        hafter,List.dropLast_concat]

theorem inputBufClear_performs : Performs inputBufClear (fun _ => Zipper.empty) := by
  intro s h
  obtain ⟨b,hb,hpeek⟩ := set_spec s.inputBuffer (by decide : 0 < 256) 0
  rw [Nat.cast_zero] at hb
  let s' : State := ⟨s.isCapsOn,b,0,0⟩
  have hinv : Inv s' := by
    refine ⟨le_rfl,le_rfl,by simp [s'],?_,?_⟩
    · exact (hpeek 0).trans (if_pos rfl)
    · intro j hj
      exact absurd hj (Nat.not_lt_zero j)
  obtain ⟨ps,hps,hrow⟩ := redraw_spec hinv
  refine ⟨s',ps,?_,hinv,?_,hrow⟩
  · rw [inputBufClear,hb,Option.bind_eq_bind,Option.bind_some]
    exact hps
  · simp [editorOf,s',Zipper.empty]

theorem Inv.moveCursor {s : State} (h : Inv s) {q : ℤ} (h0 : 0 ≤ q) (hq : q ≤ s.inputLength) :
    Inv { s with cursorPosition := q } ∧
      ∃ ps, displayUserInput s.inputBuffer s.inputLength q = some ps ∧ ∀ p ∈ ps, InInputRow p.1 := by
  have hle := h.length_le
  exact ⟨⟨h0,hq,h.length_le,h.nul,h.printable⟩,displayUserInput_spec s.inputBuffer (by omega) q⟩

theorem cursorMoveLeft_performs : Performs cursorMoveLeft Zipper.left := by
  intro s h
  obtain ⟨p,l,hp,hl,hpl,hl255⟩ := h.nats
  unfold cursorMoveLeft
  split_ifs with hpos
  · obtain ⟨q,rfl⟩ : ∃ q, p = q+1 := ⟨p-1,by omega⟩
    have hq : (((q+1 : ℕ) : ℤ)-1).toNat = q := by omega
    obtain ⟨hinv,ps,hps,hrow⟩ := h.moveCursor (q := s.cursorPosition-1) (by omega) (by omega)
    refine ⟨_,ps,by simp [hps],hinv,?_,hrow⟩
    simp only [Zipper.left,editorOf,hq,hl,hp,Int.toNat_natCast]
    simp only [slice_succ s.inputBuffer (Nat.zero_le q),slice_cons s.inputBuffer (by omega : q < l),
      List.dropLast_concat,List.getLast?_concat,Option.toList_some,List.singleton_append]
  · obtain rfl : p = 0 := by omega
    refine ⟨s,[],rfl,h,?_,by simp⟩
    simp [editorOf,Zipper.left,hp]

theorem cursorMoveRight_performs : Performs cursorMoveRight Zipper.right := by
  intro s h
  obtain ⟨p,l,hp,hl,hpl,hl255⟩ := h.nats
  unfold cursorMoveRight
  split_ifs with hlt
  · have hq : ((p : ℤ)+1).toNat = p+1 := by omega
    obtain ⟨hinv,ps,hps,hrow⟩ := h.moveCursor (q := s.cursorPosition+1) (by omega) (by omega)
    refine ⟨_,ps,by simp [hps],hinv,?_,hrow⟩
    simp only [Zipper.right,editorOf,hq,hl,hp,Int.toNat_natCast]
    simp only [slice_succ s.inputBuffer (Nat.zero_le p),slice_cons s.inputBuffer (by omega : p < l),
      List.head?_cons,List.tail_cons,Option.toList_some]
  · obtain rfl : p = l := by omega
    refine ⟨s,[],rfl,h,?_,by simp⟩
    simp [editorOf,Zipper.right,hp,hl]

/-- The values a translation table may have: no character, newline, tab, or printable. -/
def TableEntry (c : UInt8) : Prop := c = 0 ∨ c = 0x0a ∨ c = 0x09 ∨ Printable c

instance tableEntryDecidable (c : UInt8) : Decidable (TableEntry c) :=
  inferInstanceAs (Decidable (_ ∨ _))

theorem tableEntry_getD {table : List UInt8} (h : ∀ c ∈ table, TableEntry c) (i : ℕ) :
    TableEntry (table.getD i 0) := by
  rw [List.getD_eq_getElem?_getD]
  cases hi : table[i]? with
  | none => exact Or.inl rfl
  | some c => exact h c (List.mem_of_getElem? hi)

theorem keycodeToAscii_tableEntry (caps : Bool) (keycode modifiers : UInt8) :
    TableEntry (keycodeToAscii caps keycode modifiers) := by
  have hshifted : ∀ c ∈ keycodeToAsciiShifted, TableEntry c := by decide +kernel
  have hunshifted : ∀ c ∈ keycodeToAsciiUnshifted, TableEntry c := by decide +kernel
  unfold keycodeToAscii
  dsimp only
  split_ifs
  · exact Or.inl rfl
  · exact Or.inl rfl
  · exact tableEntry_getD hshifted _
  · exact tableEntry_getD hunshifted _
  · exact tableEntry_getD hshifted _
  · exact tableEntry_getD hunshifted _

theorem handleKeypress_cases (s : State) (e : Event) :
    (∃ caps, handleKeypress s e = some ({ s with isCapsOn := caps },⟨[],[]⟩)) ∨
      (e.keycode = hidEnter ∧ handleKeypress s e = handleEnter s e.writer) ∨
      ∃ f, handleKeypress s e = edit (f s) ∧
        (f = inputBufDeleteChar ∨ f = handleTab ∨ f = cursorMoveLeft ∨ f = cursorMoveRight ∨
          ∃ c, Printable c ∧ f = inputBufAddChar c) := by
  have hentry := keycodeToAscii_tableEntry s.isCapsOn e.keycode e.modifiers
  unfold handleKeypress
  by_cases hcaps : e.keycode = hidCapslock
  · rw [if_pos hcaps]
    exact Or.inl ⟨_,rfl⟩
  rw [if_neg hcaps]
  by_cases hback : e.keycode = hidBackspace
  · rw [if_pos hback]
    exact Or.inr (Or.inr ⟨_,rfl,by simp⟩)
  rw [if_neg hback]
  by_cases htab : e.keycode = hidTab
  · rw [if_pos htab]
    exact Or.inr (Or.inr ⟨_,rfl,by simp⟩)
  rw [if_neg htab]
  by_cases henter : e.keycode = hidEnter
  · rw [if_pos henter]
    exact Or.inr (Or.inl ⟨henter,rfl⟩)
  rw [if_neg henter]
  by_cases hescape : e.keycode = hidEscape
  · rw [if_pos hescape]
    exact Or.inl ⟨s.isCapsOn,rfl⟩
  rw [if_neg hescape]
  by_cases hleft : e.keycode = hidLeft
  · rw [if_pos hleft]
    exact Or.inr (Or.inr ⟨_,rfl,by simp⟩)
  rw [if_neg hleft]
  by_cases hright : e.keycode = hidRight
  · rw [if_pos hright]
    exact Or.inr (Or.inr ⟨_,rfl,by simp⟩)
  rw [if_neg hright]
  dsimp only
  split_ifs with hascii
  · have hprint : Printable (keycodeToAscii s.isCapsOn e.keycode e.modifiers) := by
      simpa only [TableEntry,hascii.1,hascii.2.1,hascii.2.2,false_or] using hentry
    have hadd : ∃ c, Printable c ∧
        inputBufAddChar (keycodeToAscii s.isCapsOn e.keycode e.modifiers) = inputBufAddChar c :=
      ⟨_,hprint,rfl⟩
    exact Or.inr (Or.inr ⟨_,rfl,Or.inr (Or.inr (Or.inr (Or.inr hadd)))⟩)
  · exact Or.inl ⟨s.isCapsOn,rfl⟩

theorem handleTab_performs : Performs handleTab (Zipper.insert 255 space)^[4] := by
  have hspace := inputBufAddChar_performs (by decide : Printable space)
  intro s h
  obtain ⟨s₁,ps₁,hf₁,hinv₁,hed₁,hrow₁⟩ := hspace s h
  obtain ⟨s₂,ps₂,hf₂,hinv₂,hed₂,hrow₂⟩ := hspace s₁ hinv₁
  obtain ⟨s₃,ps₃,hf₃,hinv₃,hed₃,hrow₃⟩ := hspace s₂ hinv₂
  obtain ⟨s₄,ps₄,hf₄,hinv₄,hed₄,hrow₄⟩ := hspace s₃ hinv₃
  have hcaps₁ : s₁.isCapsOn = s.isCapsOn := congrArg Editor.caps hed₁
  have hcaps₂ : s₂.isCapsOn = s₁.isCapsOn := congrArg Editor.caps hed₂
  have hcaps₃ : s₃.isCapsOn = s₂.isCapsOn := congrArg Editor.caps hed₃
  refine ⟨s₄,ps₁ ++ ps₂ ++ ps₃ ++ ps₄,?_,hinv₄,?_,?_⟩
  · simp only [handleTab,hf₁,hf₂,hf₃,hf₄,Option.bind_eq_bind,Option.bind_some,Option.pure_def]
  · rw [hed₄,hed₃,hed₂,hed₁,hcaps₃,hcaps₂,hcaps₁]
    simp only [Function.iterate_succ_apply,Function.iterate_zero,id]
  · intro p hp
    simp only [List.mem_append] at hp
    rcases hp with ((hp | hp) | hp) | hp
    · exact hrow₁ p hp
    · exact hrow₂ p hp
    · exact hrow₃ p hp
    · exact hrow₄ p hp

def Shows (r : Option (State × Output)) (ed : Editor) : Prop :=
  ∃ s' out, r = some (s',out) ∧ Inv s' ∧ editorOf s' = ed ∧ ∀ p ∈ out.puts, InInputRow p.1

theorem Performs.shows {f : State → Option (State × List Put)} {op : Zipper UInt8 → Zipper UInt8}
    (hf : Performs f op) {s : State} (h : Inv s) :
    Shows (edit (f s)) ⟨s.isCapsOn,op (editorOf s).line⟩ := by
  obtain ⟨s',ps,hfs,hinv,hed,hrow⟩ := hf s h
  refine ⟨s',⟨ps,[]⟩,?_,hinv,hed,hrow⟩
  rw [hfs]
  rfl

theorem shows_self {s : State} (h : Inv s) : Shows (some (s,⟨[],[]⟩)) (editorOf s) :=
  ⟨s,⟨[],[]⟩,rfl,h,rfl,by simp⟩

theorem handleEnter_shows {s : State} (h : Inv s) (w : Writer) :
    Shows (handleEnter s w) (if w.accepts (editorOf s).line.length then
      ⟨s.isCapsOn,Zipper.empty⟩ else editorOf s) := by
  obtain ⟨p,l,hp,hl,hpl,hl255⟩ := h.nats
  rw [h.line_length,hl,Int.toNat_natCast]
  unfold handleEnter
  split_ifs with hpos hacc hacc
  · obtain ⟨k,-,hsend,-,-⟩ := sendInputBufferToServer_spec s w hl255 hl
    obtain ⟨s',ps,hf,hinv,hed,hrow⟩ := inputBufClear_performs s h
    refine ⟨s',⟨ps,slice s.inputBuffer 0 k⟩,?_,hinv,hed,hrow⟩
    simp [hsend,hacc,hf]
  · obtain ⟨k,-,hsend,-,-⟩ := sendInputBufferToServer_spec s w hl255 hl
    refine ⟨s,⟨[],slice s.inputBuffer 0 k⟩,?_,h,rfl,by simp⟩
    simp [hsend,hacc]
  · obtain rfl : l = 0 := by omega
    obtain rfl : p = 0 := by omega
    have hempty : editorOf s = ⟨s.isCapsOn,Zipper.empty⟩ := by
      simp [editorOf,hp,hl,Zipper.empty]
    rw [← hempty]
    exact shows_self h
  · exact shows_self h

/-- A key event keeps the invariant and acts on the line as the abstract editor does, with
every index inside the buffer and every character drawn in the input row. -/
theorem handleKeypress_shows {s : State} (h : Inv s) (e : Event) :
    Shows (handleKeypress s e) ((editorOf s).press e) := by
  unfold handleKeypress Editor.press
  by_cases hcaps : e.keycode = hidCapslock
  · rw [if_pos hcaps,if_pos hcaps]
    exact ⟨_,_,rfl,⟨h.cursor_nonneg,h.cursor_le,h.length_le,h.nul,h.printable⟩,rfl,by simp⟩
  rw [if_neg hcaps,if_neg hcaps]
  by_cases hback : e.keycode = hidBackspace
  · rw [if_pos hback,if_pos hback]
    exact inputBufDeleteChar_performs.shows h
  rw [if_neg hback,if_neg hback]
  by_cases htab : e.keycode = hidTab
  · rw [if_pos htab,if_pos htab]
    exact handleTab_performs.shows h
  rw [if_neg htab,if_neg htab]
  by_cases henter : e.keycode = hidEnter
  · rw [if_pos henter,if_pos henter]
    exact handleEnter_shows h e.writer
  rw [if_neg henter,if_neg henter]
  by_cases hescape : e.keycode = hidEscape
  · rw [if_pos hescape,if_pos hescape]
    exact shows_self h
  rw [if_neg hescape,if_neg hescape]
  by_cases hleft : e.keycode = hidLeft
  · rw [if_pos hleft,if_pos hleft]
    exact cursorMoveLeft_performs.shows h
  rw [if_neg hleft,if_neg hleft]
  by_cases hright : e.keycode = hidRight
  · rw [if_pos hright,if_pos hright]
    exact cursorMoveRight_performs.shows h
  rw [if_neg hright,if_neg hright]
  have hcapsOf : (editorOf s).caps = s.isCapsOn := rfl
  have hentry := keycodeToAscii_tableEntry s.isCapsOn e.keycode e.modifiers
  rw [hcapsOf]
  dsimp only
  split_ifs with hascii
  · have hprint : Printable (keycodeToAscii s.isCapsOn e.keycode e.modifiers) := by
      simpa only [TableEntry,hascii.1,hascii.2.1,hascii.2.2,false_or] using hentry
    exact (inputBufAddChar_performs hprint).shows h
  · exact shows_self h

theorem step_shows {s : State} (h : Inv s) (e : Event) :
    ∃ s', step (some s) e = some s' ∧ Inv s' ∧ editorOf s' = (editorOf s).press e := by
  obtain ⟨s',out,hs',hinv,hed,-⟩ := handleKeypress_shows h e
  exact ⟨s',by rw [step,Option.bind_some,hs']; rfl,hinv,hed⟩

/-- The input line refines the list editor with a cursor along every run of key events: no
event uses an index outside the buffer, the invariant holds after each, and the buffer shows
the line of the abstract editor. -/
theorem inputLine_refines_editor (w : ℕ → Event) (t : ℕ) :
    ∃ s, trace step (some initial) w t = some s ∧ Inv s ∧
      editorOf s = trace Editor.press Editor.initial w t := by
  induction t with
  | zero => exact ⟨initial,rfl,inv_initial,editorOf_initial⟩
  | succ t ih =>
    obtain ⟨s,hs,hinv,hed⟩ := ih
    obtain ⟨s',hs',hinv',hed'⟩ := step_shows hinv (w t)
    refine ⟨s',?_,hinv',?_⟩
    · rw [trace_succ,hs,hs']
    · rw [trace_succ,hed',hed]

end Keyboard
end EmbeddedSystems
