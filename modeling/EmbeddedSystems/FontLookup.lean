import EmbeddedSystems.ChatScreen
import EmbeddedSystems.InputRow
import EmbeddedSystems.MessageVisible

/-! `fbputchar` takes its pixels from `font + FONT_HEIGHT * c`, 16 bytes for each of 128 glyphs. The
characters of the input line come from the keycode tables and are ASCII; those of a message are
the bytes of a TCP peer, which nothing checks. -/

namespace EmbeddedSystems
namespace Screen

open CArray

/-- The value of a `char` argument, on machines where plain `char` is signed or not. -/
def charValue (signed : Bool) (c : UInt8) : ℤ :=
  if signed && decide (128 ≤ c.toNat) then (c.toNat : ℤ)-256 else c.toNat

theorem charValue_of_lt (signed : Bool) {c : UInt8} (h : c.toNat < 128) :
    charValue signed c = c.toNat := by
  have hn : ¬((signed && decide (128 ≤ c.toNat)) = true) := by
    rw [Bool.and_eq_true,decide_eq_true_eq]
    omega
  rw [charValue,if_neg hn]

def fontHeight : ℕ := 16

/-- The indices of `font` that `fbputchar` reads: `pixelp` advances after every second line. -/
def glyphReads (signed : Bool) (c : UInt8) : List ℤ :=
  (List.range (fontHeight*2)).map fun y : ℕ => fontHeight*charValue signed c+(y/2 : ℕ)

def InFont (signed : Bool) (c : UInt8) : Prop := ∀ i ∈ glyphReads signed c, 0 ≤ i ∧ i ≤ 2047

theorem inFont_iff (signed : Bool) (c : UInt8) : InFont signed c ↔ c.toNat < 128 := by
  have hlt := c.toNat_lt
  unfold InFont glyphReads fontHeight
  constructor
  · intro h
    unfold charValue at h
    have h0 := h _ (List.mem_map.mpr ⟨0,by simp,rfl⟩)
    by_contra hge
    cases signed
    · simp at h0
      omega
    · simp only [Bool.true_and,decide_eq_true_eq] at h0
      rw [if_pos (by omega)] at h0
      simp at h0
      omega
  · intro hc i hi
    obtain ⟨y,hy,rfl⟩ := List.mem_map.mp hi
    rw [List.mem_range] at hy
    rw [charValue_of_lt signed hc]
    push_cast
    omega

def Ascii (p : Put) : Prop := p.2.toNat < 128

theorem drawText_ascii {n : ℕ} {buffer : Fin n → UInt8} {length : ℤ}
    (hb : ∀ j : ℕ, (j : ℤ) < length → (peek buffer j).toNat < 128) {row : ℤ} {k : ℕ} {i col : ℤ}
    (hi : 0 ≤ i) {ps : List Put} (h : drawText buffer length row k i col = some ps) :
    ∀ p ∈ ps, Ascii p := by
  induction k generalizing i col ps with
  | zero =>
    obtain rfl := Option.some.inj h
    simp
  | succ k ih =>
    obtain ⟨hlt,c,rest,hc,hrest,rfl⟩ | ⟨-,rfl⟩ := drawText_succ_cases h
    · intro p hp
      rcases List.mem_cons.mp hp with rfl | hp
      · obtain ⟨j,rfl⟩ := Int.eq_ofNat_of_zero_le hi
        obtain rfl := eq_peek_of_get hc
        exact hb j hlt
      · exact ih (by omega) hrest p hp
    · simp

end Screen

namespace Keyboard

open CArray Screen

theorem displayUserInput_ascii {s : State} (h : Inv s) {ps : List Put}
    (hd : displayUserInput s.inputBuffer s.inputLength s.cursorPosition = some ps) :
    ∀ p ∈ ps, Ascii p := by
  have hchars : ∀ j : ℕ, (j : ℤ) < s.inputLength → (peek s.inputBuffer j).toNat < 128 := by
    intro j hj
    have hle : (peek s.inputBuffer j).toNat ≤ 0x7e :=
      UInt8.le_iff_toNat_le.mp (h.printable j (by omega)).2
    omega
  have hstart : 0 ≤ windowStart s.cursorPosition := by
    simp only [windowStart,msgAreaCols]
    split_ifs <;> omega
  obtain ⟨text,htext,heq⟩ := Option.bind_eq_some_iff.mp hd
  obtain rfl := Option.some.inj heq
  intro p hp
  rcases List.mem_append.mp hp with hp | hp
  · rcases List.mem_append.mp hp with hp | hp
    · obtain ⟨c,-,rfl⟩ := List.mem_map.mp hp
      exact (by decide : space.toNat < 128)
    · exact drawText_ascii hchars hstart htext p hp
  · unfold drawCursor at hp
    split_ifs at hp
    · obtain rfl := List.mem_singleton.mp hp
      exact (by decide : (0x7c : UInt8).toNat < 128)
    · exact absurd hp (by simp)

def AsciiOut (r : Option (State × Output)) : Prop :=
  ∀ s out, r = some (s,out) → ∀ p ∈ out.puts, Ascii p

theorem asciiOut_silent (s : State) (wire : List UInt8) : AsciiOut (some (s,⟨[],wire⟩)) := by
  intro s' out h
  obtain ⟨-,rfl⟩ := Prod.mk.inj (Option.some.inj h)
  simp

theorem Performs.ascii {f : State → Option (State × List Put)} {op : Zipper UInt8 → Zipper UInt8}
    (hp : Performs f op) (hr : Refreshes f) {s s' : State} (h : Inv s) {ps : List Put}
    (hf : f s = some (s',ps)) : Inv s' ∧ ∀ p ∈ ps, Ascii p := by
  obtain ⟨s₁,ps₁,hf₁,hinv,-⟩ := hp s h
  obtain ⟨rfl,rfl⟩ := Prod.mk.inj (Option.some.inj (hf.symm.trans hf₁))
  refine ⟨hinv,?_⟩
  rcases hr s s' ps hf with ⟨-,rfl⟩ | hd
  · simp
  · exact displayUserInput_ascii hinv hd

theorem edit_asciiOut {r : Option (State × List Put)}
    (h : ∀ s ps, r = some (s,ps) → ∀ p ∈ ps, Ascii p) : AsciiOut (edit r) := by
  intro s out he
  obtain ⟨⟨s',ps⟩,hr,heq⟩ := Option.map_eq_some_iff.mp he
  obtain ⟨-,rfl⟩ := Prod.mk.inj heq
  exact h s' ps hr

theorem Performs.asciiOut {f : State → Option (State × List Put)}
    {op : Zipper UInt8 → Zipper UInt8} (hp : Performs f op) (hr : Refreshes f) {s : State}
    (h : Inv s) : AsciiOut (edit (f s)) :=
  edit_asciiOut fun _ _ hf => (hp.ascii hr h hf).2

theorem handleTab_asciiOut {s : State} (h : Inv s) : AsciiOut (edit (handleTab s)) := by
  have hspace := inputBufAddChar_performs (by decide : Printable space)
  have hrefreshes := inputBufAddChar_refreshes space
  apply edit_asciiOut
  intro s' ps hf
  obtain ⟨⟨s₁,ps₁⟩,hf₁,hf⟩ := Option.bind_eq_some_iff.mp hf
  obtain ⟨⟨s₂,ps₂⟩,hf₂,hf⟩ := Option.bind_eq_some_iff.mp hf
  obtain ⟨⟨s₃,ps₃⟩,hf₃,hf⟩ := Option.bind_eq_some_iff.mp hf
  obtain ⟨⟨s₄,ps₄⟩,hf₄,hf⟩ := Option.bind_eq_some_iff.mp hf
  obtain ⟨-,rfl⟩ := Prod.mk.inj (Option.some.inj hf)
  obtain ⟨hinv₁,hascii₁⟩ := hspace.ascii hrefreshes h hf₁
  obtain ⟨hinv₂,hascii₂⟩ := hspace.ascii hrefreshes hinv₁ hf₂
  obtain ⟨hinv₃,hascii₃⟩ := hspace.ascii hrefreshes hinv₂ hf₃
  obtain ⟨-,hascii₄⟩ := hspace.ascii hrefreshes hinv₃ hf₄
  intro p hp
  simp only [List.mem_append] at hp
  rcases hp with ((hp | hp) | hp) | hp
  · exact hascii₁ p hp
  · exact hascii₂ p hp
  · exact hascii₃ p hp
  · exact hascii₄ p hp

theorem handleEnter_asciiOut {s : State} (h : Inv s) (w : Writer) :
    AsciiOut (handleEnter s w) := by
  unfold handleEnter
  split_ifs
  · intro s' out hf
    obtain ⟨⟨wire,rc⟩,-,hf⟩ := Option.bind_eq_some_iff.mp hf
    dsimp only at hf
    split_ifs at hf
    · obtain ⟨⟨s₁,ps⟩,hclear,hf⟩ := Option.bind_eq_some_iff.mp hf
      obtain ⟨-,rfl⟩ := Prod.mk.inj (Option.some.inj hf)
      exact (inputBufClear_performs.ascii inputBufClear_refreshes h hclear).2
    · exact asciiOut_silent s wire s' out hf
  · exact asciiOut_silent s []

theorem handleKeypress_asciiOut {s : State} (h : Inv s) (e : Event) :
    AsciiOut (handleKeypress s e) := by
  rcases handleKeypress_cases s e with ⟨caps,heq⟩ | ⟨-,heq⟩ | ⟨f,heq,hf⟩
  · rw [heq]
    exact asciiOut_silent _ []
  · rw [heq]
    exact handleEnter_asciiOut h e.writer
  rw [heq]
  rcases hf with rfl | rfl | rfl | rfl | ⟨c,hprint,rfl⟩
  · exact inputBufDeleteChar_performs.asciiOut inputBufDeleteChar_refreshes h
  · exact handleTab_asciiOut h
  · exact cursorMoveLeft_performs.asciiOut cursorMoveLeft_refreshes h
  · exact cursorMoveRight_performs.asciiOut cursorMoveRight_refreshes h
  · exact (inputBufAddChar_performs hprint).asciiOut (inputBufAddChar_refreshes c) h

end Keyboard

namespace MessageArea

open Screen EmittingLoop

def rowsFrom (cur cs : List UInt8) : List (List UInt8) := (wrap cur cs).1 ++ [(wrap cur cs).2]

/-- The characters of a message that `display_message` draws: those of its first 21 rows. -/
def drawn (msg : List UInt8) : List UInt8 := ((laid msg).take 21).flatten

section Rows

variable {cur p : List UInt8} {c : UInt8}

theorem rowsFrom_nil : rowsFrom cur (text []) = [cur] := rfl

theorem rowsFrom_nul : rowsFrom cur (text (0::p)) = [cur] := rfl

theorem rowsFrom_newline : rowsFrom cur (text (newline::p)) = cur :: rowsFrom [] (text p) := rfl

theorem rowsFrom_put (h0 : c ≠ 0) (hnl : c ≠ newline) (hlen : cur.length < 64) :
    rowsFrom cur (text (c::p)) = rowsFrom (cur ++ [c]) (text p) := by
  rw [rowsFrom,wrap_put h0 hnl hlen]
  rfl

theorem rowsFrom_full (h0 : c ≠ 0) (hnl : c ≠ newline) (hlen : 64 ≤ cur.length) :
    rowsFrom cur (text (c::p)) = cur :: rowsFrom [c] (text p) := by
  rw [rowsFrom,wrap_full h0 hnl hlen]
  rfl

theorem rowsFrom_head (cur cs : List UInt8) :
    ∃ row rest, rowsFrom cur cs = row :: rest ∧ ∀ c ∈ cur, c ∈ row := by
  induction cs generalizing cur with
  | nil => exact ⟨cur,[],rfl,fun _ hc => hc⟩
  | cons d cs ih =>
    rw [rowsFrom,wrap]
    split_ifs
    · exact ⟨cur,_,rfl,fun _ hc => hc⟩
    · obtain ⟨row,rest,heq,hsub⟩ := ih (cur ++ [d])
      exact ⟨row,rest,heq,fun c hc => hsub c (List.mem_append_left _ hc)⟩
    · exact ⟨cur,_,rfl,fun _ hc => hc⟩

end Rows

/-- The loop is in a row of the message that is not below the cursor's: `above` are the rows it
has closed since it last started. -/
def Laying (msg : List UInt8) (l : Loop) : Prop :=
  ∃ (above : List (List UInt8)) (cur : List UInt8) (row : ℕ),
    l.cursor = ⟨row,cur.length⟩ ∧ above.length ≤ row ∧ row ≤ 20 ∧
      laid msg = above ++ rowsFrom cur (text l.p)

theorem laying_start (msg : List UInt8) {row : ℕ} (h : row ≤ 20) : Laying msg ⟨msg,⟨row,0⟩⟩ :=
  ⟨[],[],row,rfl,Nat.zero_le row,h,rfl⟩

theorem mem_drawn {msg p cur : List UInt8} {above : List (List UInt8)} (h : above.length ≤ 20)
    (heq : laid msg = above ++ rowsFrom cur (text p)) {c : UInt8} (hc : c ∈ cur) :
    c ∈ drawn msg := by
  obtain ⟨row,rest,hrow,hsub⟩ := rowsFrom_head cur (text p)
  refine List.mem_flatten.mpr ⟨row,?_,hsub c hc⟩
  rw [heq,hrow,List.take_append,show 21-above.length = 20-above.length+1 by omega,
    List.take_succ_cons]
  simp

/-- One iteration stays in the layout of the message and draws a character of its first 21 rows,
or blanks. -/
theorem iter_laying {msg : List UInt8} {l l' : Loop} {acts : List Act} (h : Laying msg l)
    (hi : iter msg l = some (acts,l')) :
    Laying msg l' ∧ ∀ p ∈ acts.flatMap Act.puts, p.2 = space ∨ p.2 ∈ drawn msg := by
  obtain ⟨p,cursor⟩ := l
  obtain ⟨above,cur,row,rfl,habove,hrow,heq⟩ := h
  have hlen : (above ++ [cur]).length = above.length+1 := by simp
  rcases iter_cases hi with ⟨-,rfl,rfl⟩ | ⟨c,p,rfl,h0,hc⟩
  · refine ⟨laying_start msg (Nat.zero_le 20),?_⟩
    intro p hp
    rw [List.flatMap_singleton] at hp
    exact Or.inl (mem_clearMessageArea.mp hp).2
  simp only at heq hc
  rcases hc with ⟨rfl,hlast,rfl,rfl⟩ | ⟨hnl,hcol,rfl,rfl⟩ | ⟨hnl,hcol,hlast,rfl,rfl⟩
  · refine ⟨⟨above ++ [cur],[],row+1,by simp,by omega,by omega,?_⟩,by simp⟩
    rw [heq,rowsFrom_newline,List.append_assoc,List.singleton_append]
  · rw [rowsFrom_put h0 hnl (by omega)] at heq
    refine ⟨⟨above,cur ++ [c],row,by simp,habove,hrow,heq⟩,?_⟩
    intro q hq
    obtain rfl := List.mem_singleton.mp hq
    exact Or.inr (mem_drawn (by omega) heq (by simp [fbputchar]))
  · have heq' : laid msg = (above ++ [cur]) ++ rowsFrom [c] (text p) := by
      rw [heq,rowsFrom_full h0 hnl (by omega),List.append_assoc,List.singleton_append]
    refine ⟨⟨above ++ [cur],[c],row+1,by simp,by omega,by omega,heq'⟩,?_⟩
    intro q hq
    obtain rfl := List.mem_singleton.mp hq
    exact Or.inr (mem_drawn (by omega) heq' (by simp [fbputchar]))

theorem text_eq_nil_of_iter {msg : List UInt8} {l : Loop} (h : iter msg l = none) :
    text l.p = [] := by
  obtain ⟨p,cursor⟩ := l
  cases p with
  | nil => rfl
  | cons c p =>
    by_cases h0 : c = 0
    · rw [text,if_pos h0]
    · unfold iter at h
      simp only [h0,if_false] at h
      split_ifs at h

theorem finish_laying {msg : List UInt8} {l : Loop} (h : Laying msg l) :
    (∃ row : ℕ, row ≤ 20 ∧ (finish l.cursor).2 = ⟨row,0⟩) ∧
      ∀ p ∈ (finish l.cursor).1.flatMap Act.puts, p.2 = space := by
  obtain ⟨above,cur,row,hcur,-,hrow,-⟩ := h
  rw [hcur]
  unfold finish
  dsimp only
  split_ifs with hcol hgt
  · refine ⟨⟨0,Nat.zero_le 20,rfl⟩,?_⟩
    intro p hp
    rw [List.flatMap_singleton] at hp
    exact (mem_clearMessageArea.mp hp).2
  · simp only [msgAreaBottom] at hgt
    exact ⟨⟨row+1,by omega,by simp⟩,by simp⟩
  · have hnil : (cur.length : ℤ) = 0 := by omega
    exact ⟨⟨row,hrow,by rw [hnil]⟩,by simp⟩

theorem rowBreaks_le_of_laying {msg : List UInt8} {l : Loop} (h : Laying msg l)
    (hi : iter msg l = none) : rowBreaks msg ≤ 20 := by
  obtain ⟨above,cur,row,-,habove,hrow,heq⟩ := h
  rw [text_eq_nil_of_iter hi] at heq
  have hlen := congrArg List.length heq
  rw [laid_length,List.length_append,show (rowsFrom cur []).length = 1 from rfl] at hlen
  omega

/-- From this point the loop comes to draw the character. -/
def Puts (msg : List UInt8) (l : Loop) (c : UInt8) : Prop :=
  ∃ acts l' a, Runs (iter msg) l acts l' ∧ Act.put (a,c) ∈ acts

theorem Puts.now {msg : List UInt8} {l l' : Loop} {c : UInt8} {row col : ℤ}
    (hi : iter msg l = some ([.put (fbputchar c row col)],l')) : Puts msg l c :=
  ⟨_,l',(row,col),Runs.single hi,List.mem_singleton_self _⟩

theorem Puts.after {msg : List UInt8} {l l₁ : Loop} {acts : List Act} {c : UInt8}
    (hr : Runs (iter msg) l acts l₁) (h : Puts msg l₁ c) : Puts msg l c := by
  obtain ⟨acts',l',a,hr',hput⟩ := h
  exact ⟨acts ++ acts',l',a,hr.trans hr',List.mem_append_right acts hput⟩

theorem mem_rows_cons {cur : List UInt8} {rows : List (List UInt8)} {row : ℕ} (hrow : row ≤ 20)
    {c : UInt8} (hc : c ∈ ((cur :: rows).take (21-row)).flatten) :
    c ∈ cur ∨ row < 20 ∧ c ∈ (rows.take (21-(row+1))).flatten := by
  rw [show 21-row = 21-(row+1)+1 by omega,List.take_succ_cons,List.flatten_cons] at hc
  rcases List.mem_append.mp hc with hc | hc
  · exact Or.inl hc
  · refine Or.inr ⟨?_,hc⟩
    by_contra hlast
    rw [show 21-(row+1) = 0 by omega] at hc
    exact absurd hc (by simp)

theorem put_reached (msg : List UInt8) {p cur : List UInt8} {row : ℕ} (hrow : row ≤ 20) {c : UInt8}
    (hc : c ∈ ((rowsFrom cur (text p)).take (21-row)).flatten) :
    c ∈ cur ∨ Puts msg ⟨p,⟨row,cur.length⟩⟩ c := by
  induction p generalizing cur row with
  | nil =>
    rw [rowsFrom_nil] at hc
    exact Or.inl ((mem_rows_cons hrow hc).resolve_right (by simp))
  | cons d p ih =>
    by_cases h0 : d = 0
    · subst h0
      rw [rowsFrom_nul] at hc
      exact Or.inl ((mem_rows_cons hrow hc).resolve_right (by simp))
    by_cases hnl : d = newline
    · subst hnl
      rw [rowsFrom_newline] at hc
      rcases mem_rows_cons hrow hc with hc | ⟨hlast,hc⟩
      · exact Or.inl hc
      · have hrest := (ih (by omega) hc).resolve_left (by simp)
        rw [Nat.cast_add,Nat.cast_one] at hrest
        exact Or.inr (hrest.after (Runs.single (iter_newline msg p (by simp only; omega))))
    by_cases hfull : cur.length < 64
    · have hcol : (⟨row,cur.length⟩ : Cursor).col < 64 := by
        simp only
        omega
      have hi := iter_put msg p h0 hnl hcol
      rw [rowsFrom_put h0 hnl hfull] at hc
      rcases ih hrow hc with hcur | hrest
      · rcases List.mem_append.mp hcur with hcur | hcd
        · exact Or.inl hcur
        · obtain rfl := List.mem_singleton.mp hcd
          exact Or.inr (Puts.now hi)
      · rw [length_concat_cast] at hrest
        exact Or.inr (hrest.after (Runs.single hi))
    · rw [rowsFrom_full h0 hnl (by omega)] at hc
      rcases mem_rows_cons hrow hc with hc | ⟨hlast,hc⟩
      · exact Or.inl hc
      · have hcol : 64 ≤ (⟨row,cur.length⟩ : Cursor).col := by
          simp only
          omega
        have hi := iter_wrap msg p h0 hnl hcol (by simp only; omega)
        rcases ih (by omega) hc with hcd | hrest
        · obtain rfl := List.mem_singleton.mp hcd
          exact Or.inr (Puts.now hi)
        · rw [Nat.cast_add,Nat.cast_one] at hrest
          exact Or.inr (hrest.after (Runs.single hi))

/-- From every row, the loop comes to draw each character of the first 21 rows: a message that
does not fit below the cursor is drawn from the top. -/
theorem drawn_reached (msg : List UInt8) {row : ℕ} (hrow : row ≤ 20) {c : UInt8}
    (hc : c ∈ drawn msg) : Puts msg ⟨msg,⟨row,0⟩⟩ c := by
  by_cases hfit : row+rowBreaks msg ≤ 20
  · have hall : ((rowsFrom [] (text msg)).take (21-row)) = (laid msg).take 21 := by
      have hlen := laid_length msg
      rw [List.take_of_length_le (by omega : (laid msg).length ≤ 21)]
      exact List.take_of_length_le (by omega : (laid msg).length ≤ 21-row)
    rw [drawn,← hall] at hc
    exact (put_reached msg hrow hc).resolve_left (by simp)
  · have hover : 20 < row+(wrap [] (text msg)).1.length := not_le.mp hfit
    obtain ⟨acts,hr⟩ := runs_overflow msg hrow hover
    have htop := (put_reached msg (Nat.zero_le 20) hc).resolve_left (by simp)
    exact htop.after hr

theorem displayMessage_short {msg : List UInt8} {row : ℕ} (hrow : row ≤ 20)
    (hshort : rowBreaks msg ≤ 20) :
    ∃ fuel d, ∃ row' ≤ 20, displayMessage fuel msg ⟨row,0⟩ = some d ∧
      d.cursor = ⟨(row' : ℕ),0⟩ := by
  have hblank : Matches fbclear (List.replicate row []) := by
    intro r c _ _
    have hrow : (List.replicate row ([] : List UInt8)).getD r [] = [] := by
      rw [List.getD_eq_getElem?_getD,List.getElem?_getD_replicate_default_eq]
    rw [cellOf,hrow]
    rfl
  have hlen : (List.replicate row ([] : List UInt8)).length = row := List.length_replicate
  obtain ⟨acts,l,hr,hend,top,-,hlen',hcur,hM⟩ := runs_result (by omega) hblank hshort
  obtain ⟨fuel,hloop⟩ := hr.loop hend
  obtain ⟨rows',-,hle,hcur',-⟩ := finish_spec hlen' hM rfl
  rw [hlen] at hloop
  rw [← hcur] at hcur'
  exact ⟨fuel,⟨acts,_,_⟩,rows'.length,hle,displayMessage_eq_some.mpr ⟨l,hloop,rfl⟩,hcur'⟩

end MessageArea

namespace ChatScreen

open Screen MessageArea Keyboard SharedStore

/-- The program calls `fbputchar` with these arguments: before the threads start, or as the next
step of a thread after some schedule. -/
def Made (msgs : ℕ → List UInt8) (keys : ℕ → Event) (p : Put) : Prop :=
  p ∈ fbInitScreen ++ fbputs prompt inputAreaTop 0 ∨
    ∃ sched i, (tick (advance msgs keys i) ((run (advance msgs keys) start sched).threads i)).1 =
      some p

/-- Message `k` gets shown: `display_message` returns on all messages before it. -/
def Arrives (msgs : ℕ → List UInt8) (k : ℕ) : Prop := ∀ i < k, rowBreaks (msgs i) ≤ 20

def NetDraws (msgs : ℕ → List UInt8) (p : Put) : Prop :=
  p.2 = space ∨ ∃ k, Arrives msgs k ∧ p.2 ∈ drawn (msgs k)

def NetLaying (msgs : ℕ → List UInt8) : Net → Prop
  | .reading k cursor => Arrives msgs k ∧ ∃ row : ℕ, row ≤ 20 ∧ cursor = ⟨row,0⟩
  | .showing k l => Arrives msgs k ∧ Laying (msgs k) l

theorem prompt_ascii : ∀ c ∈ prompt, c.toNat < 128 := by
  simp [prompt]

theorem advanceNet_laying (msgs : ℕ → List UInt8) (s : Net) (h : NetLaying msgs s) :
    NetLaying msgs (advanceNet msgs s).2 ∧ ∀ p ∈ (advanceNet msgs s).1, NetDraws msgs p := by
  cases s with
  | reading k cursor =>
    obtain ⟨harr,row,hrow,rfl⟩ := h
    exact ⟨⟨harr,laying_start (msgs k) hrow⟩,by simp [advanceNet]⟩
  | showing k l =>
    obtain ⟨harr,hl⟩ := h
    rw [advanceNet]
    cases hi : iter (msgs k) l with
    | none =>
      have hshort := rowBreaks_le_of_laying hl hi
      obtain ⟨hcur,hblank⟩ := finish_laying hl
      refine ⟨⟨?_,hcur⟩,fun p hp => Or.inl (hblank p hp)⟩
      intro i hlt
      rcases Nat.lt_succ_iff_lt_or_eq.mp hlt with hlt | rfl
      · exact harr i hlt
      · exact hshort
    | some r =>
      obtain ⟨hl',hputs⟩ := iter_laying hl hi
      refine ⟨⟨harr,hl'⟩,?_⟩
      intro p hp
      rcases hputs p hp with hsp | hdr
      · exact Or.inl hsp
      · exact Or.inr ⟨k,harr,hdr⟩

theorem advanceMain_ascii (keys : ℕ → Event) (m : Main) (h : m.Inv) :
    (advanceMain keys m).2.Inv ∧ ∀ p ∈ (advanceMain keys m).1, Ascii p := by
  obtain ⟨k,state⟩ := m
  obtain ⟨s,hs,hinv⟩ := h
  obtain rfl : state = some s := hs
  obtain ⟨s',out,hf,hinv',-⟩ := handleKeypress_shows hinv (keys k)
  have heq : advanceMain keys ⟨k,some s⟩ = (out.puts,⟨k+1,some s'⟩) := by
    rw [advanceMain,Option.bind_some,hf]
  rw [heq]
  exact ⟨⟨s',rfl,hinv'⟩,handleKeypress_asciiOut hinv (keys k) s' out hf⟩

def LocalChars (msgs : ℕ → List UInt8) : ∀ i, Local i → Prop
  | .net => NetLaying msgs
  | .main => Main.Inv

theorem advance_chars (msgs : ℕ → List UInt8) (keys : ℕ → Event) (i : Who) (s : Local i)
    (h : LocalChars msgs i s) : LocalChars msgs i (advance msgs keys i s).2 ∧
      ∀ p ∈ (advance msgs keys i s).1, Ascii p ∨ NetDraws msgs p := by
  cases i with
  | net =>
    obtain ⟨hs',hputs⟩ := advanceNet_laying msgs s h
    exact ⟨hs',fun p hp => Or.inr (hputs p hp)⟩
  | main =>
    obtain ⟨hs',hputs⟩ := advanceMain_ascii keys s h
    exact ⟨hs',fun p hp => Or.inl (hputs p hp)⟩

theorem start_chars (msgs : ℕ → List UInt8) (i : Who) :
    LocalChars msgs i (start.threads i).state := by
  cases i with
  | net => exact ⟨fun i hi => absurd hi (Nat.not_lt_zero i),0,Nat.zero_le 20,rfl⟩
  | main => exact ⟨initial,rfl,inv_initial⟩

theorem start_queue (i : Who) : (start.threads i).queue = [] := by
  cases i <;> rfl

theorem made_chars {msgs : ℕ → List UInt8} {keys : ℕ → Event} {p : Put} (h : Made msgs keys p) :
    Ascii p ∨ NetDraws msgs p := by
  rcases h with h | ⟨sched,i,h⟩
  · left
    rcases List.mem_append.mp h with h | h
    · have hdash : p.2 = 0x2d := (mem_fbDrawLineDivider h).2
      rw [Ascii,hdash]
      decide
    · exact prompt_ascii p.2 (mem_fbputs h).2.2.2
  · have hstart : ∀ i, LocalChars msgs i (start.threads i).state ∧
        ∀ w ∈ (start.threads i).queue, Ascii w ∨ NetDraws msgs w :=
      fun i => ⟨start_chars msgs i,by simp [start_queue]⟩
    exact (run_queued (advance_chars msgs keys) hstart sched i).2 p (mem_queue_of_tick h)

theorem exists_reading (msgs : ℕ → List UInt8) (keys : ℕ → Event) {k : ℕ} (h : Arrives msgs k) :
    ∃ sched, ∃ row ≤ 20, (run (advance msgs keys) start sched).threads .net =
      ⟨Net.reading k ⟨(row : ℕ),0⟩,[]⟩ := by
  induction k with
  | zero => exact ⟨[],0,Nat.zero_le 20,rfl⟩
  | succ k ih =>
    obtain ⟨sched,row,hrow,hth⟩ := ih fun i hi => h i (by omega)
    obtain ⟨fuel,d,row',hrow',hd,hcur⟩ := displayMessage_short hrow (h k (by omega))
    obtain ⟨n,-,hth'⟩ := net_shows_message msgs keys hd _ hth
    refine ⟨sched ++ List.replicate n Who.net,row',hrow',?_⟩
    rw [run_append,hth',hcur]

theorem made_of_drawn {msgs : ℕ → List UInt8} (keys : ℕ → Event) {k : ℕ} (h : Arrives msgs k)
    {c : UInt8} (hc : c ∈ drawn (msgs k)) : ∃ a, Made msgs keys (a,c) := by
  obtain ⟨sched,row,hrow,hth⟩ := exists_reading msgs keys h
  obtain ⟨n₁,-,hth₁⟩ := run_advance (advance msgs keys) _ hth
  obtain ⟨acts,l,a,hr,hput⟩ := drawn_reached (msgs k) hrow hc
  obtain ⟨acts₁,l₁,acts₂,l₂,hr₁,hi,hput⟩ := hr.exists_iter hput
  obtain ⟨n₂,-,hth₂⟩ := net_runs msgs keys hr₁ _ hth₁
  have hw : (a,c) ∈ (advance msgs keys .net (Net.showing k l₁)).1 := by
    rw [advance_showing keys hi]
    exact List.mem_flatMap.mpr ⟨_,hput,List.mem_singleton_self _⟩
  obtain ⟨n₃,hn₃⟩ := exists_tick hth₂ hw
  refine ⟨a,Or.inr ⟨sched ++ (List.replicate n₁ Who.net ++ (List.replicate n₂ Who.net ++
    List.replicate n₃ Who.net)),.net,?_⟩⟩
  rw [run_append,run_append,run_append]
  exact hn₃

/-- Whatever the keys do, and for signed and unsigned `char`: all glyph lookups of all runs stay
inside the font exactly if in every message that gets shown, the characters of the first 21 rows
are ASCII. -/
theorem lookups_inFont_iff (signed : Bool) (msgs : ℕ → List UInt8) (keys : ℕ → Event) :
    (∀ p, Made msgs keys p → InFont signed p.2) ↔
      ∀ k, (∀ i < k, rowBreaks (msgs i) ≤ 20) → ∀ c ∈ drawn (msgs k), c.toNat < 128 := by
  simp only [inFont_iff]
  constructor
  · intro h k harr c hc
    obtain ⟨a,hmade⟩ := made_of_drawn keys harr hc
    exact h (a,c) hmade
  · intro h p hp
    rcases made_chars hp with hascii | hsp | ⟨k,harr,hc⟩
    · exact hascii
    · rw [hsp]
      decide
    · exact h k harr p.2 hc

/-- A peer that sends the byte `0xe9`: the third step of the network thread reads `font[-368]`
where `char` is signed and `font[3728]` where it is not. -/
theorem latin1_outside_font :
    Made (fun _ => [0xe9])
        (fun _ => ⟨0,0,⟨fun _ _ => 0,fun _ count => Int.natCast_nonneg count⟩⟩) ((0,0),0xe9) ∧
      (-368 ∈ glyphReads true 0xe9 ∧ ¬InFont true 0xe9) ∧
      (3728 ∈ glyphReads false 0xe9 ∧ ¬InFont false 0xe9) := by
  refine ⟨Or.inr ⟨[.net,.net],.net,rfl⟩,⟨by decide,?_⟩,⟨by decide,?_⟩⟩
  · rw [inFont_iff]
    decide
  · rw [inFont_iff]
    decide

end ChatScreen
end EmbeddedSystems
