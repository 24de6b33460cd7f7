import EmbeddedSystems.CArray

/-! The screen at the level of `fbputchar` calls: a call puts one character into one cell of a
grid of 24 rows and 64 columns. `fbclear` leaves every cell black, which is what the glyph
of a space looks like. `display_user_input` of `display.c` is here as the sequence of calls
it makes. -/

namespace EmbeddedSystems
namespace Screen

open CArray

abbrev Cell := ℤ × ℤ

abbrev Grid := Cell → UInt8

abbrev Put := Cell × UInt8

def fbputchar (c : UInt8) (row col : ℤ) : Put := ((row,col),c)

def draw (g : Grid) (ps : List Put) : Grid := ps.foldl (fun g p => Function.update g p.1 p.2) g

@[simp] theorem draw_nil (g : Grid) : draw g [] = g := rfl

theorem draw_append (g : Grid) (ps qs : List Put) : draw g (ps ++ qs) = draw (draw g ps) qs := by
  rw [draw,List.foldl_append]
  rfl

theorem draw_singleton (g : Grid) (p : Put) : draw g [p] = Function.update g p.1 p.2 := rfl

theorem draw_fbputchar (g : Grid) (c : UInt8) (row col j : ℤ) :
    draw g [fbputchar c row col] (row,j) = if j = col then c else g (row,j) := by
  by_cases hj : j = col
  · subst hj
    rw [if_pos rfl]
    exact Function.update_self _ _ _
  · rw [if_neg hj]
    refine Function.update_of_ne ?_ _ _
    simp only [fbputchar,ne_eq,Prod.mk.injEq,not_and]
    exact fun _ => hj

theorem draw_frame (g : Grid) {ps : List Put} {a : Cell} (h : ∀ p ∈ ps, p.1 ≠ a) :
    draw g ps a = g a := by
  induction ps generalizing g with
  | nil => rfl
  | cons p ps ih =>
    have htail := ih (Function.update g p.1 p.2) fun q hq => h q (List.mem_cons_of_mem p hq)
    have hne : a ≠ p.1 := (h p List.mem_cons_self).symm
    rw [Function.update_of_ne hne] at htail
    exact htail

theorem draw_const (g : Grid) {ps : List Put} {a : Cell} {c : UInt8} (hc : ∀ p ∈ ps, p.2 = c)
    (h : ∃ p ∈ ps, p.1 = a) : draw g ps a = c := by
  induction ps using List.reverseRecOn with
  | nil => simp at h
  | append_singleton ps q ih =>
    have hq : q.2 = c := hc q (by simp)
    rw [draw_append,draw_singleton]
    by_cases ha : a = q.1
    · rw [ha,Function.update_self,hq]
    · rw [Function.update_of_ne ha]
      apply ih (fun p hp => hc p (List.mem_append_left _ hp))
      obtain ⟨p,hp,hpa⟩ := h
      rcases List.mem_append.mp hp with hp | hp
      · exact ⟨p,hp,hpa⟩
      · rw [List.mem_singleton.mp hp] at hpa
        exact absurd hpa.symm ha

def space : UInt8 := 0x20

/-- `fbclear` at the level of cells. -/
def fbclear : Grid := fun _ => space

def fbDrawLineDivider (c : UInt8) (row : ℤ) : List Put :=
  (List.range 64).map fun col : ℕ => fbputchar c row col

def fbputs (s : List UInt8) (row : ℤ) (col : ℤ) : List Put :=
  match s with
  | [] => []
  | c::cs => fbputchar c row col :: fbputs cs row (col+1)

theorem mem_fbputs {s : List UInt8} {row col : ℤ} {p : Put} (h : p ∈ fbputs s row col) :
    p.1.1 = row ∧ col ≤ p.1.2 ∧ p.1.2 < col+s.length ∧ p.2 ∈ s := by
  induction s generalizing col with
  | nil => simp [fbputs] at h
  | cons c s ih =>
    rw [List.length_cons,Nat.cast_succ]
    rcases List.mem_cons.mp h with rfl | h
    · exact ⟨rfl,le_rfl,by simp only [fbputchar]; omega,List.mem_cons_self⟩
    · obtain ⟨hrow,hlo,hhi,hmem⟩ := ih h
      exact ⟨hrow,by omega,by omega,List.mem_cons_of_mem c hmem⟩

def msgAreaTop : ℤ := 0
def msgAreaBottom : ℤ := 20
def msgAreaCols : ℤ := 64
def inputAreaTop : ℤ := 22
def dividerRow : ℤ := 21

/-- The text loop of `display_user_input`; the first argument is `visible_width - col`. -/
def drawText {n : ℕ} (buffer : Fin n → UInt8) (length row : ℤ) :
    ℕ → ℤ → ℤ → Option (List Put)
  | 0, _, _ => some []
  | k+1, i, col =>
    if i < length then do
      let c ← CArray.get buffer i
      let rest ← drawText buffer length row k (i+1) (col+1)
      return fbputchar c row col :: rest
    else some []

theorem drawText_succ_cases {n : ℕ} {buffer : Fin n → UInt8} {length row : ℤ} {k : ℕ} {i col : ℤ}
    {ps : List Put} (h : drawText buffer length row (k+1) i col = some ps) :
    (i < length ∧ ∃ c rest, CArray.get buffer i = some c ∧
      drawText buffer length row k (i+1) (col+1) = some rest ∧ ps = fbputchar c row col :: rest) ∨
    (¬i < length ∧ ps = []) := by
  rw [drawText] at h
  by_cases hlt : i < length
  · rw [if_pos hlt] at h
    obtain ⟨c,hc,h⟩ := Option.bind_eq_some_iff.mp h
    obtain ⟨rest,hrest,h⟩ := Option.bind_eq_some_iff.mp h
    exact Or.inl ⟨hlt,c,rest,hc,hrest,(Option.some.inj h).symm⟩
  · rw [if_neg hlt] at h
    exact Or.inr ⟨hlt,(Option.some.inj h).symm⟩

def clearRow (row : ℤ) : List Put :=
  (List.range msgAreaCols.toNat).map fun c : ℕ => fbputchar space row c

/-- The first buffer index shown: the window slides once the cursor leaves the row. -/
def windowStart (cursorPos : ℤ) : ℤ :=
  let visibleWidth := msgAreaCols-1
  if cursorPos > visibleWidth then cursorPos-visibleWidth else 0

def drawCursor (row cursorDisplayCol : ℤ) : List Put :=
  if 0 ≤ cursorDisplayCol ∧ cursorDisplayCol < msgAreaCols then
    [fbputchar 0x7c row cursorDisplayCol]
  else []

/-- `display_user_input`: clear the row, draw the visible window, draw the cursor. -/
def displayUserInput {n : ℕ} (buffer : Fin n → UInt8) (length cursorPos : ℤ) :
    Option (List Put) := do
  let row := inputAreaTop+1
  let start := windowStart cursorPos
  let text ← drawText buffer length row (msgAreaCols-1).toNat start 0
  return clearRow row ++ text ++ drawCursor row (cursorPos-start)

def InInputRow (a : Cell) : Prop := a.1 = 23 ∧ 0 ≤ a.2 ∧ a.2 ≤ 63

theorem drawText_spec {n : ℕ} (buffer : Fin n → UInt8) {length : ℤ} (hl : length ≤ n)
    (k : ℕ) (i col : ℤ) (hi : 0 ≤ i) :
    ∃ ps, drawText buffer length 23 k i col = some ps ∧
      ∀ p ∈ ps, p.1.1 = 23 ∧ col ≤ p.1.2 ∧ p.1.2 < col+k := by
  induction k generalizing i col with
  | zero => exact ⟨[],rfl,by simp⟩
  | succ k ih =>
    rw [drawText]
    split_ifs with h
    · obtain ⟨j,rfl⟩ := Int.eq_ofNat_of_zero_le hi
      obtain ⟨ps,hps,hb⟩ := ih (j+1) (col+1) (by omega)
      refine ⟨fbputchar (peek buffer j) 23 col :: ps,?_,?_⟩
      · rw [get_eq_peek buffer (by omega),hps]
        rfl
      · intro p hp
        rcases List.mem_cons.mp hp with rfl | hp
        · simp [fbputchar]
        · have hh := hb p hp
          push_cast
          omega
    · exact ⟨[],rfl,by simp⟩

/-- With a buffer that holds `length` characters, `display_user_input` reads only inside it
and writes only cells of the input row. -/
theorem displayUserInput_spec {n : ℕ} (buffer : Fin n → UInt8) {length : ℤ} (hl : length ≤ n)
    (cursorPos : ℤ) :
    ∃ ps, displayUserInput buffer length cursorPos = some ps ∧ ∀ p ∈ ps, InInputRow p.1 := by
  have hstart : 0 ≤ windowStart cursorPos := by
    simp only [windowStart,msgAreaCols]
    split_ifs <;> omega
  obtain ⟨ps,hps,hb⟩ := drawText_spec buffer hl 63 (windowStart cursorPos) 0 hstart
  refine ⟨clearRow 23 ++ ps ++ drawCursor 23 (cursorPos-windowStart cursorPos),?_,?_⟩
  · change (drawText buffer length 23 63 (windowStart cursorPos) 0).bind _ = _
    rw [hps]
    rfl
  · intro p hp
    rcases List.mem_append.mp hp with hp | hp
    · rcases List.mem_append.mp hp with hp | hp
      · obtain ⟨c,hc,rfl⟩ := List.mem_map.mp hp
        have hlt : c < 64 := List.mem_range.mp hc
        simp [InInputRow,fbputchar]
        omega
      · have hh := hb p hp
        simp only [InInputRow]
        omega
    · unfold drawCursor msgAreaCols at hp
      split_ifs at hp with hcur
      · obtain rfl := List.mem_singleton.mp hp
        simp [InInputRow,fbputchar]
        omega
      · simp at hp

end Screen
end EmbeddedSystems
