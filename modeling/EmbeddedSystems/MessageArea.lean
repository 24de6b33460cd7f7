import EmbeddedSystems.Screen
import EmbeddedSystems.EmittingLoop

/-! `display_message` and `clear_message_area` of `display.c`. A call is the sequence of
`fbputchar` and `clear_message_area` calls it makes; the character loop may clear the area
and rewind to the start of the message, so it runs with fuel and need not end. -/

namespace EmbeddedSystems
namespace MessageArea

open Screen EmittingLoop

@[ext] structure Cursor where
  row : ℤ
  col : ℤ

def home : Cursor := ⟨msgAreaTop,0⟩

/-- The `fbputchar` calls of `clear_message_area`, which also sends the cursor home. -/
def clearMessageArea : List Put :=
  (List.range (msgAreaBottom+1-msgAreaTop).toNat).flatMap fun row : ℕ =>
    (List.range msgAreaCols.toNat).map fun col : ℕ => fbputchar space (msgAreaTop+row) col

inductive Act
  | put (p : Put)
  | clear
  deriving DecidableEq

def Act.puts : Act → List Put
  | put p => [p]
  | clear => clearMessageArea

def newline : UInt8 := 0x0a

/-- The character loop: the bytes from `p` on and the cursor. The terminating NUL stands at
the end of the list; a NUL inside the received bytes ends the loop as well. -/
structure Loop where
  p : List UInt8
  cursor : Cursor

def iter (msg : List UInt8) (l : Loop) : Option (List Act × Loop) :=
  match l.p with
  | [] => none
  | c::p =>
    if c = 0 then none
    else if c = newline then
      let cursor : Cursor := ⟨l.cursor.row+1,0⟩
      if cursor.row > msgAreaBottom then some ([.clear],⟨msg,home⟩)
      else some ([],⟨p,cursor⟩)
    else if l.cursor.col ≥ msgAreaCols then
      let cursor : Cursor := ⟨l.cursor.row+1,0⟩
      if cursor.row > msgAreaBottom then some ([.clear],⟨msg,home⟩)
      else some ([.put (fbputchar c cursor.row cursor.col)],⟨p,⟨cursor.row,cursor.col+1⟩⟩)
    else some ([.put (fbputchar c l.cursor.row l.cursor.col)],
      ⟨p,⟨l.cursor.row,l.cursor.col+1⟩⟩)

def finish (cursor : Cursor) : List Act × Cursor :=
  if cursor.col > 0 then
    let cursor : Cursor := ⟨cursor.row+1,0⟩
    if cursor.row > msgAreaBottom then ([.clear],home) else ([],cursor)
  else ([],cursor)

/-- A finished call: what the loop called, what was called after it, and the new cursor. -/
structure Display where
  loop : List Act
  final : List Act
  cursor : Cursor

def Display.puts (d : Display) : List Put := (d.loop ++ d.final).flatMap Act.puts

def displayMessage (fuel : ℕ) (msg : List UInt8) (cursor : Cursor) : Option Display := do
  let (acts,l) ← loop (iter msg) fuel ⟨msg,cursor⟩
  let (final,cursor) := finish l.cursor
  return ⟨acts,final,cursor⟩

def InArea (a : Cell) : Prop := 0 ≤ a.1 ∧ a.1 ≤ 20 ∧ 0 ≤ a.2 ∧ a.2 ≤ 63

/-- A cursor inside the area; column 64 stands for a full row. -/
def Valid (c : Cursor) : Prop := 0 ≤ c.row ∧ c.row ≤ 20 ∧ 0 ≤ c.col ∧ c.col ≤ 64

def Act.InArea (act : Act) : Prop := ∀ p ∈ act.puts, MessageArea.InArea p.1

theorem valid_home : Valid home := by
  simp [Valid,home,msgAreaTop]

theorem Valid.nextRow {c : Cursor} (h : Valid c) (hrow : c.row < 20) : Valid ⟨c.row+1,0⟩ := by
  simp only [Valid] at h ⊢
  omega

theorem Valid.nextCol {c : Cursor} (h : Valid c) (hcol : c.col < 64) : Valid ⟨c.row,c.col+1⟩ := by
  simp only [Valid] at h ⊢
  omega

theorem mem_clearMessageArea {p : Put} : p ∈ clearMessageArea ↔ InArea p.1 ∧ p.2 = space := by
  obtain ⟨⟨row,col⟩,c⟩ := p
  simp only [clearMessageArea,msgAreaBottom,msgAreaTop,msgAreaCols,List.mem_flatMap,List.mem_map,
    List.mem_range,fbputchar,InArea,Prod.mk.injEq]
  constructor
  · rintro ⟨r,hr,k,hk,⟨rfl,rfl⟩,rfl⟩
    refine ⟨?_,rfl⟩
    omega
  · rintro ⟨⟨h1,h2,h3,h4⟩,rfl⟩
    refine ⟨row.toNat,?_,col.toNat,?_,⟨?_,?_⟩,rfl⟩ <;> omega

theorem draw_clearMessageArea (g : Grid) {a : Cell} (h : InArea a) :
    draw g clearMessageArea a = space := by
  apply draw_const g
  · intro p hp
    exact (mem_clearMessageArea.mp hp).2
  · exact ⟨(a,space),mem_clearMessageArea.mpr ⟨h,rfl⟩,rfl⟩

theorem Act.inArea_clear : Act.clear.InArea := fun _ hp => (mem_clearMessageArea.mp hp).1

theorem Act.inArea_put {c : UInt8} {cursor : Cursor} (h : Valid cursor) (hcol : cursor.col < 64) :
    (Act.put (fbputchar c cursor.row cursor.col)).InArea := by
  intro p hp
  obtain rfl := List.mem_singleton.mp hp
  exact ⟨h.1,h.2.1,h.2.2.1,by simp only [fbputchar]; omega⟩

section Iteration

variable (msg : List UInt8) {c : UInt8} (p : List UInt8) {cursor : Cursor}

theorem iter_nil : iter msg ⟨[],cursor⟩ = none := rfl

theorem iter_nul : iter msg ⟨0::p,cursor⟩ = none := rfl

theorem iter_newline (hrow : cursor.row < 20) :
    iter msg ⟨newline::p,cursor⟩ = some ([],⟨p,⟨cursor.row+1,0⟩⟩) := by
  have h : ¬ cursor.row+1 > msgAreaBottom := by simp only [msgAreaBottom]; omega
  rw [iter]
  simp [newline,h]

theorem iter_newline_clear (hrow : 20 ≤ cursor.row) :
    iter msg ⟨newline::p,cursor⟩ = some ([.clear],⟨msg,home⟩) := by
  have h : cursor.row+1 > msgAreaBottom := by simp only [msgAreaBottom]; omega
  rw [iter]
  simp [newline,h]

theorem iter_put (h0 : c ≠ 0) (hnl : c ≠ newline) (hcol : cursor.col < 64) :
    iter msg ⟨c::p,cursor⟩ =
      some ([.put (fbputchar c cursor.row cursor.col)],⟨p,⟨cursor.row,cursor.col+1⟩⟩) := by
  have h : ¬ cursor.col ≥ msgAreaCols := by simp only [msgAreaCols]; omega
  simp only [iter,h0,hnl,h,if_false]

theorem iter_wrap (h0 : c ≠ 0) (hnl : c ≠ newline) (hcol : 64 ≤ cursor.col)
    (hrow : cursor.row < 20) :
    iter msg ⟨c::p,cursor⟩ =
      some ([.put (fbputchar c (cursor.row+1) 0)],⟨p,⟨cursor.row+1,1⟩⟩) := by
  have h : cursor.col ≥ msgAreaCols := hcol
  have h' : ¬ cursor.row+1 > msgAreaBottom := by simp only [msgAreaBottom]; omega
  simp only [iter,h0,hnl,h,h',if_false,if_true,zero_add]

theorem iter_wrap_clear (h0 : c ≠ 0) (hnl : c ≠ newline) (hcol : 64 ≤ cursor.col)
    (hrow : 20 ≤ cursor.row) :
    iter msg ⟨c::p,cursor⟩ = some ([.clear],⟨msg,home⟩) := by
  have h : cursor.col ≥ msgAreaCols := hcol
  have h' : cursor.row+1 > msgAreaBottom := by simp only [msgAreaBottom]; omega
  simp only [iter,h0,hnl,h,h',if_false,if_true]

end Iteration

/-- Everything an iteration can do: clear and rewind, go to the next row, put a character, or put
it on the next row. -/
theorem iter_cases {msg : List UInt8} {l l' : Loop} {acts : List Act}
    (h : iter msg l = some (acts,l')) :
    (20 ≤ l.cursor.row ∧ acts = [.clear] ∧ l' = ⟨msg,home⟩) ∨
      ∃ c p, l.p = c::p ∧ c ≠ 0 ∧
        ((c = newline ∧ l.cursor.row < 20 ∧ acts = [] ∧ l' = ⟨p,⟨l.cursor.row+1,0⟩⟩) ∨
          (c ≠ newline ∧ l.cursor.col < 64 ∧
            acts = [.put (fbputchar c l.cursor.row l.cursor.col)] ∧
            l' = ⟨p,⟨l.cursor.row,l.cursor.col+1⟩⟩) ∨
          (c ≠ newline ∧ 64 ≤ l.cursor.col ∧ l.cursor.row < 20 ∧
            acts = [.put (fbputchar c (l.cursor.row+1) 0)] ∧
            l' = ⟨p,⟨l.cursor.row+1,1⟩⟩)) := by
  obtain ⟨p,cursor⟩ := l
  cases p with
  | nil => exact absurd h (by simp [iter_nil])
  | cons c p =>
    by_cases h0 : c = 0
    · exact absurd h (by simp [h0,iter_nul])
    by_cases hnl : c = newline
    · subst hnl
      by_cases hrow : cursor.row < 20
      · rw [iter_newline msg p hrow] at h
        obtain ⟨rfl,rfl⟩ := Prod.mk.inj (Option.some.inj h)
        exact Or.inr ⟨_,p,rfl,h0,Or.inl ⟨rfl,hrow,rfl,rfl⟩⟩
      · rw [iter_newline_clear msg p (by omega)] at h
        obtain ⟨rfl,rfl⟩ := Prod.mk.inj (Option.some.inj h)
        exact Or.inl ⟨by simpa using hrow,rfl,rfl⟩
    by_cases hcol : cursor.col < 64
    · rw [iter_put msg p h0 hnl hcol] at h
      obtain ⟨rfl,rfl⟩ := Prod.mk.inj (Option.some.inj h)
      exact Or.inr ⟨c,p,rfl,h0,Or.inr (Or.inl ⟨hnl,hcol,rfl,rfl⟩)⟩
    · by_cases hrow : cursor.row < 20
      · rw [iter_wrap msg p h0 hnl (by omega) hrow] at h
        obtain ⟨rfl,rfl⟩ := Prod.mk.inj (Option.some.inj h)
        exact Or.inr ⟨c,p,rfl,h0,Or.inr (Or.inr ⟨hnl,by simpa using hcol,hrow,rfl,rfl⟩)⟩
      · rw [iter_wrap_clear msg p h0 hnl (by omega) (by omega)] at h
        obtain ⟨rfl,rfl⟩ := Prod.mk.inj (Option.some.inj h)
        exact Or.inl ⟨by simpa using hrow,rfl,rfl⟩

/-- Every iteration from a valid cursor draws inside the area and leaves a valid cursor. -/
theorem iter_inArea (msg : List UInt8) (l : Loop) (acts : List Act) (l' : Loop)
    (h : Valid l.cursor) (hi : iter msg l = some (acts,l')) :
    Valid l'.cursor ∧ ∀ act ∈ acts, act.InArea := by
  obtain ⟨p,cursor⟩ := l
  rcases iter_cases hi with ⟨-,rfl,rfl⟩ | ⟨c,p,-,-,hc⟩
  · exact ⟨valid_home,by simpa using Act.inArea_clear⟩
  rcases hc with ⟨-,hrow,rfl,rfl⟩ | ⟨-,hcol,rfl,rfl⟩ | ⟨-,-,hrow,rfl,rfl⟩
  · exact ⟨Valid.nextRow h hrow,by simp⟩
  · exact ⟨Valid.nextCol h hcol,by simpa using Act.inArea_put h hcol⟩
  · have hv : Valid ⟨cursor.row+1,0⟩ := Valid.nextRow h hrow
    exact ⟨hv.nextCol (by simp),by simpa using Act.inArea_put (c := c) hv (by simp)⟩

theorem finish_inArea {cursor : Cursor} (h : Valid cursor) :
    Valid (finish cursor).2 ∧ ∀ act ∈ (finish cursor).1, act.InArea := by
  unfold finish
  dsimp only
  split_ifs with hcol hrow
  · exact ⟨valid_home,by simpa using Act.inArea_clear⟩
  · simp only [msgAreaBottom] at hrow
    exact ⟨h.nextRow (by omega),by simp⟩
  · exact ⟨h,by simp⟩

theorem displayMessage_eq_some {fuel : ℕ} {msg : List UInt8} {cursor : Cursor} {d : Display} :
    displayMessage fuel msg cursor = some d ↔
      ∃ l, loop (iter msg) fuel ⟨msg,cursor⟩ = some (d.loop,l) ∧
        finish l.cursor = (d.final,d.cursor) := by
  rw [displayMessage]
  constructor
  · intro h
    obtain ⟨⟨acts,l⟩,hloop,heq⟩ := Option.bind_eq_some_iff.mp h
    rcases hf : finish l.cursor with ⟨final,cursor'⟩
    simp only [hf,Option.pure_def,Option.some.injEq] at heq
    subst heq
    exact ⟨l,hloop,hf⟩
  · rintro ⟨l,hloop,hf⟩
    simp only [hloop,hf,Option.bind_eq_bind,Option.bind_some,Option.pure_def]

theorem displayMessage_inArea {fuel : ℕ} {msg : List UInt8} {cursor : Cursor} {d : Display}
    (h : Valid cursor) (hd : displayMessage fuel msg cursor = some d) :
    ∀ p ∈ d.puts, InArea p.1 := by
  obtain ⟨l,hloop,hf⟩ := displayMessage_eq_some.mp hd
  obtain ⟨hruns,-⟩ := runs_of_loop hloop
  obtain ⟨hv,hacts⟩ := hruns.invariant (P := fun l => Valid l.cursor) (iter_inArea msg) h
  obtain ⟨-,hfinal⟩ := finish_inArea hv
  rw [hf] at hfinal
  intro p hp
  obtain ⟨act,hact,hp⟩ := List.mem_flatMap.mp hp
  rcases List.mem_append.mp hact with hact | hact
  · exact hacts act hact p hp
  · exact hfinal act hact p hp

end MessageArea
end EmbeddedSystems
