import EmbeddedSystems.MessageLayout

/-! `display_message` starts over when a message runs past the last row, but the clear after its
character loop draws nothing again. A message whose open row ends up on the last row of the area
is gone as soon as it has been shown. -/

namespace EmbeddedSystems
namespace MessageArea

open Screen EmittingLoop

def laid (msg : List UInt8) : List (List UInt8) :=
  (wrap [] (text msg)).1 ++ [(wrap [] (text msg)).2]

/-- Every character of the message stands in the cell of the area that it gets when the message
is laid out from row `r₀` on. -/
def Visible (g : Grid) (r₀ : ℕ) (msg : List UInt8) : Prop :=
  ∀ i j : ℕ, j < ((laid msg).getD i []).length →
    r₀+i ≤ 20 ∧ g (((r₀+i : ℕ) : ℤ),(j : ℤ)) = cellOf (laid msg) i j

/-- The row of the last character: a message that does not fit below the cursor is shown from
the top. -/
def endRow (row : ℕ) (msg : List UInt8) : ℕ :=
  if row+rowBreaks msg ≤ 20 then row+rowBreaks msg else rowBreaks msg

theorem flatten_wrap (cur cs : List UInt8) :
    ((wrap cur cs).1 ++ [(wrap cur cs).2]).flatten = cur ++ cs.filter (· ≠ newline) := by
  induction cs generalizing cur with
  | nil => simp [wrap]
  | cons c cs ih =>
    rw [wrap]
    split_ifs with hnl hlen
    · have hrest := ih []
      simp only [List.cons_append,List.flatten_cons,List.nil_append] at hrest ⊢
      rw [hrest]
      simp [hnl]
    · rw [ih]
      simp [hnl]
    · have hrest := ih [c]
      simp only [List.cons_append,List.flatten_cons] at hrest ⊢
      rw [hrest]
      simp [hnl]

theorem wrap_length_le {cur : List UInt8} (hcur : cur.length ≤ 64) (cs : List UInt8) :
    ∀ row ∈ (wrap cur cs).1 ++ [(wrap cur cs).2], row.length ≤ 64 := by
  induction cs generalizing cur with
  | nil => simpa [wrap] using hcur
  | cons c cs ih =>
    rw [wrap]
    split_ifs with hnl hlen
    · intro row hrow
      rcases List.mem_cons.mp hrow with rfl | hrow
      · exact hcur
      · exact ih (by simp) row hrow
    · exact ih (by rw [List.length_append,List.length_singleton]; omega)
    · intro row hrow
      rcases List.mem_cons.mp hrow with rfl | hrow
      · exact hcur
      · exact ih (by simp) row hrow

theorem wrap_snd_eq_nil_iff (cur cs : List UInt8) :
    (wrap cur cs).2 = [] ↔ (cs = [] ∧ cur = []) ∨ cs.getLast? = some newline := by
  induction cs generalizing cur with
  | nil => simp [wrap]
  | cons c cs ih =>
    rw [wrap]
    split_ifs with hnl hlen
    · rw [ih,hnl]
      cases cs <;> simp
    · rw [ih]
      cases cs <;> simp [hnl]
    · rw [ih]
      cases cs <;> simp [hnl]

theorem laid_length (msg : List UInt8) : (laid msg).length = rowBreaks msg+1 := by
  simp [laid,rowBreaks]

theorem laid_row {msg : List UInt8} {i j : ℕ} (hj : j < ((laid msg).getD i []).length) :
    i ≤ rowBreaks msg ∧ j ≤ 63 := by
  have hi : i < (laid msg).length := by
    by_contra hge
    rw [List.getD_eq_default _ _ (by omega)] at hj
    exact absurd hj (by simp)
  have hlen := laid_length msg
  have hrow : ((laid msg).getD i []).length ≤ 64 := by
    rw [List.getD_eq_getElem _ _ hi]
    exact wrap_length_le (by simp) _ _ (List.getElem_mem hi)
  omega

theorem visible_of_matches {g : Grid} {top : List (List UInt8)} {msg : List UInt8}
    (hM : Matches g (top ++ laid msg)) (hlen : top.length+rowBreaks msg ≤ 20) :
    Visible g top.length msg := by
  intro i j hj
  obtain ⟨hi,hj63⟩ := laid_row hj
  have hcell : cellOf (top ++ laid msg) (top.length+i) j = cellOf (laid msg) i j := by
    unfold cellOf
    rw [List.getD_append_right _ _ _ _ (by omega),Nat.add_sub_cancel_left]
  exact ⟨by omega,(hM _ _ (by omega) hj63).trans hcell⟩

theorem visible_blank_iff {g : Grid} (hg : Matches g []) {row : ℕ} {msg : List UInt8}
    (hshort : rowBreaks msg ≤ 20) :
    (∃ r₀, (r₀ = row ∨ r₀ = 0) ∧ Visible g r₀ msg) ↔ ∀ c ∈ text msg, c = newline ∨ c = space := by
  have hmem : ∀ c, c ∈ (laid msg).flatten ↔ c ∈ text msg ∧ c ≠ newline := by
    intro c
    rw [laid,flatten_wrap,List.nil_append,List.mem_filter,decide_eq_true_eq]
  constructor
  · rintro ⟨r₀,-,hv⟩ c hc
    by_cases hnl : c = newline
    · exact Or.inl hnl
    · obtain ⟨row,hrow,hcr⟩ := List.mem_flatten.mp ((hmem c).mpr ⟨hc,hnl⟩)
      obtain ⟨i,hi,rfl⟩ := List.mem_iff_getElem.mp hrow
      obtain ⟨j,hj,rfl⟩ := List.mem_iff_getElem.mp hcr
      have hget : (laid msg).getD i [] = (laid msg)[i] := List.getD_eq_getElem _ _ hi
      have hj' : j < ((laid msg).getD i []).length := by rw [hget]; exact hj
      obtain ⟨hle,hgc⟩ := hv i j hj'
      have hblank := hg (r₀+i) j hle (laid_row hj').2
      rw [hgc,cellOf,cellOf,hget,List.getD_eq_getElem _ _ hj] at hblank
      exact Or.inr hblank
  · intro h
    refine ⟨0,Or.inr rfl,?_⟩
    intro i j hj
    obtain ⟨hi,hj63⟩ := laid_row hj
    have hi' : i < (laid msg).length := by
      rw [laid_length]
      omega
    refine ⟨by omega,(hg _ _ (by omega) hj63).trans ?_⟩
    have hget : (laid msg).getD i [] = (laid msg)[i] := List.getD_eq_getElem _ _ hi'
    rw [hget] at hj
    rw [cellOf,cellOf,hget,List.getD_eq_getElem _ _ hj]
    have hin : (laid msg)[i][j] ∈ (laid msg).flatten :=
      List.mem_flatten.mpr ⟨_,List.getElem_mem hi',List.getElem_mem hj⟩
    obtain ⟨ht,hnl⟩ := (hmem _).mp hin
    rcases h _ ht with he | he
    · exact absurd he hnl
    · rw [he]
      rfl

/-- The rows above the message when the loop ends: those that were there if the message fits
below them, and none otherwise. -/
theorem loop_top {a : Area} (h : AreaInv a) {msg : List UInt8} {fuel : ℕ} {acts : List Act}
    {l : Loop} (hloop : loop (iter msg) fuel ⟨msg,a.cursor⟩ = some (acts,l)) :
    ∃ top : List (List UInt8), (top.length = (layout a.shown).length ∨ top = []) ∧
      top.length+rowBreaks msg = endRow (layout a.shown).length msg ∧
      top.length+rowBreaks msg ≤ 20 ∧
      l.cursor = ⟨(top.length+rowBreaks msg : ℕ),(wrap [] (text msg)).2.length⟩ ∧
      Matches (draw a.grid (acts.flatMap Act.puts)) (top ++ laid msg) := by
  obtain ⟨top,htop,hlen,hcur,hM⟩ := h.loop_result hloop
  have hB : (top ++ (wrap [] (text msg)).1).length = top.length+rowBreaks msg := by
    rw [List.length_append,rowBreaks]
  rw [hB] at hlen hcur
  rw [List.append_assoc] at hM
  have htop' : top.length = (layout a.shown).length ∨ top = [] := by
    rcases htop with ⟨-,rfl⟩ | ⟨-,rfl⟩
    · exact Or.inl rfl
    · exact Or.inr rfl
  refine ⟨top,htop',?_,hlen,hcur,hM⟩
  unfold endRow
  by_cases hfit : (layout a.shown).length+rowBreaks msg ≤ 20
  · rw [h.cursor_eq] at hloop
    obtain ⟨hruns,hend⟩ := runs_of_loop hloop
    obtain ⟨acts₁,l₁,hr₁,hend₁,-,hclear₁,-⟩ :=
      draws_of_fits msg msg hfit (matches_concat_nil.mpr h.grid_matches)
    obtain ⟨rfl,-⟩ := hruns.unique hr₁ hend hend₁
    rcases htop with ⟨-,rfl⟩ | ⟨hclear,-⟩
    · rw [if_pos hfit]
    · exact absurd hclear hclear₁
  · rw [if_neg hfit]
    rcases htop' with he | rfl
    · exact absurd hlen (by rw [he]; exact hfit)
    · simp

theorem finish_clears {row : ℕ} (hrow : row ≤ 20) (cur : List UInt8) :
    (finish ⟨row,cur.length⟩).1 = if cur ≠ [] ∧ row = 20 then [Act.clear] else [] := by
  unfold finish
  dsimp only
  by_cases hnil : cur = []
  · simp [hnil]
  · have hpos : (cur.length : ℤ) > 0 := by
      have hlen := List.length_pos_iff.mpr hnil
      omega
    rw [if_pos hpos]
    by_cases hlast : row = 20
    · have hgt : (row : ℤ)+1 > msgAreaBottom := by simp only [msgAreaBottom]; omega
      rw [if_pos hgt,if_pos ⟨hnil,hlast⟩]
    · have hgt : ¬((row : ℤ)+1 > msgAreaBottom) := by simp only [msgAreaBottom]; omega
      rw [if_neg hgt,if_neg fun hc => hlast hc.2]

/-- After a call that returns, the message can be read where it was laid out, from the cursor's
row or from the top, exactly if it ends in a newline, or its last character did not come to stand
on row 20, or there was nothing to read in it. -/
theorem message_visible_iff {a : Area} (h : Reached a) {msg : List UInt8} {fuel : ℕ} {d : Display}
    (hd : displayMessage fuel msg a.cursor = some d) :
    (∃ r₀ : ℕ, ((r₀ : ℤ) = a.cursor.row ∨ r₀ = 0) ∧ Visible (draw a.grid d.puts) r₀ msg) ↔
      (text msg).getLast? = some newline ∨ endRow a.cursor.row.toNat msg ≠ 20 ∨
        ∀ c ∈ text msg, c = newline ∨ c = space := by
  have hinv := h.areaInv
  obtain ⟨acts,final,cursor⟩ := d
  obtain ⟨l,hloop,hf⟩ := displayMessage_eq_some.mp hd
  obtain ⟨top,htop,hend,hlen,hcur,hM⟩ := loop_top hinv hloop
  have hrow : a.cursor.row = ((layout a.shown).length : ℕ) := by rw [hinv.cursor_eq]
  have hrow' : a.cursor.row.toNat = (layout a.shown).length := by rw [hrow,Int.toNat_natCast]
  have hnil := wrap_snd_eq_nil_iff [] (text msg)
  have hfinal := finish_clears hlen (wrap [] (text msg)).2
  rw [← hcur,hf] at hfinal
  rw [hrow',← hend]
  simp only [hrow,Nat.cast_inj]
  by_cases hclear : (wrap [] (text msg)).2 ≠ [] ∧ top.length+rowBreaks msg = 20
  · rw [if_pos hclear] at hfinal
    subst hfinal
    have hblank : Matches (draw a.grid (Display.puts ⟨acts,[Act.clear],cursor⟩)) [] := by
      rw [Display.puts,List.flatMap_append,draw_append]
      exact matches_clear _
    have hlast : ¬(text msg).getLast? = some newline := fun he => hclear.1 (hnil.mpr (Or.inr he))
    rw [visible_blank_iff hblank (by omega)]
    simp [hlast,hclear.2]
  · rw [if_neg hclear] at hfinal
    subst hfinal
    have hvis : Visible (draw a.grid (Display.puts ⟨acts,[],cursor⟩)) top.length msg := by
      rw [Display.puts,List.append_nil]
      exact visible_of_matches hM hlen
    constructor
    · intro _
      by_cases h20 : top.length+rowBreaks msg = 20
      · have ho : (wrap [] (text msg)).2 = [] := by
          by_contra ho
          exact hclear ⟨ho,h20⟩
        rcases hnil.mp ho with ⟨ht,-⟩ | hl
        · exact Or.inr (Or.inr (by simp [ht]))
        · exact Or.inl hl
      · exact Or.inr (Or.inl h20)
    · intro _
      refine ⟨top.length,?_,hvis⟩
      rcases htop with he | rfl
      · exact Or.inl he
      · exact Or.inr rfl

theorem message_visible_hi :
    ∃ d, displayMessage 3 [0x68,0x69] home = some d ∧
      ∃ r₀ : ℕ, ((r₀ : ℤ) = home.row ∨ r₀ = 0) ∧ Visible (draw fbclear d.puts) r₀ [0x68,0x69] := by
  have hd : displayMessage 3 [0x68,0x69] home =
      some ⟨[.put ((0,0),0x68),.put ((0,1),0x69)],[],⟨1,0⟩⟩ := rfl
  refine ⟨_,hd,(message_visible_iff Reached.start hd).mpr (Or.inr (Or.inl ?_))⟩
  decide

/-- Twenty newlines and an `a`: the letter is drawn on row 20 and erased by the same call. -/
theorem last_row_erased :
    ∃ d, displayMessage 22 (List.replicate 20 newline ++ [0x61]) home = some d ∧
      ¬∃ r₀ : ℕ, ((r₀ : ℤ) = home.row ∨ r₀ = 0) ∧
        Visible (draw fbclear d.puts) r₀ (List.replicate 20 newline ++ [0x61]) := by
  have hd : displayMessage 22 (List.replicate 20 newline ++ [0x61]) home =
      some ⟨[.put ((20,0),0x61)],[.clear],home⟩ := rfl
  refine ⟨_,hd,?_⟩
  have hblank : Matches (draw fbclear (Display.puts ⟨[.put ((20,0),0x61)],[.clear],home⟩)) [] := by
    rw [Display.puts,List.flatMap_append,draw_append]
    exact matches_clear _
  rintro ⟨r₀,hr,hv⟩
  have hr₀ : r₀ = 0 ∨ r₀ = 0 := by simpa [home,msgAreaTop] using hr
  have hink := (visible_blank_iff hblank (by decide)).mp ⟨r₀,hr₀,hv⟩
  revert hink
  decide

end MessageArea
end EmbeddedSystems
