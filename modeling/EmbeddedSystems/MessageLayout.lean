import Mathlib.Data.List.GetD
import EmbeddedSystems.MessageArea

/-! The layout of a message is given on its own terms: a newline closes a row, and so does a
character that comes after 64 others on its row. The area shows the layouts of the messages
since the last clear, top down, and a call returns exactly when its message closes at most 20
rows. -/

namespace EmbeddedSystems
namespace MessageArea

open Screen EmittingLoop

def text : List UInt8 → List UInt8
  | [] => []
  | c::p => if c = 0 then [] else c :: text p

/-- Lay out characters after an open row: the rows that get closed, and the row left open. -/
def wrap (cur : List UInt8) : List UInt8 → List (List UInt8) × List UInt8
  | [] => ([],cur)
  | c::cs =>
    if c = newline then (cur :: (wrap [] cs).1,(wrap [] cs).2)
    else if cur.length < 64 then wrap (cur ++ [c]) cs
    else (cur :: (wrap [c] cs).1,(wrap [c] cs).2)

/-- How many rows a message closes: its newlines and its wraps. -/
def rowBreaks (msg : List UInt8) : ℕ := (wrap [] (text msg)).1.length

/-- The rows of a message; a row left open counts if something stands on it. -/
def rowsOf (msg : List UInt8) : List (List UInt8) :=
  (wrap [] (text msg)).1 ++ if (wrap [] (text msg)).2 = [] then [] else [(wrap [] (text msg)).2]

def layout (msgs : List (List UInt8)) : List (List UInt8) := msgs.flatMap rowsOf

def cellOf (rows : List (List UInt8)) (r c : ℕ) : UInt8 := (rows.getD r []).getD c space

/-- The area shows exactly these rows. -/
def Matches (g : Grid) (rows : List (List UInt8)) : Prop :=
  ∀ r c : ℕ, r ≤ 20 → c ≤ 63 → g ((r : ℤ),(c : ℤ)) = cellOf rows r c

section Wrap

variable {cur p : List UInt8} {c : UInt8}

@[simp] theorem wrap_nil : wrap cur (text []) = ([],cur) := rfl

@[simp] theorem wrap_nul : wrap cur (text (0::p)) = ([],cur) := rfl

theorem wrap_newline : wrap cur (text (newline::p)) =
    (cur :: (wrap [] (text p)).1,(wrap [] (text p)).2) := rfl

theorem wrap_put (h0 : c ≠ 0) (hnl : c ≠ newline) (hlen : cur.length < 64) :
    wrap cur (text (c::p)) = wrap (cur ++ [c]) (text p) := by
  rw [text,if_neg h0,wrap,if_neg hnl,if_pos hlen]

theorem wrap_full (h0 : c ≠ 0) (hnl : c ≠ newline) (hlen : 64 ≤ cur.length) :
    wrap cur (text (c::p)) = (cur :: (wrap [c] (text p)).1,(wrap [c] (text p)).2) := by
  rw [text,if_neg h0,wrap,if_neg hnl,if_neg (by omega)]

end Wrap

theorem getD_concat {α : Type*} (xs : List α) (x d : α) (i : ℕ) :
    (xs ++ [x]).getD i d =
      if i < xs.length then xs.getD i d else if i = xs.length then x else d := by
  rcases lt_trichotomy i xs.length with h | h | h
  · rw [if_pos h,List.getD_append _ _ _ _ h]
  · subst h
    rw [if_neg (by omega),if_pos rfl,List.getD_append_right _ _ _ _ le_rfl]
    simp
  · rw [if_neg (by omega),if_neg (by omega)]
    exact List.getD_eq_default _ _ (by rw [List.length_append,List.length_singleton]; omega)

theorem cellOf_concat (rows : List (List UInt8)) (row : List UInt8) (r c : ℕ) :
    cellOf (rows ++ [row]) r c =
      if r < rows.length then cellOf rows r c
      else if r = rows.length then row.getD c space else space := by
  unfold cellOf
  rw [getD_concat]
  split_ifs <;> rfl

theorem cellOf_of_length_le {rows : List (List UInt8)} {r : ℕ} (h : rows.length ≤ r) (c : ℕ) :
    cellOf rows r c = space := by
  rw [cellOf,List.getD_eq_default _ _ h]
  rfl

theorem matches_concat_nil {g : Grid} {rows : List (List UInt8)} :
    Matches g (rows ++ [[]]) ↔ Matches g rows := by
  have hcell : ∀ r c, cellOf (rows ++ [[]]) r c = cellOf rows r c := by
    intro r c
    rw [cellOf_concat]
    split_ifs with h1 h2
    · rfl
    · rw [cellOf_of_length_le (by omega)]
      rfl
    · rw [cellOf_of_length_le (by omega)]
  simp only [Matches,hcell]

theorem Matches.put {g : Grid} {rows : List (List UInt8)} {cur : List UInt8}
    (h : Matches g (rows ++ [cur])) (c : UInt8) :
    Matches (draw g [fbputchar c rows.length cur.length]) (rows ++ [cur ++ [c]]) := by
  intro r k hr hk
  have hold := h r k hr hk
  rw [cellOf_concat] at hold
  rw [draw_singleton,cellOf_concat]
  by_cases heq : r = rows.length ∧ k = cur.length
  · obtain ⟨rfl,rfl⟩ := heq
    rw [if_neg (by omega),if_pos rfl,getD_concat,if_neg (by omega),if_pos rfl]
    simp [fbputchar]
  · have hne : ((r : ℤ),(k : ℤ)) ≠ (fbputchar c rows.length cur.length).1 := by
      simp only [fbputchar,ne_eq,Prod.mk.injEq,Nat.cast_inj]
      exact heq
    rw [Function.update_of_ne hne,hold]
    split_ifs with h1 h2
    · rfl
    · rw [getD_concat]
      split_ifs with h3 h4
      · rfl
      · exact absurd ⟨h2,h4⟩ heq
      · exact List.getD_eq_default _ _ (by omega)
    · rfl

theorem matches_clear (g : Grid) : Matches (draw g ([Act.clear].flatMap Act.puts)) [] := by
  intro r c hr hc
  rw [List.flatMap_singleton,Act.puts,draw_clearMessageArea g (by simp only [InArea]; omega)]
  rfl

/-- From this point the loop ends without a clear, with the closed rows `rows` and the open
row `cur` on the screen and the cursor behind them. -/
def Draws (msg : List UInt8) (l : Loop) (g : Grid) (rows : List (List UInt8)) (cur : List UInt8) :
    Prop :=
  ∃ acts l', Runs (iter msg) l acts l' ∧ iter msg l' = none ∧
    l'.cursor = ⟨rows.length,cur.length⟩ ∧ Act.clear ∉ acts ∧
    Matches (draw g (acts.flatMap Act.puts)) (rows ++ [cur])

theorem Draws.stop {msg p : List UInt8} {g : Grid} {rows : List (List UInt8)} {cur : List UInt8}
    (hM : Matches g (rows ++ [cur])) (hi : iter msg ⟨p,⟨rows.length,cur.length⟩⟩ = none) :
    Draws msg ⟨p,⟨rows.length,cur.length⟩⟩ g rows cur :=
  ⟨[],_,Runs.refl _,hi,rfl,by simp,hM⟩

theorem Draws.head {msg : List UInt8} {l l₁ : Loop} {g : Grid} {rows : List (List UInt8)}
    {cur : List UInt8} {acts : List Act} (hi : iter msg l = some (acts,l₁))
    (hclear : Act.clear ∉ acts) (h : Draws msg l₁ (draw g (acts.flatMap Act.puts)) rows cur) :
    Draws msg l g rows cur := by
  obtain ⟨acts',l',hr,hend,hcur,hclear',hM⟩ := h
  refine ⟨acts ++ acts',l',Runs.head hi hr,hend,hcur,?_,?_⟩
  · rw [List.mem_append]
    exact fun h => h.elim hclear hclear'
  · rw [List.flatMap_append,draw_append]
    exact hM

theorem length_concat_cast {α : Type*} (xs : List α) (x : α) :
    ((xs ++ [x]).length : ℤ) = xs.length+1 := by
  simp

/-- As long as the rows suffice, the loop draws the layout below the rows already there. -/
theorem draws_of_fits (msg p : List UInt8) {rows : List (List UInt8)} {cur : List UInt8} {g : Grid}
    (hfit : rows.length+(wrap cur (text p)).1.length ≤ 20) (hM : Matches g (rows ++ [cur])) :
    Draws msg ⟨p,⟨rows.length,cur.length⟩⟩ g (rows ++ (wrap cur (text p)).1)
      (wrap cur (text p)).2 := by
  induction p generalizing rows cur g with
  | nil =>
    rw [wrap_nil,List.append_nil]
    exact Draws.stop hM (iter_nil msg)
  | cons c p ih =>
    by_cases h0 : c = 0
    · subst h0
      rw [wrap_nul,List.append_nil]
      exact Draws.stop hM (iter_nul msg p)
    by_cases hnl : c = newline
    · subst hnl
      rw [wrap_newline,List.length_cons] at hfit
      have hfit' : (rows ++ [cur]).length+(wrap [] (text p)).1.length ≤ 20 := by
        rw [List.length_append,List.length_singleton]
        omega
      have hrest := ih hfit' (matches_concat_nil.mpr hM)
      rw [length_concat_cast,List.append_assoc,List.singleton_append] at hrest
      rw [wrap_newline]
      exact Draws.head (iter_newline msg p (by simp only; omega)) (by simp) hrest
    by_cases hfull : cur.length < 64
    · rw [wrap_put h0 hnl hfull] at hfit ⊢
      have hrest := ih hfit (hM.put c)
      rw [List.length_append,List.length_singleton,Nat.cast_add,Nat.cast_one] at hrest
      exact Draws.head (iter_put msg p h0 hnl (by simp only; omega)) (by simp) hrest
    · rw [wrap_full h0 hnl (by omega)] at hfit ⊢
      rw [List.length_cons] at hfit
      have hfit' : (rows ++ [cur]).length+(wrap [c] (text p)).1.length ≤ 20 := by
        rw [List.length_append,List.length_singleton]
        omega
      have hput := (matches_concat_nil.mpr hM).put c
      rw [length_concat_cast,List.nil_append] at hput
      have hrest := ih hfit' hput
      rw [length_concat_cast,List.append_assoc,List.singleton_append] at hrest
      exact Draws.head (iter_wrap msg p h0 hnl (by simp only; omega) (by simp only; omega))
        (by simp) hrest

theorem iter_overflow (msg : List UInt8) {p cur : List UInt8} {row : ℕ} (hrow : row ≤ 20)
    (hover : 20 < row+(wrap cur (text p)).1.length) :
    iter msg ⟨p,⟨row,cur.length⟩⟩ = some ([.clear],⟨msg,home⟩) ∨
      ∃ acts p' cur', ∃ row' ≤ 20, iter msg ⟨p,⟨row,cur.length⟩⟩ =
          some (acts,⟨p',⟨(row' : ℕ),(cur'.length : ℕ)⟩⟩) ∧
        20 < row'+(wrap cur' (text p')).1.length ∧ p'.length < p.length := by
  cases p with
  | nil =>
    rw [wrap_nil,List.length_nil] at hover
    omega
  | cons c p =>
    by_cases h0 : c = 0
    · subst h0
      rw [wrap_nul,List.length_nil] at hover
      omega
    by_cases hnl : c = newline
    · subst hnl
      rw [wrap_newline,List.length_cons] at hover
      by_cases hlast : row < 20
      · right
        refine ⟨[],p,[],row+1,by omega,?_,by omega,by simp⟩
        rw [iter_newline msg p (by simp only; omega)]
        simp
      · left
        exact iter_newline_clear msg p (by simp only; omega)
    by_cases hfull : cur.length < 64
    · right
      rw [wrap_put h0 hnl hfull] at hover
      refine ⟨[.put (fbputchar c row cur.length)],p,cur ++ [c],row,hrow,?_,hover,by simp⟩
      rw [iter_put msg p h0 hnl (by simp only; omega)]
      simp
    · rw [wrap_full h0 hnl (by omega),List.length_cons] at hover
      by_cases hlast : row < 20
      · right
        refine ⟨[.put (fbputchar c (row+1) 0)],p,[c],row+1,by omega,?_,by omega,by simp⟩
        rw [iter_wrap msg p h0 hnl (by simp only; omega) (by simp only; omega)]
        simp
      · left
        exact iter_wrap_clear msg p h0 hnl (by simp only; omega) (by simp only; omega)

theorem runs_overflow (msg : List UInt8) {p cur : List UInt8} {row : ℕ} (hrow : row ≤ 20)
    (hover : 20 < row+(wrap cur (text p)).1.length) :
    ∃ acts, Runs (iter msg) ⟨p,⟨row,cur.length⟩⟩ (acts ++ [.clear]) ⟨msg,home⟩ := by
  obtain ⟨n,hn⟩ : ∃ n, p.length ≤ n := ⟨p.length,le_rfl⟩
  induction n generalizing p cur row with
  | zero =>
    obtain rfl := List.length_eq_zero_iff.mp (Nat.le_zero.mp hn)
    rw [wrap_nil,List.length_nil] at hover
    omega
  | succ n ih =>
    rcases iter_overflow msg hrow hover with hclear | ⟨acts,p',cur',row',hrow',hi,hover',hlt⟩
    · exact ⟨[],Runs.single hclear⟩
    · obtain ⟨acts',hr⟩ := ih hrow' hover' (by omega)
      refine ⟨acts ++ acts',?_⟩
      rw [List.append_assoc]
      exact Runs.head hi hr

/-- A message that closes more than 20 rows never fits, however often the loop starts over. -/
theorem loop_diverges {msg : List UInt8} (h : 20 < rowBreaks msg) {row : ℕ} (hrow : row ≤ 20)
    (fuel : ℕ) : loop (iter msg) fuel ⟨msg,⟨row,0⟩⟩ = none := by
  let P : Loop → Prop := fun l => ∃ (row : ℕ) (cur : List UInt8),
    l.cursor = ⟨row,cur.length⟩ ∧ row ≤ 20 ∧ 20 < row+(wrap cur (text l.p)).1.length
  have hstep : ∀ l, P l → ∃ acts l', iter msg l = some (acts,l') ∧ P l' := by
    rintro ⟨p,cursor⟩ ⟨row,cur,rfl,hrow,hover⟩
    rcases iter_overflow msg hrow hover with hclear | ⟨acts,p',cur',row',hrow',hi,hover',-⟩
    · exact ⟨_,_,hclear,0,[],rfl,by omega,by simpa [rowBreaks] using h⟩
    · exact ⟨acts,_,hi,row',cur',rfl,hrow',hover'⟩
  have hstart : P ⟨msg,⟨row,0⟩⟩ := by
    refine ⟨row,[],rfl,hrow,?_⟩
    unfold rowBreaks at h
    simp only
    omega
  exact not_ends hstep hstart fuel

/-- The loop on a message that closes at most 20 rows ends with its layout on the screen, below
the rows that were there or, after a clear, on its own. -/
theorem runs_result {msg : List UInt8} {rows : List (List UInt8)} {g : Grid}
    (hrows : rows.length ≤ 20) (hM : Matches g rows) (hshort : rowBreaks msg ≤ 20) :
    ∃ acts l, Runs (iter msg) ⟨msg,⟨rows.length,0⟩⟩ acts l ∧ iter msg l = none ∧
      ∃ top : List (List UInt8), (Act.clear ∉ acts ∧ top = rows ∨ Act.clear ∈ acts ∧ top = []) ∧
        (top ++ (wrap [] (text msg)).1).length ≤ 20 ∧
        l.cursor = ⟨(top ++ (wrap [] (text msg)).1).length,(wrap [] (text msg)).2.length⟩ ∧
        Matches (draw g (acts.flatMap Act.puts))
          (top ++ (wrap [] (text msg)).1 ++ [(wrap [] (text msg)).2]) := by
  unfold rowBreaks at hshort
  by_cases hfit : rows.length+(wrap [] (text msg)).1.length ≤ 20
  · obtain ⟨acts,l,hr,hend,hcur,hclear,hM'⟩ :=
      draws_of_fits msg msg hfit (matches_concat_nil.mpr hM)
    exact ⟨acts,l,hr,hend,rows,Or.inl ⟨hclear,rfl⟩,by rwa [List.length_append],hcur,hM'⟩
  · obtain ⟨acts₁,hr₁⟩ := runs_overflow msg hrows (not_le.mp hfit)
    have hM₁ : Matches (draw g ((acts₁ ++ [Act.clear]).flatMap Act.puts)) ([] ++ [[]]) := by
      rw [List.flatMap_append,draw_append,matches_concat_nil]
      exact matches_clear _
    have hfit₁ : ([] : List (List UInt8)).length+(wrap [] (text msg)).1.length ≤ 20 := by
      rwa [List.length_nil,Nat.zero_add]
    obtain ⟨acts₂,l,hr₂,hend,hcur,-,hM₂⟩ := draws_of_fits msg msg hfit₁ hM₁
    refine ⟨_,l,hr₁.trans hr₂,hend,[],Or.inr ⟨by simp,rfl⟩,hshort,hcur,?_⟩
    rw [List.flatMap_append,draw_append]
    exact hM₂

theorem finish_spec {rows : List (List UInt8)} {cur : List UInt8} {g : Grid}
    (hrows : rows.length ≤ 20) (hM : Matches g (rows ++ [cur])) {final : List Act} {cursor : Cursor}
    (hf : finish ⟨rows.length,cur.length⟩ = (final,cursor)) :
    ∃ rows', (Act.clear ∉ final ∧ rows' = rows ++ (if cur = [] then [] else [cur]) ∨
        Act.clear ∈ final ∧ rows' = []) ∧ rows'.length ≤ 20 ∧ cursor = ⟨rows'.length,0⟩ ∧
      Matches (draw g (final.flatMap Act.puts)) rows' := by
  unfold finish at hf
  dsimp only at hf
  split_ifs at hf with hcol hrow
  · obtain ⟨rfl,rfl⟩ := Prod.mk.inj hf
    exact ⟨[],Or.inr ⟨by simp,rfl⟩,by simp,rfl,matches_clear g⟩
  · obtain ⟨rfl,rfl⟩ := Prod.mk.inj hf
    have hne : cur ≠ [] := List.length_pos_iff.mp (by omega)
    simp only [msgAreaBottom] at hrow
    refine ⟨rows ++ [cur],Or.inl ⟨by simp,by rw [if_neg hne]⟩,?_,?_,hM⟩
    · rw [List.length_append,List.length_singleton]
      omega
    · rw [length_concat_cast]
  · obtain ⟨rfl,rfl⟩ := Prod.mk.inj hf
    have hnil : cur = [] := List.length_eq_zero_iff.mp (by omega)
    subst hnil
    exact ⟨rows,Or.inl ⟨by simp,by simp⟩,hrows,rfl,matches_concat_nil.mp hM⟩

theorem rowBreaks_le_of_loop {msg : List UInt8} {row fuel : ℕ} {r : List Act × Loop}
    (hrow : row ≤ 20) (h : loop (iter msg) fuel ⟨msg,⟨row,0⟩⟩ = some r) : rowBreaks msg ≤ 20 := by
  by_contra hlong
  rw [loop_diverges (by omega) hrow] at h
  exact absurd h (by simp)

theorem layout_append_singleton (msgs : List (List UInt8)) (msg : List UInt8) :
    layout (msgs ++ [msg]) = layout msgs ++ rowsOf msg := by
  simp [layout]

structure Area where
  grid : Grid
  cursor : Cursor
  shown : List (List UInt8)

/-- The screen after a call. A call that clears at its end shows nothing, and one that clears
in mid-message shows its message once. -/
def Area.show (a : Area) (msg : List UInt8) (d : Display) : Area where
  grid := draw a.grid d.puts
  cursor := d.cursor
  shown :=
    if Act.clear ∈ d.final then [] else if Act.clear ∈ d.loop then [msg] else a.shown ++ [msg]

/-- What a sequence of calls that all return makes of the cleared screen. -/
inductive Reached : Area → Prop
  | start : Reached ⟨fbclear,home,[]⟩
  | call {a : Area} {msg : List UInt8} {fuel : ℕ} {d : Display} (h : Reached a)
    (hd : displayMessage fuel msg a.cursor = some d) : Reached (a.show msg d)

structure AreaInv (a : Area) : Prop where
  cursor_eq : a.cursor = ⟨(layout a.shown).length,0⟩
  length_le : (layout a.shown).length ≤ 20
  grid_matches : Matches a.grid (layout a.shown)

theorem areaInv_start : AreaInv ⟨fbclear,home,[]⟩ :=
  ⟨rfl,by simp [layout],fun _ _ _ _ => rfl⟩

/-- What the character loop of a call that returns leaves on the screen: the rows that were there
or none, and the rows of the message below them. -/
theorem AreaInv.loop_result {a : Area} (h : AreaInv a) {msg : List UInt8} {fuel : ℕ}
    {acts : List Act} {l : Loop}
    (hloop : loop (iter msg) fuel ⟨msg,a.cursor⟩ = some (acts,l)) :
    ∃ top : List (List UInt8),
      (Act.clear ∉ acts ∧ top = layout a.shown ∨ Act.clear ∈ acts ∧ top = []) ∧
      (top ++ (wrap [] (text msg)).1).length ≤ 20 ∧
      l.cursor = ⟨(top ++ (wrap [] (text msg)).1).length,(wrap [] (text msg)).2.length⟩ ∧
      Matches (draw a.grid (acts.flatMap Act.puts))
        (top ++ (wrap [] (text msg)).1 ++ [(wrap [] (text msg)).2]) := by
  rw [h.cursor_eq] at hloop
  have hshort := rowBreaks_le_of_loop h.length_le hloop
  obtain ⟨hruns,hend⟩ := runs_of_loop hloop
  obtain ⟨acts',l',hr,hend',hresult⟩ := runs_result h.length_le h.grid_matches hshort
  obtain ⟨rfl,rfl⟩ := hruns.unique hr hend hend'
  exact hresult

theorem AreaInv.show {a : Area} (h : AreaInv a) {msg : List UInt8} {fuel : ℕ} {d : Display}
    (hd : displayMessage fuel msg a.cursor = some d) : AreaInv (a.show msg d) := by
  obtain ⟨acts,final,cursor⟩ := d
  obtain ⟨l,hloop,hf⟩ := displayMessage_eq_some.mp hd
  obtain ⟨top,htop,hlen,hcur,hM⟩ := h.loop_result hloop
  rw [hcur] at hf
  obtain ⟨rows',hrows',hlen',hcur',hM'⟩ := finish_spec hlen hM hf
  have hlayout : layout (a.show msg ⟨acts,final,cursor⟩).shown = rows' := by
    rcases hrows' with ⟨hfinal,rfl⟩ | ⟨hfinal,rfl⟩
    · rw [Area.show,if_neg hfinal,List.append_assoc,← rowsOf]
      rcases htop with ⟨hacts,rfl⟩ | ⟨hacts,rfl⟩
      · rw [if_neg hacts,layout_append_singleton]
      · rw [if_pos hacts]
        exact layout_append_singleton [] msg
    · rw [Area.show,if_pos hfinal]
      rfl
  refine ⟨?_,?_,?_⟩
  · rw [hlayout]
    exact hcur'
  · rw [hlayout]
    exact hlen'
  · rw [hlayout]
    simp only [Area.show,Display.puts,List.flatMap_append,draw_append]
    exact hM'

theorem Reached.areaInv {a : Area} (h : Reached a) : AreaInv a := by
  induction h with
  | start => exact areaInv_start
  | call _ hd ih => exact ih.show hd

theorem AreaInv.valid {a : Area} (h : AreaInv a) : Valid a.cursor := by
  have hlen := h.length_le
  rw [h.cursor_eq]
  simp only [Valid]
  omega

/-- The history invariant of the message area. -/
theorem message_area_history {a : Area} (h : Reached a) :
    a.cursor.col = 0 ∧ 0 ≤ a.cursor.row ∧ a.cursor.row ≤ 20 ∧
      (∀ r c : ℤ, a.cursor.row ≤ r → r ≤ 20 → 0 ≤ c → c ≤ 63 → a.grid (r,c) = space) ∧
      a.cursor.row = (layout a.shown).length ∧
      (∀ r c : ℕ, r < (layout a.shown).length → c ≤ 63 →
        a.grid ((r : ℤ),(c : ℤ)) = ((layout a.shown).getD r []).getD c space) ∧
      ∀ fuel msg d, displayMessage fuel msg a.cursor = some d → ∀ p ∈ d.puts, InArea p.1 := by
  have hinv := h.areaInv
  have hlen := hinv.length_le
  refine ⟨?_,?_,?_,?_,?_,?_,?_⟩
  · rw [hinv.cursor_eq]
  · rw [hinv.cursor_eq]
    simp only
    omega
  · rw [hinv.cursor_eq]
    simp only
    omega
  · intro r c hr hr20 hc0 hc
    rw [hinv.cursor_eq] at hr
    simp only at hr
    obtain ⟨r,rfl⟩ := Int.eq_ofNat_of_zero_le (by omega : 0 ≤ r)
    obtain ⟨c,rfl⟩ := Int.eq_ofNat_of_zero_le hc0
    exact (hinv.grid_matches r c (by omega) (by omega)).trans (cellOf_of_length_le (by omega) c)
  · rw [hinv.cursor_eq]
  · intro r c hr hc
    exact hinv.grid_matches r c (by omega) hc
  · intro fuel msg d hd
    exact displayMessage_inArea hinv.valid hd

theorem message_area_history_hi :
    ∃ d, displayMessage 3 [0x68,0x69] home = some d ∧ d.cursor.row = 1 ∧
      (Area.show ⟨fbclear,home,[]⟩ [0x68,0x69] d).grid (0,1) = 0x69 := by
  have hd : displayMessage 3 [0x68,0x69] home =
      some ⟨[.put ((0,0),0x68),.put ((0,1),0x69)],[],⟨1,0⟩⟩ := rfl
  obtain ⟨-,-,-,-,hrow,hgrid,-⟩ := message_area_history (Reached.call Reached.start hd)
  exact ⟨_,hd,hrow,hgrid 0 1 (by decide) (by decide)⟩

/-- From every reachable cursor, `display_message` returns exactly on the messages that close
at most 20 rows. -/
theorem displayMessage_returns_iff {a : Area} (h : Reached a) (msg : List UInt8) :
    (∃ fuel d, displayMessage fuel msg a.cursor = some d) ↔ rowBreaks msg ≤ 20 := by
  have hinv := h.areaInv
  rw [hinv.cursor_eq]
  constructor
  · rintro ⟨fuel,d,hd⟩
    obtain ⟨l,hloop,-⟩ := displayMessage_eq_some.mp hd
    exact rowBreaks_le_of_loop hinv.length_le hloop
  · intro hshort
    obtain ⟨acts,l,hr,hend,-⟩ := runs_result hinv.length_le hinv.grid_matches hshort
    obtain ⟨fuel,hfuel⟩ := hr.loop hend
    exact ⟨fuel,⟨acts,_,_⟩,displayMessage_eq_some.mpr ⟨l,hfuel,rfl⟩⟩

theorem displayMessage_returns_hi : ∃ fuel d, displayMessage fuel [0x68,0x69] home = some d :=
  (displayMessage_returns_iff Reached.start [0x68,0x69]).mpr (by decide)

/-- Twenty-one newlines are a message that never fits: the first call on it does not return. -/
theorem newlines_never_return :
    (List.replicate 21 newline).length ≤ 127 ∧ Reached ⟨fbclear,home,[]⟩ ∧
      ∀ fuel, displayMessage fuel (List.replicate 21 newline) home = none := by
  refine ⟨by decide,Reached.start,?_⟩
  intro fuel
  have hloop := loop_diverges (by decide : 20 < rowBreaks (List.replicate 21 newline))
    (Nat.zero_le 20) fuel
  rw [displayMessage]
  exact Option.bind_eq_none_iff.mpr fun r hr => absurd (hloop.symm.trans hr) (by simp)

end MessageArea
end EmbeddedSystems
