import Mathlib.Data.List.Basic
import Mathlib.Tactic

/-!
# The text console

The console is 25 rows of 80 cells in video memory with a position that wraps at the right
margin and a scroll at the bottom. What it stands for is a page without a bottom: a tape of
cells with one position, on which a row is 80 cells long and nothing wraps or scrolls. The
screen shows the last 25 rows of it.
-/
namespace TraitOS.Vga

variable {s : Screen}

def vgaWidth : ℕ := 80
def vgaHeight : ℕ := 25

/-- Video memory, position and colour of the terminal, and where the hardware shows the cursor.
Beside it, the index of every cell that was written. -/
structure Screen where
  cells : ℕ → UInt16
  row : ℕ
  col : ℕ
  color : UInt8
  cursor : ℕ
  written : List ℕ

/-- A character in a colour. -/
def cell (color c : UInt8) : UInt16 := color.toUInt16 <<< 8 ||| c.toUInt16

def blank (color : UInt8) : UInt16 := cell color 32

/-- `VGA_MEM[i] = v` -/
def Screen.poke (s : Screen) (i : ℕ) (v : UInt16) : Screen :=
  { s with cells := Function.update s.cells i v, written := i :: s.written }

def updateCursor (s : Screen) : Screen := { s with cursor := (s.row * vgaWidth + s.col) % 2 ^ 16 }

/-- The loops that blank the cells from `first` on, after `n` of them. -/
def fillBlank (first : ℕ) (s : Screen) : ℕ → Screen
  | 0 => s
  | n + 1 => (fillBlank first s n).poke (first + n) (blank s.color)

def vgaClear (s : Screen) : Screen :=
  updateCursor { fillBlank 0 s (vgaWidth * vgaHeight) with row := 0, col := 0 }

/-- The first loop of `vga_scroll`, after `n` cells. -/
def moveUp (s : Screen) : ℕ → Screen
  | 0 => s
  | n + 1 => (moveUp s n).poke n ((moveUp s n).cells (n + vgaWidth))

def vgaScroll (s : Screen) : Screen :=
  fillBlank ((vgaHeight - 1) * vgaWidth) (moveUp s ((vgaHeight - 1) * vgaWidth)) vgaWidth

/-- What a character does before the margins are looked at. -/
def advance (s : Screen) (c : UInt8) : Screen :=
  if c = 10 then { s with col := 0, row := s.row + 1 }
  else if c = 13 then { s with col := 0 }
  else if c = 9 then { s with col := (s.col + 4) / 4 * 4 }
  else if c = 8 then
    let s := if 0 < s.col then { s with col := s.col - 1 } else s
    s.poke (s.row * vgaWidth + s.col) (blank s.color)
  else
    let s := s.poke (s.row * vgaWidth + s.col) (cell s.color c)
    { s with col := s.col + 1 }

/-- The right margin. -/
def wrap (s : Screen) : Screen := if vgaWidth ≤ s.col then { s with col := 0, row := s.row + 1 }
    else s

/-- The bottom. -/
def settle (s : Screen) : Screen :=
  if vgaHeight ≤ s.row then { vgaScroll s with row := vgaHeight - 1 } else s

def vgaPutchar (s : Screen) (c : UInt8) : Screen := updateCursor (settle (wrap (advance s c)))

def vgaPuts (s : Screen) (str : List UInt8) : Screen := str.foldl vgaPutchar s

def vgaSetCursor (s : Screen) (x y : ℤ) : Screen :=
  let x := if x < 0 then 0 else x
  let y := if y < 0 then 0 else y
  let x := if (vgaWidth : ℤ) ≤ x then (vgaWidth : ℤ) - 1 else x
  let y := if (vgaHeight : ℤ) ≤ y then (vgaHeight : ℤ) - 1 else y
  updateCursor { s with col := x.toNat, row := y.toNat }

/-! ## The page -/

/-- A page of rows of 80 cells, one after the other without an end. -/
structure Page where
  tape : ℕ → UInt16
  pos : ℕ

namespace Page

def empty (color : UInt8) : Page := ⟨fun _ => blank color, 0⟩

/-- A character on the page: line ends and tab stops are positions, and a backspace stays in its
row. -/
def put (color : UInt8) (p : Page) (c : UInt8) : Page :=
  if c = 10 then { p with pos := (p.pos / 80 + 1) * 80 }
  else if c = 13 then { p with pos := p.pos / 80 * 80 }
  else if c = 9 then { p with pos := (p.pos / 4 + 1) * 4 }
  else if c = 8 then
    let pos := if p.pos % 80 = 0 then p.pos else p.pos - 1
    ⟨Function.update p.tape pos (blank color), pos⟩
  else ⟨Function.update p.tape p.pos (cell color c), p.pos + 1⟩

def layout (color : UInt8) (text : List UInt8) : Page := text.foldl (put color) (empty color)

/-- The first of the last 25 rows up to the position. -/
def top (p : Page) : ℕ := p.pos / 80 - 24

end Page

/-! ## The loops over video memory -/

/-- All writes that `new` records beyond `old` were below `n`. -/
def WroteBelow (n : ℕ) (old new : List ℕ) : Prop := ∃ l, new = l ++ old ∧ ∀ i ∈ l, i < n

lemma WroteBelow.refl (n : ℕ) (old : List ℕ) : WroteBelow n old old :=
  ⟨[], rfl, fun _ h => absurd h List.not_mem_nil⟩

lemma WroteBelow.cons {n i : ℕ} {old new : List ℕ} (h : WroteBelow n old new) (hi : i < n) :
    WroteBelow n old (i :: new) := by
  obtain ⟨l, rfl, hl⟩ := h
  exact ⟨i :: l, rfl, List.forall_mem_cons.mpr ⟨hi, hl⟩⟩

lemma WroteBelow.trans {n : ℕ} {a b c : List ℕ} (h : WroteBelow n a b) (h' : WroteBelow n b c) :
    WroteBelow n a c := by
  obtain ⟨l, rfl, hl⟩ := h
  obtain ⟨l', rfl, hl'⟩ := h'
  refine ⟨l' ++ l, (List.append_assoc _ _ _).symm, fun i hi => ?_⟩
  rcases List.mem_append.mp hi with hi | hi
  · exact hl' i hi
  · exact hl i hi

@[simp] lemma fillBlank_row (first : ℕ) (s : Screen) (n : ℕ) : (fillBlank first s n).row =
    s.row := by
  induction n with
  | zero => rfl
  | succ n ih => exact ih

@[simp] lemma fillBlank_col (first : ℕ) (s : Screen) (n : ℕ) : (fillBlank first s n).col =
    s.col := by
  induction n with
  | zero => rfl
  | succ n ih => exact ih

@[simp] lemma fillBlank_color (first : ℕ) (s : Screen) (n : ℕ) : (fillBlank first s n).color =
    s.color := by
  induction n with
  | zero => rfl
  | succ n ih => exact ih

lemma fillBlank_cells (first : ℕ) (s : Screen) (n i : ℕ) :
    (fillBlank first s n).cells i = if first ≤ i ∧ i < first + n then blank s.color
      else s.cells i := by
  induction n with
  | zero => rw [if_neg (by omega)]; rfl
  | succ n ih =>
    simp only [fillBlank, Screen.poke, Function.update_apply, ih]
    by_cases hi : i = first + n
    · rw [if_pos hi, if_pos (by omega)]
    · rw [if_neg hi]
      exact if_congr (by omega) rfl rfl

lemma fillBlank_written {first n bound : ℕ} (s : Screen) (h : first + n ≤ bound) :
    WroteBelow bound s.written (fillBlank first s n).written := by
  induction n with
  | zero => exact .refl _ _
  | succ n ih => exact (ih (by omega)).cons (by omega)

lemma moveUp_rest (s : Screen) (n : ℕ) :
    (moveUp s n).row = s.row ∧ (moveUp s n).col = s.col ∧ (moveUp s n).color = s.color := by
  induction n with
  | zero => exact ⟨rfl, rfl, rfl⟩
  | succ n ih => exact ih

/-- The cells are moved in ascending order, so each is read before it is overwritten. -/
lemma moveUp_cells (s : Screen) (n i : ℕ) :
    (moveUp s n).cells i = if i < n then s.cells (i + vgaWidth) else s.cells i := by
  induction n generalizing i with
  | zero => rw [if_neg (by omega)]; rfl
  | succ n ih =>
    have hbehind : ¬ n + vgaWidth < n := by omega
    simp only [moveUp, Screen.poke, Function.update_apply, ih, if_neg hbehind]
    by_cases hi : i = n
    · rw [if_pos hi, if_pos (by omega), hi]
    · rw [if_neg hi]
      exact if_congr (by omega) rfl rfl

lemma moveUp_written {n bound : ℕ} (s : Screen)
    (h : n ≤ bound) : WroteBelow bound s.written (moveUp s n).written := by
  induction n with
  | zero => exact .refl _ _
  | succ n ih => exact (ih (by omega)).cons (by omega)

/-- What scrolling does, for a state that is not computed further. -/
structure Scrolled (s t : Screen) : Prop where
  col : t.col = s.col
  color : t.color = s.color
  cells : ∀ i < 2000, t.cells i = if i < 1920 then s.cells (i + 80) else blank s.color
  written : WroteBelow 2000 s.written t.written

lemma vgaScroll_scrolled (s : Screen) : Scrolled s (vgaScroll s) := by
  have hlast : (vgaHeight - 1) * vgaWidth = 1920 := rfl
  have hwidth : vgaWidth = 80 := rfl
  obtain ⟨-, hcol, hcolor⟩ := moveUp_rest s 1920
  rw [vgaScroll, hlast, hwidth]
  refine ⟨(fillBlank_col _ _ _).trans hcol, (fillBlank_color _ _ _).trans hcolor, fun i hi => ?_,
    ?_⟩
  · rw [fillBlank_cells, moveUp_cells, hcolor, hwidth]
    by_cases hlow : i < 1920
    · rw [if_neg (by omega), if_pos hlow, if_pos hlow]
    · rw [if_pos (by omega), if_neg hlow]
  · exact (moveUp_written s (by omega)).trans (fillBlank_written _ (by omega))

/-! ## The screen as a window of the page -/

/-- The screen shows the page from row `top` on, and the page is blank below it. In the middle of
a character the row may be the one below the screen. -/
structure Window (old : List ℕ) (color : UInt8) (top : ℕ) (s : Screen) (p : Page) : Prop where
  colored : s.color = color
  position : (top + s.row) * 80 + s.col = p.pos
  bottom : top = 0 ∨ 24 ≤ s.row
  cells : ∀ i < 2000, s.cells i = p.tape (top * 80 + i)
  below : ∀ i, (top + 25) * 80 ≤ i → p.tape i = blank color
  written : WroteBelow 2000 old s.written

section Step
variable {old : List ℕ} {color : UInt8} {top : ℕ} {s : Screen} {p : Page}

/-- Only the position has changed. -/
lemma Window.move (h : Window old color top s p) {row col pos : ℕ}
    (hpos : (top + row) * 80 + col = pos) (hrow : s.row ≤ row) :
    Window old color top { s with row := row, col := col } { p with pos := pos } :=
  ⟨h.colored, hpos, h.bottom.imp_right (le_trans · hrow), h.cells, h.below, h.written⟩

/-- A cell of the screen and of the page has been written. -/
lemma Window.poke (h : Window old color top s p) (v : UInt16) (hrow : s.row < 25)
    (hcol : s.col < 80) :
    Window old color top (s.poke (s.row * vgaWidth + s.col) v) ⟨Function.update p.tape p.pos v,
      p.pos⟩ := by
  have hpos := h.position
  refine ⟨h.colored, hpos, h.bottom, fun i hi => ?_, fun i hi => ?_, h.written.cons ?_⟩
  · simp only [Screen.poke, Function.update_apply, vgaWidth, h.cells i hi]
    exact if_congr (by omega) rfl rfl
  · have hne : i ≠ p.pos := by omega
    exact (Function.update_of_ne hne _ _).trans (h.below i hi)
  · unfold vgaWidth
    omega

/-- Where a character leaves the position, up to the margins. -/
lemma Window.advance (h : Window old color top s p) (hrow : s.row < 25) (hcol : s.col < 80)
    (c : UInt8) :
    Window old color top (advance s c) (p.put color c) ∧
      ((advance s c).row < 25 ∧ (advance s c).col ≤ 80 ∨ (advance s c).row = 25 ∧
        (advance s c).col = 0) := by
  have hpos := h.position
  unfold Vga.advance Page.put
  by_cases hnl : c = 10
  · simp only [if_pos hnl]
    refine ⟨h.move (by omega) (Nat.le_succ _), ?_⟩
    rcases Nat.lt_or_eq_of_le hrow with hnext | hnext
    · exact Or.inl ⟨hnext, Nat.zero_le _⟩
    · exact Or.inr ⟨hnext, trivial⟩
  by_cases hcr : c = 13
  · simp only [if_neg hnl, if_pos hcr]
    exact ⟨h.move (by omega) le_rfl, Or.inl ⟨hrow, Nat.zero_le _⟩⟩
  by_cases htab : c = 9
  · simp only [if_neg hnl, if_neg hcr, if_pos htab]
    exact ⟨h.move (by omega) le_rfl, Or.inl ⟨hrow, by omega⟩⟩
  by_cases hbs : c = 8
  · simp only [if_neg hnl, if_neg hcr, if_neg htab, if_pos hbs]
    rcases Nat.eq_zero_or_pos s.col with hzero | hleft
    · rw [if_neg (by omega), if_pos (by omega), h.colored]
      exact ⟨h.poke _ hrow hcol, Or.inl ⟨hrow, hcol.le⟩⟩
    · have hmoved : Window old color top { s with col := s.col - 1 } { p with pos := p.pos - 1 } :=
        h.move (by omega) le_rfl
      have hcol' : s.col - 1 < 80 := by omega
      rw [if_pos hleft, if_neg (by omega), ← h.colored]
      rw [← h.colored] at hmoved
      exact ⟨hmoved.poke _ hrow hcol', Or.inl ⟨hrow, hcol'.le⟩⟩
  · simp only [if_neg hnl, if_neg hcr, if_neg htab, if_neg hbs]
    rw [h.colored]
    refine ⟨(h.poke (cell color c) hrow hcol).move ?_ le_rfl, Or.inl ⟨hrow, hcol⟩⟩
    change (top + s.row) * 80 + (s.col + 1) = p.pos + 1
    omega

lemma Window.wrap (h : Window old color top s p)
    (hrow : s.row < 25 ∧ s.col ≤ 80 ∨ s.row = 25 ∧ s.col = 0) :
    Window old color top (wrap s) p ∧ (wrap s).row ≤ 25 ∧ (wrap s).col < 80 := by
  have hpos := h.position
  unfold Vga.wrap vgaWidth
  by_cases hcol : 80 ≤ s.col
  · have hnext : s.row + 1 ≤ 25 := by omega
    rw [if_pos hcol]
    exact ⟨h.move (by omega) (Nat.le_succ _), hnext, Nat.zero_lt_succ _⟩
  · rw [if_neg hcol]
    exact ⟨h, by omega, by omega⟩

/-- Scrolling moves the window down by a row. -/
lemma Window.scrolled {t : Screen} (h : Window old color top s p) (hrow : s.row = 25)
    (ht : Scrolled s t) : Window old color (top + 1) { t with row := 24 } p := by
  have hpos := h.position
  have hcol := ht.col
  have hbelow (i : ℕ) (hi : (top + 1 + 25) * 80 ≤ i) : p.tape i = blank color :=
    h.below i ((Nat.mul_le_mul_right 80 (Nat.le_succ (top + 25))).trans
      (by rwa [Nat.add_right_comm] at hi))
  constructor
  · exact ht.color.trans h.colored
  · change (top + 1 + 24) * 80 + t.col = p.pos
    omega
  · exact Or.inr le_rfl
  · intro i hi
    change t.cells i = _
    rw [ht.cells i hi, h.colored]
    by_cases hlast : i < 1920
    · rw [if_pos hlast, h.cells (i + 80) (by omega)]
      congr 1
      omega
    · rw [if_neg hlast, h.below (_) (by omega)]
  · exact hbelow
  · exact h.written.trans ht.written

lemma Window.settle (h : Window old color top s p) (hrow : s.row ≤ 25) (hcol : s.col < 80) :
    Window old color p.top (settle s) p ∧ (settle s).row < 25 ∧ (settle s).col < 80 := by
  have hpos := h.position
  have hbottom := h.bottom
  have htop : p.top = p.pos / 80 - 24 := rfl
  unfold Vga.settle vgaHeight
  by_cases hlow : 25 ≤ s.row
  · have hnext : p.top = top + 1 := by omega
    have ht := vgaScroll_scrolled s
    generalize vgaScroll s = t at ht
    rw [if_pos hlow, hnext]
    exact ⟨h.scrolled (le_antisymm hrow hlow) ht, Nat.lt_succ_self 24, ht.col.trans_lt hcol⟩
  · have hsame : p.top = top := by omega
    rw [if_neg hlow, hsame]
    exact ⟨h, by omega, hcol⟩

end Step

/-- The screen shows the last rows of the page, and the cursor its position. -/
structure Shows (old : List ℕ) (color : UInt8) (s : Screen) (p : Page) : Prop where
  window : Window old color p.top s p
  row : s.row < 25
  col : s.col < 80
  cursor : s.cursor = s.row * 80 + s.col

lemma Window.shows {old : List ℕ} {color : UInt8} {p : Page} (h : Window old color p.top s p)
    (hrow : s.row < 25) (hcol : s.col < 80) : Shows old color (updateCursor s) p := by
  refine ⟨⟨h.colored, h.position, h.bottom, h.cells, h.below, h.written⟩, hrow, hcol, ?_⟩
  unfold updateCursor vgaWidth
  exact Nat.mod_eq_of_lt (by omega)

/-- One character keeps the screen a window of the page. -/
theorem Shows.putchar {old : List ℕ} {color : UInt8} {p : Page} (h : Shows old color s p)
    (c : UInt8) : Shows old color (vgaPutchar s c) (p.put color c) := by
  obtain ⟨hadvance, hrow⟩ := h.window.advance h.row h.col c
  obtain ⟨hwrap, hrow', hcol'⟩ := hadvance.wrap hrow
  obtain ⟨hsettle, hrow'', hcol''⟩ := hwrap.settle hrow' hcol'
  exact hsettle.shows hrow'' hcol''

lemma shows_vgaClear (s : Screen) : Shows s.written s.color (vgaClear s) (Page.empty s.color) := by
  have hcells (i : ℕ) := fillBlank_cells 0 s 2000 i
  have hcolor := fillBlank_color 0 s 2000
  have hwritten : WroteBelow 2000 s.written (fillBlank 0 s 2000).written :=
    fillBlank_written s le_rfl
  unfold vgaClear
  rw [show vgaWidth * vgaHeight = 2000 from rfl]
  generalize fillBlank 0 s 2000 = t at *
  have htop : (Page.empty s.color).top = 0 := by simp [Page.top, Page.empty]
  have hwindow : Window s.written s.color (Page.empty s.color).top { t with row := 0, col := 0 }
    (Page.empty s.color) := by
    rw [htop]
    refine ⟨hcolor, rfl, Or.inl rfl, fun i hi => ?_, fun _ _ => rfl, hwritten⟩
    exact (hcells i).trans (if_pos ⟨Nat.zero_le i, by omega⟩)
  exact hwindow.shows (Nat.zero_lt_succ _) (Nat.zero_lt_succ _)

lemma Shows.text {old : List ℕ} {color : UInt8} (text : List UInt8) {p : Page}
    (h : Shows old color s p) :
    Shows old color (vgaPuts s text) (text.foldl (Page.put color) p) := by
  induction text generalizing s p with
  | nil => exact h
  | cons c text ih => exact ih (h.putchar c)

/-- After any text on a cleared screen the position is on the screen, no write was outside it, and
the screen and its cursor are the last 25 rows of the text laid out on a page. -/
theorem vgaPuts_refines_page (s : Screen) (text : List UInt8) :
    (vgaPuts (vgaClear s) text).row < vgaHeight ∧ (vgaPuts (vgaClear s) text).col < vgaWidth ∧
      WroteBelow (vgaWidth * vgaHeight) s.written (vgaPuts (vgaClear s) text).written ∧
      (∀ r < vgaHeight, ∀ c < vgaWidth, (vgaPuts (vgaClear s) text).cells (r * vgaWidth + c) =
        (Page.layout s.color text).tape (((Page.layout s.color text).top + r) * 80 + c)) ∧
      ((Page.layout s.color text).top + (vgaPuts (vgaClear s) text).row) * 80 +
        (vgaPuts (vgaClear s) text).col = (Page.layout s.color text).pos ∧
      (vgaPuts (vgaClear s) text).cursor =
        (vgaPuts (vgaClear s) text).row * vgaWidth + (vgaPuts (vgaClear s) text).col := by
  have h := (shows_vgaClear s).text text
  refine ⟨h.row, h.col, h.window.written, fun r hr c hc => ?_, h.window.position, h.cursor⟩
  unfold vgaHeight at hr
  unfold vgaWidth at hc ⊢
  rw [h.window.cells _ (by omega), ← Nat.add_assoc, Nat.add_mul]
  rfl

/-! ## Single characters -/

/-- The position is on the screen, and the hardware shows it. -/
structure OnScreen (s : Screen) : Prop where
  row : s.row < 25
  col : s.col < 80
  cursor : s.cursor = s.row * 80 + s.col

lemma onScreen_updateCursor (hrow : s.row < 25) (hcol : s.col < 80) : OnScreen (updateCursor s) :=
  ⟨hrow, hcol, Nat.mod_eq_of_lt (by unfold vgaWidth; omega)⟩

/-- The bytes that are drawn. -/
def IsGlyph (c : UInt8) : Prop := c ≠ 10 ∧ c ≠ 13 ∧ c ≠ 9 ∧ c ≠ 8

lemma advance_glyph (s : Screen) {c : UInt8} (hc : IsGlyph c) :
    advance s c = { s.poke (s.row * 80 + s.col) (cell s.color c) with col := s.col + 1 } := by
  obtain ⟨hnl, hcr, htab, hbs⟩ := hc
  rw [advance, if_neg hnl, if_neg hcr, if_neg htab, if_neg hbs]
  rfl

/-- A glyph with a cell behind it is drawn at the position and moves it on by one. -/
lemma vgaPutchar_glyph {c : UInt8} (hc : IsGlyph c) (hcol : s.col < 80)
    (hroom : s.row * 80 + s.col + 1 < 2000) :
    OnScreen (vgaPutchar s c) ∧ (vgaPutchar s c).color = s.color ∧
      (vgaPutchar s c).cells = Function.update s.cells (s.row * 80 + s.col) (cell s.color c) ∧
      (vgaPutchar s c).cursor = s.row * 80 + s.col + 1 := by
  unfold vgaPutchar
  rw [advance_glyph s hc]
  generalize htape : s.poke (s.row * 80 + s.col) (cell s.color c) = t
  obtain ⟨hrow', hcolor, hcells⟩ : t.row = s.row ∧ t.color = s.color ∧
      t.cells = Function.update s.cells (s.row * 80 + s.col) (cell s.color c) :=
        htape ▸ ⟨rfl, rfl, rfl⟩
  unfold wrap vgaWidth
  by_cases hend : 80 ≤ s.col + 1
  · have hnext : ¬ vgaHeight ≤ t.row + 1 := by
      unfold vgaHeight
      omega
    simp only [if_pos hend, settle, if_neg hnext]
    have hon : OnScreen (updateCursor { t with col := 0, row := t.row + 1 }) :=
      onScreen_updateCursor (by dsimp only; omega) (Nat.zero_lt_succ _)
    refine ⟨hon, hcolor, hcells, hon.cursor.trans ?_⟩
    change (t.row + 1) * 80 + 0 = _
    omega
  · have hrow : ¬ vgaHeight ≤ t.row := by
      unfold vgaHeight
      omega
    simp only [if_neg hend, settle, if_neg hrow]
    have hon : OnScreen (updateCursor { t with col := s.col + 1 }) :=
      onScreen_updateCursor (by dsimp only; omega) (not_le.mp hend)
    refine ⟨hon, hcolor, hcells, hon.cursor.trans ?_⟩
    change t.row * 80 + (s.col + 1) = _
    omega

/-- A glyph in the last cell scrolls the screen. -/
lemma vgaPutchar_glyph_last {c : UInt8} (hc : IsGlyph c) (hrow : s.row = 24) (hcol : s.col = 79) :
    (vgaPutchar s c).cursor = 1920 := by
  unfold vgaPutchar
  rw [advance_glyph s hc]
  generalize htape : s.poke (s.row * 80 + s.col) (cell s.color c) = t
  have hrow' : t.row = s.row := htape ▸ rfl
  have hend : vgaWidth ≤ s.col + 1 := by
    unfold vgaWidth
    omega
  have hlow : vgaHeight ≤ t.row + 1 := by
    unfold vgaHeight
    omega
  have hscrolled := (vgaScroll_scrolled { t with col := 0, row := t.row + 1 }).col
  simp only [wrap, if_pos hend, settle, if_pos hlow, updateCursor, hscrolled]
  decide

/-- Setting the cursor shows the column that was asked for. -/
lemma vgaSetCursor_column (s : Screen) {x : ℕ} (hx : x < 80)
    (y : ℕ) : (vgaSetCursor s x y).cursor % 80 = x := by
  have hnonneg (n : ℕ) : ¬ (n : ℤ) < 0 := by omega
  have hwidth : ¬ (vgaWidth : ℤ) ≤ x := by
    unfold vgaWidth
    omega
  have hmod (row : ℕ) (hrow : row < 25) : (row * vgaWidth + x) % 2 ^ 16 % 80 = x := by
    unfold vgaWidth
    rw [Nat.mod_eq_of_lt (by omega : row * 80 + x < 2 ^ 16)]
    omega
  simp only [vgaSetCursor, if_neg (hnonneg _), if_neg hwidth, updateCursor, Int.toNat_natCast]
  by_cases hlow : (vgaHeight : ℤ) ≤ y
  · rw [if_pos hlow]
    exact hmod 24 (by decide)
  · rw [if_neg hlow, Int.toNat_natCast]
    unfold vgaHeight at hlow
    exact hmod y (by omega)

end TraitOS.Vga
