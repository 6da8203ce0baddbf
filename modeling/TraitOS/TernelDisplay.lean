import TraitOS.TernelEditor
import TraitOS.Runs
import TraitOS.Vga

/-!
# The display of the line editor

A character at the end of the line is drawn where the cursor is; every other change puts the
cursor at a place computed from the row of the prompt, after drawing the line again if needed.
These places are for a prompt of six characters, and the prompt has five: the display is right as
long as all keys are appended characters or change nothing.
-/
namespace TraitOS.Ternel
open CString Vga Runs

structure Display where
  screen : Screen
  promptRow : ℕ

def promptText : List UInt8 := [32, 32, 32, 62, 32]

def printPrompt (s : Screen) : Display := ⟨vgaPuts s promptText, (vgaPuts s promptText).row⟩

def placeCursor (d : Display) (cursor : ℕ) : Display :=
  { d with
    screen := vgaSetCursor d.screen ((6 + cursor) % vgaWidth : ℕ)
      (d.promptRow + (6 + cursor) / vgaWidth : ℕ) }

/-- The loop that blanks rows from the prompt on, after `n` of them. -/
def blankRows (d : Display) : ℕ → Screen
  | 0 => d.screen
  | n + 1 => vgaPuts (vgaSetCursor (blankRows d n) 0 (d.promptRow + n : ℕ))
    (List.replicate vgaWidth 32)

def redrawLine (d : Display) (line : List UInt8) (len cursor : ℕ) : Display :=
  let rows := (len + 6 + vgaWidth - 1) / vgaWidth
  let rows := if rows < 1 then 1 else rows
  let s := vgaSetCursor (blankRows d rows) 0 d.promptRow
  placeCursor { d with screen := vgaPuts (vgaPuts s promptText) line } cursor

/-- The editor with its display. -/
structure Console where
  editor : Editor
  display : Display

section Model
variable (F : Frame)

/-- What a key draws; with the prompt of the next line this line is over. -/
def drawKey (d : Display) (e : Editor) : Draw → Option Display
  | .nothing => some d
  | .put c => some { d with screen := vgaPutchar d.screen c }
  | .place => some (placeCursor d e.cursor)
  | .redraw => some (redrawLine d (readStr e.mem F.line lineSize) e.lineLen e.cursor)
  | .prompt => none

/-- One key on this line. -/
def lineKey (k : Console) (c : Int8) : Option Console :=
  let r := handleKey F k.editor c
  (drawKey F k.display r.1 r.2).map (Console.mk r.1)

/-- A key that changes nothing. -/
def Idle (e : Editor) (c : Int8) : Prop :=
  c ≠ 10 ∧ (c = 8 → e.cursor = 0) ∧ (c = keyDel → e.lineLen ≤ e.cursor) ∧
    (c = keyLeft → e.cursor = 0) ∧
    (c = keyRight → e.lineLen ≤ e.cursor) ∧ c ≠ keyHome ∧ c ≠ keyEnd ∧ (c = keyUp → e.histPos = 0) ∧
    (c = keyDown → e.histCount ≤ e.histPos) ∧ (32 ≤ c → 127 ≤ e.lineLen)

/-- A character at the end of the line. -/
def Appends (e : Editor) (c : Int8) : Prop := 32 ≤ c ∧ e.lineLen < 127 ∧ e.cursor = e.lineLen

/-- A key after which the display is right: it changes nothing, or a character is appended and the
cell behind it is on the screen. -/
def Safe (k : Console) (c : Int8) : Prop :=
  Idle k.editor c ∨ Appends k.editor c ∧ k.display.promptRow * 80 + 6 + k.editor.lineLen < 2000

instance (e : Editor) (c : Int8) : Decidable (Idle e c) := inferInstanceAs (Decidable (_ ∧ _))
instance (e : Editor) (c : Int8) : Decidable (Appends e c) := inferInstanceAs (Decidable (_ ∧ _))
instance (k : Console) (c : Int8) : Decidable (Safe k c) := inferInstanceAs (Decidable (_ ∨ _))

/-- The cells behind the prompt show the line, all others are as they were, and the cursor is where
`line[cursor]` is or would be drawn. -/
structure Agrees (d₀ : Display) (k : Console) : Prop where
  line : ∀ i < k.editor.lineLen, k.display.screen.cells (d₀.promptRow * 80 + 5 + i) =
    cell d₀.screen.color (k.editor.mem (F.line + i))
  rest : ∀ i < 2000, i < d₀.promptRow * 80 + 5 ∨ d₀.promptRow * 80 + 5 + k.editor.lineLen ≤ i →
    k.display.screen.cells i = d₀.screen.cells i
  cursor : k.display.screen.cursor = d₀.promptRow * 80 + 5 + k.editor.cursor

end Model

/-! ## The kinds of keys -/

/-- What a key can be to the display. -/
inductive KeyKind (F : Frame) (e : Editor) (c : Int8) : Prop where
  | idle (h : Idle e c) (heq : handleKey F e c = (e, .nothing))
  | appends (h : Appends e c) (heq : handleKey F e c = insertChar F e c.toUInt8)
  | other (hidle : ¬ Idle e c) (happends : ¬ Appends e c)
      (h : (handleKey F e c).2 = .place ∨ (handleKey F e c).2 = .redraw ∨ (handleKey F e c).2 =
        .prompt)

section Kinds
attribute [local simp] Idle Appends keyUp keyDown keyLeft keyRight keyHome keyEnd keyDel

/-- A handler that does nothing unless a condition holds. -/
lemma keyKind_of_ite {F : Frame} {e e' : Editor} {c : Int8} {d : Draw} {p : Prop} [Decidable p]
    (heq : handleKey F e c = if p then (e', d) else (e, .nothing)) (hidle : Idle e c ↔ ¬ p)
    (happends : ¬ Appends e c) (hd : d = .place ∨ d = .redraw ∨ d = .prompt) : KeyKind F e c := by
  by_cases hp : p
  · rw [if_pos hp] at heq
    exact .other (fun h => hidle.mp h hp) happends (by rw [heq]; exact hd)
  · rw [if_neg hp] at heq
    exact .idle (hidle.mpr hp) heq

lemma keyKind (F : Frame) (e : Editor) (c : Int8) : KeyKind F e c := by
  by_cases hnl : c = 10
  · subst hnl
    exact .other (by simp) (by simp) (by simp [handleKey])
  by_cases hbs : c = 8
  · subst hbs
    exact keyKind_of_ite (by simp [handleKey, backspaceKey]; rfl) (by simp) (by simp) (by simp)
  by_cases hdel : c = keyDel
  · subst hdel
    exact keyKind_of_ite (by simp [handleKey, delKey]; rfl) (by simp) (by simp) (by simp)
  by_cases hleft : c = keyLeft
  · subst hleft
    exact keyKind_of_ite (by simp [handleKey, leftKey]; rfl) (by simp) (by simp) (by simp)
  by_cases hright : c = keyRight
  · subst hright
    exact keyKind_of_ite (by simp [handleKey, rightKey]; rfl) (by simp) (by simp) (by simp)
  by_cases hhome : c = keyHome
  · subst hhome
    exact .other (by simp) (by simp) (by simp [handleKey])
  by_cases hend : c = keyEnd
  · subst hend
    exact .other (by simp) (by simp) (by simp [handleKey])
  by_cases hup : c = keyUp
  · subst hup
    exact keyKind_of_ite (by simp [handleKey, upKey]; rfl) (by simp) (by simp) (by simp)
  by_cases hdown : c = keyDown
  · subst hdown
    have hredraw : (downKey F e) = if e.histPos < e.histCount then ((downKey F e).1, .redraw)
      else (e, .nothing) := by
      unfold downKey
      dsimp only
      split_ifs <;> rfl
    exact keyKind_of_ite (by simpa [handleKey] using hredraw) (by simp) (by simp) (by simp)
  have heq : handleKey F e c = if 32 ≤ c ∧ e.lineLen < 127 then insertChar F e c.toUInt8
    else (e, .nothing) := by
    rw [handleKey, if_neg hnl, if_neg hbs, if_neg hdel, if_neg hleft, if_neg hright, if_neg hhome,
      if_neg hend, if_neg hup, if_neg hdown]
  by_cases hchar : 32 ≤ c ∧ e.lineLen < 127
  · rw [if_pos hchar] at heq
    have hidle : ¬ Idle e c := fun h => by
      obtain ⟨-, -, -, -, -, -, -, -, -, hfull⟩ := h
      exact absurd (hfull hchar.1) (not_le.mpr hchar.2)
    by_cases hlast : e.cursor = e.lineLen
    · exact .appends ⟨hchar.1, hchar.2, hlast⟩ heq
    · refine .other hidle (fun h => hlast h.2.2) (Or.inr (Or.inl ?_))
      rw [heq, insertChar, if_neg hlast]
  · rw [if_neg hchar] at heq
    have hidle : Idle e c :=
      ⟨hnl, fun h => absurd h hbs, fun h => absurd h hdel, fun h => absurd h hleft,
        fun h => absurd h hright, hhome, hend,
        fun h => absurd h hup, fun h => absurd h hdown, fun h => not_lt.mp fun hlt =>
          hchar ⟨h, hlt⟩⟩
    exact .idle hidle heq

end Kinds

/-! ## One key -/

/-- A screen of a run in which the display was right so far. -/
structure Session (F : Frame) (d₀ : Display) (k : Console) : Prop where
  agrees : Agrees F d₀ k
  onScreen : OnScreen k.display.screen
  color : k.display.screen.color = d₀.screen.color
  promptRow : k.display.promptRow = d₀.promptRow

section Step
variable {F : Frame} {d₀ : Display} {k t : Console} {c : Int8}

/-- The place computed for the cursor is never the right one. -/
lemma placeCursor_not_agrees {d : Display} {e : Editor} : ¬ Agrees F d₀ ⟨e,
    placeCursor d e.cursor⟩ := by
  intro h
  have hcolumn : (placeCursor d e.cursor).screen.cursor % 80 = (6 + e.cursor) % 80 :=
    vgaSetCursor_column d.screen (Nat.mod_lt _ (by decide)) _
  have hcursor := h.cursor
  dsimp only at hcursor
  omega

lemma other_not_agrees {r : Editor × Draw} {d d' : Display}
    (h : r.2 = .place ∨ r.2 = .redraw ∨ r.2 = .prompt) (hdraw : drawKey F d r.1 r.2 = some d') :
    ¬ Agrees F d₀ ⟨r.1, d'⟩ := by
  rcases h with h | h | h
  · rw [h] at hdraw
    cases hdraw
    exact placeCursor_not_agrees
  · rw [h] at hdraw
    cases hdraw
    exact placeCursor_not_agrees
  · rw [h] at hdraw
    exact nomatch hdraw

/-- A printable character is drawn. -/
lemma isGlyph_toUInt8 (h : 32 ≤ c) : IsGlyph c.toUInt8 := by
  obtain ⟨b⟩ := c
  refine ⟨?_, ?_, ?_, ?_⟩
  all_goals
    rintro (rfl : b = _)
    exact absurd h (by decide)

/-- What appending a character does to the editor. -/
lemma insertChar_append {e : Editor} (h : Appends e c) :
    insertChar F e c.toUInt8 =
      (⟨Function.update (Function.update e.mem (F.line + e.lineLen) c.toUInt8)
        (F.line + (e.lineLen + 1)) 0, e.lineLen + 1,
        e.cursor + 1, e.histCount, e.histCount⟩, .put c.toUInt8) := by
  rw [insertChar, if_pos h.2.2]

/-- An appended character with a cell behind it. -/
lemma Session.append (h : Session F d₀ k) (ha : Appends k.editor c)
    (hroom : k.display.promptRow * 80 + 6 + k.editor.lineLen < 2000) :
    Session F d₀ ⟨(insertChar F k.editor c.toUInt8).1,
      { k.display with screen := vgaPutchar k.display.screen c.toUInt8 }⟩ := by
  have hrow := h.promptRow
  have hcursor := h.agrees.cursor
  have hposition := h.onScreen.cursor
  have hlast := ha.2.2
  have hpos : k.display.screen.row * 80 + k.display.screen.col =
    d₀.promptRow * 80 + 5 + k.editor.lineLen := by omega
  obtain ⟨hon, hcolor, hcells, hnext⟩ :=
    vgaPutchar_glyph (isGlyph_toUInt8 ha.1) h.onScreen.col (by omega)
  rw [hpos] at hcells hnext
  rw [insertChar_append ha]
  refine ⟨⟨fun i hi => ?_, fun i hi hout => ?_, ?_⟩, hon, hcolor.trans h.color, hrow⟩
  · dsimp only at hi ⊢
    rw [hcells, Function.update_of_ne (by omega : F.line + i ≠ F.line + (k.editor.lineLen + 1))]
    rcases Nat.lt_succ_iff_lt_or_eq.mp hi with hold | rfl
    · rw [Function.update_of_ne (by omega), Function.update_of_ne (by omega)]
      exact h.agrees.line i hold
    · rw [Function.update_self, Function.update_self, h.color]
  · dsimp only at hout ⊢
    rw [hcells, Function.update_of_ne (by omega)]
    exact h.agrees.rest i hi (by omega)
  · dsimp only
    rw [hnext]
    omega

/-- In the last cell of the screen a character leaves the cursor in the wrong place. -/
lemma Session.append_last (h : Session F d₀ k) (ha : Appends k.editor c)
    (hroom : ¬ k.display.promptRow * 80 + 6 + k.editor.lineLen < 2000) :
    ¬ Agrees F d₀
      ⟨(insertChar F k.editor c.toUInt8).1,
        { k.display with screen := vgaPutchar k.display.screen c.toUInt8 }⟩ := by
  intro hagrees
  have hrow := h.promptRow
  have hcursor := h.agrees.cursor
  obtain ⟨hline, hcol, hposition⟩ := h.onScreen
  have hlast := ha.2.2
  have hend := vgaPutchar_glyph_last (isGlyph_toUInt8 ha.1) (by omega : k.display.screen.row =
    24) (by omega)
  have hafter := hagrees.cursor
  rw [insertChar_append ha] at hafter
  dsimp only at hafter
  omega

/-- A key keeps the display right exactly if it is safe. -/
lemma Session.step (h : Session F d₀ k) (hstep : lineKey F k c = some t) :
    (Agrees F d₀ t ↔ Safe k c) ∧ (Safe k c → Session F d₀ t) := by
  unfold lineKey at hstep
  dsimp only at hstep
  obtain ⟨d, hdraw, rfl⟩ := Option.map_eq_some_iff.mp hstep
  cases keyKind F k.editor c with
  | idle hidle heq =>
    rw [heq] at hdraw ⊢
    cases hdraw
    exact ⟨iff_of_true h.agrees (Or.inl hidle), fun _ => h⟩
  | appends ha heq =>
    have hput : (insertChar F k.editor c.toUInt8).2 = .put c.toUInt8 := by rw [insertChar_append ha]
    have hidle : ¬ Idle k.editor c := fun hi =>
      absurd (hi.2.2.2.2.2.2.2.2.2 ha.1) (not_le.mpr ha.2.1)
    rw [heq] at hdraw ⊢
    rw [hput] at hdraw
    cases hdraw
    by_cases hroom : k.display.promptRow * 80 + 6 + k.editor.lineLen < 2000
    · have hnext := h.append ha hroom
      exact ⟨iff_of_true hnext.agrees (Or.inr ⟨ha, hroom⟩), fun _ => hnext⟩
    · have hsafe : ¬ Safe k c := fun hs => hs.elim hidle fun hs => hroom hs.2
      exact ⟨iff_of_false (h.append_last ha hroom) hsafe, fun hs => absurd hs hsafe⟩
  | other hidle happends hkind =>
    have hsafe : ¬ Safe k c := fun hs => hs.elim hidle fun hs => happends hs.1
    exact ⟨iff_of_false (other_not_agrees hkind hdraw) hsafe, fun hs => absurd hs hsafe⟩

end Step

/-! ## Whole lines -/

lemma vgaPuts_cons (s : Screen) (c : UInt8) (str : List UInt8) : vgaPuts s (c :: str) =
    vgaPuts (vgaPutchar s c) str :=
  rfl

lemma vgaPuts_glyphs {str : List UInt8} {s : Screen} (hstr : ∀ c ∈ str, IsGlyph c) (h : OnScreen s)
    (hroom : s.cursor + str.length < 2000) :
    OnScreen (vgaPuts s str) ∧ (vgaPuts s str).cursor = s.cursor + str.length := by
  induction str generalizing s with
  | nil => exact ⟨h, rfl⟩
  | cons c str ih =>
    have hposition := h.cursor
    rw [List.length_cons] at hroom
    obtain ⟨hc, hrest⟩ := List.forall_mem_cons.mp hstr
    obtain ⟨hon, -, -, hnext⟩ := vgaPutchar_glyph hc h.col (by omega)
    obtain ⟨hon', hcursor⟩ := ih hrest hon (by omega)
    rw [vgaPuts_cons, List.length_cons]
    exact ⟨hon', by omega⟩

/-- The prompt is printed in its row. -/
lemma printPrompt_spec {s : Screen} (hrow : s.row < 25) (hcol : s.col = 0) :
    (printPrompt s).promptRow = s.row ∧ OnScreen (printPrompt s).screen ∧
      (printPrompt s).screen.cursor = s.row * 80 + 5 := by
  have hglyphs : ∀ c ∈ [(32 : UInt8), 32, 62, 32], IsGlyph c := by simp [IsGlyph]
  obtain ⟨hfirst, -, -, hnext⟩ := vgaPutchar_glyph (s := s) (hglyphs 32 List.mem_cons_self)
    (by omega) (by omega)
  obtain ⟨hon, hcursor⟩ :=
    vgaPuts_glyphs hglyphs hfirst (by rw [List.length_cons]; simp only [List.length]; omega)
  simp only [List.length] at hcursor
  have hposition := hon.cursor
  have hcolumn := hon.col
  simp only [printPrompt, promptText]
  rw [vgaPuts_cons]
  exact ⟨by omega, hon, by omega⟩

/-- A line is begun in some row: the loop has cleared its variables and prints the prompt. -/
def newLine (F : Frame) (e : Editor) (s : Screen) (row : Fin 25) : Console :=
  ⟨{ e with mem := Function.update e.mem F.line 0, lineLen := 0, cursor := 0 },
    printPrompt { s with row := row, col := 0 }⟩

lemma Session.start {F : Frame} {e : Editor} {d : Display} (hlen : e.lineLen = 0)
    (hcursor : e.cursor = 0) (hon : OnScreen d.screen)
    (hd : d.screen.cursor = d.promptRow * 80 + 5) : Session F d ⟨e, d⟩ := by
  refine ⟨⟨fun i hi => ?_, fun _ _ _ => rfl, ?_⟩, hon, rfl, rfl⟩
  · dsimp only at hi
    omega
  · dsimp only
    rw [hd, hcursor]

lemma newLine_session (F : Frame) (e : Editor) (s : Screen) (row : Fin 25) :
    Session F (newLine F e s row).display (newLine F e s row) := by
  obtain ⟨hrow, hon, hcursor⟩ :=
    printPrompt_spec (s := { s with row := row, col := 0 }) row.isLt rfl
  rw [← hrow] at hcursor
  unfold newLine
  exact Session.start rfl rfl hon hcursor

/-- On every line, begun in any row, the display agrees with the editor after each key exactly if
every key is safe when it comes. -/
theorem display_agrees_iff (F : Frame) (e : Editor) (s : Screen) (row : Fin 25) (keys : List Int8)
    (u : Console) (hrun : exec (lineKey F) (newLine F e s row) keys = some u) :
    Along (lineKey F) (fun _ _ k => Agrees F (newLine F e s row).display k)
      (newLine F e s row) keys ↔
      exec (guarded (lineKey F) Safe) (newLine F e s row) keys = some u :=
  along_iff_guarded (fun _ _ _ h hstep => h.step hstep) keys (newLine_session F e s row) hrun

/-- The buffers one behind the other. -/
def smallFrame : Frame := ⟨0, 128, 256, by decide, by decide, by decide⟩

/-- The first line after boot, on the fourth row of an empty screen. -/
def firstLine : Console :=
  newLine smallFrame (boot smallFrame fun _ => 0) ⟨fun _ => blank 7, 0, 0, 7, 0, []⟩ 3

theorem display_agrees_typing :
    ∃ u, exec (lineKey smallFrame) firstLine [97, 98] = some u ∧
      Along (lineKey smallFrame) (fun _ _ k => Agrees smallFrame firstLine.display k) firstLine [97,
        98] := by
  have hsome : (exec (guarded (lineKey smallFrame) Safe) firstLine [97, 98]).isSome = true := by
    decide +kernel
  obtain ⟨u, hu⟩ := Option.isSome_iff_exists.mp hsome
  exact ⟨u, exec_of_guarded _ hu,
    (display_agrees_iff smallFrame _ _ 3 [97, 98] u (exec_of_guarded _ hu)).mpr hu⟩

/-- One character and Home: the cursor is shown on the cell behind the character. -/
theorem home_is_off_by_one :
    ∃ u, exec (lineKey smallFrame) firstLine [97, keyHome] = some u ∧ u.editor.cursor = 0 ∧
      u.display.screen.cells (3 * 80 + 5) = cell 7 97 ∧ u.display.screen.cursor = 3 * 80 + 6 := by
  have hview : ((exec (lineKey smallFrame) firstLine [97, keyHome]).map fun u =>
      (u.editor.cursor, u.display.screen.cells (3 * 80 + 5), u.display.screen.cursor)) =
        some (0, cell 7 97, 3 * 80 + 6) := by
    decide +kernel
  obtain ⟨u, hu, hview⟩ := Option.map_eq_some_iff.mp hview
  simp only [Prod.mk.injEq] at hview
  exact ⟨u, hu, hview⟩

end TraitOS.Ternel
