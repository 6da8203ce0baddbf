import TraitOS.TshHistory

/-!
# The line editor

The input loop of `ternel_main` keeps the line in a buffer of 128 bytes with its length, a cursor
and a position in the history. The reference is a text split at the cursor. What a key draws is
part of its result; the display is a matter of its own.
-/
namespace TraitOS.Ternel
open ByteMemory CString Tstring Tsh

variable {m : Memory} {b a : List UInt8} {c : UInt8}

def keyUp : Int8 := -2
def keyDown : Int8 := -3
def keyLeft : Int8 := -4
def keyRight : Int8 := -5
def keyHome : Int8 := -6
def keyEnd : Int8 := -7
def keyDel : Int8 := -8

/-- The size of `line`. -/
def lineSize : ℕ := 128

/-- Where the two buffers of the loop and the table of the history are. -/
structure Frame where
  line : ℕ
  expanded : ℕ
  entries : ℕ
  line_expanded : line + lineSize ≤ expanded ∨ expanded + tshHistLen ≤ line
  line_entries : line + lineSize ≤ entries ∨ entries + tshHistMax * tshHistLen ≤ line
  expanded_entries : expanded + tshHistLen ≤ entries ∨ entries + tshHistMax * tshHistLen ≤ expanded

structure Editor where
  mem : Memory
  lineLen : ℕ
  cursor : ℕ
  histPos : ℕ
  histCount : ℕ

def Editor.hist (e : Editor) : Hist := ⟨e.mem, e.histCount⟩

/-- What a key makes the loop draw: nothing, a character at the cursor, the cursor, the whole
line, or the prompt of the next one. -/
inductive Draw where
  | nothing
  | put (c : UInt8)
  | place
  | redraw
  | prompt
deriving DecidableEq, Repr

section Model
variable (F : Frame)

/-- `tstrncpy(line, src, 128)` with the new length and the cursor behind the text. An expanded line
leaves the cursor where it is, but it is set to 0 right after. -/
def Editor.setLine (e : Editor) (src : ℕ) : Editor :=
  let m := tstrncpy e.mem F.line (readStr e.mem src lineSize) lineSize
  let len := (readStr m F.line lineSize).length
  { e with mem := m, lineLen := len, cursor := len }

/-- The line goes to the history, and the command runs. -/
def submit (e : Editor) : Editor :=
  let h := (tshHistPush F.entries e.hist (strAt e.mem F.line lineSize)).1
  { e with mem := h.mem, histCount := h.count, histPos := h.count }

/-- The body of the branch for a line that is not empty. -/
def enterLine (e : Editor) : Editor :=
  let r := tshHistExpand F.entries e.hist (strAt e.mem F.line lineSize) F.expanded tshHistLen
  let e := { e with mem := r.1.mem }
  if r.2 < 0 then e
  else if 0 < r.2 then submit F (e.setLine F F.expanded)
  else submit F e

def enter (e : Editor) : Editor :=
  let e := if 0 < e.lineLen then enterLine F e else e
  { e with mem := Function.update e.mem F.line 0, lineLen := 0, cursor := 0 }

/-- The handlers of backspace and Del, which move the bytes from `src` on to the left by one. -/
def removeAt (e : Editor) (src n cursor : ℕ) : Editor :=
  let m := tmemmove e.mem (src - 1) src n
  let len := e.lineLen - 1
  { e with
    mem := Function.update m (F.line + len) 0
    lineLen := len
    cursor := cursor
    histPos := e.histCount }

/-- The line is replaced by an entry of the history. -/
def recallEntry (e : Editor) : Editor :=
  match tshHistGet F.entries e.hist e.histPos with
  | none => e
  | some p => e.setLine F p

def insertChar (e : Editor) (c : UInt8) : Editor × Draw :=
  if e.cursor = e.lineLen then
    let m := Function.update e.mem (F.line + e.lineLen) c
    let m := Function.update m (F.line + (e.lineLen + 1)) 0
    ({ e with mem := m, lineLen := e.lineLen + 1, cursor := e.cursor + 1, histPos := e.histCount },
      .put c)
  else
    let m := tmemmove e.mem (F.line + e.cursor + 1) (F.line + e.cursor) (e.lineLen - e.cursor + 1)
    let m := Function.update m (F.line + e.cursor) c
    let m := Function.update m (F.line + (e.lineLen + 1)) 0
    ({ e with mem := m, lineLen := e.lineLen + 1, cursor := e.cursor + 1, histPos := e.histCount },
      .redraw)

def backspaceKey (e : Editor) : Editor × Draw :=
  if 0 < e.cursor then
    (removeAt F e (F.line + e.cursor) (e.lineLen - e.cursor + 1) (e.cursor - 1), .redraw)
  else (e, .nothing)

def delKey (e : Editor) : Editor × Draw :=
  if e.cursor < e.lineLen then
    (removeAt F e (F.line + e.cursor + 1) (e.lineLen - e.cursor) e.cursor, .redraw)
  else (e, .nothing)

def leftKey (e : Editor) : Editor × Draw :=
  if 0 < e.cursor then ({ e with cursor := e.cursor - 1 }, .place) else (e, .nothing)

def rightKey (e : Editor) : Editor × Draw :=
  if e.cursor < e.lineLen then ({ e with cursor := e.cursor + 1 }, .place) else (e, .nothing)

def upKey (e : Editor) : Editor × Draw :=
  if 0 < e.histPos then (recallEntry F { e with histPos := e.histPos - 1 }, .redraw)
    else (e, .nothing)

def downKey (e : Editor) : Editor × Draw :=
  if e.histPos < e.histCount then
    let e := { e with histPos := e.histPos + 1 }
    if e.histCount ≤ e.histPos then
      ({ e with mem := Function.update e.mem F.line 0, lineLen := 0, cursor := 0 }, .redraw)
    else (recallEntry F e, .redraw)
  else (e, .nothing)

/-- One key of the input loop. -/
def handleKey (e : Editor) (c : Int8) : Editor × Draw :=
  if c = 10 then (enter F e, .prompt)
  else if c = 8 then backspaceKey F e
  else if c = keyDel then delKey F e
  else if c = keyLeft then leftKey e
  else if c = keyRight then rightKey e
  else if c = keyHome then ({ e with cursor := 0 }, .place)
  else if c = keyEnd then ({ e with cursor := e.lineLen }, .place)
  else if c = keyUp then upKey F e
  else if c = keyDown then downKey F e
  else if 32 ≤ c ∧ e.lineLen < 127 then insertChar F e c.toUInt8
  else (e, .nothing)

/-- The loop starts with an empty line and an empty history. -/
def boot (m : Memory) : Editor := ⟨Function.update m F.line 0, 0, 0, 0, 0⟩

def handleKeys (e : Editor) (keys : List Int8) : Editor :=
  keys.foldl (fun e c => (handleKey F e c).1) e

end Model

/-! ## The reference -/

/-- A text split at the cursor, with the history and a position in it. -/
structure SplitText where
  before : List UInt8
  after : List UInt8
  hist : List Str
  pos : ℕ

namespace SplitText

def empty : SplitText := ⟨[], [], [], 0⟩

def text (r : SplitText) : List UInt8 := r.before ++ r.after

/-- The text is replaced, with the cursor behind it. -/
def replace (r : SplitText) (text : List UInt8) : SplitText :=
  { r with before := text, after := [] }

/-- The text goes to the history. It holds no NUL, as no key has that code. -/
def submit (r : SplitText) : SplitText :=
  if h : (0 : UInt8) ∉ r.text then
    { r with hist := pushLine r.hist ⟨r.text, h⟩, pos := (pushLine r.hist ⟨r.text, h⟩).length }
  else r

/-- A line that refers to an entry of the history stands for it; one that refers to no entry is
dropped. -/
def enterLine (r : SplitText) : SplitText :=
  match (reference r.text).map Reference.wrapped with
  | none => r.submit
  | some ref => (ref.find r.hist).elim r fun line => (r.replace line.1).submit

def enter (r : SplitText) : SplitText := (if r.text = [] then r else r.enterLine).replace []

/-- The entry at the position, and no text behind the last one. -/
def recallEntry (r : SplitText) : SplitText := r.replace (r.hist[r.pos]?.elim [] Subtype.val)

def backspace (r : SplitText) : SplitText :=
  if r.before = [] then r else { r with before := r.before.dropLast, pos := r.hist.length }

def del (r : SplitText) : SplitText :=
  if r.after = [] then r else { r with after := r.after.tail, pos := r.hist.length }

def left (r : SplitText) : SplitText :=
  { r with before := r.before.dropLast, after := r.before.getLast?.toList ++ r.after }

def right (r : SplitText) : SplitText :=
  { r with before := r.before ++ r.after.head?.toList, after := r.after.tail }

def up (r : SplitText) : SplitText := if 0 < r.pos then recallEntry { r with pos := r.pos - 1 }
    else r

def down (r : SplitText) : SplitText :=
  if r.pos < r.hist.length then recallEntry { r with pos := r.pos + 1 } else r

def key (r : SplitText) (c : Int8) : SplitText :=
  if c = 10 then r.enter
  else if c = 8 then r.backspace
  else if c = keyDel then r.del
  else if c = keyLeft then r.left
  else if c = keyRight then r.right
  else if c = keyHome then { r with before := [], after := r.text }
  else if c = keyEnd then { r with before := r.text, after := [] }
  else if c = keyUp then r.up
  else if c = keyDown then r.down
  else if 32 ≤ c ∧ r.text.length < 127 then
    { r with before := r.before ++ [c.toUInt8], pos := r.hist.length }
  else r

def keys (r : SplitText) (keys : List Int8) : SplitText := keys.foldl key r

end SplitText

/-! ## The buffer -/

/-- A byte is put between two parts of a string. -/
lemma holdsStr_insert {p : ℕ} (h0 : (0 : UInt8) ∉ b ++ a) (h : HoldsStr m p ⟨b ++ a, h0⟩)
    (h0' : (0 : UInt8) ∉ b ++ c :: a) :
    HoldsStr (Function.update (tmemmove m (p + b.length + 1) (p + b.length) (a.length + 1))
      (p + b.length) c) p
      ⟨b ++ c :: a, h0'⟩ := by
  have hold (i : ℕ) (hi : i ≤ b.length + a.length) : m (p + i) = (b ++ a).getD i 0 :=
    h i (by rwa [Str.length, List.length_append])
  intro i hi
  have hi' : i ≤ b.length + (a.length + 1) := by simpa [Str.length] using hi
  change _ = (b ++ c :: a).getD i 0
  rw [tmemmove_eq_copy]
  rcases lt_trichotomy i b.length with hlt | rfl | hgt
  · rw [Function.update_of_ne (by omega), copy_of_out m (by omega), hold i (by omega),
      List.getD_append _ _ _ _ hlt, List.getD_append _ _ _ _ hlt]
  · rw [Function.update_self, List.getD_append_right _ _ _ _ le_rfl, Nat.sub_self,
      List.getD_cons_zero]
  · obtain ⟨k, rfl⟩ : ∃ k, i = b.length + (k + 1) := ⟨i - b.length - 1, by omega⟩
    have hback : p + b.length + (p + (b.length + (k + 1)) - (p + b.length + 1)) =
      p + (b.length + k) := by omega
    rw [Function.update_of_ne (by omega), copy_of_in m (by omega) (by omega), hback,
      hold _ (by omega),
      List.getD_append_right _ _ _ _ (by omega), List.getD_append_right _ _ _ _ (by omega),
        Nat.add_sub_cancel_left,
      Nat.add_sub_cancel_left, List.getD_cons_succ]

/-- A byte is put behind a string. -/
lemma holdsStr_concat {p : ℕ} {b : List UInt8} (h0 : (0 : UInt8) ∉ b) (h : HoldsStr m p ⟨b, h0⟩)
    (h0' : (0 : UInt8) ∉ b ++ [c]) :
    HoldsStr (Function.update (Function.update m (p + b.length) c) (p + (b.length + 1)) 0) p ⟨b ++
      [c], h0'⟩ := by
  intro i hi
  have hi' : i ≤ b.length + 1 := by simpa [Str.length] using hi
  change _ = (b ++ [c]).getD i 0
  rcases lt_trichotomy i b.length with hlt | rfl | hgt
  · rw [Function.update_of_ne (by omega), Function.update_of_ne (by omega),
      List.getD_append _ _ _ _ hlt]
    exact h i hlt.le
  · rw [Function.update_of_ne (by omega), Function.update_self,
      List.getD_append_right _ _ _ _ le_rfl, Nat.sub_self, List.getD_cons_zero]
  · obtain rfl : i = b.length + 1 := by omega
    rw [Function.update_self, List.getD_eq_default _ _ (by simp)]

/-- A byte is taken out from between two parts of a string. -/
lemma holdsStr_remove {p : ℕ} (h0 : (0 : UInt8) ∉ b ++ c :: a) (h : HoldsStr m p ⟨b ++ c :: a, h0⟩)
    (h0' : (0 : UInt8) ∉ b ++ a) :
    HoldsStr (tmemmove m (p + b.length) (p + b.length + 1) (a.length + 1)) p ⟨b ++ a, h0'⟩ := by
  have hold (i : ℕ) (hi : i ≤ b.length + (a.length + 1)) : m (p + i) = (b ++ c :: a).getD i 0 :=
    h i (by rwa [Str.length, List.length_append, List.length_cons])
  intro i hi
  have hi' : i ≤ b.length + a.length := by simpa [Str.length] using hi
  change _ = (b ++ a).getD i 0
  rw [tmemmove_eq_copy]
  rcases lt_or_ge i b.length with hlt | hge
  · rw [copy_of_out m (by omega), hold i (by omega), List.getD_append _ _ _ _ hlt,
      List.getD_append _ _ _ _ hlt]
  · obtain ⟨k, rfl⟩ := Nat.exists_eq_add_of_le hge
    have hnext : p + b.length + 1 + (p + (b.length + k) - (p + b.length)) =
      p + (b.length + (k + 1)) := by omega
    rw [copy_of_in m (by omega) (by omega), hnext, hold _ (by omega),
      List.getD_append_right _ _ _ _ (by omega),
      List.getD_append_right _ _ _ _ (by omega), Nat.add_sub_cancel_left, Nat.add_sub_cancel_left,
        List.getD_cons_succ]

/-- The terminator is there already. -/
lemma update_terminator {p : ℕ} {s : Str} (h : HoldsStr m p s) :
    Function.update m (p + s.length) 0 = m := by
  refine Function.update_eq_self_iff.mpr ?_
  exact ((h s.length le_rfl).trans (Str.byte_of_le le_rfl)).symm

/-! ## The editor as a split text -/

/-- The history only depends on its rows. -/
lemma holdsHist_congr {base : ℕ} {h h' : Hist} {l : List Str} (hh : HoldsHist base h l)
    (hcount : h'.count = h.count)
    (hsame : ∀ x, base ≤ x → x < base + tshHistMax * tshHistLen → h'.mem x = h.mem x) :
    HoldsHist base h' l := by
  have hbound := hh.bound
  refine ⟨hcount.trans hh.count, hbound, fun i hi => ?_⟩
  obtain ⟨hstr, hlen⟩ := hh.entry i hi
  refine ⟨hstr.congr fun j hj => hsame _ ?_ ?_, hlen⟩
  · unfold histEntry
    omega
  · unfold histEntry tshHistMax tshHistLen at *
    omega

structure Represents (F : Frame) (e : Editor) (r : SplitText) : Prop where
  plain : (0 : UInt8) ∉ r.text
  text : HoldsStr e.mem F.line ⟨r.text, plain⟩
  short : r.text.length ≤ 127
  lineLen : e.lineLen = r.text.length
  cursor : e.cursor = r.before.length
  hist : HoldsHist F.entries e.hist r.hist
  histPos : e.histPos = r.pos
  pos_le : r.pos ≤ r.hist.length

section Keys
variable {F : Frame} {e : Editor} {r : SplitText}

/-- Only the line and the numbers have changed. -/
lemma Represents.edit (h : Represents F e r) {len cursor pos : ℕ} (hplain : (0 : UInt8) ∉ b ++ a)
    (htext : HoldsStr m F.line ⟨b ++ a, hplain⟩) (hshort : (b ++ a).length ≤ 127)
    (hlen : len = (b ++ a).length) (hcursor : cursor = b.length) (hpos : pos ≤ r.hist.length)
    (hkept : ∀ x, x < F.line ∨ F.line + lineSize ≤ x → m x = e.mem x) :
    Represents F ⟨m, len, cursor, pos, e.histCount⟩ ⟨b, a, r.hist, pos⟩ := by
  refine ⟨hplain, htext, hshort, hlen, hcursor, holdsHist_congr h.hist rfl fun x hlo hhi =>
    hkept x ?_, rfl, hpos⟩
  have hapart := F.line_entries
  omega

/-- The cursor has moved. -/
lemma Represents.move (h : Represents F e r) {cursor : ℕ} (htext : b ++ a = r.text)
    (hcursor : cursor = b.length) :
    Represents F { e with cursor := cursor } { r with before := b, after := a } := by
  have hplain : (0 : UInt8) ∉ b ++ a := htext ▸ h.plain
  have hsame : (⟨b ++ a, hplain⟩ : Str) = ⟨r.text, h.plain⟩ := Subtype.ext htext
  refine ⟨hplain, ?_, ?_, ?_, hcursor, h.hist, h.histPos, h.pos_le⟩
  · change HoldsStr e.mem F.line ⟨b ++ a, hplain⟩
    rw [hsame]
    exact h.text
  · exact (congrArg List.length htext).trans_le h.short
  · exact h.lineLen.trans (congrArg List.length htext).symm

lemma Represents.remove (h : Represents F e r) (htext : b ++ c :: a = r.text) {src n : ℕ}
    (hsrc : src = F.line + b.length + 1) (hn : n = a.length + 1) :
    Represents F (removeAt F e src n b.length)
      { r with before := b, after := a, pos := r.hist.length } := by
  have hfull : (0 : UInt8) ∉ b ++ c :: a := htext ▸ h.plain
  have hsame : (⟨b ++ c :: a, hfull⟩ : Str) = ⟨r.text, h.plain⟩ := Subtype.ext htext
  have hplain : (0 : UInt8) ∉ b ++ a := fun h0 => hfull (by
    rcases List.mem_append.mp h0 with hb | ha
    · exact List.mem_append_left _ hb
    · exact List.mem_append_right _ (List.mem_cons_of_mem c ha))
  have hlength : r.text.length = (b ++ a).length + 1 := by
    rw [← htext, List.length_append, List.length_append, List.length_cons, Nat.add_assoc]
  have hremoved := holdsStr_remove hfull (hsame ▸ h.text) hplain
  have hshort := h.short
  have hcount : e.histCount = r.hist.length := h.hist.count
  have hlen : e.lineLen - 1 = (b ++ a).length := by
    rw [h.lineLen, hlength, Nat.add_sub_cancel]
  have hterminator : Function.update _ (F.line + (b ++ a).length) 0 = _ :=
    update_terminator hremoved
  unfold removeAt
  dsimp only
  rw [hsrc, hn, Nat.add_sub_cancel, hlen, hterminator, ← hcount]
  refine h.edit hplain hremoved (by omega) rfl rfl hcount.le fun x hx => ?_
  rw [List.length_append] at hlength
  rw [tmemmove_eq_copy, copy_of_out]
  unfold lineSize at hx
  omega

/-- The two branches of the insertion leave the same text. -/
lemma insertChar_text (h : Represents F e r) (hplain : (0 : UInt8) ∉ r.before ++ c :: r.after)
    (hroom : r.text.length < 127) :
    ∃ m, (insertChar F e c).1 = ⟨m, e.lineLen + 1, e.cursor + 1, e.histCount, e.histCount⟩ ∧
      HoldsStr m F.line ⟨r.before ++ c :: r.after, hplain⟩ ∧
      ∀ x, x < F.line ∨ F.line + lineSize ≤ x → m x = e.mem x := by
  have hlength : r.text.length = r.before.length + r.after.length := List.length_append
  have hlen := h.lineLen
  have hcursor := h.cursor
  unfold insertChar
  by_cases hend : e.cursor = e.lineLen
  · rw [if_pos hend]
    have hafter : r.after = [] := List.length_eq_zero_iff.mp (by omega)
    have htext : r.text = r.before := by rw [SplitText.text, hafter, List.append_nil]
    have hlen' : e.lineLen = r.before.length := hend ▸ hcursor
    have hbefore : (0 : UInt8) ∉ r.before := htext ▸ h.plain
    have hsame : (⟨r.before, hbefore⟩ : Str) = ⟨r.text, h.plain⟩ := Subtype.ext htext.symm
    refine ⟨_, rfl, ?_, fun x hx => ?_⟩
    · have hjoin : (0 : UInt8) ∉ r.before ++ [c] := by simpa [hafter] using hplain
      have hconcat := holdsStr_concat hbefore (hsame ▸ h.text) hjoin
      simp only [hafter, hlen']
      exact hconcat
    · unfold lineSize at hx
      rw [Function.update_of_ne (by omega), Function.update_of_ne (by omega)]
  · rw [if_neg hend]
    have hinserted := holdsStr_insert h.plain h.text hplain
    have hterminator := update_terminator hinserted
    have hsize : Str.length ⟨r.before ++ c :: r.after, hplain⟩ = e.lineLen + 1 := by
      rw [Str.length, List.length_append, List.length_cons, hlen, hlength, Nat.add_assoc]
    have hmoved : e.lineLen - e.cursor = r.after.length := by omega
    rw [hsize, ← hcursor, ← hmoved] at hterminator
    refine ⟨_, rfl, ?_, fun x hx => ?_⟩
    · rw [hterminator, hmoved, hcursor]
      exact hinserted
    · unfold lineSize at hx
      rw [Function.update_of_ne (by omega), Function.update_of_ne (by omega), tmemmove_eq_copy,
        copy_of_out _ (by omega)]

lemma Represents.insert (h : Represents F e r) (hc : c ≠ 0) (hroom : r.text.length < 127) :
    Represents F (insertChar F e c).1 { r with before := r.before ++ [c], pos := r.hist.length } :=
      by
  have hlength : r.text.length = r.before.length + r.after.length := List.length_append
  have hcount : e.histCount = r.hist.length := h.hist.count
  have hplain : (0 : UInt8) ∉ r.before ++ c :: r.after := fun h0 => h.plain (by
    rcases List.mem_append.mp h0 with hb | ha
    · exact List.mem_append_left _ hb
    · exact List.mem_append_right _ ((List.mem_cons.mp ha).resolve_left hc.symm))
  obtain ⟨m, heq, htext, hkept⟩ := insertChar_text h hplain hroom
  have hjoin : r.before ++ [c] ++ r.after = r.before ++ c :: r.after := by simp
  have hplain' : (0 : UInt8) ∉ r.before ++ [c] ++ r.after := hjoin ▸ hplain
  have hsame : (⟨r.before ++ c :: r.after, hplain⟩ : Str) = ⟨r.before ++ [c] ++ r.after, hplain'⟩ :=
    Subtype.ext hjoin.symm
  have hsize : (r.before ++ [c] ++ r.after).length = r.text.length + 1 := by
    rw [hjoin, List.length_append, List.length_cons, hlength, Nat.add_assoc]
  rw [heq, ← hcount]
  refine h.edit hplain' (hsame ▸ htext) (by omega) ?_ ?_ hcount.le hkept
  · rw [h.lineLen, hsize]
  · rw [h.cursor, List.length_append, List.length_singleton]

/-- A line of the history, or no text, in place of the line. -/
lemma Represents.setLine (h : Represents F e r) {p : ℕ} {s : Str} (hs : HoldsStr e.mem p s)
    (hlen : s.length < lineSize) : Represents F (e.setLine F p) (r.replace s.1) := by
  have hread : readStr e.mem p lineSize = s.1 := readStr_eq hs hlen.le
  have hcopied : HoldsStr (tstrncpy e.mem F.line s.1 lineSize) F.line s :=
    tstrncpy_holdsStr _ _ hlen
  have hnil : s.1 ++ [] = s.1 := List.append_nil s.1
  have hplain : (0 : UInt8) ∉ s.1 ++ [] := hnil.symm ▸ s.2
  have hsame : s = ⟨s.1 ++ [], hplain⟩ := Subtype.ext hnil.symm
  unfold Editor.setLine SplitText.replace
  dsimp only
  rw [hread, readStr_eq hcopied hlen.le, h.histPos]
  refine h.edit hplain (hsame ▸ hcopied) ?_ ?_ rfl h.pos_le fun x hx => tstrncpy_of_out hx
  · rw [hnil]
    exact Nat.le_of_lt_succ hlen
  · rw [hnil]

lemma Represents.clearLine (h : Represents F e r) :
    Represents F { e with mem := Function.update e.mem F.line 0, lineLen := 0, cursor := 0 }
      (r.replace []) := by
  rw [h.histPos]
  refine h.edit List.not_mem_nil (fun i hi => ?_) (Nat.zero_le _) rfl rfl h.pos_le fun x hx => ?_
  · obtain rfl : i = 0 := Nat.le_zero.mp hi
    exact Function.update_self ..
  · unfold lineSize at hx
    exact Function.update_of_ne (by omega) _ _

lemma Represents.setPos (h : Represents F e r) {pos : ℕ} (hpos : pos ≤ r.hist.length) :
    Represents F { e with histPos := pos } { r with pos := pos } :=
  ⟨h.plain, h.text, h.short, h.lineLen, h.cursor, h.hist, rfl, hpos⟩

lemma Represents.recallEntry (h : Represents F e r) (hlt : r.pos < r.hist.length) :
    Represents F (recallEntry F e) r.recallEntry := by
  obtain ⟨p, hget, hstr⟩ := h.hist.get hlt
  have hentry : r.hist[r.pos]?.elim [] Subtype.val = r.hist[r.pos].1 := by
    rw [List.getElem?_eq_getElem hlt]; rfl
  unfold Ternel.recallEntry SplitText.recallEntry
  rw [h.histPos, hget, hentry]
  exact h.setLine hstr (h.hist.entry _ hlt).2

/-- A write to neither the line nor the history. -/
lemma Represents.elsewhere (h : Represents F e r)
    (hline : ∀ x, F.line ≤ x → x < F.line + lineSize → m x = e.mem x)
    (hentries : ∀ x, F.entries ≤ x → x < F.entries + tshHistMax * tshHistLen → m x = e.mem x) :
    Represents F { e with mem := m } r := by
  have hshort := h.short
  refine ⟨h.plain, h.text.congr fun i hi => hline _ (Nat.le_add_right _ _) ?_, h.short, h.lineLen,
    h.cursor, holdsHist_congr h.hist rfl hentries, h.histPos, h.pos_le⟩
  have hi' : i ≤ r.text.length := hi
  unfold lineSize
  omega

/-- A push writes to the table only. -/
lemma tshHistPush_of_out {base x : ℕ} {h : Hist} (line : Str)
    (hx : x < base ∨ base + tshHistMax * tshHistLen ≤ x) :
    (tshHistPush base h line).1.mem x = h.mem x := by
  unfold tshHistPush
  split_ifs with hrep hroom
  · rfl
  · refine tstrncpy_of_out ?_
    unfold histEntry tshHistMax tshHistLen at *
    omega
  · unfold histEntry tshHistMax tshHistLen at *
    dsimp only
    rw [tstrncpy_of_out (by omega), tmemmove_eq_copy, copy_of_out _ (by omega)]

lemma Represents.submit (h : Represents F e r) : Represents F (submit F e) r.submit := by
  have hline : strAt e.mem F.line lineSize = ⟨r.text, h.plain⟩ :=
    strAt_eq h.text (h.short.trans (by decide))
  have hpush :=
    (h.hist.push (show Str.length ⟨r.text, h.plain⟩ < tshHistLen from Nat.lt_succ_of_le h.short)).1
  unfold Ternel.submit SplitText.submit
  rw [hline, dif_pos h.plain]
  refine ⟨h.plain, h.text.congr fun i hi => tshHistPush_of_out _ ?_, h.short, h.lineLen, h.cursor,
    hpush, hpush.count, le_rfl⟩
  have hi' : i ≤ r.text.length := hi
  have hshort := h.short
  have hapart := F.line_entries
  unfold lineSize at hapart
  omega

lemma find_mem {l : List Str} {ref : Tsh.Reference} {s : Str} (h : ref.find l = some s) : s ∈
    l := by
  cases ref with
  | last => exact List.mem_of_getLast? h
  | number n => exact List.mem_of_getElem? h

lemma Represents.enterLine (h : Represents F e r) : Represents F (enterLine F e) r.enterLine := by
  have hline : strAt e.mem F.line lineSize = ⟨r.text, h.plain⟩ :=
    strAt_eq h.text (h.short.trans (by decide))
  have hexpand := h.hist.expand F.expanded tshHistLen ⟨r.text, h.plain⟩ rfl
  unfold Ternel.enterLine SplitText.enterLine
  rw [hline]
  generalize tshHistExpand F.entries e.hist ⟨r.text, h.plain⟩ F.expanded tshHistLen = x at hexpand
  dsimp only
  cases href : (reference r.text).map Reference.wrapped with
  | none =>
    rw [href] at hexpand
    obtain ⟨hmem, hres⟩ := Prod.mk.inj hexpand
    rw [hmem, hres]
    exact h.submit
  | some ref =>
    rw [href] at hexpand
    cases hfind : ref.find r.hist with
    | none =>
      rw [expandTo_missing hfind] at hexpand
      obtain ⟨hmem, hres⟩ := Prod.mk.inj hexpand
      rw [hmem, hres, if_pos (by decide)]
      dsimp only
      rw [hfind]
      exact h
    | some s =>
      rw [expandTo_found hfind] at hexpand
      obtain ⟨hmem, hres⟩ := Prod.mk.inj hexpand
      rw [hmem, hres, if_neg (by decide), if_pos (by decide)]
      dsimp only
      rw [hfind]
      obtain ⟨i, hi, rfl⟩ := List.getElem_of_mem (find_mem hfind)
      have hlen := (h.hist.entry i hi).2
      have hcopied : HoldsStr (tstrncpy e.mem F.expanded r.hist[i].1 tshHistLen)
        F.expanded r.hist[i] :=
        tstrncpy_holdsStr _ _ hlen
      have hkept : Represents F { e with mem := tstrncpy e.mem F.expanded r.hist[i].1 tshHistLen }
        r := by
        have hapart := F.line_expanded
        have hapart' := F.expanded_entries
        exact h.elsewhere (fun x hlo hhi => tstrncpy_of_out (by omega)) fun x hlo hhi =>
          tstrncpy_of_out (by omega)
      exact (hkept.setLine hcopied hlen).submit

lemma Represents.enter (h : Represents F e r) : Represents F (enter F e) r.enter := by
  have hinner : Represents F (if 0 < e.lineLen then Ternel.enterLine F e else e)
      (if r.text = [] then r else r.enterLine) := by
    by_cases hnil : r.text = []
    · rw [if_pos hnil, if_neg (by rw [h.lineLen, hnil]; exact Nat.lt_irrefl 0)]
      exact h
    · rw [if_neg hnil, if_pos (by rw [h.lineLen]; exact List.length_pos_iff.mpr hnil)]
      exact h.enterLine
  exact hinner.clearLine

lemma Represents.backspace (h : Represents F e r) : Represents F (backspaceKey F e).1 r.backspace :=
  by
  have hcursor := h.cursor
  unfold backspaceKey SplitText.backspace
  rcases List.eq_nil_or_concat' r.before with hnil | ⟨b, x, hb⟩
  · rw [hnil] at hcursor
    rw [if_pos hnil, if_neg (by rw [hcursor]; exact Nat.lt_irrefl 0)]
    exact h
  · have htext : b ++ x :: r.after = r.text := by
      rw [SplitText.text, hb, List.append_assoc, List.singleton_append]
    rw [hb, List.length_append, List.length_singleton] at hcursor
    have hmoved : e.lineLen - e.cursor + 1 = r.after.length + 1 := by
      rw [h.lineLen, ← htext, List.length_append, List.length_cons]
      omega
    rw [if_pos (by omega), if_neg (by rw [hb]; simp), hmoved, hcursor, hb, List.dropLast_concat,
      Nat.add_sub_cancel]
    exact h.remove htext rfl rfl

lemma lineLen_sub_cursor (h : Represents F e r) : e.lineLen = e.cursor + r.after.length := by
  rw [h.lineLen, h.cursor, SplitText.text, List.length_append]

lemma Represents.del (h : Represents F e r) : Represents F (delKey F e).1 r.del := by
  have hlen := lineLen_sub_cursor h
  unfold delKey SplitText.del
  cases hafter : r.after with
  | nil =>
    rw [hafter, List.length_nil] at hlen
    rw [if_pos rfl, if_neg (by omega)]
    exact h
  | cons x a =>
    rw [hafter, List.length_cons] at hlen
    have htext : r.before ++ x :: a = r.text := by rw [SplitText.text, hafter]
    rw [if_neg (List.cons_ne_nil x a), if_pos (by omega), h.cursor, List.tail_cons]
    exact h.remove htext rfl (by rw [← h.cursor]; omega)

lemma Represents.left (h : Represents F e r) : Represents F (leftKey e).1 r.left := by
  have hcursor := h.cursor
  unfold leftKey SplitText.left
  rcases List.eq_nil_or_concat' r.before with hnil | ⟨b, x, hb⟩
  · rw [hnil] at hcursor
    rw [if_neg (by rw [hcursor]; exact Nat.lt_irrefl 0), hnil]
    exact h.move (by rw [SplitText.text, hnil]; rfl) hcursor
  · rw [hb, List.length_append, List.length_singleton] at hcursor
    rw [if_pos (by omega), hb, List.dropLast_concat, List.getLast?_concat]
    exact h.move (by simp [SplitText.text, hb]) (by omega)

lemma Represents.right (h : Represents F e r) : Represents F (rightKey e).1 r.right := by
  have hlen := lineLen_sub_cursor h
  unfold rightKey SplitText.right
  cases hafter : r.after with
  | nil =>
    rw [hafter, List.length_nil] at hlen
    rw [if_neg (by omega)]
    exact h.move (by simp [SplitText.text, hafter]) (by simp [h.cursor])
  | cons x a =>
    rw [hafter, List.length_cons] at hlen
    rw [if_pos (by omega)]
    exact h.move (by simp [SplitText.text, hafter]) (by simp [h.cursor])

lemma Represents.up (h : Represents F e r) : Represents F (upKey F e).1 r.up := by
  have hle := h.pos_le
  unfold upKey SplitText.up
  rw [h.histPos]
  by_cases hpos : 0 < r.pos
  · rw [if_pos hpos, if_pos hpos]
    exact (h.setPos (by omega)).recallEntry (by dsimp only; omega)
  · rw [if_neg hpos, if_neg hpos]
    exact h

lemma Represents.down (h : Represents F e r) : Represents F (downKey F e).1 r.down := by
  have hcount : e.histCount = r.hist.length := h.hist.count
  unfold downKey SplitText.down
  dsimp only
  rw [h.histPos, hcount]
  by_cases hpos : r.pos < r.hist.length
  · have hset := h.setPos hpos
    rw [if_pos hpos, if_pos hpos]
    by_cases hlast : r.hist.length ≤ r.pos + 1
    · rw [if_pos hlast, SplitText.recallEntry, List.getElem?_eq_none hlast, ← hcount]
      exact hset.clearLine
    · rw [if_neg hlast, ← hcount]
      exact hset.recallEntry (not_le.mp hlast)
  · rw [if_neg hpos, if_neg hpos]
    exact h

/-- The code of a printable character is not NUL. -/
lemma toUInt8_ne_zero {c : Int8} (h : 32 ≤ c) : c.toUInt8 ≠ 0 := by
  intro h0
  obtain ⟨b⟩ := c
  obtain rfl : b = 0 := h0
  exact absurd h (by decide)

lemma represents_ite {p : Prop} [Decidable p] {x y : Editor × Draw} {t u : SplitText}
    (ht : p → Represents F x.1 t) (hu : ¬ p → Represents F y.1 u) :
    Represents F (if p then x else y).1 (if p then t else u) := by
  by_cases hp : p
  · rw [if_pos hp, if_pos hp]
    exact ht hp
  · rw [if_neg hp, if_neg hp]
    exact hu hp

/-- One key keeps the editor in step with the text. -/
theorem Represents.key (h : Represents F e r)
    (c : Int8) : Represents F (handleKey F e c).1 (r.key c) := by
  unfold handleKey SplitText.key
  refine represents_ite (fun _ => h.enter) fun _ => ?_
  refine represents_ite (fun _ => h.backspace) fun _ => ?_
  refine represents_ite (fun _ => h.del) fun _ => ?_
  refine represents_ite (fun _ => h.left) fun _ => ?_
  refine represents_ite (fun _ => h.right) fun _ => ?_
  refine represents_ite (fun _ => h.move (List.nil_append _) List.length_nil.symm) fun _ => ?_
  refine represents_ite (fun _ => h.move (List.append_nil _) h.lineLen) fun _ => ?_
  refine represents_ite (fun _ => h.up) fun _ => ?_
  refine represents_ite (fun _ => h.down) fun _ => ?_
  rw [h.lineLen]
  exact represents_ite (fun hc => h.insert (toUInt8_ne_zero hc.1) hc.2) fun _ => h

lemma Represents.keys (keys : List Int8) (h : Represents F e r) : Represents F (handleKeys F e keys)
    (r.keys keys) := by
  induction keys generalizing e r with
  | nil => exact h
  | cons c keys ih => exact ih (h.key c)

end Keys

lemma represents_boot (F : Frame) (m : Memory) : Represents F (boot F m) .empty := by
  refine ⟨List.not_mem_nil, fun i hi => ?_, Nat.zero_le _, rfl, rfl, ?_, rfl, le_rfl⟩
  · obtain rfl : i = 0 := Nat.le_zero.mp hi
    exact Function.update_self ..
  · exact holdsHist_clear F.entries ⟨_, 0⟩

/-- After any keys, the cursor is in the line, the line in its buffer, the position in the history,
and line, cursor and history are those of the split text. -/
theorem handleKeys_refines (F : Frame) (m : Memory) (keys : List Int8) :
    (handleKeys F (boot F m) keys).cursor ≤ (handleKeys F (boot F m) keys).lineLen ∧
      (handleKeys F (boot F m) keys).lineLen ≤ 127 ∧
      (handleKeys F (boot F m) keys).mem (F.line + (handleKeys F (boot F m) keys).lineLen) = 0 ∧
      (∀ i < (handleKeys F (boot F m) keys).lineLen, (handleKeys F (boot F m) keys).mem (F.line +
        i) ≠ 0) ∧
      (handleKeys F (boot F m) keys).histPos ≤ tshHistCount (handleKeys F (boot F m) keys).hist ∧
      readStr (handleKeys F (boot F m) keys).mem F.line lineSize =
        (SplitText.empty.keys keys).before ++ (SplitText.empty.keys keys).after ∧
      (handleKeys F (boot F m) keys).cursor = (SplitText.empty.keys keys).before.length ∧
      HoldsHist F.entries (handleKeys F (boot F m) keys).hist (SplitText.empty.keys keys).hist ∧
      (handleKeys F (boot F m) keys).histPos = (SplitText.empty.keys keys).pos := by
  have h := (represents_boot F m).keys keys
  have hlen := h.lineLen
  refine ⟨?_, hlen ▸ h.short, ?_, fun i hi => ?_, ?_, ?_, h.cursor, h.hist, h.histPos⟩
  · rw [lineLen_sub_cursor h]
    exact Nat.le_add_right _ _
  · rw [hlen]
    exact (h.text _ le_rfl).trans (Str.byte_of_le le_rfl)
  · rw [hlen] at hi
    rw [h.text i hi.le]
    exact Str.byte_ne_zero hi
  · rw [h.histPos]
    exact h.pos_le.trans h.hist.count.ge
  · exact readStr_eq h.text (h.short.trans (by decide))

end TraitOS.Ternel
