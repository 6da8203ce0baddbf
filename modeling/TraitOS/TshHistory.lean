import TraitOS.Tstring
import Mathlib.Data.List.Destutter
import Mathlib.Data.List.DropRight

/-!
# The command history

A table of 32 rows of 128 bytes. A line that equals the last entry is dropped; a line for a full
table moves all rows up by one, in one overlapping block move. The table is the end of the list
of all lines without repetitions. A reference to an entry by its number goes through a machine
integer, so numerals of different value can refer to the same entry.
-/
namespace TraitOS.Tsh
open ByteMemory CString Tstring

variable {l : List Str}

def tshHistMax : ℕ := 32
def tshHistLen : ℕ := 128

structure Hist where
  mem : Memory
  /-- `hist_count` -/
  count : ℕ

/-- The address of `hist_entries[i]`, where `base` is that of the array. -/
def histEntry (base i : ℕ) : ℕ := base + i * tshHistLen

section Model
variable (base : ℕ)

/-- The new table and the result. -/
def tshHistPush (h : Hist) (line : Str) : Hist × ℕ :=
  if 0 < h.count ∧ tstrcmp h.mem (histEntry base (h.count - 1)) line.1 = 0 then (h, 0)
  else if h.count < tshHistMax then
    (⟨tstrncpy h.mem (histEntry base h.count) line.1 tshHistLen, h.count + 1⟩, 1)
  else
    let m := tmemmove h.mem (histEntry base 0) (histEntry base 1) ((tshHistMax - 1) * tshHistLen)
    (⟨tstrncpy m (histEntry base (tshHistMax - 1)) line.1 tshHistLen, h.count⟩, 1)

def tshHistCount (h : Hist) : ℕ := h.count

/-- The address of the entry. -/
def tshHistGet (h : Hist) (i : ℤ) : Option ℕ :=
  if i < 0 ∨ h.count ≤ i then none else some (histEntry base i.toNat)

def tshHistClear (h : Hist) : Hist := { h with count := 0 }

/-- Calls of `tsh_hist_push` one after the other. -/
def pushAll (h : Hist) (lines : List Str) : Hist :=
  lines.foldl (fun h line => (tshHistPush base h line).1) h

/-- A word read as a C `int`. -/
def asInt (v : ℕ) : ℤ := if v < 2 ^ 31 then v else v - 2 ^ 32

def isDigit (c : UInt8) : Bool := 48 ≤ c ∧ c ≤ 57

/-- The loop of `parse_num`, with the rest of the string behind the digits. -/
def parseLoop : ℕ → List UInt8 → ℕ × List UInt8
  | v, [] => (v, [])
  | v, c :: s => if isDigit c then parseLoop ((v * 10 + (c.toNat - 48)) % 2 ^ 32) s else (v, c :: s)

def parseNum (s : List UInt8) : Option ℤ :=
  if s = [] then none
  else if (parseLoop 0 s).2 ≠ [] then none
  else some (asInt (parseLoop 0 s).1)

/-- `tstrncpy(out, hist_entries[i], outsz)` -/
def copyEntry (h : Hist) (i out outsz : ℕ) : Hist :=
  { h with mem := tstrncpy h.mem out (readStr h.mem (histEntry base i) outsz) outsz }

/-- The memory with `out` and the result. -/
def tshHistExpand (h : Hist) (line : Str) (out outsz : ℕ) : Hist × ℤ :=
  if line.byte 0 ≠ 33 then (h, 0)
  else if line.1.tail = [33] then
    if h.count = 0 then (h, -1) else (copyEntry base h (h.count - 1) out outsz, 1)
  else
    match parseNum line.1.tail with
    | none => (h, 0)
    | some idx => if idx < 0 ∨ h.count ≤ idx then (h, -1)
      else (copyEntry base h idx.toNat out outsz, 1)

end Model

/-! ## The table as a list of lines -/

/-- The rows hold these lines. -/
structure HoldsHist (base : ℕ) (h : Hist) (l : List Str) : Prop where
  count : h.count = l.length
  bound : l.length ≤ tshHistMax
  entry : ∀ (i : ℕ) (hi : i < l.length), HoldsStr h.mem (histEntry base i) l[i] ∧
    l[i].length < tshHistLen

/-- A line pushed to a list of lines. -/
def pushLine (l : List Str) (line : Str) : List Str :=
  if l.getLast? = some line then l else (l ++ [line]).rtake tshHistMax

section Rows
variable {base : ℕ} {h : Hist} {l : List Str} {line : Str}

lemma holdsHist_clear (base : ℕ) (h : Hist) : HoldsHist base (tshHistClear h) [] :=
  ⟨rfl, Nat.zero_le _, fun _ hi => absurd hi (Nat.not_lt_zero _)⟩

/-- The test of the last row. -/
lemma HoldsHist.repeated_iff (hh : HoldsHist base h l) (line : Str) :
    (0 < h.count ∧ tstrcmp h.mem (histEntry base (h.count - 1)) line.1 = 0) ↔
      l.getLast? = some line := by
  rw [hh.count, tstrcmp_eq_zero_iff]
  rcases Nat.eq_zero_or_pos l.length with hzero | hpos
  · simp [List.length_eq_zero_iff.mp hzero]
  · have hlast := (hh.entry (l.length - 1) (by omega)).1
    rw [List.getLast?_eq_getElem?, List.getElem?_eq_getElem (by omega), Option.some.injEq]
    exact ⟨fun h => hlast.unique h.2, fun heq => ⟨hpos, heq ▸ hlast⟩⟩

/-- A line in the row behind the last one. -/
lemma HoldsHist.append (hh : HoldsHist base h l) (hlt : l.length < tshHistMax)
    (hline : line.length < tshHistLen) :
    HoldsHist base ⟨tstrncpy h.mem (histEntry base h.count) line.1 tshHistLen, h.count + 1⟩
      (l ++ [line]) := by
  refine ⟨?_, ?_, fun i hi => ?_⟩
  · rw [List.length_append, hh.count, List.length_singleton]
  · rw [List.length_append, List.length_singleton]
    exact hlt
  · dsimp only
    rw [hh.count]
    rw [List.length_append, List.length_singleton] at hi
    rcases Nat.lt_succ_iff_lt_or_eq.mp hi with hold | rfl
    · rw [List.getElem_append_left hold]
      obtain ⟨hstr, hlen⟩ := hh.entry i hold
      refine ⟨hstr.congr fun j hj => tstrncpy_of_out ?_, hlen⟩
      unfold histEntry tshHistLen at *
      omega
    · rw [List.getElem_concat_length rfl]
      exact ⟨tstrncpy_holdsStr _ _ hline, hline⟩

/-- The block move lifts every row by one. -/
lemma tmemmove_row (m : Memory) {base i j : ℕ} (hi : i + 1 < tshHistMax) (hj : j < tshHistLen) :
    tmemmove m (histEntry base 0) (histEntry base 1) ((tshHistMax - 1) * tshHistLen)
      (histEntry base i + j) = m (histEntry base (i + 1) + j) := by
  unfold histEntry tshHistMax tshHistLen at *
  rw [tmemmove_eq_copy, copy_of_in m (by omega) (by omega)]
  congr 1
  omega

/-- A line for a full table. -/
lemma HoldsHist.shift (hh : HoldsHist base h l) (hfull : l.length = tshHistMax)
    (hline : line.length < tshHistLen) :
    HoldsHist base ⟨tstrncpy (tmemmove h.mem (histEntry base 0) (histEntry base 1)
      ((tshHistMax - 1) * tshHistLen))
      (histEntry base (tshHistMax - 1)) line.1 tshHistLen, h.count⟩ (l.tail ++ [line]) := by
  have hlength : (l.tail ++ [line]).length = tshHistMax := by
    rw [List.length_append, List.length_tail, hfull]
    rfl
  refine ⟨by rw [hlength, hh.count, hfull], hlength.le, fun i hi => ?_⟩
  dsimp only
  by_cases hold : i < l.tail.length
  · rw [List.getElem_append_left hold, List.getElem_tail]
    rw [List.length_tail, hfull] at hold
    obtain ⟨hstr, hlen⟩ := hh.entry (i + 1) (by omega)
    refine ⟨fun j hj => ?_, hlen⟩
    have hj' : j < tshHistLen := by omega
    have hout : histEntry base i + j < histEntry base (tshHistMax - 1) := by
      unfold histEntry tshHistLen tshHistMax at *
      omega
    rw [tstrncpy_of_out (Or.inl hout), tmemmove_row h.mem (by omega) hj']
    exact hstr j hj
  · obtain rfl : i = tshHistMax - 1 := by
      rw [List.length_tail, hfull] at hold
      omega
    have hlast : (l.tail ++ [line])[tshHistMax - 1] = line := by
      rw [List.getElem_append_right (by rw [List.length_tail, hfull])]
      simp
    rw [hlast]
    exact ⟨tstrncpy_holdsStr _ _ hline, hline⟩

/-- One push, and when it returns 0. -/
lemma HoldsHist.push (hh : HoldsHist base h l) (hline : line.length < tshHistLen) :
    HoldsHist base (tshHistPush base h line).1 (pushLine l line) ∧
      ((tshHistPush base h line).2 = 0 ↔ l.getLast? = some line) := by
  unfold tshHistPush pushLine
  by_cases hrep : l.getLast? = some line
  · rw [if_pos ((hh.repeated_iff line).mpr hrep), if_pos hrep]
    exact ⟨hh, iff_of_true rfl hrep⟩
  · rw [if_neg (mt (hh.repeated_iff line).mp hrep), if_neg hrep]
    by_cases hroom : h.count < tshHistMax
    · have hlt : l.length < tshHistMax := hh.count ▸ hroom
      have hall : (l ++ [line]).rtake tshHistMax = l ++ [line] := by
        rw [List.rtake, List.length_append, List.length_singleton, Nat.sub_eq_zero_of_le hlt,
          List.drop_zero]
      rw [if_pos hroom, hall]
      exact ⟨hh.append hlt hline, iff_of_false Nat.one_ne_zero hrep⟩
    · have hfull : l.length = tshHistMax := le_antisymm hh.bound (hh.count ▸ not_lt.mp hroom)
      have hwindow : (l ++ [line]).rtake tshHistMax = l.tail ++ [line] := by
        rw [List.rtake, List.length_append, List.length_singleton, hfull, Nat.add_sub_cancel_left,
          List.drop_append_of_le_length (by rw [hfull]; decide), List.drop_one]
      rw [if_neg hroom, hwindow]
      exact ⟨hh.shift hfull hline, iff_of_false Nat.one_ne_zero hrep⟩

end Rows

/-! ## The end of the list of all lines -/

lemma destutter'_concat {α : Type*} [DecidableEq α] (a : α) (l : List α) (x : α) :
    (l ++ [x]).destutter' (· ≠ ·) a =
      if (l.destutter' (· ≠ ·) a).getLast? = some x then l.destutter' (· ≠ ·) a
      else l.destutter' (· ≠ ·) a ++ [x] := by
  induction l generalizing a with
  | nil =>
    by_cases hax : a = x
    · simp [hax]
    · simp [hax]
  | cons b l ih =>
    by_cases hab : a = b
    · simp only [List.cons_append, List.destutter', hab, ne_eq, not_true_eq_false, if_false]
      exact ih b
    · have hne : l.destutter' (· ≠ ·) b ≠ [] := List.destutter'_ne_nil l _
      simp only [List.cons_append, List.destutter', hab, ne_eq, not_false_eq_true, if_true, ih b,
        List.getLast?_cons_of_ne_nil hne]
      split_ifs <;> rfl

/-- One more element is kept unless it repeats the last one kept. -/
lemma destutter_concat {α : Type*} [DecidableEq α] (l : List α) (x : α) :
    (l ++ [x]).destutter (· ≠ ·) =
      if (l.destutter (· ≠ ·)).getLast? = some x then l.destutter (· ≠ ·) else l.destutter
        (· ≠ ·) ++ [x] := by
  cases l with
  | nil => simp
  | cons a l => exact destutter'_concat a l x

lemma getLast?_rtake {α : Type*} (l : List α) {n : ℕ} (hn : 0 < n) : (l.rtake n).getLast? =
    l.getLast? := by
  unfold List.rtake
  cases l with
  | nil => simp
  | cons a l => rw [List.getLast?_drop, if_neg (by rw [List.length_cons]; omega)]

lemma rtake_concat_rtake {α : Type*} (l : List α) (x : α) (n : ℕ) : (l.rtake n ++ [x]).rtake n =
    (l ++ [x]).rtake n := by
  cases n with
  | zero => simp
  | succ n =>
    rw [List.rtake_concat_succ, List.rtake_concat_succ]
    congr 1
    simp only [List.rtake_eq_reverse_take_reverse, List.reverse_reverse, List.take_take]
    congr 2
    omega

/-- The last 32 lines, without those that repeat the line before. -/
def lastLines (lines : List Str) : List Str := (lines.destutter (· ≠ ·)).rtake tshHistMax

lemma lastLines_concat (lines : List Str) (line : Str) :
    lastLines (lines ++ [line]) = pushLine (lastLines lines) line := by
  unfold lastLines pushLine
  rw [destutter_concat, getLast?_rtake _ (by decide), rtake_concat_rtake]
  split_ifs <;> rfl

lemma holdsHist_pushAll (base : ℕ) (h : Hist) (lines : List Str)
    (hlines : ∀ line ∈ lines, line.length < tshHistLen) :
    HoldsHist base (pushAll base (tshHistClear h) lines) (lastLines lines) := by
  induction lines using List.reverseRecOn with
  | nil => exact holdsHist_clear base h
  | append_singleton lines line ih =>
    have hbefore := ih fun x hx => hlines x (List.mem_append_left _ hx)
    have hpush :=
      (hbefore.push (hlines line (List.mem_append_right _ (List.mem_singleton_self line)))).1
    rw [lastLines_concat, pushAll, List.foldl_append]
    exact hpush

lemma HoldsHist.get {base : ℕ} {h : Hist} (hh : HoldsHist base h l) {i : ℕ} (hi : i < l.length) :
    ∃ p, tshHistGet base h i = some p ∧ HoldsStr h.mem p l[i] := by
  refine ⟨histEntry base i, ?_, (hh.entry i hi).1⟩
  have hin : ¬ ((i : ℤ) < 0 ∨ (h.count : ℤ) ≤ i) := by
    rw [hh.count]
    omega
  rw [tshHistGet, if_neg hin, Int.toNat_natCast]

/-- After any lines that fit, the history is the last 32 of them without repetitions, and a
further push returns 0 exactly if it repeats the last entry. -/
theorem tshHistPush_lastLines (base : ℕ) (h : Hist) (lines : List Str) (line : Str)
    (hlines : ∀ x ∈ lines, x.length ≤ 127) (hline : line.length ≤ 127) :
    tshHistCount (pushAll base (tshHistClear h) lines) = (lastLines lines).length ∧
      (∀ (i : ℕ) (hi : i < (lastLines lines).length), ∃ p,
        tshHistGet base (pushAll base (tshHistClear h) lines) i = some p ∧
          HoldsStr (pushAll base (tshHistClear h) lines).mem p (lastLines lines)[i]) ∧
      (∀ i : ℤ, i < 0 ∨ (lastLines lines).length ≤ i →
        tshHistGet base (pushAll base (tshHistClear h) lines) i = none) ∧
      ((tshHistPush base (pushAll base (tshHistClear h) lines) line).2 = 0 ↔
        (lastLines lines).getLast? = some line) := by
  have hh := holdsHist_pushAll base h lines fun x hx => Nat.lt_succ_of_le (hlines x hx)
  refine ⟨hh.count, fun i hi => hh.get hi, fun i hi => ?_, (hh.push (Nat.lt_succ_of_le hline)).2⟩
  rw [tshHistGet, hh.count, if_pos hi]

/-- A line of one byte. -/
def oneByte (c : UInt8) (hc : c ≠ 0) : Str := ⟨[c], by simpa using hc.symm⟩

/-- Three pushes, the second of them a repetition. -/
theorem tshHistPush_lastLines_three :
    (tshHistPush 0 (pushAll 0 (tshHistClear ⟨fun _ => 0, 7⟩) [oneByte 97 (by decide),
      oneByte 97 (by decide)]) (oneByte 98 (by decide))).2 ≠ 0 := by
  refine mt (tshHistPush_lastLines 0 ⟨fun _ => 0, 7⟩ [oneByte 97 (by decide),
    oneByte 97 (by decide)] (oneByte 98 (by decide)) ?_ (by decide)).2.2.2.mp ?_
  · decide
  · decide

/-! ## References -/

/-- What a line refers to. -/
inductive Reference where
  | last
  | number (n : ℕ)
deriving DecidableEq

/-- The value of a string of digits. -/
def decimal (s : List UInt8) : ℕ := s.foldl (fun v c => v * 10 + (c.toNat - 48)) 0

/-- `!!`, or `!` with digits behind it. -/
def reference : List UInt8 → Option Reference
  | [] => none
  | c :: s =>
    if c ≠ 33 then none
    else if s = [33] then some .last
    else if s ≠ [] ∧ s.all isDigit then some (.number (decimal s))
    else none

/-- The entry a reference names. -/
def Reference.find (l : List Str) : Reference → Option Str
  | .last => l.getLast?
  | .number n => l[n]?

lemma find_number_of_lt {n : ℕ} (h : n < l.length) : (Reference.number n).find l = some l[n] :=
  List.getElem?_eq_getElem h

lemma find_number_of_le {n : ℕ} (h : l.length ≤ n) : (Reference.number n).find l = none :=
  List.getElem?_eq_none h

/-- What is done with a reference: the memory and the result. -/
def expandTo (m : Memory) (l : List Str) (out outsz : ℕ) : Option Reference → Memory × ℤ
  | none => (m, 0)
  | some r =>
    match r.find l with
    | none => (m, -1)
    | some e => (tstrncpy m out e.1 outsz, 1)

lemma expandTo_found {m : Memory} {out outsz : ℕ} {r : Reference} {e : Str}
    (h : r.find l = some e) : expandTo m l out outsz (some r) = (tstrncpy m out e.1 outsz, 1) := by
  simp only [expandTo, h]

lemma expandTo_missing {m : Memory} {out outsz : ℕ} {r : Reference} (h : r.find l = none) :
    expandTo m l out outsz (some r) = (m, -1) := by
  simp only [expandTo, h]

/-- The reference that is followed: the number is kept in a word. -/
def Reference.wrapped : Reference → Reference
  | .last => .last
  | .number n => .number (n % 2 ^ 32)

/-- The loop computes the value modulo the word size. -/
lemma parseLoop_digits {s : List UInt8} (hs : s.all isDigit = true) {v w : ℕ}
    (hv : v = w % 2 ^ 32) :
    parseLoop v s = (s.foldl (fun v c => v * 10 + (c.toNat - 48)) w % 2 ^ 32, []) := by
  induction s generalizing v w with
  | nil => rw [parseLoop, hv]; rfl
  | cons c s ih =>
    rw [List.all_cons, Bool.and_eq_true] at hs
    rw [parseLoop, if_pos hs.1, List.foldl_cons]
    exact ih hs.2 (by omega)

/-- A byte that is no digit stops the loop. -/
lemma parseLoop_rest (s : List UInt8) (v : ℕ) : (parseLoop v s).2 = [] ↔ s.all isDigit = true := by
  induction s generalizing v with
  | nil => simp [parseLoop]
  | cons c s ih =>
    rw [parseLoop, List.all_cons, Bool.and_eq_true]
    by_cases hc : isDigit c = true
    · rw [if_pos hc, ih]
      exact (and_iff_right hc).symm
    · rw [if_neg hc]
      exact iff_of_false (List.cons_ne_nil c s) fun h => hc h.1

lemma parseNum_eq (s : List UInt8) :
    parseNum s = if s ≠ [] ∧ s.all isDigit = true then some (asInt (decimal s % 2 ^ 32))
      else none := by
  unfold parseNum
  by_cases hnil : s = []
  · rw [if_pos hnil, if_neg fun h => h.1 hnil]
  · by_cases hdigits : s.all isDigit = true
    · have hloop : parseLoop 0 s = (decimal s % 2 ^ 32, []) :=
        parseLoop_digits hdigits (Nat.zero_mod _).symm
      rw [if_neg hnil, hloop, if_neg (not_not.mpr rfl), if_pos ⟨hnil, hdigits⟩]
    · rw [if_neg hnil, if_pos (mt (parseLoop_rest s 0).mp hdigits), if_neg fun h => hdigits h.2]

/-- Copying an entry copies the line it holds. -/
lemma HoldsHist.copyEntry_eq {base : ℕ} {h : Hist} (hh : HoldsHist base h l) {i : ℕ}
    (hi : i < l.length) (out outsz : ℕ) :
    copyEntry base h i out outsz = { h with mem := tstrncpy h.mem out l[i].1 outsz } := by
  unfold copyEntry
  congr 1
  rw [readStr_eq_take (hh.entry i hi).1]
  funext x
  unfold tstrncpy
  by_cases hx : out ≤ x ∧ x < out + outsz
  · have hlt : x - out < outsz := by omega
    rw [if_pos hx, if_pos hx, List.getD_eq_getElem?_getD, List.getElem?_take_of_lt hlt,
      List.getD_eq_getElem?_getD]
  · rw [if_neg hx, if_neg hx]

/-- The condition under which the numeral of a reference is read as its value: no other value
below the number of entries is congruent to it. -/
def NumeralFits (count : ℕ) (line : Str) : Prop :=
  ∀ n, reference line.1 = some (.number n) → n < 2 ^ 32 ∨ count ≤ n % 2 ^ 32

section Expand
variable {base : ℕ} {h : Hist} {l : List Str} (hh : HoldsHist base h l) (out outsz : ℕ)
include hh

/-- The step behind `parse_num`. -/
lemma HoldsHist.expandNumber (n : ℕ) {r : Hist × ℤ}
    (hr : r = if asInt (n % 2 ^ 32) < 0 ∨ (h.count : ℤ) ≤ asInt (n % 2 ^ 32) then (h, -1)
      else (copyEntry base h (asInt (n % 2 ^ 32)).toNat out outsz, 1)) :
    (r.1.mem, r.2) = expandTo h.mem l out outsz (some (.number (n % 2 ^ 32))) := by
  have hbound : l.length ≤ 32 := hh.bound
  have hcount := hh.count
  by_cases hin : n % 2 ^ 32 < l.length
  · have hvalue : asInt (n % 2 ^ 32) = (n % 2 ^ 32 : ℕ) := if_pos (by omega)
    rw [hvalue, if_neg (by omega), Int.toNat_natCast, hh.copyEntry_eq hin] at hr
    rw [hr, expandTo_found (find_number_of_lt hin)]
  · have hout : asInt (n % 2 ^ 32) < 0 ∨ (h.count : ℤ) ≤ asInt (n % 2 ^ 32) := by
      unfold asInt
      split_ifs with hlt
      · right
        omega
      · left
        omega
    rw [if_pos hout] at hr
    rw [hr, expandTo_missing (find_number_of_le (not_lt.mp hin))]

lemma HoldsHist.expandLast {r : Hist × ℤ}
    (hr : r = if h.count = 0 then (h, -1) else (copyEntry base h (h.count - 1) out outsz, 1)) :
    (r.1.mem, r.2) = expandTo h.mem l out outsz (some .last) := by
  rw [hh.count] at hr
  rcases Nat.eq_zero_or_pos l.length with hzero | hpos
  · rw [if_pos hzero] at hr
    have hnone : Reference.last.find l = none :=
      List.getLast?_eq_none_iff.mpr (List.length_eq_zero_iff.mp hzero)
    rw [hr, expandTo_missing hnone]
  · have hget : Reference.last.find l = some l[l.length - 1] := by
      rw [Reference.find, List.getLast?_eq_getElem?, List.getElem?_eq_getElem (by omega)]
    rw [if_neg (by omega), hh.copyEntry_eq (by omega)] at hr
    rw [hr, expandTo_found hget]

/-- An expansion reads a numeral modulo 2^32, and does otherwise what it is to do. -/
lemma HoldsHist.expand (line : Str) {r : Hist × ℤ} (hr : r = tshHistExpand base h line out outsz) :
    (r.1.mem, r.2) = expandTo h.mem l out outsz ((reference line.1).map Reference.wrapped) := by
  obtain ⟨s, hs0⟩ := line
  cases s with
  | nil =>
    rw [hr]
    rfl
  | cons c s =>
    have hbyte : Str.byte ⟨c :: s, hs0⟩ 0 = c := rfl
    unfold tshHistExpand at hr
    rw [hbyte, List.tail_cons] at hr
    dsimp only [reference]
    by_cases hc : c ≠ 33
    · rw [if_pos hc] at hr
      rw [hr, if_pos hc]
      rfl
    rw [if_neg hc] at hr
    rw [if_neg hc]
    by_cases hlast : s = [33]
    · rw [if_pos hlast] at hr
      rw [if_pos hlast]
      exact hh.expandLast out outsz hr
    rw [if_neg hlast, parseNum_eq] at hr
    rw [if_neg hlast]
    by_cases hdigits : s ≠ [] ∧ s.all isDigit = true
    · rw [if_pos hdigits] at hr
      rw [if_pos hdigits]
      exact hh.expandNumber out outsz (decimal s) hr
    · rw [if_neg hdigits] at hr
      rw [hr, if_neg hdigits]
      rfl

end Expand

/-- Following the wrapped number is right exactly if the number does not lead to an entry by
wrapping. -/
lemma expandTo_wrapped_iff (m : Memory) (hl : l.length ≤ tshHistMax) (out outsz n : ℕ) :
    expandTo m l out outsz (some (.number (n % 2 ^ 32))) =
      expandTo m l out outsz (some (.number n)) ↔ n < 2 ^ 32 ∨ l.length ≤ n % 2 ^ 32 := by
  have hmax : l.length ≤ 32 := hl
  constructor
  · intro heq
    by_contra hnot
    have hin : n % 2 ^ 32 < l.length := by omega
    have hout : l.length ≤ n := by omega
    rw [expandTo_found (find_number_of_lt hin), expandTo_missing (find_number_of_le hout)] at heq
    exact absurd (congrArg Prod.snd heq) (by decide : (1 : ℤ) ≠ -1)
  · intro h
    by_cases hsmall : n < 2 ^ 32
    · rw [Nat.mod_eq_of_lt hsmall]
    · have hwrapped : l.length ≤ n % 2 ^ 32 := by omega
      have hout : l.length ≤ n := by omega
      rw [expandTo_missing (find_number_of_le hwrapped), expandTo_missing (find_number_of_le hout)]

/-- For every history and line, `tsh_hist_expand` gives the entry the line refers to, and leaves
the memory alone if there is none, exactly if the numeral fits. -/
theorem tshHistExpand_iff (base : ℕ) (h : Hist) (l : List Str) (hh : HoldsHist base h l)
    (line : Str) (out outsz : ℕ) :
    ((tshHistExpand base h line out outsz).1.mem, (tshHistExpand base h line out outsz).2) =
        expandTo h.mem l out outsz (reference line.1) ↔
      NumeralFits (tshHistCount h) line := by
  rw [hh.expand out outsz line rfl, show tshHistCount h = l.length from hh.count]
  unfold NumeralFits
  cases href : reference line.1 with
  | none => exact iff_of_true rfl fun n hn => (nomatch hn)
  | some r =>
    cases r with
    | last => exact iff_of_true rfl fun n hn => (nomatch hn)
    | number n =>
      rw [Option.map_some, Reference.wrapped, expandTo_wrapped_iff h.mem hh.bound]
      refine ⟨fun hfits k hk => ?_, fun hfits => hfits n rfl⟩
      obtain rfl : n = k := by simpa using hk
      exact hfits

/-- A history of one entry. -/
def oneEntry : Hist := (tshHistPush 0 ⟨fun _ => 0, 0⟩ (oneByte 97 (by decide))).1

lemma oneEntry_holds : HoldsHist 0 oneEntry [oneByte 97 (by decide)] :=
  ((holdsHist_clear 0 ⟨fun _ => 0, 0⟩).push (by decide : (oneByte 97 _).length < tshHistLen)).1

/-- `!0` -/
def bangZero : Str := ⟨[33, 48], by decide⟩

/-- `!4294967296` -/
def bangWrapped : Str := ⟨[33, 52, 50, 57, 52, 57, 54, 55, 50, 57, 54], by decide⟩

theorem tshHistExpand_bangZero :
    ((tshHistExpand 0 oneEntry bangZero 8192 128).1.mem,
      (tshHistExpand 0 oneEntry bangZero 8192 128).2) =
      expandTo oneEntry.mem [oneByte 97 (by decide)] 8192 128 (some (.number 0)) :=
  (tshHistExpand_iff 0 oneEntry [oneByte 97 (by decide)] oneEntry_holds bangZero 8192 128).mpr
    fun n hn => by
    have hzero : reference bangZero.1 = some (.number 0) := by decide
    obtain rfl : 0 = n := by simpa [hzero] using hn
    exact Or.inl (by decide)

/-- A numeral far above the number of entries is taken for entry 0. -/
theorem wrapped_numeral_is_expanded :
    HoldsHist 0 oneEntry [oneByte 97 (by decide)] ∧ reference bangWrapped.1 =
      some (.number 4294967296) ∧ (tshHistExpand 0 oneEntry bangWrapped 8192 128).2 = 1 :=
  ⟨oneEntry_holds, by decide, by decide⟩

end TraitOS.Tsh
