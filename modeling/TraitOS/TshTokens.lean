import TraitOS.TshEnv
import Mathlib.Data.List.TakeWhile

/-!
# The tokenizer of the shell

Arguments are built byte by byte in the rows of `arg_buf`. Appending counts every byte but
stores only the first 127, and the terminator goes where the count says. The expansion of a
token is what its row would hold if the row had no end; the tokenizer stays in its rows
exactly if no expansion is longer than 127 bytes.
-/
namespace TraitOS.Tsh
open ByteMemory CString

def tshArgvMax : ℕ := 8
def tshArgMax : ℕ := 128

def isBlank (c : UInt8) : Bool := c = 32 ∨ c = 9
def isAlpha (c : UInt8) : Bool := 97 ≤ c ∧ c ≤ 122 ∨ 65 ≤ c ∧ c ≤ 90 ∨ c = 95
def isNameByte (c : UInt8) : Bool := isAlpha c ∨ 48 ≤ c ∧ c ≤ 57

/-- The length of the variable name at the start of a text. -/
def nameLength (p : List UInt8) : ℕ := if isAlpha (p.headD 0) then (p.takeWhile isNameByte).length
    else 0

/-- The key that is looked up: the name, cut to a row of the table. -/
def nameKey (p : List UInt8) : Str :=
  ⟨(p.takeWhile isNameByte).take (envKeyLen - 1), fun h => by
    have hbyte := List.mem_takeWhile_imp (List.mem_of_mem_take h)
    exact absurd hbyte (by decide)⟩

/-- The writes of a token go on from here: `n` is the count of the appended bytes, `written` has
the row and the address of every byte that was stored. -/
structure Dst where
  mem : Memory
  n : ℕ
  written : List (ℕ × ℕ)

def Dst.store (dst : ℕ) (d : Dst) (c : UInt8) : Dst :=
  ⟨Function.update d.mem (dst + d.n) c, d.n, (dst, dst + d.n) :: d.written⟩

def argAppend (dst : ℕ) (d : Dst) (c : UInt8) : Dst :=
  { (if d.n + 1 < tshArgMax then d.store dst c else d) with n := d.n + 1 }

section Model
variable (get : Str → Option (List UInt8))

/-- The value of the variable named at the start of a text. -/
def varValue (p : List UInt8) : List UInt8 := (get (nameKey p)).getD []

/-- What one turn of the loop over a token does with the byte `c` and the text `p` after it: whether
it is inside quotes then, the bytes it appends, and the text that is left. -/
def turn (quoted : Bool) (c : UInt8) (p : List UInt8) : Bool × List UInt8 × List UInt8 :=
  if c = 34 then (!quoted, [], p)
  else if c = 92 ∧ p ≠ [] then (quoted, p.take 1, p.drop 1)
  else if c = 36 ∧ nameLength p ≠ 0 then (quoted, varValue get p, p.drop (nameLength p))
  else (quoted, [c], p)

lemma turn_length (quoted : Bool) (c : UInt8) (p : List UInt8) : (turn get quoted c p).2.2.length ≤
    p.length := by
  unfold turn
  split_ifs
  · exact le_rfl
  · exact (List.drop_sublist _ _).length_le
  · exact (List.drop_sublist _ _).length_le
  · exact le_rfl

/-- The loop over the bytes of one token; the text after it is returned too. -/
def tokenLoop (dst : ℕ) (d : Dst) (quoted : Bool) : List UInt8 → Dst × List UInt8
  | [] => (d, [])
  | c :: p =>
    if quoted = false ∧ isBlank c then (d, c :: p)
    else
      have := turn_length get quoted c p
      let t := turn get quoted c p
      tokenLoop dst (t.2.1.foldl (argAppend dst) d) t.1 t.2.2
termination_by p => p.length

structure Tokens where
  mem : Memory
  argv : List ℕ
  written : List (ℕ × ℕ)

/-- The loop over the tokens, with `left` arguments still allowed. -/
def tokenizeFrom (buf : ℕ) : ℕ → Tokens → List UInt8 → Tokens
  | 0, t, _ => t
  | left + 1, t, p =>
    match p.dropWhile isBlank with
    | [] => t
    | c :: p =>
      if c = 35 then t
      else
        let dst := buf + t.argv.length * tshArgMax
        let r := tokenLoop get dst ⟨t.mem, 0, t.written⟩ false (c :: p)
        let d := r.1.store dst 0
        tokenizeFrom buf left ⟨d.mem, t.argv ++ [dst], d.written⟩ r.2

/-- The arguments of a line, with `arg_buf` at `buf`. -/
def tshTokenize (buf : ℕ) (m : Memory) (line : Str) (max : ℕ) : Tokens :=
  tokenizeFrom get buf max ⟨m, [], []⟩ line.1

/-! ## Expansions -/

/-- The whole expansion of a token and the text after it. -/
def expand (quoted : Bool) : List UInt8 → List UInt8 × List UInt8
  | [] => ([], [])
  | c :: p =>
    if quoted = false ∧ isBlank c then ([], c :: p)
    else
      have := turn_length get quoted c p
      let t := turn get quoted c p
      (t.2.1 ++ (expand t.1 t.2.2).1, (expand t.1 t.2.2).2)
termination_by p => p.length

/-- The expansions of the first tokens of a line. -/
def expansions : ℕ → List UInt8 → List (List UInt8)
  | 0, _ => []
  | left + 1, p =>
    match p.dropWhile isBlank with
    | [] => []
    | c :: p => if c = 35 then []
      else (expand get false (c :: p)).1 :: expansions left (expand get false (c :: p)).2

end Model

/-- The loop appends the expansion. -/
lemma tokenLoop_eq (get : Str → Option (List UInt8)) (dst : ℕ) (d : Dst) (quoted : Bool)
    (p : List UInt8) :
    tokenLoop get dst d quoted p =
      ((expand get quoted p).1.foldl (argAppend dst) d, (expand get quoted p).2) := by
  fun_induction tokenLoop get dst d quoted p with
  | case1 => rw [expand]; rfl
  | case2 d quoted c p h => rw [expand, if_pos h]; rfl
  | case3 d quoted c p h _ t ih =>
    rw [ih, expand, if_neg h, List.foldl_append]

/-! ## Rows -/

/-- What appending some bytes has done. -/
structure Appended (dst : ℕ) (x : List UInt8) (d d' : Dst) : Prop where
  n : d'.n = d.n + x.length
  written : ∀ w, w ∈ d'.written ↔
    w ∈ d.written ∨ ∃ i, d.n ≤ i ∧ i < d.n + x.length ∧ i + 1 < tshArgMax ∧ w = (dst, dst + i)
  kept : ∀ a, a < dst + d.n ∨ dst + tshArgMax ≤ a + 1 ∨ dst + (d.n + x.length) ≤ a →
    d'.mem a = d.mem a
  stored : ∀ i < x.length, d.n + i + 1 < tshArgMax → d'.mem (dst + (d.n + i)) = x.getD i 0

lemma appended_one (dst : ℕ) (d : Dst) (c : UInt8) : Appended dst [c] d (argAppend dst d c) := by
  unfold argAppend
  refine ⟨rfl, fun w => ?_, fun a ha => ?_, fun i hi hlt => ?_⟩
  · split_ifs with h
    · simp only [Dst.store, List.mem_cons, List.length_singleton]
      refine ⟨fun hw => hw.symm.imp_right fun hw => ⟨d.n, le_rfl, Nat.lt_succ_self _, h, hw⟩,
        fun hw => ?_⟩
      rcases hw with hw | ⟨i, hle, hlt, -, hw⟩
      · exact Or.inr hw
      · obtain rfl : i = d.n := by omega
        exact Or.inl hw
    · refine ⟨Or.inl, fun hw => hw.elim id ?_⟩
      rintro ⟨i, hle, hlt, hmax, -⟩
      omega
  · rw [List.length_singleton] at ha
    split_ifs with h
    · exact Function.update_of_ne (by omega) _ _
    · rfl
  · obtain rfl : i = 0 := Nat.lt_one_iff.mp hi
    rw [if_pos hlt]
    exact Function.update_self ..

lemma Appended.trans {dst : ℕ} {x y : List UInt8} {d d' d'' : Dst} (h : Appended dst x d d')
    (h' : Appended dst y d' d'') : Appended dst (x ++ y) d d'' := by
  have hn := h.n
  refine ⟨?_, fun w => ?_, fun a ha => ?_, fun i hi hlt => ?_⟩
  · rw [h'.n, hn, List.length_append, Nat.add_assoc]
  · rw [h'.written, h.written, or_assoc, hn, List.length_append]
    refine or_congr_right ⟨?_, ?_⟩
    · rintro (⟨i, hle, hlt, hrest⟩ | ⟨i, hle, hlt, hrest⟩)
      · exact ⟨i, hle, by omega, hrest⟩
      · exact ⟨i, by omega, by omega, hrest⟩
    · rintro ⟨i, hle, hlt, hrest⟩
      by_cases hi : i < d.n + x.length
      · exact Or.inl ⟨i, hle, hi, hrest⟩
      · exact Or.inr ⟨i, by omega, by omega, hrest⟩
  · rw [List.length_append] at ha
    rw [h'.kept a (by omega), h.kept a (by omega)]
  · rw [List.length_append] at hi
    by_cases hix : i < x.length
    · rw [h'.kept _ (by omega), h.stored i hix hlt, List.getD_append _ _ _ _ hix]
    · have hstored := h'.stored (i - x.length) (by omega) (by omega)
      rw [hn, show d.n + x.length + (i - x.length) = d.n + i by omega] at hstored
      rw [hstored, List.getD_append_right _ _ _ _ (not_lt.mp hix)]

lemma appended_foldl (dst : ℕ) (x : List UInt8)
    (d : Dst) : Appended dst x d (x.foldl (argAppend dst) d) := by
  induction x generalizing d with
  | nil =>
    refine ⟨rfl, fun w => ⟨Or.inl, fun hw => hw.elim id ?_⟩, fun _ _ => rfl,
      fun i hi => absurd hi (Nat.not_lt_zero i)⟩
    rintro ⟨i, hle, hlt, -⟩
    exact absurd hlt (not_lt.mpr hle)
  | cons c x ih => exact (appended_one dst d c).trans (ih _)

/-- The row of argument `i`. -/
def argRow (buf i : ℕ) : ℕ := buf + i * tshArgMax

/-- A byte stored in the row of its argument. -/
def InOwnRow (buf : ℕ) (w : ℕ × ℕ) : Prop :=
  ∃ i < tshArgvMax, w.1 = argRow buf i ∧ w.1 ≤ w.2 ∧ w.2 < w.1 + tshArgMax

/-- A whole token: its bytes and the terminator. -/
def putToken (dst : ℕ) (x : List UInt8) (m : Memory) (written : List (ℕ × ℕ)) : Dst :=
  (x.foldl (argAppend dst) ⟨m, 0, written⟩).store dst 0

section Token
variable {dst : ℕ} {x : List UInt8} {m : Memory} {written : List (ℕ × ℕ)}

lemma putToken_written {w : ℕ × ℕ} : w ∈ (putToken dst x m written).written ↔
    w = (dst, dst + x.length) ∨ w ∈ written ∨ ∃ i < x.length, i + 1 < tshArgMax ∧
      w = (dst, dst + i) := by
  have h := appended_foldl dst x ⟨m, 0, written⟩
  unfold putToken Dst.store
  rw [List.mem_cons, h.n, h.written]
  simp

lemma putToken_kept {a : ℕ} (hx : x.length < tshArgMax) (ha : a < dst ∨ dst + tshArgMax ≤ a) :
    (putToken dst x m written).mem a = m a := by
  have h := appended_foldl dst x ⟨m, 0, written⟩
  have hn := h.n
  dsimp only at hn
  unfold putToken Dst.store
  dsimp only
  rw [Function.update_of_ne (by omega)]
  exact h.kept a (by dsimp only; omega)

lemma putToken_holdsStr {s : Str} (hx : s.length < tshArgMax) :
    HoldsStr (putToken dst s.1 m written).mem dst s := by
  intro i hi
  have h := appended_foldl dst s.1 ⟨m, 0, written⟩
  have hn := h.n
  have hlen : s.1.length = s.length := rfl
  dsimp only at hn
  unfold putToken Dst.store
  dsimp only
  by_cases hlast : i = s.length
  · rw [hn, Nat.zero_add, hlen, hlast, Function.update_self, Str.byte_of_le le_rfl]
  · rw [Function.update_of_ne (by omega)]
    have hstored := h.stored i (by omega) (by dsimp only; omega)
    rwa [Nat.zero_add] at hstored

end Token

lemma tokenizeFrom_succ (get : Str → Option (List UInt8)) (buf left : ℕ) (t : Tokens)
    (p : List UInt8) :
    (tokenizeFrom get buf (left + 1) t p = t ∧ expansions get (left + 1) p = []) ∨
    ∃ x rest, expansions get (left + 1) p = x :: expansions get left rest ∧
      tokenizeFrom get buf (left + 1) t p =
        tokenizeFrom get buf left ⟨(putToken (argRow buf t.argv.length) x t.mem t.written).mem,
          t.argv ++ [argRow buf t.argv.length],
            (putToken (argRow buf t.argv.length) x t.mem t.written).written⟩ rest := by
  rw [tokenizeFrom, expansions]
  split
  · exact Or.inl ⟨rfl, rfl⟩
  · rename_i c p' _
    split_ifs with hc
    · exact Or.inl ⟨rfl, rfl⟩
    · refine Or.inr ⟨_, _, rfl, ?_⟩
      dsimp only
      rw [tokenLoop_eq]
      rfl

/-! ## Lines -/

/-- Every byte is stored in the row of its argument, and the arguments are the expansions, each
cut to 127 bytes, with a terminator in the row. -/
structure InRows (buf : ℕ) (xs : List (List UInt8)) (t : Tokens) : Prop where
  written : ∀ w ∈ t.written, InOwnRow buf w
  argv : t.argv = (List.range xs.length).map (argRow buf)
  args : ∀ i x, xs[i]? = some x →
    ∃ s : Str, s.1 = x.take (tshArgMax - 1) ∧ s.length < tshArgMax ∧ HoldsStr t.mem (argRow buf i) s

section Lines
variable {get : Str → Option (List UInt8)} {buf : ℕ}

/-- One more token in its row. -/
lemma InRows.putToken {xs : List (List UInt8)} {t : Tokens} (h : InRows buf xs t) {x : Str}
    (hx : x.length < tshArgMax) (hxs : xs.length < tshArgvMax) :
    InRows buf (xs ++ [x.1]) ⟨(putToken (argRow buf t.argv.length) x.1 t.mem t.written).mem,
      t.argv ++ [argRow buf t.argv.length],
        (Tsh.putToken (argRow buf t.argv.length) x.1 t.mem t.written).written⟩ := by
  have hargc : t.argv.length = xs.length := by rw [h.argv, List.length_map, List.length_range]
  rw [hargc]
  refine ⟨fun w hw => ?_, ?_, fun i y hy => ?_⟩
  · rcases putToken_written.mp hw with rfl | hw | ⟨i, hi, -, rfl⟩
    · exact ⟨xs.length, hxs, rfl, Nat.le_add_right _ _, Nat.add_lt_add_left hx _⟩
    · exact h.written w hw
    · exact ⟨xs.length, hxs, rfl, Nat.le_add_right _ _, Nat.add_lt_add_left (hi.trans hx) _⟩
  · dsimp only
    rw [h.argv, List.length_append, List.length_singleton, List.range_succ, List.map_append]
    rfl
  · by_cases hi : i < xs.length
    · rw [List.getElem?_append_left hi] at hy
      obtain ⟨s, hs, hlen, hstr⟩ := h.args i y hy
      refine ⟨s, hs, hlen, hstr.congr fun j hj => putToken_kept hx (Or.inl ?_)⟩
      unfold argRow tshArgMax at *
      omega
    · have hlast : i = xs.length := by
        have hlt := (List.getElem?_eq_some_iff.mp hy).1
        rw [List.length_append, List.length_singleton] at hlt
        omega
      subst hlast
      rw [List.getElem?_concat_length] at hy
      cases hy
      refine ⟨x, (List.take_of_length_le ?_).symm, hx, putToken_holdsStr hx⟩
      exact Nat.le_pred_of_lt hx

lemma inRows_tokenizeFrom (left : ℕ) {p : List UInt8} {xs : List (List UInt8)} {t : Tokens}
    (h : InRows buf xs t) (hleft : xs.length + left ≤ tshArgvMax)
    (hshort : ∀ x ∈ expansions get left p, x.length < tshArgMax ∧ (0 : UInt8) ∉ x) :
    InRows buf (xs ++ expansions get left p) (tokenizeFrom get buf left t p) := by
  induction left generalizing p xs t with
  | zero =>
    rw [expansions, tokenizeFrom, List.append_nil]
    exact h
  | succ left ih =>
    rcases tokenizeFrom_succ get buf left t p with ⟨hstop, hnone⟩ | ⟨x, rest, hcons, hgo⟩
    · rw [hstop, hnone, List.append_nil]
      exact h
    · rw [hcons] at hshort
      obtain ⟨hx, h0⟩ := hshort x List.mem_cons_self
      have hput := h.putToken (x := ⟨x, h0⟩) hx (by omega)
      rw [hgo, hcons, List.append_cons]
      exact ih hput (by rw [List.length_append, List.length_singleton]; omega) fun y hy =>
        hshort y (List.mem_cons_of_mem x hy)

lemma mem_written_tokenizeFrom (left : ℕ) {p : List UInt8} {t : Tokens} {w : ℕ × ℕ}
    (hw : w ∈ t.written) : w ∈ (tokenizeFrom get buf left t p).written := by
  induction left generalizing p t with
  | zero => exact hw
  | succ left ih =>
    rcases tokenizeFrom_succ get buf left t p with ⟨hstop, -⟩ | ⟨x, rest, -, hgo⟩
    · rw [hstop]
      exact hw
    · rw [hgo]
      exact ih (putToken_written.mpr (Or.inr (Or.inl hw)))

/-- The terminator of every token is stored after its whole expansion. -/
lemma terminator_written (left : ℕ) {p : List UInt8} {t : Tokens} {x : List UInt8}
    (hx : x ∈ expansions get left p) :
    ∃ dst, (dst, dst + x.length) ∈ (tokenizeFrom get buf left t p).written := by
  induction left generalizing p t with
  | zero => exact absurd hx List.not_mem_nil
  | succ left ih =>
    rcases tokenizeFrom_succ get buf left t p with ⟨-, hnone⟩ | ⟨y, rest, hcons, hgo⟩
    · rw [hnone] at hx
      exact absurd hx List.not_mem_nil
    · rw [hcons] at hx
      rw [hgo]
      rcases List.mem_cons.mp hx with rfl | hx
      · exact ⟨_, mem_written_tokenizeFrom left (putToken_written.mpr (Or.inl rfl))⟩
      · exact ih hx

end Lines

/-! ## Bytes of an expansion -/

section Bytes
variable {get : Str → Option (List UInt8)} (hget : ∀ key v, get key = some v → (0 : UInt8) ∉ v)
include hget

lemma zero_notMem_turn (quoted : Bool) {c : UInt8} {p : List UInt8} (h : (0 : UInt8) ∉ c :: p) :
    (0 : UInt8) ∉ (turn get quoted c p).2.1 ∧ (0 : UInt8) ∉ (turn get quoted c p).2.2 := by
  have hp : (0 : UInt8) ∉ p := fun hp => h (List.mem_cons_of_mem c hp)
  have hc : (0 : UInt8) ∉ [c] := fun hc => h (List.mem_singleton.mp hc ▸ List.mem_cons_self)
  have hdrop (n : ℕ) : (0 : UInt8) ∉ p.drop n := fun hd => hp (List.mem_of_mem_drop hd)
  unfold turn
  split_ifs
  · exact ⟨List.not_mem_nil, hp⟩
  · exact ⟨fun ht => hp (List.mem_of_mem_take ht), hdrop 1⟩
  · refine ⟨?_, hdrop _⟩
    unfold varValue
    cases hv : get (nameKey p) with
    | none => exact List.not_mem_nil
    | some v => exact hget _ v hv
  · exact ⟨hc, hp⟩

lemma zero_notMem_expand (quoted : Bool) (p : List UInt8) (h : (0 : UInt8) ∉ p) :
    (0 : UInt8) ∉ (expand get quoted p).1 ∧ (0 : UInt8) ∉ (expand get quoted p).2 := by
  fun_induction expand get quoted p with
  | case1 => exact ⟨h, h⟩
  | case2 => exact ⟨List.not_mem_nil, h⟩
  | case3 quoted c p hgo _ t ih =>
    obtain ⟨happ, hrest⟩ := zero_notMem_turn hget quoted h
    obtain ⟨ih₁, ih₂⟩ := ih hrest
    exact ⟨fun hmem => (List.mem_append.mp hmem).elim happ ih₁, ih₂⟩

lemma zero_notMem_expansions (left : ℕ) {p x : List UInt8} (h : (0 : UInt8) ∉ p)
    (hx : x ∈ expansions get left p) : (0 : UInt8) ∉ x := by
  induction left generalizing p with
  | zero => exact absurd hx List.not_mem_nil
  | succ left ih =>
    rw [expansions] at hx
    have hskip : (0 : UInt8) ∉ p.dropWhile isBlank := fun hd =>
      h ((List.dropWhile_sublist _).subset hd)
    split at hx
    · exact absurd hx List.not_mem_nil
    · rename_i c rest heq
      rw [heq] at hskip
      obtain ⟨h₁, h₂⟩ := zero_notMem_expand hget false _ hskip
      split_ifs at hx with hc
      · exact absurd hx List.not_mem_nil
      · rcases List.mem_cons.mp hx with rfl | hx
        · exact h₁
        · exact ih h₂ hx

end Bytes

lemma zero_notMem_envValue (L : Layout) (e : Env) (key : Str) (v : List UInt8)
    (h : envValue L e key = some v) : (0 : UInt8) ∉ v := by
  obtain ⟨p, -, rfl⟩ := Option.map_eq_some_iff.mp h
  exact zero_notMem_readStr _ _ _

lemma inRows_tshTokenize {get : Str → Option (List UInt8)}
    (hget : ∀ key v, get key = some v → (0 : UInt8) ∉ v) (buf : ℕ) (m : Memory) {line : Str}
    {max : ℕ} (hmax : max ≤ tshArgvMax)
    (h : ∀ x ∈ expansions get max line.1, x.length < tshArgMax) :
    InRows buf (expansions get max line.1) (tshTokenize get buf m line max) := by
  have hempty : InRows buf [] ⟨m, [], []⟩ :=
    ⟨fun w hw => absurd hw List.not_mem_nil, rfl, fun i x hx => absurd hx (by simp)⟩
  have hrows := inRows_tokenizeFrom max hempty (by simpa using hmax) fun x hx =>
    ⟨h x hx, zero_notMem_expansions hget max line.2 hx⟩
  rwa [List.nil_append] at hrows

/-- The tokenizer stays in its rows if and only if no expansion is longer than 127 bytes. -/
theorem tshTokenize_inRows_iff (L : Layout) (e : Env) (buf : ℕ) (m : Memory) (line : Str) (max : ℕ)
    (hmax : max ≤ tshArgvMax) :
    InRows buf (expansions (envValue L e) max line.1) (tshTokenize (envValue L e) buf m line max) ↔
      ∀ x ∈ expansions (envValue L e) max line.1, x.length < tshArgMax := by
  refine ⟨fun h x hx => ?_, inRows_tshTokenize (zero_notMem_envValue L e) buf m hmax⟩
  obtain ⟨dst, hdst⟩ := terminator_written max (t := ⟨m, [], []⟩) hx
  obtain ⟨i, -, -, -, hlt⟩ := h.written _ hdst
  exact Nat.lt_of_add_lt_add_left hlt

/-- An environment in which `A` has 100 bytes. -/
def longValueEnv : Env := (tshEnvSet tableLayout emptyEnv (letters 1) (letters 100)).1

/-- The text `$A$A`. -/
def twice : Str := ⟨[36, 65, 36, 65], by decide⟩

/-- The line `x$A y`: the value goes into the first row behind the `x`. -/
theorem tshTokenize_set_variable :
    InRows 4096 [120 :: List.replicate 100 65, [121]]
      (tshTokenize (envValue tableLayout longValueEnv) 4096 (fun _ => 0)
        ⟨[120, 36, 65, 32, 121], by decide⟩ 8) := by
  have hxs : expansions (envValue tableLayout longValueEnv) 8 [120, 36, 65, 32, 121] =
      [120 :: List.replicate 100 65, [121]] := by decide +kernel
  have h := (tshTokenize_inRows_iff tableLayout longValueEnv 4096 (fun _ => 0)
    ⟨[120, 36, 65, 32, 121], by decide⟩ 8 (by decide)).mpr
  rw [hxs] at h
  exact h (by decide)

/-- Two variables of 100 bytes side by side: the terminator is stored at offset 200. -/
theorem terminator_leaves_row :
    ∃ w ∈ (tshTokenize (envValue tableLayout longValueEnv) 4096 (fun _ => 0) twice 8).written,
      ¬ InOwnRow 4096 w := by
  refine ⟨(4096, 4296), by decide +kernel, ?_⟩
  rintro ⟨i, -, -, -, hlt⟩
  exact absurd hlt (by decide)

end TraitOS.Tsh
