import TraitOS.TshTokens

/-!
# Quoting

A line of quoted strings is read back as these strings: inside quotes every byte stands for
itself but the quote, the backslash and the dollar sign, and those are escaped.
-/
namespace TraitOS.Tsh
open ByteMemory CString

/-- A byte inside quotes. -/
def quoteByte (c : UInt8) : List UInt8 := if c = 34 ∨ c = 92 ∨ c = 36 then [92, c] else [c]

def quote (s : List UInt8) : List UInt8 := 34 :: (s.flatMap quoteByte ++ [34])

/-- Strings in quotes, each with the blanks before it. -/
def quotedLine (args : List (List UInt8 × Str)) : List UInt8 :=
  args.flatMap fun x => x.1 ++ quote x.2.1

section Quote
variable {get : Str → Option (List UInt8)}

lemma expand_of_turn {quoted q : Bool} {c : UInt8} {p x rest : List UInt8}
    (h : quoted = true ∨ isBlank c = false) (ht : turn get quoted c p = (q, x, rest)) :
    expand get quoted (c :: p) = (x ++ (expand get q rest).1, (expand get q rest).2) := by
  have hgo : ¬ (quoted = false ∧ isBlank c = true) := by
    rintro ⟨hq, hb⟩
    exact h.elim (fun hq' => nomatch hq'.symm.trans hq) fun hb' => nomatch hb'.symm.trans hb
  rw [expand, if_neg hgo, ht]

/-- The bytes of a quoted string, up to the closing quote. -/
lemma expand_quoteByte (s rest : List UInt8) :
    expand get true (s.flatMap quoteByte ++ 34 :: rest) =
      (s ++ (expand get false rest).1, (expand get false rest).2) := by
  induction s with
  | nil => exact expand_of_turn (Or.inl rfl) (if_pos rfl)
  | cons c s ih =>
    rw [List.flatMap_cons, List.append_assoc]
    generalize s.flatMap quoteByte ++ 34 :: rest = text at ih
    have hone : expand get true (quoteByte c ++ text) =
      ([c] ++ (expand get true text).1, (expand get true text).2) := by
      unfold quoteByte
      split_ifs with hc
      · refine expand_of_turn (Or.inl rfl) ?_
        rw [turn, if_neg (by decide), if_pos ⟨rfl, List.cons_ne_nil _ _⟩]
        rfl
      · rw [not_or, not_or] at hc
        refine expand_of_turn (Or.inl rfl) ?_
        rw [turn, if_neg hc.1, if_neg (fun h => hc.2.1 h.1), if_neg (fun h => hc.2.2 h.1)]
        rfl
    rw [hone, ih]
    rfl

/-- A text at which a token ends. -/
def EndsToken (rest : List UInt8) : Prop := ∀ c ∈ rest.head?, isBlank c = true

lemma expand_ends {rest : List UInt8} (h : EndsToken rest) : expand get false rest =
    ([], rest) := by
  cases rest with
  | nil => rw [expand]
  | cons c p => rw [expand, if_pos ⟨rfl, h c rfl⟩]

lemma expand_quote (s : List UInt8) {rest : List UInt8} (h : EndsToken rest) :
    expand get false (quote s ++ rest) = (s, rest) := by
  have hopen : expand get false (quote s ++ rest) =
      ([] ++ (expand get true (s.flatMap quoteByte ++ 34 :: rest)).1,
      (expand get true (s.flatMap quoteByte ++ 34 :: rest)).2) := by
    unfold quote
    rw [List.cons_append, List.append_assoc]
    exact expand_of_turn (Or.inr (by decide)) (if_pos rfl)
  rw [hopen, expand_quoteByte, expand_ends h, List.append_nil]
  rfl

lemma endsToken_quotedLine {args : List (List UInt8 × Str)}
    (hblank : ∀ x ∈ args, ∀ c ∈ x.1, isBlank c = true) (hsep : ∀ x ∈ args, x.1 ≠ []) :
    EndsToken (quotedLine args) := by
  cases args with
  | nil => exact fun c hc => nomatch hc
  | cons x args =>
    obtain ⟨blank, blanks, hx⟩ := List.exists_cons_of_ne_nil (hsep x List.mem_cons_self)
    intro c hc
    have hfirst : blank = c := by
      unfold quotedLine at hc
      rw [List.flatMap_cons, hx] at hc
      exact Option.some.inj hc
    exact hblank x List.mem_cons_self c (by rw [hx, hfirst]; exact List.mem_cons_self)

/-- A line of quoted strings expands to the strings. -/
lemma expansions_quotedLine (args : List (List UInt8 × Str)) {left : ℕ} (hleft : args.length ≤ left)
    (hblank : ∀ x ∈ args, ∀ c ∈ x.1, isBlank c = true) (hsep : ∀ x ∈ args.tail, x.1 ≠ []) :
    expansions get left (quotedLine args) = args.map fun x => x.2.1 := by
  induction args generalizing left with
  | nil => cases left <;> rfl
  | cons x args ih =>
    obtain ⟨left, rfl⟩ : ∃ n, left = n + 1 := ⟨left - 1, by rw [List.length_cons] at hleft; omega⟩
    have hrest : EndsToken (quotedLine args) :=
      endsToken_quotedLine (fun y hy => hblank y (List.mem_cons_of_mem x hy)) hsep
    have hskip : (quotedLine (x :: args)).dropWhile isBlank = quote x.2.1 ++ quotedLine args := by
      unfold quotedLine
      rw [List.flatMap_cons, List.append_assoc,
        List.dropWhile_append_of_pos (hblank x List.mem_cons_self)]
      rfl
    rw [expansions, hskip]
    change (if (34 : UInt8) = 35 then [] else _) = _
    rw [if_neg (by decide)]
    change (expand get false (quote x.2.1 ++ quotedLine args)).1 ::
      expansions get left (expand get false (quote x.2.1 ++ quotedLine args)).2 = _
    rw [expand_quote _ hrest, ih (Nat.le_of_succ_le_succ hleft)
      (fun y hy => hblank y (List.mem_cons_of_mem x hy))
      fun y hy => hsep y (List.mem_of_mem_tail hy)]
    rfl

end Quote

/-- A line of at most `max` quoted strings, with blanks between them, gives these strings as
arguments. -/
theorem tshTokenize_quotedLine (L : Layout) (e : Env) (buf : ℕ) (m : Memory) (max : ℕ)
    (args : List (List UInt8 × Str)) (line : Str) (hmax : max ≤ tshArgvMax)
    (hargs : args.length ≤ max) (hshort : ∀ x ∈ args, x.2.length ≤ 127)
    (hblank : ∀ x ∈ args, ∀ c ∈ x.1, isBlank c = true) (hsep : ∀ x ∈ args.tail, x.1 ≠ [])
    (hline : line.1 = quotedLine args) :
    (tshTokenize (envValue L e) buf m line max).argv = (List.range args.length).map (argRow buf) ∧
      ∀ i x, args[i]? = some x →
        HoldsStr (tshTokenize (envValue L e) buf m line max).mem (argRow buf i) x.2 := by
  have hxs : expansions (envValue L e) max line.1 = args.map fun x => x.2.1 := by
    rw [hline]
    exact expansions_quotedLine args hargs hblank hsep
  have hrows : InRows buf (expansions (envValue L e) max line.1)
    (tshTokenize (envValue L e) buf m line max) := by
    refine inRows_tshTokenize (zero_notMem_envValue L e) buf m hmax fun x hx => ?_
    rw [hxs] at hx
    obtain ⟨y, hy, rfl⟩ := List.mem_map.mp hx
    exact Nat.lt_succ_of_le (hshort y hy)
  rw [hxs] at hrows
  refine ⟨by rw [hrows.argv, List.length_map], fun i x hx => ?_⟩
  obtain ⟨s, hs, -, hstr⟩ := hrows.args i x.2.1 (by rw [List.getElem?_map, hx]; rfl)
  have htake : x.2.1.take (tshArgMax - 1) = x.2.1 :=
    List.take_of_length_le (hshort x (List.mem_of_getElem? hx))
  rw [htake] at hs
  exact Subtype.ext hs ▸ hstr

/-- The string `A"` and an empty one, with a blank and a tab between them. -/
def quotedPair : List (List UInt8 × Str) := [([], ⟨[65, 34], by decide⟩), ([32, 9], letters 0)]

def quotedPairLine : Str := ⟨quotedLine quotedPair, by decide⟩

theorem tshTokenize_quotedPair :
    (tshTokenize (envValue tableLayout emptyEnv) 4096 (fun _ => 0) quotedPairLine 8).argv =
      (List.range 2).map (argRow 4096) :=
  (tshTokenize_quotedLine tableLayout emptyEnv 4096 (fun _ => 0) 8 quotedPair quotedPairLine
    (by decide) (by decide) (by decide) (by decide +kernel) (by decide) rfl).1

end TraitOS.Tsh
