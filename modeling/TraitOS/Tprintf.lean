import TraitOS.CString
import TraitOS.Numeral
import TraitOS.Vga
import Mathlib.Data.List.TakeWhile

/-!
# The three formatters

The console, the serial line and `tsprintf` each have a formatter of their own for the same small
language. They are modelled over the characters they put out, and compared with one reading of the
language: a format is a list of pieces, and each piece has a text.
-/
namespace TraitOS.Tprintf
open ByteMemory CString Numeral Vga

/-! ## Arguments -/

inductive Kind
  | word
  | str
  | ptr
  deriving DecidableEq

/-- An argument of a call: an `int` or `uint32_t`, a string or a null pointer, an address. -/
inductive Arg
  | word (v : BitVec 32)
  | str (s : Option Str)
  | ptr (p : BitVec 64)

def Arg.kind : Arg → Kind
  | .word _ => .word
  | .str _ => .str
  | .ptr _ => .ptr

/-! `va_arg` at each type; at another type, or with no argument left, it has no value. -/

def vaWord : List Arg → Option (BitVec 32 × List Arg)
  | .word v :: ap => some (v, ap)
  | _ => none

def vaStr : List Arg → Option (Option Str × List Arg)
  | .str s :: ap => some (s, ap)
  | _ => none

def vaPtr : List Arg → Option (BitVec 64 × List Arg)
  | .ptr p :: ap => some (p, ap)
  | _ => none

/-! ## Digits -/

/-- The table `"0123456789abcdef"`. -/
def digitTable : List UInt8 := [48, 49, 50, 51, 52, 53, 54, 55, 56, 57, 97, 98, 99, 100, 101, 102]

/-- The bases in which `titoa` ends. -/
abbrev Base := {base : ℕ // 1 < base}

def decimal : Base := ⟨10, by decide⟩
def hexadecimal : Base := ⟨16, by decide⟩

def tableLoop (base : Base) : DigitLoop where
  digit u := digitTable.getD (u % base) 0
  rest u := u / base
  rest_lt _ hu := Nat.div_lt_self (Nat.pos_of_ne_zero hu) base.2

/-- The bytes `titoa` and `u2s` leave in the buffer of the caller. -/
def convert (v : BitVec 32) (base : Base) : List UInt8 := (tableLoop base).digits v.toNat ++ [0]

def titoa (val : BitVec 32) (base : Base) : List UInt8 := convert val base

def u2s (v : BitVec 32) (base : Base) : List UInt8 := convert v base

/-! ## The model -/

/-- The text for a null pointer. -/
def nullText : List UInt8 := [40, 110, 117, 108, 108, 41]

def orNull : Option Str → List UInt8
  | some s => s.1
  | none => nullText

section Putchar
variable {σ : Type*} (put : σ → UInt8 → σ)

/-- The loop of `vga_puts` and `serial_puts`. -/
def puts (s : σ) (str : List UInt8) : σ := (str.takeWhile (· ≠ 0)).foldl put s

def vgaPutDec (s : σ) (val : BitVec 32) : σ := puts put s (titoa val decimal)

def vgaPutHex (s : σ) (val : BitVec 32) : σ := puts put s (titoa val hexadecimal)

def tprintf (s : σ) (fmt : List UInt8) (ap : List Arg) : Option σ :=
  match fmt with
  | [] => some s
  | c :: fmt =>
    if c ≠ 37 then tprintf (put s c) fmt ap
    else if fmt.headD 0 = 37 then tprintf (put s 37) fmt.tail ap
    else if fmt.headD 0 = 115 then
      (vaStr ap).bind fun (str, ap) => tprintf (puts put s (orNull str)) fmt.tail ap
    else if fmt.headD 0 = 100 then
      (vaWord ap).bind fun (v, ap) =>
        tprintf (if v.toInt < 0 then vgaPutDec put (put s 45) (0 - v)
          else vgaPutDec put s v) fmt.tail ap
    else if fmt.headD 0 = 117 then
      (vaWord ap).bind fun (v, ap) => tprintf (vgaPutDec put s v) fmt.tail ap
    else if fmt.headD 0 = 120 then
      (vaWord ap).bind fun (v, ap) => tprintf (vgaPutHex put s v) fmt.tail ap
    else if fmt.headD 0 = 112 then
      (vaPtr ap).bind fun (p, ap) =>
        tprintf (vgaPutHex put (puts put s [48, 120]) (p.setWidth 32)) fmt.tail ap
    else if fmt.headD 0 = 99 then
      (vaWord ap).bind fun (v, ap) => tprintf (put s v.toNat.toUInt8) fmt.tail ap
    else tprintf (put s 37) fmt ap
termination_by fmt.length
decreasing_by all_goals simp only [List.length_cons, List.length_tail]; omega

def serialVprintf (s : σ) (fmt : List UInt8) (ap : List Arg) : Option σ :=
  match fmt with
  | [] => some s
  | c :: fmt =>
    if c ≠ 37 then serialVprintf (put s c) fmt ap
    else if fmt.headD 0 = 37 then serialVprintf (put s 37) fmt.tail ap
    else if fmt.headD 0 = 115 then
      (vaStr ap).bind fun (str, ap) => serialVprintf (puts put s (orNull str)) fmt.tail ap
    else if fmt.headD 0 = 100 then
      (vaWord ap).bind fun (v, ap) =>
        let (s, buf) := if v.toInt < 0 then (put s 45, u2s (0 - v) decimal) else (s, u2s v decimal)
        serialVprintf (puts put s buf) fmt.tail ap
    else if fmt.headD 0 = 117 then
      (vaWord ap).bind fun (v, ap) => serialVprintf (puts put s (u2s v decimal)) fmt.tail ap
    else if fmt.headD 0 = 120 then
      (vaWord ap).bind fun (v, ap) => serialVprintf (puts put s (u2s v hexadecimal)) fmt.tail ap
    else if fmt.headD 0 = 112 then
      (vaPtr ap).bind fun (p, ap) =>
        serialVprintf (puts put (puts put s [48, 120]) (u2s (p.setWidth 32) hexadecimal))
          fmt.tail ap
    else if fmt.headD 0 = 99 then
      (vaWord ap).bind fun (v, ap) => serialVprintf (put s v.toNat.toUInt8) fmt.tail ap
    else serialVprintf (put s 37) fmt ap
termination_by fmt.length
decreasing_by all_goals simp only [List.length_cons, List.length_tail]; omega

end Putchar

/-- The variables of `tsprintf`: memory and the position `i`. -/
abbrev Cursor := Memory × ℕ

def bufPut (buf : ℕ) (cap : UInt64) (s : Cursor) (c : UInt8) : Cursor :=
  (if (s.2 + 1) % 2 ^ 64 < cap.toNat then Function.update s.1 (buf + s.2) c
    else s.1, (s.2 + 1) % 2 ^ 64)

def putuLoop : DigitLoop where
  digit u := 48 + (u % 10).toUInt8
  rest u := u / 10
  rest_lt u hu := by omega

def putxLoop : DigitLoop where
  digit u := digitTable.getD (u &&& 0xF) 0
  rest u := u >>> 4
  rest_lt u hu := by rw [Nat.shiftRight_eq_div_pow]; omega

section Tsprintf
variable (buf : ℕ) (cap : UInt64)

def bufPutu (s : Cursor) (u : BitVec 32) : Cursor :=
  (putuLoop.digits u.toNat).foldl (bufPut buf cap) s

def bufPutx (s : Cursor) (u : BitVec 32) : Cursor :=
  (putxLoop.digits u.toNat).foldl (bufPut buf cap) s

/-- The loop of `tsprintf`. -/
def tsprintfLoop (s : Cursor) (fmt : List UInt8) (ap : List Arg) : Option Cursor :=
  match fmt with
  | [] => some s
  | c :: fmt =>
    if c ≠ 37 then tsprintfLoop (bufPut buf cap s c) fmt ap
    else match fmt.headD 0 with
      | 37 => tsprintfLoop (bufPut buf cap s 37) fmt.tail ap
      | 115 => (vaStr ap).bind fun (str, ap) =>
        tsprintfLoop (puts (bufPut buf cap) s (orNull str)) fmt.tail ap
      | 100 => (vaWord ap).bind fun (v, ap) =>
        let (s, v) := if v.toInt < 0 then (bufPut buf cap s 45, 0 - v) else (s, v)
        tsprintfLoop (bufPutu buf cap s v) fmt.tail ap
      | 117 => (vaWord ap).bind fun (v, ap) => tsprintfLoop (bufPutu buf cap s v) fmt.tail ap
      | 120 => (vaWord ap).bind fun (v, ap) => tsprintfLoop (bufPutx buf cap s v) fmt.tail ap
      | 112 => (vaPtr ap).bind fun (p, ap) =>
        tsprintfLoop (bufPutx buf cap (puts (bufPut buf cap) s [48, 120]) (p.setWidth 32))
          fmt.tail ap
      | 99 => (vaWord ap).bind fun (v, ap) =>
        tsprintfLoop (bufPut buf cap s v.toNat.toUInt8) fmt.tail ap
      | _ => tsprintfLoop (bufPut buf cap s 37) fmt ap
termination_by fmt.length
decreasing_by all_goals simp only [List.length_cons, List.length_tail]; omega

/-- The terminator, where there is room for one. -/
def terminate (s : Cursor) : Memory :=
  if s.2 < cap.toNat then Function.update s.1 (buf + s.2) 0
  else if 0 < cap.toNat then Function.update s.1 (buf + cap.toNat - 1) 0
  else s.1

/-- Memory after the call and the `int` it returns. -/
def tsprintf (m : Memory) (fmt : List UInt8) (ap : List Arg) : Option (Memory × ℤ) :=
  (tsprintfLoop buf cap (m, 0) fmt ap).map fun s =>
    (terminate buf cap s, (BitVec.ofNat 32 s.2).toInt)

end Tsprintf

/-! ## What a format says -/

inductive Directive
  | str
  | dec
  | udec
  | hex
  | ptr
  | chr
  deriving DecidableEq

namespace Directive

def letter : Directive → UInt8
  | str => 115
  | dec => 100
  | udec => 117
  | hex => 120
  | ptr => 112
  | chr => 99

def kind : Directive → Kind
  | str => .str
  | ptr => .ptr
  | _ => .word

def ofLetter (c : UInt8) : Option Directive := [str, dec, udec, hex, ptr, chr].find? (·.letter = c)

lemma ofLetter_letter (d : Directive) : ofLetter d.letter = some d := by cases d <;> rfl

lemma letter_of_ofLetter {c : UInt8} {d : Directive} (h : ofLetter c = some d) : c = d.letter := by
  have hfound := List.find?_some h
  exact (of_decide_eq_true hfound).symm

/-- The numeral of an integer. -/
def intNumeral (v : ℤ) : List UInt8 :=
  if v < 0 then 45 :: numeral 10 v.natAbs else numeral 10 v.natAbs

/-- What a directive makes of its argument. -/
def text : Directive → Arg → List UInt8
  | str, .str s => orNull s
  | dec, .word v => intNumeral v.toInt
  | udec, .word v => numeral 10 v.toNat
  | hex, .word v => numeral 16 v.toNat
  | ptr, .ptr p => 48 :: 120 :: numeral 16 (p.toNat % 2 ^ 32)
  | chr, .word v => [v.toNat.toUInt8]
  | _, _ => []

end Directive

inductive Piece
  | char (c : UInt8)
  | directive (d : Directive)

/-- The pieces of a format: a percent sign that begins no directive stands for itself. -/
def pieces : List UInt8 → List Piece
  | [] => []
  | c :: fmt =>
    if c ≠ 37 then .char c :: pieces fmt
    else match fmt with
      | [] => [.char 37]
      | d :: rest =>
        if d = 37 then .char 37 :: pieces rest
        else match Directive.ofLetter d with
          | some k => .directive k :: pieces rest
          | none => .char 37 :: pieces (d :: rest)

def Piece.kind? : Piece → Option Kind
  | .char _ => none
  | .directive d => some d.kind

/-- The arguments begin with those the directives of the format consume. -/
def Fits (fmt : List UInt8) (args : List Arg) : Prop :=
  (pieces fmt).filterMap Piece.kind? <+: args.map Arg.kind

def rendering : List Piece → List Arg → List UInt8
  | [], _ => []
  | .char c :: ps, args => c :: rendering ps args
  | .directive d :: ps, arg :: args => d.text arg ++ rendering ps args
  | .directive _ :: _, [] => []

/-- The full output of a format. -/
def render (fmt : List UInt8) (args : List Arg) : List UInt8 := rendering (pieces fmt) args

/-! ## The rule for formatters -/

section Rule
variable {σ : Type*} {put : σ → UInt8 → σ} {F : σ → List UInt8 → List Arg → Option σ}

/-- A formatter puts out the pieces of the format one after the other. -/
structure Formats (put : σ → UInt8 → σ) (F : σ → List UInt8 → List Arg → Option σ) : Prop where
  nil : ∀ s ap, F s [] ap = some s
  char : ∀ s c fmt ap, c ≠ 37 → F s (c :: fmt) ap = F (put s c) fmt ap
  percent : ∀ s fmt ap, F s (37 :: 37 :: fmt) ap = F (put s 37) fmt ap
  plain : ∀ s fmt ap, fmt.headD 0 ≠ 37 → (∀ d : Directive, fmt.headD 0 ≠ d.letter) →
    F s (37 :: fmt) ap = F (put s 37) fmt ap
  directive : ∀ s (d : Directive) fmt arg ap, arg.kind = d.kind →
    F s (37 :: d.letter :: fmt) (arg :: ap) = F ((d.text arg).foldl put s) fmt ap

/-- With arguments that fit, a formatter puts out exactly the rendering. -/
theorem Formats.eq_render (hF : Formats put F) (fmt : List UInt8) {args : List Arg} (s : σ)
    (hfits : Fits fmt args) : F s fmt args = some ((render fmt args).foldl put s) := by
  unfold Fits at hfits
  unfold render
  fun_induction pieces fmt generalizing args s with
  | case1 => exact hF.nil s args
  | case2 c fmt hc ih =>
    rw [hF.char s c fmt args hc, ih (put s c) hfits]
    rfl
  | case3 c hc =>
    obtain rfl := not_not.mp hc
    rw [hF.plain s [] args (by decide) (fun d => by cases d <;> decide), hF.nil]
    rfl
  | case4 c hc rest ih =>
    obtain rfl := not_not.mp hc
    rw [hF.percent s rest args, ih (put s 37) hfits]
    rfl
  | case5 c hc d rest hd k hk ih =>
    obtain rfl := not_not.mp hc
    obtain rfl := Directive.letter_of_ofLetter hk
    cases args with
    | nil => exact absurd (List.prefix_nil.mp hfits) (List.cons_ne_nil _ _)
    | cons arg args =>
      obtain ⟨hkind, hrest⟩ := List.cons_prefix_cons.mp hfits
      rw [hF.directive s k rest arg args hkind.symm, ih _ hrest, rendering, List.foldl_append]
  | case6 c hc d rest hd hnone ih =>
    obtain rfl := not_not.mp hc
    have hletter (k : Directive) : d ≠ k.letter := by
      rintro rfl
      rw [Directive.ofLetter_letter] at hnone
      exact nomatch hnone
    rw [hF.plain s (d :: rest) args hd hletter, ih (put s 37) hfits]
    rfl

end Rule

/-! ## The formatters follow the rule -/

lemma digitTable_eq {k : ℕ} (h : k < 16) : digitTable.getD k 0 = digitByte k := by
  have hall : ∀ k : Fin 16, digitTable.getD k 0 = digitByte k := by decide
  exact hall ⟨k, h⟩

lemma tableLoop_inBase {base : Base} (h : base.1 ≤ 16) : (tableLoop base).InBase base where
  digit u := digitTable_eq ((Nat.mod_lt u (by have := base.2; omega)).trans_le h)
  rest _ := rfl

lemma putuLoop_inBase : putuLoop.InBase 10 where
  digit u := by
    have hall : ∀ k : Fin 10, 48 + (k : ℕ).toUInt8 = digitByte k := by decide
    exact hall ⟨u % 10, Nat.mod_lt u (by decide)⟩
  rest _ := rfl

lemma putxLoop_inBase : putxLoop.InBase 16 where
  digit u := by
    have hmask : u &&& 0xF = u % 16 := Nat.and_two_pow_sub_one_eq_mod u 4
    rw [← digitTable_eq (Nat.mod_lt u (by decide)), ← hmask]
    rfl
  rest u := Nat.shiftRight_eq_div_pow u 4

/-- The arrays of the digit loops are long enough: 16 bytes in `titoa`, in `u2s` and for their
results, 12 in `buf_putu`, 10 in `buf_putx`. -/
theorem digits_fit (u : BitVec 32) :
    (convert u decimal).length ≤ 16 ∧ (convert u hexadecimal).length ≤ 16 ∧
      (putuLoop.digits u.toNat).length ≤ 12 ∧ (putxLoop.digits u.toNat).length ≤ 10 := by
  have hlt := u.isLt
  have hdec : (numeral 10 u.toNat).length ≤ 10 := numeral_length_le (by decide) (by decide)
    (by omega)
  have hhex : (numeral 16 u.toNat).length ≤ 8 := numeral_length_le (by decide) (by decide)
    (by omega)
  have hconvert (base : Base) (h : base.1 ≤ 16) : (convert u base).length =
    (numeral base u.toNat).length + 1 := by
    rw [convert, (tableLoop_inBase h).digits_eq base.2, List.length_append, List.length_singleton]
  rw [hconvert decimal (by decide), hconvert hexadecimal (by decide),
    putuLoop_inBase.digits_eq (by decide), putxLoop_inBase.digits_eq (by decide)]
  exact ⟨(Nat.succ_le_succ hdec).trans (by decide), (Nat.succ_le_succ hhex).trans (by decide),
    hdec.trans (by decide), hhex.trans (by decide)⟩

section Texts
variable {σ : Type*} (put : σ → UInt8 → σ) (s : σ)

lemma puts_eq {str : List UInt8} (h : (0 : UInt8) ∉ str) : puts put s str = str.foldl put s := by
  have hall : ∀ c ∈ str, decide (c ≠ 0) = true := fun c hc => decide_eq_true fun hzero =>
    h (hzero ▸ hc)
  rw [puts, List.takeWhile_eq_self_iff.mpr hall]

lemma puts_orNull (str : Option Str) : puts put s (orNull str) = (orNull str).foldl put s := by
  cases str with
  | none => exact puts_eq put s (by decide)
  | some str => exact puts_eq put s str.2

lemma puts_convert (v : BitVec 32) {base : Base} (h : base.1 ≤ 16) :
    puts put s (convert v base) = (numeral base v.toNat).foldl put s := by
  have hzero := zero_notMem_numeral base.2 h v.toNat
  have hall : ∀ c ∈ numeral base v.toNat, decide (c ≠ 0) = true :=
    fun c hc => decide_eq_true fun h0 => hzero (h0 ▸ hc)
  rw [puts, convert, (tableLoop_inBase h).digits_eq base.2, List.takeWhile_append_of_pos hall]
  simp

/-- The sign and the magnitude the code prints are those of the integer. -/
lemma intNumeral_toInt (v : BitVec 32) :
    Directive.intNumeral v.toInt = if v.toInt < 0 then 45 :: numeral 10 (0 - v).toNat
      else numeral 10 v.toNat := by
  have hlt := v.isLt
  have hcond := v.toInt_eq_toNat_cond
  unfold Directive.intNumeral
  by_cases hneg : v.toInt < 0
  · have habs : v.toInt.natAbs = (0 - v).toNat := by
      have hzero : (0 : BitVec 32).toNat = 0 := rfl
      rw [BitVec.toNat_sub, hzero]
      split_ifs at hcond <;> omega
    rw [if_pos hneg, if_pos hneg, habs]
  · have habs : v.toInt.natAbs = v.toNat := by
      split_ifs at hcond <;> omega
    rw [if_neg hneg, if_neg hneg, habs]

lemma foldl_intNumeral (v : BitVec 32) :
    (Directive.intNumeral v.toInt).foldl put s =
      if v.toInt < 0 then (numeral 10 (0 - v).toNat).foldl put (put s 45)
        else (numeral 10 v.toNat).foldl put s := by
  rw [intNumeral_toInt, apply_ite (List.foldl put s)]
  rfl

lemma vgaPutDec_eq (v : BitVec 32) : vgaPutDec put s v = (numeral 10 v.toNat).foldl put s :=
  puts_convert put s v (by decide)

lemma vgaPutHex_eq (v : BitVec 32) : vgaPutHex put s v = (numeral 16 v.toNat).foldl put s :=
  puts_convert put s v (by decide)

lemma puts_u2s_decimal (v : BitVec 32) : puts put s (u2s v decimal) =
    (numeral 10 v.toNat).foldl put s :=
  puts_convert put s v (by decide)

lemma puts_u2s_hexadecimal (v : BitVec 32) : puts put s (u2s v hexadecimal) =
    (numeral 16 v.toNat).foldl put s :=
  puts_convert put s v (by decide)

lemma puts_pointerMark : puts put s [48, 120] = put (put s 48) 120 := puts_eq put s (by decide)

end Texts

/-- The bytes that are no directive. -/
lemma not_letter {c : UInt8} (h : ∀ d : Directive, c ≠ d.letter) :
    c ≠ 115 ∧ c ≠ 100 ∧ c ≠ 117 ∧ c ≠ 120 ∧ c ≠ 112 ∧
      c ≠ 99 := ⟨h .str, h .dec, h .udec, h .hex, h .ptr, h .chr⟩

theorem formats_tprintf {σ : Type*} (put : σ → UInt8 → σ) : Formats put (tprintf put) where
  nil s ap := by rw [tprintf]
  char s c fmt ap hc := by rw [tprintf, if_pos hc]
  percent s fmt ap := by
    rw [tprintf]
    rfl
  plain s fmt ap hpercent hletter := by
    obtain ⟨hs, hd, hu, hx, hp, hc⟩ := not_letter hletter
    rw [tprintf, if_neg (not_not.mpr rfl), if_neg hpercent, if_neg hs, if_neg hd, if_neg hu,
      if_neg hx, if_neg hp, if_neg hc]
  directive s d fmt arg ap hkind := by
    rw [tprintf]
    cases d <;> cases arg <;> cases hkind
    case str.str str => simp [Directive.letter, Directive.text, vaStr, puts_orNull]
    case dec.word v => simp [Directive.letter, Directive.text, vaWord, foldl_intNumeral,
      vgaPutDec_eq]
    case udec.word v => simp [Directive.letter, Directive.text, vaWord, vgaPutDec_eq]
    case hex.word v => simp [Directive.letter, Directive.text, vaWord, vgaPutHex_eq]
    case ptr.ptr p => simp [Directive.letter, Directive.text, vaPtr, vgaPutHex_eq, puts_pointerMark]
    case chr.word v => simp [Directive.letter, Directive.text, vaWord]

theorem formats_serialVprintf {σ : Type*} (put : σ → UInt8 →
    σ) : Formats put (serialVprintf put) where
  nil s ap := by rw [serialVprintf]
  char s c fmt ap hc := by rw [serialVprintf, if_pos hc]
  percent s fmt ap := by
    rw [serialVprintf]
    rfl
  plain s fmt ap hpercent hletter := by
    obtain ⟨hs, hd, hu, hx, hp, hc⟩ := not_letter hletter
    rw [serialVprintf, if_neg (not_not.mpr rfl), if_neg hpercent, if_neg hs, if_neg hd, if_neg hu,
      if_neg hx, if_neg hp, if_neg hc]
  directive s d fmt arg ap hkind := by
    rw [serialVprintf]
    cases d <;> cases arg <;> cases hkind
    case str.str str => simp [Directive.letter, Directive.text, vaStr, puts_orNull]
    case dec.word v =>
      by_cases hneg : v.toInt < 0
      · simp [Directive.letter, Directive.text, vaWord, foldl_intNumeral, puts_u2s_decimal, hneg]
      · simp [Directive.letter, Directive.text, vaWord, foldl_intNumeral, puts_u2s_decimal, hneg]
    case udec.word v => simp [Directive.letter, Directive.text, vaWord, puts_u2s_decimal]
    case hex.word v => simp [Directive.letter, Directive.text, vaWord, puts_u2s_hexadecimal]
    case ptr.ptr p => simp [Directive.letter, Directive.text, vaPtr, puts_u2s_hexadecimal,
      puts_pointerMark]
    case chr.word v => simp [Directive.letter, Directive.text, vaWord]

section Tsprintf
variable (buf : ℕ) (cap : UInt64)

lemma bufPutu_eq (s : Cursor) (u : BitVec 32) : bufPutu buf cap s u =
    (numeral 10 u.toNat).foldl (bufPut buf cap) s := by
  rw [bufPutu, putuLoop_inBase.digits_eq (by decide)]

lemma bufPutx_eq (s : Cursor) (u : BitVec 32) : bufPutx buf cap s u =
    (numeral 16 u.toNat).foldl (bufPut buf cap) s := by
  rw [bufPutx, putxLoop_inBase.digits_eq (by decide)]

theorem formats_tsprintfLoop : Formats (bufPut buf cap) (tsprintfLoop buf cap) where
  nil s ap := by rw [tsprintfLoop]
  char s c fmt ap hc := by rw [tsprintfLoop, if_pos hc]
  percent s fmt ap := by
    rw [tsprintfLoop]
    rfl
  plain s fmt ap hpercent hletter := by
    obtain ⟨hs, hd, hu, hx, hp, hc⟩ := not_letter hletter
    rw [tsprintfLoop, if_neg (not_not.mpr rfl)]
    split <;> first | contradiction | rfl
  directive s d fmt arg ap hkind := by
    rw [tsprintfLoop]
    cases d <;> cases arg <;> cases hkind
    case str.str str => simp [Directive.letter, Directive.text, vaStr, puts_orNull]
    case dec.word v =>
      by_cases hneg : v.toInt < 0
      · simp [Directive.letter, Directive.text, vaWord, foldl_intNumeral, bufPutu_eq, hneg]
      · simp [Directive.letter, Directive.text, vaWord, foldl_intNumeral, bufPutu_eq, hneg]
    case udec.word v => simp [Directive.letter, Directive.text, vaWord, bufPutu_eq]
    case hex.word v => simp [Directive.letter, Directive.text, vaWord, bufPutx_eq]
    case ptr.ptr p => simp [Directive.letter, Directive.text, vaPtr, bufPutx_eq, puts_pointerMark]
    case chr.word v => simp [Directive.letter, Directive.text, vaWord]

/-- The buffer gets the characters whose place is before its last byte; the position counts all. -/
lemma foldl_bufPut (m : Memory) {text : List UInt8} (hlen : text.length < 2 ^ 64) :
    (text.foldl (bufPut buf cap) (m, 0)).2 = text.length ∧
      ∀ x, (text.foldl (bufPut buf cap) (m, 0)).1 x =
        if buf ≤ x ∧ x - buf < text.length ∧ x - buf + 1 < cap.toNat then text.getD (x - buf) 0
          else m x := by
  induction text using List.reverseRecOn with
  | nil => exact ⟨rfl, fun x => (if_neg fun h => absurd h.2.1 (Nat.not_lt_zero _)).symm⟩
  | append_singleton text c ih =>
    rw [List.length_append, List.length_singleton] at hlen ⊢
    obtain ⟨hpos, hmem⟩ := ih (by omega)
    rw [List.foldl_append, List.foldl_cons, List.foldl_nil, bufPut, hpos, Nat.mod_eq_of_lt hlen]
    refine ⟨rfl, fun x => ?_⟩
    dsimp only
    by_cases hlast : buf ≤ x ∧ x - buf = text.length
    · have hx : x = buf + text.length := by omega
      by_cases hroom : text.length + 1 < cap.toNat
      · rw [if_pos hroom, hx, Function.update_self, if_pos (by omega),
          List.getD_append_right _ _ _ _ (by omega)]
        simp
      · rw [if_neg hroom, if_neg (by omega), hmem, if_neg (by omega)]
    · have hother : (if text.length + 1 < cap.toNat then
          Function.update (text.foldl (bufPut buf cap) (m, 0)).1 (buf + text.length) c
          else (text.foldl (bufPut buf cap) (m, 0)).1) x =
            (text.foldl (bufPut buf cap) (m, 0)).1 x := by
        split_ifs
        · exact Function.update_of_ne (by omega) _ _
        · rfl
      rw [hother, hmem]
      by_cases hin : buf ≤ x ∧ x - buf < text.length ∧ x - buf + 1 < cap.toNat
      · rw [if_pos hin, if_pos (by omega), List.getD_append _ _ _ _ hin.2.1]
      · rw [if_neg hin, if_neg (by omega)]

lemma terminate_of_pos (s : Cursor) (h : 0 < cap.toNat) :
    terminate buf cap s = Function.update s.1 (buf + min s.2 (cap.toNat - 1)) 0 := by
  by_cases hlt : s.2 < cap.toNat
  · rw [terminate, if_pos hlt, min_eq_left (by omega)]
  · rw [terminate, if_neg hlt, if_pos h, min_eq_right (by omega), Nat.add_sub_assoc h]

/-- What `tsprintf` does for a rendering that fits into memory. -/
lemma tsprintf_spec (m : Memory) {fmt : List UInt8} {args : List Arg} (hfits : Fits fmt args)
    (hlen : (render fmt args).length < 2 ^ 64) :
    ∃ m', tsprintf buf cap m fmt args =
      some (m', (BitVec.ofNat 32 (render fmt args).length).toInt) ∧
      (∀ x, x < buf ∨ buf + cap.toNat ≤ x → m' x = m x) ∧
      (0 < cap.toNat →
        (∀ i < min (render fmt args).length (cap.toNat - 1), m' (buf + i) =
          (render fmt args).getD i 0) ∧
        m' (buf + min (render fmt args).length (cap.toNat - 1)) = 0) := by
  obtain ⟨hpos, hmem⟩ := foldl_bufPut buf cap m hlen
  refine ⟨terminate buf cap ((render fmt args).foldl (bufPut buf cap) (m, 0)), ?_, fun x hx => ?_,
    fun hcap => ?_⟩
  · rw [tsprintf, (formats_tsprintfLoop buf cap).eq_render fmt (m, 0) hfits, Option.map_some, hpos]
  · have hsame : ((render fmt args).foldl (bufPut buf cap) (m, 0)).1 x = m x := by
      rw [hmem, if_neg (by omega)]
    rcases Nat.eq_zero_or_pos cap.toNat with hzero | hcap
    · rw [terminate, if_neg (by omega), if_neg (by omega), hsame]
    · rw [terminate_of_pos buf cap _ hcap, Function.update_of_ne (by omega), hsame]
  · rw [terminate_of_pos buf cap _ hcap, hpos]
    refine ⟨fun i hi => ?_, Function.update_self ..⟩
    rw [Function.update_of_ne (by omega), hmem, Nat.add_sub_cancel_left, if_pos (by omega)]

/-- `tsprintf` with any capacity, for a rendering whose length is an `int`. -/
theorem tsprintf_bounded (m : Memory) (fmt : Str) (args : List Arg) (hfits : Fits fmt.1 args)
    (hlen : (render fmt.1 args).length < 2 ^ 31) :
    ∃ m', tsprintf buf cap m fmt.1 args = some (m', ((render fmt.1 args).length : ℤ)) ∧
      (∀ x, x < buf ∨ buf + cap.toNat ≤ x → m' x = m x) ∧
      (1 ≤ cap.toNat →
        (∀ i < min (render fmt.1 args).length (cap.toNat - 1), m' (buf + i) =
          (render fmt.1 args).getD i 0) ∧
        m' (buf + min (render fmt.1 args).length (cap.toNat - 1)) = 0) := by
  have hreturn : (BitVec.ofNat 32 (render fmt.1 args).length).toInt =
    (render fmt.1 args).length := by
    rw [BitVec.toInt_eq_toNat_cond, BitVec.toNat_ofNat, Nat.mod_eq_of_lt (by omega),
      if_pos (by omega)]
  obtain ⟨m', hcall, hspec⟩ := tsprintf_spec buf cap m hfits (by omega)
  exact ⟨m', hreturn ▸ hcall, hspec⟩

end Tsprintf

/-- The format `"%d|%s%"`. -/
def sampleFormat : Str := ⟨[37, 100, 124, 37, 115, 37], by decide⟩

/-- The least `int` and a null pointer. -/
def sampleArgs : List Arg := [.word 0x80000000, .str none]

/-- Its rendering is cut inside the number: `"-214748"`. -/
theorem tsprintf_bounded_sample :
    ∃ m', tsprintf 16 8 (fun _ => 1) sampleFormat.1 sampleArgs = some (m', 19) ∧
      (∀ x, x < 16 ∨ 24 ≤ x → m' x = 1) ∧ m' 23 = 0 := by
  have hfits : Fits sampleFormat.1 sampleArgs := by
    unfold Fits
    decide +kernel
  have hlen : (render sampleFormat.1 sampleArgs).length = 19 := by decide +kernel
  obtain ⟨m', hcall, hout, hin⟩ :=
    tsprintf_bounded 16 8 (fun _ => 1) sampleFormat sampleArgs hfits (by omega)
  rw [hlen] at hcall hin
  exact ⟨m', hcall, hout, (hin (by decide)).2⟩

/-! ## Agreement -/

/-- A device that keeps what is put out. -/
def record (out : List UInt8) (c : UInt8) : List UInt8 := out ++ [c]

lemma foldl_record (text out : List UInt8) : text.foldl record out = out ++ text := by
  induction text generalizing out with
  | nil => exact (List.append_nil out).symm
  | cons c text ih => rw [List.foldl_cons, ih, record, List.append_assoc, List.singleton_append]

/-- On the screen, `tprintf` shows the rendering as `vga_puts` would. -/
theorem tprintf_screen (s : Screen) {fmt : List UInt8} {args : List Arg} (hfits : Fits fmt args) :
    tprintf vgaPutchar s fmt args = some (vgaPuts s (render fmt args)) :=
  (formats_tprintf vgaPutchar).eq_render fmt s hfits

/-- All three formatters put out the rendering of the format, in which every numeral is the
canonical one. -/
theorem formatters_agree (fmt : Str) (args : List Arg) (hfits : Fits fmt.1 args) :
    tprintf record [] fmt.1 args = some (render fmt.1 args) ∧
      serialVprintf record [] fmt.1 args = some (render fmt.1 args) ∧
      ∀ (m : Memory) (buf : ℕ) (cap : UInt64), (render fmt.1 args).length < cap.toNat →
        ∃ m' r, tsprintf buf cap m fmt.1 args = some (m', r) ∧
          (∀ i < (render fmt.1 args).length, m' (buf + i) = (render fmt.1 args).getD i 0) ∧
          m' (buf + (render fmt.1 args).length) = 0 := by
  have hrecord := foldl_record (render fmt.1 args) []
  refine ⟨?_, ?_, fun m buf cap hcap => ?_⟩
  · rw [(formats_tprintf record).eq_render fmt.1 [] hfits, hrecord, List.nil_append]
  · rw [(formats_serialVprintf record).eq_render fmt.1 [] hfits, hrecord, List.nil_append]
  · obtain ⟨m', hcall, -, hspec⟩ := tsprintf_spec buf cap m hfits (hcap.trans cap.toNat_lt)
    have hin := hspec (by omega)
    rw [min_eq_left (by omega)] at hin
    exact ⟨m', _, hcall, hin⟩

/-- `"-2147483648|(null)%"` on the console. -/
theorem formatters_agree_sample :
    tprintf record [] sampleFormat.1 sampleArgs =
      some [45, 50, 49, 52, 55, 52, 56, 51, 54, 52, 56, 124, 40, 110, 117, 108, 108, 41, 37] := by
  have hfits : Fits sampleFormat.1 sampleArgs := by
    unfold Fits
    decide +kernel
  have htext : render sampleFormat.1 sampleArgs =
      [45, 50, 49, 52, 55, 52, 56, 51, 54, 52, 56, 124, 40, 110, 117, 108, 108, 41, 37] := by
        decide +kernel
  rw [← htext]
  exact (formatters_agree sampleFormat sampleArgs hfits).1

end TraitOS.Tprintf
