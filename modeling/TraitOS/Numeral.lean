import Mathlib.Tactic

/-!
# Digit loops

A loop that writes a number in some base pushes the digits on a stack, the last one first, and then
pops them. What it pops is the usual numeral, `Nat.toDigits`.
-/
namespace TraitOS.Numeral

/-- The digit byte of a value below the base. -/
def digitByte (k : ℕ) : UInt8 := (Nat.digitChar k).toUInt8

/-- The bytes of a number in a base, most significant digit first. -/
def numeral (base n : ℕ) : List UInt8 := (Nat.toDigits base n).map Char.toUInt8

lemma numeral_of_lt {base n : ℕ} (h : n < base) : numeral base n = [digitByte n] := by
  rw [numeral, Nat.toDigits_of_lt_base h]
  rfl

lemma numeral_of_le {base n : ℕ} (hbase : 1 < base) (h : base ≤ n) :
    numeral base n = numeral base (n / base) ++ [digitByte (n % base)] := by
  rw [numeral, Nat.toDigits_of_base_le hbase h, List.map_append]
  rfl

lemma digitByte_ne_zero {k : ℕ} (h : k < 16) : digitByte k ≠ 0 := by
  have hall : ∀ k : Fin 16, digitByte k ≠ 0 := by decide
  exact hall ⟨k, h⟩

/-- A numeral is a string. -/
lemma zero_notMem_numeral {base : ℕ} (hbase : 1 < base) (hle : base ≤ 16) (n : ℕ) : (0 : UInt8) ∉
    numeral base n := by
  induction n using Nat.strong_induction_on with
  | _ n ih =>
    rcases Nat.lt_or_ge n base with h | h
    · rw [numeral_of_lt h, List.mem_singleton]
      exact (digitByte_ne_zero (h.trans_le hle)).symm
    · have hdigit := digitByte_ne_zero ((Nat.mod_lt n (by omega)).trans_le hle)
      have hrest := ih (n / base) (Nat.div_lt_self (by omega) hbase)
      rw [numeral_of_le hbase h, List.mem_append, List.mem_singleton]
      exact not_or.mpr ⟨hrest, hdigit.symm⟩

lemma numeral_length_le {base n k : ℕ} (hbase : 1 < base) (hk : 0 < k) (h : n < base ^ k) :
    (numeral base n).length ≤ k := by
  rw [numeral, List.length_map]
  exact (Nat.length_toDigits_le_iff hbase hk).mpr h

/-- One turn of a loop: the digit it takes off a number, and what remains of the number. -/
structure DigitLoop where
  digit : ℕ → UInt8
  rest : ℕ → ℕ
  rest_lt : ∀ u, u ≠ 0 → rest u < u

namespace DigitLoop
variable (l : DigitLoop)

/-- The stack after the loop `while (u)`. -/
def push (tmp : List UInt8) (u : ℕ) : List UInt8 :=
  if h : u = 0 then tmp else push (l.digit u :: tmp) (l.rest u)
termination_by u
decreasing_by exact l.rest_lt u h

/-- The digits as they are popped; the number zero gets its digit before the loop. -/
def digits (u : ℕ) : List UInt8 := l.push (if u = 0 then [48] else []) u

/-- The turns are those of a base. -/
structure InBase (base : ℕ) : Prop where
  digit : ∀ u, l.digit u = digitByte (u % base)
  rest : ∀ u, l.rest u = u / base

variable {l} {base : ℕ}

lemma InBase.push_eq (h : l.InBase base) (hbase : 1 < base) (tmp : List UInt8) {u : ℕ}
    (hu : u ≠ 0) : l.push tmp u = numeral base u ++ tmp := by
  induction u using Nat.strong_induction_on generalizing tmp with
  | _ u ih =>
    rw [push, dif_neg hu, h.digit, h.rest]
    rcases Nat.lt_or_ge u base with hlt | hge
    · rw [Nat.div_eq_of_lt hlt, Nat.mod_eq_of_lt hlt, numeral_of_lt hlt, push, dif_pos rfl]
      rfl
    · have hpos := Nat.div_pos hge (by omega)
      rw [ih (u / base) (Nat.div_lt_self (by omega) hbase) _ (by omega), numeral_of_le hbase hge,
        List.append_assoc]
      rfl

/-- The loop and its special case for zero write the numeral. -/
theorem InBase.digits_eq (h : l.InBase base) (hbase : 1 < base) (u : ℕ) : l.digits u =
    numeral base u := by
  rw [digits]
  by_cases hu : u = 0
  · rw [if_pos hu, push, dif_pos hu, hu, numeral_of_lt (by omega)]
    rfl
  · rw [if_neg hu, h.push_eq hbase [] hu, List.append_nil]

end DigitLoop

end TraitOS.Numeral
