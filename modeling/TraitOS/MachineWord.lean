import Mathlib.Data.Nat.Bitwise
import Mathlib.Tactic

/-!
# Machine words as bounded naturals

Counters and addresses are natural numbers; where the width of a counter can be
reached the operation reduces modulo the width. The lemmas give the exact
arithmetic meaning as long as no wrap-around happens.
-/
namespace TraitOS.MachineWord

def incr32 (x : ℕ) : ℕ := (x + 1) % 2 ^ 32
def decr32 (x : ℕ) : ℕ := (x + (2 ^ 32 - 1)) % 2 ^ 32

theorem incr32_of_lt {x : ℕ} (h : x + 1 < 2 ^ 32) : incr32 x = x + 1 :=
  Nat.mod_eq_of_lt h

theorem decr32_of_pos {x : ℕ} (h0 : 0 < x) (h : x < 2 ^ 32) : decr32 x = x - 1 := by
  unfold decr32
  omega

end TraitOS.MachineWord
