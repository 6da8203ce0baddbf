import TraitOS.CString

/-!
# Byte loops of the string library

The three block operations as the loops of the source, one byte at a time, and
the region updates they amount to; comparing a string in memory with another one
and copying one with a bound.
-/
namespace TraitOS.Tstring
open ByteMemory CString

/-- The forward loop of `tmemset`, after `n` bytes. -/
def tmemset (m : Memory) (s : ℕ) (c : UInt8) : ℕ → Memory
  | 0 => m
  | n + 1 => Function.update (tmemset m s c n) (s + n) c

/-- The forward loop of `tmemcpy`, after `n` bytes. -/
def tmemcpy (m : Memory) (dst src : ℕ) : ℕ → Memory
  | 0 => m
  | n + 1 =>
    let m' := tmemcpy m dst src n
    Function.update m' (dst + n) (m' (src + n))

/-- The backward loop of `tmemmove`, over the last `n` bytes first. -/
def moveBackward (m : Memory) (dst src : ℕ) : ℕ → Memory
  | 0 => m
  | n + 1 => moveBackward (Function.update m (dst + n) (m (src + n))) dst src n

def tmemmove (m : Memory) (dst src n : ℕ) : Memory :=
  if dst < src then tmemcpy m dst src n
  else if src < dst then moveBackward m dst src n
  else m

theorem tmemset_eq_fill (m : Memory) (s : ℕ) (c : UInt8) (n : ℕ) :
    tmemset m s c n = fill m s n c := by
  induction n with
  | zero =>
    funext x
    rw [fill_of_out m c (by omega)]
    rfl
  | succ n ih =>
    funext x
    rw [tmemset, ih, Function.update_apply]
    unfold fill
    by_cases hx : x = s + n
    · rw [if_pos hx, if_pos (by omega)]
    · rw [if_neg hx]
      by_cases hin : s ≤ x ∧ x < s + n
      · rw [if_pos hin, if_pos (by omega)]
      · rw [if_neg hin, if_neg (by omega)]

/-- A forward copy to a lower or disjoint place is a copy of the old bytes. -/
theorem tmemcpy_eq_copy (m : Memory) {dst src n : ℕ} (h : dst ≤ src ∨ src + n ≤ dst) :
    tmemcpy m dst src n = copy m dst src n := by
  suffices hk : ∀ k ≤ n, tmemcpy m dst src k = copy m dst src k from hk n le_rfl
  intro k hk
  induction k with
  | zero =>
    funext x
    rw [copy_of_out m (by omega)]
    rfl
  | succ k ih =>
    have hrec := ih (by omega)
    have hread : copy m dst src k (src + k) = m (src + k) := copy_of_out m (by omega)
    funext x
    rw [tmemcpy]
    rw [hrec, hread, Function.update_apply]
    by_cases hx : x = dst + k
    · rw [if_pos hx, copy_of_in m (by omega) (by omega)]
      congr 1
      omega
    · rw [if_neg hx]
      by_cases hin : dst ≤ x ∧ x < dst + k
      · rw [copy_of_in m hin.1 hin.2, copy_of_in m (by omega) (by omega)]
      · rw [copy_of_out m (by omega), copy_of_out m (by omega)]

/-- A backward copy to a higher place is a copy of the old bytes. -/
theorem moveBackward_eq_copy (m : Memory) {dst src n : ℕ} (h : src < dst) :
    moveBackward m dst src n = copy m dst src n := by
  induction n generalizing m with
  | zero =>
    funext x
    rw [copy_of_out m (by omega)]
    rfl
  | succ n ih =>
    funext x
    rw [moveBackward, ih]
    by_cases hin : dst ≤ x ∧ x < dst + n
    · rw [copy_of_in _ hin.1 hin.2, copy_of_in m (by omega) (by omega),
        Function.update_of_ne (by omega)]
    · rw [copy_of_out _ (by omega), Function.update_apply]
      by_cases hx : x = dst + n
      · rw [if_pos hx, copy_of_in m (by omega) (by omega)]
        congr 1
        omega
      · rw [if_neg hx, copy_of_out m (by omega)]

/-- `tmemmove` copies the old bytes however the two regions overlap. -/
theorem tmemmove_eq_copy (m : Memory) (dst src n : ℕ) : tmemmove m dst src n =
    copy m dst src n := by
  unfold tmemmove
  by_cases hlt : dst < src
  · rw [if_pos hlt]
    exact tmemcpy_eq_copy m (Or.inl hlt.le)
  rw [if_neg hlt]
  by_cases hgt : src < dst
  · rw [if_pos hgt]
    exact moveBackward_eq_copy m hgt
  rw [if_neg hgt]
  have heq : dst = src := by omega
  funext x
  unfold copy
  split_ifs with hin
  · congr 1
    omega
  · rfl

/-- Compare the bytes at `a` with a string and its terminator. -/
def tstrcmp (m : Memory) (a : ℕ) : List UInt8 → ℤ
  | [] => (m a).toNat
  | c :: cs => if m a ≠ 0 ∧ m a = c then tstrcmp m (a + 1) cs else (m a).toNat - c.toNat

/-- The first `n` bytes of a string, filled up with zeros. -/
def tstrncpy (m : Memory) (dst : ℕ) (src : List UInt8) (n : ℕ) : Memory :=
  fun x => if dst ≤ x ∧ x < dst + n then src.getD (x - dst) 0 else m x

theorem tstrcmp_eq_zero_iff (m : Memory) (a : ℕ) (s : Str) : tstrcmp m a s.1 = 0 ↔
    HoldsStr m a s := by
  obtain ⟨l, h0⟩ := s
  induction l generalizing a with
  | nil =>
    refine ⟨fun h i hi => ?_, fun h => ?_⟩
    · have hzero : m a = 0 := UInt8.toNat_inj.mp (Int.natCast_eq_zero.mp h)
      obtain rfl : i = 0 := Nat.le_zero.mp hi
      exact hzero
    · have hzero : m a = 0 := h 0 le_rfl
      simp [tstrcmp, hzero]
  | cons c l ih =>
    have hc : c ≠ 0 := fun hc => h0 (hc ▸ List.mem_cons_self)
    have htail : (0 : UInt8) ∉ l := fun hl => h0 (List.mem_cons_of_mem c hl)
    have hstep : HoldsStr m a ⟨c :: l, h0⟩ ↔ m a = c ∧ HoldsStr m (a + 1) ⟨l, htail⟩ := by
      refine ⟨fun h => ⟨h 0 (Nat.zero_le _), fun i hi => ?_⟩, fun h i hi => ?_⟩
      · rw [Nat.add_assoc, Nat.add_comm 1 i]
        exact h (i + 1) (Nat.succ_le_succ hi)
      · cases i with
        | zero => exact h.1
        | succ i =>
          rw [Nat.add_comm i 1, ← Nat.add_assoc]
          exact (h.2 i (Nat.le_of_succ_le_succ hi)).trans (by rw [Nat.add_comm 1 i]; rfl)
    rw [hstep, ← ih (a + 1) htail]
    by_cases heq : m a = c
    · have hgo : m a ≠ 0 ∧ m a = c := ⟨heq ▸ hc, heq⟩
      rw [tstrcmp, if_pos hgo]
      exact (and_iff_right heq).symm
    · have hstop : ¬ (m a ≠ 0 ∧ m a = c) := fun h => heq h.2
      rw [tstrcmp, if_neg hstop]
      refine iff_of_false (fun h => heq ?_) fun h => heq h.1
      exact UInt8.toNat_inj.mp (Int.ofNat.inj (sub_eq_zero.mp h))

lemma tstrncpy_of_out {m : Memory} {dst n x : ℕ} {src : List UInt8} (h : x < dst ∨ dst + n ≤ x) :
    tstrncpy m dst src n x = m x := if_neg (by omega)

/-- A string that fits with its terminator arrives whole. -/
theorem tstrncpy_holdsStr (m : Memory) (dst : ℕ) {s : Str} {n : ℕ} (h : s.length < n) :
    HoldsStr (tstrncpy m dst s.1 n) dst s := fun i hi => by
  have hin : dst ≤ dst + i ∧ dst + i < dst + n := by omega
  rw [tstrncpy, if_pos hin, Nat.add_sub_cancel_left]
  rfl

end TraitOS.Tstring
