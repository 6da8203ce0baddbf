import TraitOS.ByteMemory
import Mathlib.Data.List.GetD

/-!
# Strings with a terminator

A C string is the bytes from an address up to the first zero. The strings themselves are byte
lists without a zero; `HoldsStr` says that memory has one of them at an address, and at most
one can be there.
-/
namespace TraitOS.CString
open ByteMemory

/-- The bytes of a C string, without the terminator. -/
abbrev Str := {s : List UInt8 // (0 : UInt8) ∉ s}

namespace Str

def length (s : Str) : ℕ := s.1.length

/-- The byte at an index; the terminator follows the last one. -/
def byte (s : Str) (i : ℕ) : UInt8 := s.1.getD i 0

lemma byte_ne_zero {s : Str} {i : ℕ} (h : i < s.length) : s.byte i ≠ 0 := by
  have hmem : s.byte i ∈ s.1 := by
    unfold byte
    rw [List.getD_eq_getElem _ _ h]
    exact List.getElem_mem h
  intro h0
  rw [h0] at hmem
  exact s.2 hmem

lemma byte_of_le {s : Str} {i : ℕ} (h : s.length ≤ i) : s.byte i = 0 := List.getD_eq_default _ _ h

lemma ext_byte {s t : Str} (hlen : s.length = t.length) (h : ∀ i < s.length, s.byte i =
    t.byte i) : s = t := by
  refine Subtype.ext (List.ext_getElem hlen fun i hs ht => ?_)
  have hi := h i hs
  unfold byte at hi
  rwa [List.getD_eq_getElem _ _ hs, List.getD_eq_getElem _ _ ht] at hi

end Str

/-- Memory has this string at `p`. -/
def HoldsStr (m : Memory) (p : ℕ) (s : Str) : Prop := ∀ i ≤ s.length, m (p + i) = s.byte i

theorem HoldsStr.unique {m : Memory} {p : ℕ} {s t : Str} (hs : HoldsStr m p s)
    (ht : HoldsStr m p t) : s = t := by
  have hle {u v : Str} (hu : HoldsStr m p u) (hv : HoldsStr m p v) : u.length ≤ v.length := by
    by_contra hlt
    have hend := hv v.length le_rfl
    rw [hu v.length (by omega), Str.byte_of_le le_rfl] at hend
    exact Str.byte_ne_zero (not_le.mp hlt) hend
  have hlen := le_antisymm (hle hs ht) (hle ht hs)
  exact Str.ext_byte hlen fun i hi => (hs i hi.le).symm.trans (ht i (hlen ▸ hi.le))

lemma HoldsStr.congr {m m' : Memory} {p : ℕ} {s : Str} (h : HoldsStr m p s)
    (hsame : ∀ i ≤ s.length, m' (p + i) = m (p + i)) :
    HoldsStr m' p s := fun i hi => (hsame i hi).trans (h i hi)

/-- The bytes up to a terminator, at most `n` of them. -/
def readStr (m : Memory) (p : ℕ) : ℕ → List UInt8
  | 0 => []
  | n + 1 => if m p = 0 then [] else m p :: readStr m (p + 1) n

lemma readStr_eq_take {m : Memory} {p : ℕ} {s : Str} (h : HoldsStr m p s) (n : ℕ) : readStr m p n =
    s.1.take n := by
  obtain ⟨l, h0⟩ := s
  induction l generalizing p n with
  | nil =>
    have hend : m p = 0 := h 0 le_rfl
    cases n with
    | zero => rfl
    | succ n => rw [readStr, if_pos hend, List.take_nil]
  | cons c l ih =>
    have hfirst : m p = c := h 0 (Nat.zero_le _)
    have hc : c ≠ 0 := fun hc => h0 (hc ▸ List.mem_cons_self)
    have hrest : HoldsStr m (p + 1) ⟨l, fun hl => h0 (List.mem_cons_of_mem c hl)⟩ := fun i hi => by
      rw [Nat.add_assoc, Nat.add_comm 1 i]
      exact h (i + 1) (Nat.succ_le_succ hi)
    cases n with
    | zero => rfl
    | succ n => rw [readStr, hfirst, if_neg hc, ih n _ hrest, List.take_succ_cons]

lemma readStr_eq {m : Memory} {p n : ℕ} {s : Str} (h : HoldsStr m p s) (hn : s.length ≤
    n) : readStr m p n = s.1 :=
  (readStr_eq_take h n).trans (List.take_of_length_le hn)

lemma zero_notMem_readStr (m : Memory) (p n : ℕ) : (0 : UInt8) ∉ readStr m p n := by
  induction n generalizing p with
  | zero => exact List.not_mem_nil
  | succ n ih =>
    unfold readStr
    split_ifs with h
    · exact List.not_mem_nil
    · exact fun hmem => (List.mem_cons.mp hmem).elim (fun h0 => h h0.symm) (ih _)

/-- The string at an address, of which at most `n` bytes are looked at. -/
def strAt (m : Memory) (p n : ℕ) : Str := ⟨readStr m p n, zero_notMem_readStr m p n⟩

lemma strAt_eq {m : Memory} {p n : ℕ} {s : Str} (h : HoldsStr m p s) (hn : s.length ≤
    n) : strAt m p n = s :=
  Subtype.ext (readStr_eq h hn)

end TraitOS.CString
