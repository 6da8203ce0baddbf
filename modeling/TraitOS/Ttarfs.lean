import TraitOS.Tfs
import Mathlib.Data.List.DropRight

/-!
# Unpacking a tar archive

The loop of `tfs_unpack_tar` over the headers of an archive, with its 64-bit offset
arithmetic. The archive is memory from its first byte on; what the loop reads behind the
end of the archive is whatever is there.
-/
namespace TraitOS.Ttarfs
open Tfs

abbrev Archive := ℕ → UInt8

/-- The byte at an offset, which wraps like the pointer. -/
def byteAt (tar : Archive) (off : ℕ) : UInt8 := tar (off % 2 ^ 64)

def bytes (tar : Archive) (off n : ℕ) : List UInt8 :=
  (List.range n).map fun i => byteAt tar (off + i)

/-! ## Numeric fields -/

def octalValue : ℕ → List UInt8 → ℕ
  | v, [] => v
  | v, c :: cs =>
    if c < 48 ∨ 55 < c then v else octalValue (((v <<< 3) + (c.toNat - 48)) % 2 ^ 64) cs

def base256Value (v : ℕ) (cs : List UInt8) : ℕ :=
  cs.foldl (fun v c => (v <<< 8 ||| c.toNat) % 2 ^ 64) v

def tarField : List UInt8 → ℕ
  | [] => 0
  | c :: cs => if c &&& 0x80 ≠ 0 then base256Value (c &&& 0x7F).toNat cs else octalValue 0 (c :: cs)

/-- The size field of the header at an offset. -/
def tarSize (tar : Archive) (off : ℕ) : ℕ := tarField (bytes tar (off + 124) 12)

/-! ## Names -/

/-- A string of at most `n` bytes. -/
def cstr (tar : Archive) (off : ℕ) : ℕ → List UInt8
  | 0 => []
  | n + 1 => if byteAt tar off = 0 then [] else byteAt tar off :: cstr tar (off + 1) n

/-- `strip_trailing_slash`; the first byte always stays. -/
def stripTrailingSlash : List UInt8 → List UInt8
  | [] => []
  | c :: name => c :: name.rdropWhile (· == slash)

/-- The path of a member. With a prefix it is printed into 128 bytes with a terminator;
without one it is copied, and a name without terminator runs on into what follows the
buffer. -/
def memberName (tar : Archive) (spill : ℕ → List UInt8) (off : ℕ) : List UInt8 :=
  stripTrailingSlash <|
    if byteAt tar (off + 345) ≠ 0 then
      (cstr tar (off + 345) 127 ++ slash :: cstr tar off 127).take 127
    else if (cstr tar off 128).length = 128 then cstr tar off 128 ++ spill off
    else cstr tar off 128

/-! ## The loop -/

def records (size : ℕ) : ℕ := (size + 511) % 2 ^ 64 / 512

/-- The offset of the next header. -/
def tarNext (tar : Archive) (off : ℕ) : ℕ := (off + (records (tarSize tar off) + 1) * 512) % 2 ^ 64

/-- The loop goes on with the header at this offset. -/
def atHeader (tar : Archive) (len off : ℕ) : Bool := (off + 512) % 2 ^ 64 ≤ len ∧ byteAt tar off ≠ 0

/-- What the loop does with the member at an offset. -/
def unpackMember (s : Ramfs) (tar : Archive) (spill : ℕ → List UInt8) (off : ℕ) : Ramfs :=
  let typeflag := byteAt tar (off + 156)
  let size := tarSize tar off
  let full := memberName tar spill off
  if typeflag = 53 then if full = [] then s else (tfsMkdir s full).1
  else if typeflag = 48 ∨ typeflag = 0 then
    if full = [] then s
    else match tfsTouch s full with
      | (s, none) => s
      | (s, some f) => if 0 < size then (tfsWrite s f (bytes tar (off + 512) size)).1 else s
  else s

/-- At most `fuel` rounds of `tfs_unpack_tar`, from an offset. -/
def unpackFrom (tar : Archive) (len : ℕ) (spill : ℕ → List UInt8) : ℕ → Ramfs → ℕ → Ramfs
  | 0, s, _ => s
  | fuel + 1, s, off =>
    if atHeader tar len off then unpackFrom tar len spill fuel (unpackMember s tar spill off)
      (tarNext tar off)
    else s

/-! ## Progress -/

/-- The offset after a number of rounds. -/
def tarOffset (tar : Archive) : ℕ → ℕ
  | 0 => 0
  | n + 1 => tarNext tar (tarOffset tar n)

/-- The loop gets as far as the header after `n` rounds. -/
def Visits (tar : Archive) (len n : ℕ) : Prop := ∀ k ≤ n, atHeader tar len (tarOffset tar k) = true

/-- The records of the member end before the address space does. -/
def FitsAt (tar : Archive) (off : ℕ) : Prop := off + (records (tarSize tar off) + 1) * 512 < 2 ^ 64

lemma tarOffset_lt (tar : Archive) (n : ℕ) : tarOffset tar n < 2 ^ 64 := by
  cases n with
  | zero => exact Nat.two_pow_pos 64
  | succ n => exact Nat.mod_lt _ (by decide)

/-- A round goes forward by a header at least exactly when the member fits. -/
theorem progress_iff (tar : Archive) {off : ℕ} (hoff : off < 2 ^ 64) :
    off + 512 ≤ tarNext tar off ↔ FitsAt tar off := by
  have hrec : records (tarSize tar off) < 2 ^ 55 := by
    unfold records
    omega
  unfold FitsAt tarNext
  generalize records (tarSize tar off) = r at *
  constructor
  · intro h
    by_contra hno
    have hwrap : (off + (r + 1) * 512) % 2 ^ 64 = off + (r + 1) * 512 - 2 ^ 64 := by omega
    omega
  · intro h
    rw [Nat.mod_eq_of_lt h]
    omega

/-- As long as all members fit, the offset after `n` rounds is at least `512 * n`. -/
lemma tarOffset_ge {tar : Archive} {len n : ℕ}
    (hfits : ∀ k, Visits tar len k → FitsAt tar (tarOffset tar k))
    (hv : ∀ k < n, atHeader tar len (tarOffset tar k) = true) : 512 * n ≤ tarOffset tar n := by
  induction n with
  | zero => simp
  | succ n ih =>
    have hge := ih fun k hk => hv k (by omega)
    have hstep := (progress_iff tar (tarOffset_lt tar n)).mpr (hfits n fun k hk => hv k (by omega))
    simp only [tarOffset]
    omega

/-- The loop goes forward in every round exactly when every member it visits fits, and
then it ends within as many rounds as the archive has blocks. -/
theorem unpack_terminates_iff (tar : Archive) (len : ℕ) :
    ((∀ n, Visits tar len n → tarOffset tar n + 512 ≤ tarOffset tar (n + 1)) ↔
      ∀ n, Visits tar len n → FitsAt tar (tarOffset tar n)) ∧
    ((∀ n, Visits tar len n → FitsAt tar (tarOffset tar n)) →
      ∃ n ≤ len / 512, atHeader tar len (tarOffset tar n) = false) := by
  constructor
  · exact forall₂_congr fun n _ => progress_iff tar (tarOffset_lt tar n)
  · intro hfits
    by_contra hno
    have hv : ∀ n ≤ len / 512, atHeader tar len (tarOffset tar n) = true := by
      intro n hn
      by_contra h
      exact hno ⟨n, hn, by simpa using h⟩
    have hge := tarOffset_ge hfits fun k hk => hv k hk.le
    have hfit := hfits (len / 512) hv
    have hlast := hv (len / 512) le_rfl
    simp only [atHeader, decide_eq_true_eq] at hlast
    unfold FitsAt at hfit
    rw [Nat.mod_eq_of_lt (by omega)] at hlast
    omega

/-- An archive with one empty file named `a`. -/
def smallArchive : Archive := fun i => if i = 0 then 97 else 0

theorem unpack_terminates_smallArchive :
    ∃ n ≤ 1024 / 512, atHeader smallArchive 1024 (tarOffset smallArchive n) = false := by
  refine (unpack_terminates_iff smallArchive 1024).2 fun n hv => ?_
  cases n with
  | zero =>
    show 0 + (records (tarSize smallArchive 0) + 1) * 512 < 2 ^ 64
    decide +kernel
  | succ n => exact absurd (hv 1 (by omega)) (by decide +kernel)

/-- An archive whose first size field is `2 ^ 64 - 512` in base 256. -/
def stallingArchive : Archive := fun i =>
  if i = 0 then 97 else if i = 124 then 0x80 else if 128 ≤ i ∧ i < 134 then 0xFF
  else if i = 134 then 0xFE else 0

/-- The loop stays at the first header for ever. -/
theorem stalled_at_first_header :
    tarSize stallingArchive 0 = 2 ^ 64 - 512 ∧ ∀ n, tarOffset stallingArchive n = 0 ∧
    atHeader stallingArchive 1024 (tarOffset stallingArchive n) = true := by
  refine ⟨by decide +kernel, fun n => ?_⟩
  have hzero : tarOffset stallingArchive n = 0 := by
    induction n with
    | zero => rfl
    | succ n ih =>
      simp only [tarOffset, ih]
      decide +kernel
  rw [hzero]
  exact ⟨rfl, by decide +kernel⟩

end TraitOS.Ttarfs
