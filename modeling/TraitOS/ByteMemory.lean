import Mathlib.Data.Nat.ModEq
import Mathlib.Tactic

/-!
# Byte-addressed memory with little-endian words

A memory is a total map from addresses to bytes. Words are read and written
little-endian over consecutive bytes, so a byte store and a word read of
overlapping addresses interact as they do on the machine. Regions are compared
by their byte ranges only; nothing is assumed about alignment.
-/
namespace TraitOS.ByteMemory

abbrev Memory := ℕ → UInt8

/-- The unsigned value of `n` consecutive bytes, least significant first. -/
def loadLE (m : Memory) (a : ℕ) : ℕ → ℕ
  | 0 => 0
  | n + 1 => loadLE m a n + (m (a + n)).toNat * 256 ^ n

/-- Replace `n` consecutive bytes by the low bytes of a value. -/
def storeLE (m : Memory) (a n v : ℕ) : Memory :=
  fun x => if a ≤ x ∧ x < a + n then UInt8.ofNat (v / 256 ^ (x - a)) else m x

theorem storeLE_of_out (m : Memory) {a n x : ℕ} (v : ℕ) (h : x < a ∨ a + n ≤ x) :
    storeLE m a n v x = m x := by
  unfold storeLE
  rw [if_neg (by omega)]

theorem loadLE_lt (m : Memory) (a n : ℕ) : loadLE m a n < 256 ^ n := by
  induction n with
  | zero => simp [loadLE]
  | succ n ih =>
    have hb : (m (a + n)).toNat ≤ 255 := by have := (m (a + n)).toNat_lt; omega
    have hm := Nat.mul_le_mul_right (256 ^ n) hb
    simp only [loadLE, pow_succ]
    omega

theorem loadLE_congr {m m' : Memory} {a n : ℕ} (h : ∀ x, a ≤ x → x < a + n → m x = m' x) :
    loadLE m a n = loadLE m' a n := by
  induction n with
  | zero => rfl
  | succ n ih =>
    simp only [loadLE]
    rw [ih (fun x hx hxn => h x hx (by omega)), h (a + n) (by omega) (by omega)]

theorem loadLE_storeLE_of_disjoint (m : Memory) {a n b k : ℕ} (v : ℕ) (h : b + k ≤ a ∨ a + n ≤ b) :
    loadLE (storeLE m a n v) b k = loadLE m b k :=
  loadLE_congr (fun _ hx hxk => storeLE_of_out m v (by omega))

/-- Reading back a written word, truncated to its width. -/
theorem loadLE_storeLE_self (m : Memory) (a n v : ℕ) :
    loadLE (storeLE m a n v) a n = v % 256 ^ n := by
  suffices h : ∀ k ≤ n, loadLE (storeLE m a n v) a k = v % 256 ^ k from h n le_rfl
  intro k hk
  induction k with
  | zero => simp [loadLE, Nat.mod_one]
  | succ k ih =>
    have hbyte : (storeLE m a n v (a + k)).toNat = v / 256 ^ k % 256 := by
      unfold storeLE
      rw [if_pos (by omega), Nat.add_sub_cancel_left, UInt8.toNat_ofNat']
    simp only [loadLE]
    rw [ih (by omega), hbyte, pow_succ, Nat.mod_mul, Nat.mul_comm (256 ^ k)]

/-- Two words of one width that agree are made of the same bytes. -/
theorem loadLE_injective {m m' : Memory} {a n : ℕ} (h : loadLE m a n = loadLE m' a n) :
    ∀ i < n, m (a + i) = m' (a + i) := by
  induction n with
  | zero => intro i hi; omega
  | succ n ih =>
    simp only [loadLE] at h
    have hlow := loadLE_lt m a n
    have hlow' := loadLE_lt m' a n
    have hdiv : (m (a + n)).toNat = (m' (a + n)).toNat := by
      have h1 := congrArg (· / 256 ^ n) h
      simpa [Nat.add_mul_div_right _ _ (Nat.pow_pos (by decide : 0 < 256)),
        Nat.div_eq_of_lt hlow, Nat.div_eq_of_lt hlow'] using h1
    have hrest : loadLE m a n = loadLE m' a n := by rw [hdiv] at h; omega
    intro i hi
    by_cases hin : i = n
    · subst hin
      exact UInt8.toNat_inj.mp hdiv
    · exact ih hrest i (by omega)

/-- A word of value zero is made of zero bytes. -/
theorem eq_zero_of_loadLE {m : Memory} {a n : ℕ} (h : loadLE m a n = 0) : ∀ i < n, m (a + i) =
    0 := by
  have hzero : loadLE (fun _ => 0) a n = 0 := by
    clear h
    induction n with
    | zero => rfl
    | succ n ih => simp [loadLE, ih]
  exact loadLE_injective (h.trans hzero.symm)

@[reducible] def load32 (m : Memory) (a : ℕ) : ℕ := loadLE m a 4
@[reducible] def load64 (m : Memory) (a : ℕ) : ℕ := loadLE m a 8
@[reducible] def store64 (m : Memory) (a v : ℕ) : Memory := storeLE m a 8 v

theorem load64_lt (m : Memory) (a : ℕ) : load64 m a < 2 ^ 64 := by
  simpa using loadLE_lt m a 8

theorem load32_lt (m : Memory) (a : ℕ) : load32 m a < 2 ^ 32 := by
  simpa using loadLE_lt m a 4

theorem load64_store64_self (m : Memory) (a : ℕ) {v : ℕ} (h : v < 2 ^ 64) :
    load64 (store64 m a v) a = v := by
  rw [load64, store64, loadLE_storeLE_self]
  exact Nat.mod_eq_of_lt (by simpa using h)

theorem load64_store64_of_disjoint (m : Memory) {a b : ℕ} (v : ℕ) (h : b + 8 ≤ a ∨ a + 8 ≤ b) :
    load64 (store64 m a v) b = load64 m b :=
  loadLE_storeLE_of_disjoint m v h

/-- A region filled with one byte. -/
def fill (m : Memory) (a n : ℕ) (c : UInt8) : Memory :=
  fun x => if a ≤ x ∧ x < a + n then c else m x

/-- A region overwritten by the bytes another one held before. -/
def copy (m : Memory) (dst src n : ℕ) : Memory :=
  fun x => if dst ≤ x ∧ x < dst + n then m (src + (x - dst)) else m x

theorem fill_of_in (m : Memory) {a n x : ℕ} (c : UInt8) (h : a ≤ x) (h' : x < a + n) :
    fill m a n c x = c := if_pos ⟨h, h'⟩

theorem fill_of_out (m : Memory) {a n x : ℕ} (c : UInt8) (h : x < a ∨ a + n ≤ x) :
    fill m a n c x = m x := if_neg (by omega)

theorem fill_zero (m : Memory) (a : ℕ) (c : UInt8) : fill m a 0 c = m :=
  funext fun _ => fill_of_out m c (by omega)

theorem fill_succ (m : Memory) (a n : ℕ) (c : UInt8) :
    fill m a (n + 1) c = fill (Function.update m a c) (a + 1) n c := by
  funext x
  simp only [fill, Function.update_apply]
  grind

theorem copy_of_in (m : Memory) {dst src n x : ℕ} (h : dst ≤ x) (h' : x < dst + n) :
    copy m dst src n x = m (src + (x - dst)) := if_pos ⟨h, h'⟩

theorem copy_of_out (m : Memory) {dst src n x : ℕ} (h : x < dst ∨ dst + n ≤ x) :
    copy m dst src n x = m x := if_neg (by omega)

theorem loadLE_fill_zero (m : Memory) {a n b k : ℕ} (h : a ≤ b) (h' : b + k ≤ a + n) :
    loadLE (fill m a n 0) b k = 0 := by
  induction k with
  | zero => rfl
  | succ k ih =>
    simp only [loadLE]
    rw [ih (by omega), fill_of_in m 0 (by omega) (by omega)]
    simp

end TraitOS.ByteMemory
