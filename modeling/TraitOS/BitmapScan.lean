import Mathlib.Data.Finset.Card
import Mathlib.Data.Finset.Range
import Mathlib.Order.Interval.Finset.Nat
import Mathlib.Tactic

/-!
# Bitmaps in 32-bit words and linear scans over them

A bitmap keeps bit `i` at position `i % 32` of word `i / 32`. The set of clear
positions below a bound is the abstract view used by allocator proofs. The
scans are written over an arbitrary predicate: the first match of a range, and
the first run of consecutive matches with its counter carried between ranges.
-/
namespace TraitOS.BitmapScan

variable {p : ℕ → Bool}

abbrev Bitmap := ℕ → BitVec 32

def test (b : Bitmap) (i : ℕ) : Bool := (b (i / 32) >>> (i % 32)) &&& 1#32 != 0#32

def set (b : Bitmap) (i : ℕ) : Bitmap :=
  Function.update b (i / 32) (b (i / 32) ||| (1#32 <<< (i % 32)))

def clear (b : Bitmap) (i : ℕ) : Bitmap :=
  Function.update b (i / 32) (b (i / 32) &&& ~~~(1#32 <<< (i % 32)))

lemma test_eq_getLsbD (b : Bitmap) (i : ℕ) : test b i = (b (i / 32)).getLsbD (i % 32) := by
  have hand : (b (i / 32) >>> (i % 32)) &&& 1#32 =
      if (b (i / 32)).getLsbD (i % 32) then 1#32 else 0#32 := by
    apply BitVec.eq_of_getLsbD_eq
    intro j hj
    rw [BitVec.getLsbD_and, BitVec.getLsbD_ushiftRight, BitVec.getLsbD_one]
    by_cases h0 : j = 0
    · subst h0
      cases (b (i / 32)).getLsbD (i % 32) <;> simp
    · cases (b (i / 32)).getLsbD (i % 32) <;> simp [h0, BitVec.getLsbD_one]
  unfold test
  rw [hand]
  cases (b (i / 32)).getLsbD (i % 32) <;> rfl

lemma getLsbD_one_shiftLeft {i j : ℕ} (hi : i < 32) : (1#32 <<< i).getLsbD j = decide (j = i) := by
  rw [BitVec.getLsbD_shiftLeft, BitVec.getLsbD_one]
  by_cases h : j = i
  · subst h; simp [hi]
  · by_cases hlt : j < i
    · simp [hlt, h]
    · simp [h]
      omega

lemma same_bit_iff (i j : ℕ) : (j / 32 = i / 32 ∧ j % 32 = i % 32) ↔ j = i := by
  constructor
  · intro h; omega
  · rintro rfl; exact ⟨rfl, rfl⟩

@[simp] theorem test_set (b : Bitmap) (i j : ℕ) :
    test (set b i) j = (decide (j = i) || test b j) := by
  simp only [test_eq_getLsbD, set]
  by_cases hw : j / 32 = i / 32
  · rw [hw, Function.update_self, BitVec.getLsbD_or,
      getLsbD_one_shiftLeft (Nat.mod_lt _ (by decide)), Bool.or_comm]
    have := same_bit_iff i j
    by_cases hb : j % 32 = i % 32 <;> simp_all
  · rw [Function.update_of_ne hw]
    have hne : j ≠ i := fun h => hw (h ▸ rfl)
    simp [hne]

@[simp] theorem test_clear (b : Bitmap) (i j : ℕ) :
    test (clear b i) j = (!decide (j = i) && test b j) := by
  simp only [test_eq_getLsbD, clear]
  by_cases hw : j / 32 = i / 32
  · rw [hw, Function.update_self, BitVec.getLsbD_and, BitVec.getLsbD_not,
      getLsbD_one_shiftLeft (Nat.mod_lt _ (by decide)), Bool.and_comm]
    have := same_bit_iff i j
    have hlt : j % 32 < 32 := Nat.mod_lt _ (by decide)
    by_cases hb : j % 32 = i % 32 <;> simp_all
  · rw [Function.update_of_ne hw]
    have hne : j ≠ i := fun h => hw (h ▸ rfl)
    simp [hne]

/-- The clear positions below `n`. -/
def clearBelow (b : Bitmap) (n : ℕ) : Finset ℕ :=
  (Finset.range n).filter (fun i => test b i = false)

@[simp] theorem mem_clearBelow (b : Bitmap) (n i : ℕ) :
    i ∈ clearBelow b n ↔ i < n ∧ test b i = false := by simp [clearBelow]

theorem clearBelow_set (b : Bitmap) (n i : ℕ) :
    clearBelow (set b i) n = (clearBelow b n).erase i := by
  ext j
  simp only [mem_clearBelow, test_set, Finset.mem_erase, Bool.or_eq_false_iff,
    decide_eq_false_iff_not]
  tauto

theorem clearBelow_clear (b : Bitmap) {n i : ℕ} (h : i < n) :
    clearBelow (clear b i) n = insert i (clearBelow b n) := by
  ext j
  simp only [mem_clearBelow, test_clear, Finset.mem_insert, Bool.and_eq_false_iff,
    Bool.not_eq_false', decide_eq_true_eq]
  constructor
  · rintro ⟨hj, rfl | ht⟩
    · exact Or.inl rfl
    · exact Or.inr ⟨hj, ht⟩
  · rintro (rfl | ⟨hj, ht⟩)
    · exact ⟨h, Or.inl rfl⟩
    · exact ⟨hj, Or.inr ht⟩

/-- The first of `n` consecutive positions from `f` that satisfies `p`. -/
def firstFrom (p : ℕ → Bool) : ℕ → ℕ → Option ℕ
  | _, 0 => none
  | f, n + 1 => if p f then some f else firstFrom p (f + 1) n

theorem firstFrom_some {f n i : ℕ} (h : firstFrom p f n = some i) :
    f ≤ i ∧ i < f + n ∧ p i = true := by
  induction n generalizing f with
  | zero => simp [firstFrom] at h
  | succ n ih =>
    simp only [firstFrom] at h
    split_ifs at h with hp
    · cases h
      exact ⟨le_rfl, by omega, hp⟩
    · obtain ⟨h1, h2, h3⟩ := ih h
      exact ⟨by omega, by omega, h3⟩

theorem firstFrom_eq_some {f n i : ℕ} (hi : f ≤ i) (hin : i < f + n) (hp : p i = true)
    (hbefore : ∀ j, j < i → p j = false) : firstFrom p f n = some i := by
  induction n generalizing f with
  | zero => omega
  | succ n ih =>
    by_cases hif : f = i
    · subst hif
      simp only [firstFrom, hp, if_true]
    · rw [firstFrom, hbefore f (by omega)]
      exact ih (by omega) (by omega)

/-- Outcome of one range of a run scan: the start of a complete run, or the run
that is still open at the end of the range. -/
inductive RunScan where
  | found (start : ℕ)
  | carry (run start : ℕ)
  deriving DecidableEq, Repr

/-- A run that is not open yet starts at the current position. -/
def runStart (f run start : ℕ) : ℕ := if run = 0 then f else start

def scanRun (p : ℕ → Bool) (len : ℕ) : ℕ → ℕ → ℕ → ℕ → RunScan
  | _, 0, run, start => .carry run start
  | f, n + 1, run, start =>
    if p f then
      if run + 1 = len then .found (runStart f run start)
      else scanRun p len (f + 1) n (run + 1) (runStart f run start)
    else scanRun p len (f + 1) n 0 start

/-- The open run is the block of matches that ends just before `f`. -/
def OpenRun (p : ℕ → Bool) (f run start : ℕ) : Prop :=
  run = 0 ∨ (start + run = f ∧ ∀ i, start ≤ i → i < f → p i = true)

lemma OpenRun.extend {f run start : ℕ} (h : OpenRun p f run start) (hp : p f = true) :
    runStart f run start + (run + 1) = f + 1 ∧
      ∀ i, runStart f run start ≤ i → i < f + 1 → p i = true := by
  unfold runStart
  by_cases h0 : run = 0
  · simp only [if_pos h0]
    refine ⟨by omega, ?_⟩
    intro i hi hif
    have he : i = f := by omega
    exact he ▸ hp
  · obtain ⟨he, hall⟩ := h.resolve_left h0
    simp only [if_neg h0]
    refine ⟨by omega, ?_⟩
    intro i hi hif
    by_cases hlast : i = f
    · exact hlast ▸ hp
    · exact hall i hi (by omega)

/-- A reported run consists of matches, has the requested length and ends inside
the scanned range. -/
theorem scanRun_found {len f n run start s : ℕ} (hopen : OpenRun p f run start)
    (h : scanRun p len f n run start = .found s) :
    0 < len ∧ s + len ≤ f + n ∧ ∀ i, s ≤ i → i < s + len → p i = true := by
  induction n generalizing f run start with
  | zero => simp [scanRun] at h
  | succ n ih =>
    simp only [scanRun] at h
    by_cases hp : p f = true
    · obtain ⟨he, hall⟩ := hopen.extend hp
      rw [if_pos hp] at h
      split_ifs at h with hlen
      · simp only [RunScan.found.injEq] at h
        rw [h] at he hall
        refine ⟨by omega, by omega, ?_⟩
        intro i hi hil
        exact hall i hi (by omega)
      · obtain ⟨h1, h2, h3⟩ := ih (Or.inr ⟨he, hall⟩) h
        exact ⟨h1, by omega, h3⟩
    · rw [if_neg hp] at h
      obtain ⟨h1, h2, h3⟩ := ih (Or.inl rfl) h
      exact ⟨h1, by omega, h3⟩

/-- A mismatch at the first position forgets whatever run was carried in. -/
theorem scanRun_reset {len f run start : ℕ} (n : ℕ) (hp : p f = false) :
    scanRun p len f (n + 1) run start = scanRun p len (f + 1) n 0 start := by
  simp [scanRun, hp]

/-- A block of `len` matches from `a` on. -/
def Block (p : ℕ → Bool) (a len : ℕ) : Prop := ∀ i, a ≤ i → i < a + len → p i = true

lemma Block.mono {a b k len : ℕ} (h : Block p a len) (hb : a ≤ b) (hk : b + k ≤ a + len) :
    Block p b k := fun i hi hik => h i (by omega) (by omega)

lemma Block.cons {a len : ℕ} (hp : p a = true) (h : Block p (a + 1) len) : Block p a (len + 1) := by
  intro i hi hil
  by_cases ha : i = a
  · exact ha ▸ hp
  · exact h i (by omega) (by omega)

/-- The block that completes a run of `run` matches left open before `f`. -/
def Completes (p : ℕ → Bool) (len f n run : ℕ) : Prop := len ≤ run + n ∧ Block p f (len - run)

lemma completes_succ {len f n run : ℕ} (hp : p f = true) (hrun : run + 1 < len) :
    Completes p len f (n + 1) run ↔ Completes p len (f + 1) n (run + 1) := by
  unfold Completes
  constructor
  · intro ⟨hlen, hblock⟩
    exact ⟨by omega, hblock.mono (by omega) (by omega)⟩
  · intro ⟨hlen, hblock⟩
    rw [show len - run = len - (run + 1) + 1 by omega]
    exact ⟨by omega, hblock.cons hp⟩

lemma not_completes {len f n run : ℕ} (hp : p f = false) (hrun : run < len) :
    ¬ Completes p len f n run := by
  intro ⟨_, hblock⟩
  have := hblock f le_rfl (by omega)
  simp [hp] at this

/-- A scan that reports nothing met no block of the length: neither one that continues the run
it was given nor one of its own. -/
theorem scanRun_carry {len f n run start run' start' : ℕ} (hrun : run < len)
    (h : scanRun p len f n run start = .carry run' start') :
    run' < len ∧ ¬ Completes p len f n run ∧ ∀ a, f < a → a + len ≤ f + n → ¬ Block p a len := by
  induction n generalizing f run start with
  | zero =>
    simp only [scanRun, RunScan.carry.injEq] at h
    exact ⟨h.1 ▸ hrun, fun hc => by have := hc.1; omega, fun a _ _ => by omega⟩
  | succ n ih =>
    simp only [scanRun] at h
    cases hp : p f with
    | true =>
      simp only [hp, if_true] at h
      split_ifs at h with hlen
      obtain ⟨hlt, hnot, hnone⟩ := ih (by omega) h
      refine ⟨hlt, fun hc => hnot ((completes_succ hp (by omega)).mp hc), fun a ha hlast hblock =>
        ?_⟩
      by_cases hnext : a = f + 1
      · exact hnot ⟨by omega, hblock.mono (by omega) (by omega)⟩
      · exact hnone a (by omega) (by omega) hblock
    | false =>
      simp only [hp, Bool.false_eq_true, if_false] at h
      obtain ⟨hlt, hnot, hnone⟩ := ih (by omega) h
      refine ⟨hlt, not_completes hp hrun, fun a ha hlast hblock => ?_⟩
      by_cases hnext : a = f + 1
      · exact hnot ⟨by omega, hnext ▸ hblock⟩
      · exact hnone a (by omega) (by omega) hblock

/-- A reported run is the open one continued or, if that one cannot be, a later block. -/
theorem scanRun_found_cases {len f n run start s : ℕ} (hrun : run < len)
    (h : scanRun p len f n run start = .found s) :
    (Completes p len f n run ∧ s = runStart f run start) ∨
      (¬ Completes p len f n run ∧ f < s ∧ s + len ≤ f + n ∧ Block p s len) := by
  induction n generalizing f run start with
  | zero => simp [scanRun] at h
  | succ n ih =>
    simp only [scanRun] at h
    cases hp : p f with
    | true =>
      simp only [hp, if_true] at h
      split_ifs at h with hlen
      · refine Or.inl ⟨⟨by omega, fun i hi hil => ?_⟩, (RunScan.found.inj h).symm⟩
        rw [show i = f by omega, hp]
      · rw [completes_succ hp (by omega)]
        refine (ih (by omega) h).imp (And.imp_right fun hs => ?_)
          (And.imp_right fun hs => ⟨by omega, by omega, hs.2.2⟩)
        rw [hs, runStart, if_neg (by omega)]
    | false =>
      simp only [hp, Bool.false_eq_true, if_false] at h
      refine Or.inr ⟨not_completes hp hrun, ?_⟩
      obtain ⟨⟨hlen, hblock⟩, hs⟩ | ⟨_, hs, hlast, hblock⟩ := ih (by omega) h
      · rw [hs, runStart, if_pos rfl]
        exact ⟨by omega, by omega, hblock⟩
      · exact ⟨by omega, by omega, hblock⟩

/-- The run a scan leaves open is the longest block at the end of its range. -/
theorem scanRun_tail {len f n run start run' start' : ℕ} (hopen : run = 0 ∨ start + run = f)
    (h : scanRun p len f n run start = .carry run' start') :
    (run' = 0 ∨ start' + run' = f + n) ∧ (run' = run + n ∨ run' < n) ∧
      Block p (f + (n - run')) (min n run') ∧ ∀ k ≤ n, Block p (f + (n - k)) k → k ≤ run' := by
  induction n generalizing f run start with
  | zero =>
    simp only [scanRun, RunScan.carry.injEq] at h
    obtain ⟨rfl, rfl⟩ := h
    exact ⟨by omega, by omega, fun i _ _ => by omega, fun k hk _ => by omega⟩
  | succ n ih =>
    have hshift {k : ℕ} (hk : k ≤ n) : f + (n + 1 - k) = f + 1 + (n - k) := by omega
    simp only [scanRun] at h
    cases hp : p f with
    | true =>
      simp only [hp, if_true] at h
      split_ifs at h with hlen
      have hstart : runStart f run start + (run + 1) = f + 1 := by
        unfold runStart
        split_ifs <;> omega
      obtain ⟨hend, hlong, htail, hmax⟩ := ih (Or.inr hstart) h
      refine ⟨by omega, by omega, ?_, fun k hk hblock => ?_⟩
      · by_cases hn : run' ≤ n
        · rw [hshift hn, min_eq_right (by omega)]
          exact htail.mono le_rfl (by omega)
        · rw [min_eq_left (by omega), show n + 1 - run' = 0 by omega]
          refine Block.cons hp (htail.mono (by omega) (by omega))
      · by_cases hn : k ≤ n
        · exact hmax k hn (hshift hn ▸ hblock)
        · have := hmax n le_rfl (hblock.mono (by omega) (by omega))
          omega
    | false =>
      simp only [hp, Bool.false_eq_true, if_false] at h
      obtain ⟨hend, hlong, htail, hmax⟩ := ih (Or.inl rfl) h
      refine ⟨by omega, by omega, ?_, fun k hk hblock => ?_⟩
      · rw [hshift (by omega), min_eq_right (by omega)]
        exact htail.mono le_rfl (by omega)
      · by_cases hn : k ≤ n
        · exact hmax k hn (hshift hn ▸ hblock)
        · exact absurd (hblock f (by omega) (by omega)) (by simp [hp])

end TraitOS.BitmapScan
