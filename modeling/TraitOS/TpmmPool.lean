import TraitOS.Tpmm

/-!
# The frame manager as a pool of free frames

The abstract state is the finite set of free frames. A valid manager keeps its
counter equal to the size of that set, every bit at or above the frame count
set, and frame zero used; frame zero is what stops a run left open at the top of
memory from being continued at the bottom. Each operation is described once by
its effect on the pool, and later developments use only these descriptions.
-/
namespace TraitOS.Tpmm
open BitmapScan MachineWord

variable {s : Pmm} {start n : ℕ}

def freeSet (s : Pmm) : Finset ℕ := clearBelow s.bitmap s.totalFrames

@[simp] theorem mem_freeSet (s : Pmm) (f : ℕ) :
    f ∈ freeSet s ↔ f < s.totalFrames ∧ bitTest s.bitmap f = false := by
  simp [freeSet, bitTest]

/-- The bookkeeping agrees with the bitmap. -/
structure Counted (s : Pmm) : Prop where
  total_le : s.totalFrames ≤ pmmMaxFrames
  hint_le : s.firstFreeHint ≤ s.totalFrames
  above_used : ∀ f, s.totalFrames ≤ f → f < pmmMaxFrames → bitTest s.bitmap f = true
  free_eq : s.freeFrames = (freeSet s).card

structure Valid (s : Pmm) : Prop extends Counted s where
  zero_used : 0 ∉ freeSet s

lemma isFree_iff (s : Pmm) (f : ℕ) : isFree s f = true ↔ bitTest s.bitmap f = false := by
  simp [isFree]

lemma card_freeSet_le (s : Pmm) : (freeSet s).card ≤ s.totalFrames := by
  have h : freeSet s ⊆ Finset.range s.totalFrames := Finset.filter_subset _ _
  simpa using Finset.card_le_card h

lemma bitTest_bitSet (b : Bitmap) {f : ℕ} (hf : f < pmmMaxFrames) (g : ℕ) :
    bitTest (bitSet b f) g = (decide (g = f) || bitTest b g) := by
  simp [bitTest, bitSet, hf]

lemma bitTest_bitClear (b : Bitmap) {f : ℕ} (hf : f < pmmMaxFrames) (g : ℕ) :
    bitTest (bitClear b f) g = (!decide (g = f) && bitTest b g) := by
  simp [bitTest, bitClear, hf]

@[simp] theorem markFrames_totalFrames (s : Pmm) (start n : ℕ) :
    (markFrames s start n).totalFrames = s.totalFrames := by
  induction n with
  | zero => rfl
  | succ n ih => exact ih

@[simp] theorem takeFrames_totalFrames (s : Pmm) (start n : ℕ) :
    (takeFrames s start n).totalFrames = s.totalFrames := markFrames_totalFrames s start n

lemma markFrames_bitTest (h : start + n ≤ pmmMaxFrames) (g : ℕ) :
    bitTest (markFrames s start n).bitmap g =
      (decide (start ≤ g ∧ g < start + n) || bitTest s.bitmap g) := by
  induction n with
  | zero =>
    have hg : ¬ (start ≤ g ∧ g < start + 0) := by omega
    rw [decide_eq_false hg]
    rfl
  | succ n ih =>
    simp only [markFrames]
    rw [bitTest_bitSet _ (by omega), ih (by omega), ← Bool.or_assoc, ← Bool.decide_or]
    congr 2
    exact propext (by omega)

lemma markFrames_freeSet (h : start + n ≤ pmmMaxFrames) :
    freeSet (markFrames s start n) = freeSet s \ Finset.Ico start (start + n) := by
  ext g
  simp only [mem_freeSet, markFrames_totalFrames, markFrames_bitTest h, Finset.mem_sdiff,
    Finset.mem_Ico, Bool.or_eq_false_iff, decide_eq_false_iff_not]
  tauto

/-- The counter follows the pool because each marked frame was free before. -/
lemma markFrames_freeFrames (hv : Counted s) (hfree : Finset.Ico start (start + n) ⊆ freeSet s) :
    (markFrames s start n).freeFrames + n = s.freeFrames := by
  induction n with
  | zero => rfl
  | succ n ih =>
    have hsub : Finset.Ico start (start + n) ⊆ Finset.Ico start (start + (n + 1)) :=
      Finset.Ico_subset_Ico_right (by omega)
    have hrec := ih (hsub.trans hfree)
    have hcard := Finset.card_le_card hfree
    rw [Nat.card_Ico, ← hv.free_eq] at hcard
    have htotal := card_freeSet_le s
    have hmax := hv.total_le
    rw [← hv.free_eq] at htotal
    unfold pmmMaxFrames pmmMaxAddr pageSize at hmax
    simp only [markFrames, decr32]
    omega

lemma Ico_bound (hv : Valid s) (hn : 0 < n) (hfree : Finset.Ico start (start + n) ⊆ freeSet s) :
    start + n ≤ s.totalFrames ∧ 0 < start := by
  have hlast : start + (n - 1) ∈ freeSet s := hfree (by simp; omega)
  have hfirst : start ∈ freeSet s := hfree (by simp; omega)
  have hz : start ≠ 0 := by
    intro h
    exact hv.zero_used (h ▸ hfirst)
  have := ((mem_freeSet s _).mp hlast).1
  exact ⟨by omega, by omega⟩

theorem takeFrames_freeSet (hv : Valid s) (hn : 0 < n)
    (hfree : Finset.Ico start (start + n) ⊆ freeSet s) :
    freeSet (takeFrames s start n) = freeSet s \ Finset.Ico start (start + n) := by
  have hb := (Ico_bound hv hn hfree).1
  exact markFrames_freeSet (hb.trans hv.total_le)

theorem takeFrames_valid (hv : Valid s) (hn : 0 < n)
    (hfree : Finset.Ico start (start + n) ⊆ freeSet s) : Valid (takeFrames s start n) := by
  have hb := Ico_bound hv hn hfree
  have hset := takeFrames_freeSet hv hn hfree
  refine ⟨⟨?_, ?_, ?_, ?_⟩, ?_⟩
  · simpa using hv.total_le
  · simpa [takeFrames] using hb.1
  · intro f hf hmax
    have hbit : bitTest (takeFrames s start n).bitmap f = _ :=
      markFrames_bitTest (hb.1.trans hv.total_le) f
    rw [hbit, hv.above_used f (by simpa using hf) hmax, Bool.or_true]
  · have hc := markFrames_freeFrames hv.toCounted hfree
    rw [hset, Finset.card_sdiff_of_subset hfree, Nat.card_Ico, ← hv.free_eq]
    simp only [takeFrames]
    omega
  · rw [hset]
    intro h0
    exact hv.zero_used (Finset.mem_sdiff.mp h0).1

/-- What an allocation of `n` frames does: nothing, reported by zero, or taking
`n` free consecutive frames and reporting the address of the first. -/
def AllocSpec (s : Pmm) (r : Pmm × ℕ) (n : ℕ) : Prop :=
  (r.1 = s ∧ r.2 = 0) ∨
    ∃ start, r = (takeFrames s start n, start * pageSize) ∧ 0 < n ∧
      Finset.Ico start (start + n) ⊆ freeSet s

/-- A reported range of `n` frames ends at or below 1 GiB. -/
def BelowGiB (r : Pmm × ℕ) (n : ℕ) : Prop :=
  r.2 = 0 ∨ r.2 + n * pageSize ≤ lowFrames * pageSize

lemma scanFree_some {a b f : ℕ} (h : scanFree s a b = some f) (hb : b ≤ s.totalFrames) :
    f < b ∧ f ∈ freeSet s := by
  obtain ⟨h1, h2, h3⟩ := firstFrom_some h
  rw [isFree_iff] at h3
  exact ⟨by omega, (mem_freeSet s f).mpr ⟨by omega, h3⟩⟩

lemma Ico_one_subset {f : ℕ} (h : f ∈ freeSet s) : Finset.Ico f (f + 1) ⊆ freeSet s := by
  intro g hg
  have he : g = f := by simp at hg; omega
  exact he ▸ h

theorem tpmmAlloc_spec (hv : Valid s) : AllocSpec s (tpmmAlloc s) 1 := by
  have hh := hv.hint_le
  unfold tpmmAlloc
  cases h1 : scanFree s s.firstFreeHint s.totalFrames with
  | some f => exact Or.inr ⟨f, rfl, one_pos, Ico_one_subset (scanFree_some h1 le_rfl).2⟩
  | none =>
    cases h2 : scanFree s 0 (min s.firstFreeHint s.totalFrames) with
    | some f => exact Or.inr ⟨f, rfl, one_pos, Ico_one_subset (scanFree_some h2 (by omega)).2⟩
    | none => exact Or.inl ⟨rfl, rfl⟩

theorem tpmmAllocLow_spec (hv : Valid s) :
    AllocSpec s (tpmmAllocLow s) 1 ∧ BelowGiB (tpmmAllocLow s) 1 := by
  have hh := hv.hint_le
  unfold tpmmAllocLow
  cases h1 : scanFree s s.firstFreeHint (min lowFrames s.totalFrames) with
  | some f =>
    obtain ⟨hf, hfree⟩ := scanFree_some h1 (by omega)
    refine ⟨Or.inr ⟨f, rfl, one_pos, Ico_one_subset hfree⟩, Or.inr ?_⟩
    simp only [pageSize]
    omega
  | none =>
    cases h2 : scanFree s 0 (min s.firstFreeHint lowFrames) with
    | some f =>
      obtain ⟨hf, hfree⟩ := scanFree_some h2 (by omega)
      refine ⟨Or.inr ⟨f, rfl, one_pos, Ico_one_subset hfree⟩, Or.inr ?_⟩
      simp only [pageSize]
      omega
    | none => exact ⟨Or.inl ⟨rfl, rfl⟩, Or.inl rfl⟩

lemma run_free {start len cap : ℕ} (hcap : cap ≤ s.totalFrames) (hle : start + len ≤ cap)
    (hall : ∀ i, start ≤ i → i < start + len → isFree s i = true) :
    Finset.Ico start (start + len) ⊆ freeSet s := by
  intro i hi
  obtain ⟨h1, h2⟩ := Finset.mem_Ico.mp hi
  exact (mem_freeSet s i).mpr ⟨by omega, (isFree_iff s i).mp (hall i h1 h2)⟩

/-- Both scans report free runs below the cap. The second one starts at frame
zero, which is used, so a run carried over the top of memory is dropped. -/
lemma scanContig_some (hv : Valid s) {pages cap stop start : ℕ} (hcap : cap ≤ s.totalFrames)
    (hstop : stop ≤ cap) (h : scanContig s pages cap stop = some start) :
    0 < pages ∧ start + pages ≤ cap ∧ Finset.Ico start (start + pages) ⊆ freeSet s := by
  unfold scanContig at h
  cases h1 : scanRun (isFree s) pages s.firstFreeHint (cap - s.firstFreeHint) 0 0 with
  | found st =>
    rw [h1] at h
    cases h
    obtain ⟨hpos, hle, hall⟩ := scanRun_found (Or.inl rfl) h1
    have hcs : s.firstFreeHint < cap := by
      by_contra hc
      rw [Nat.sub_eq_zero_of_le (by omega)] at h1
      simp [scanRun] at h1
    exact ⟨hpos, by omega, run_free hcap (by omega) hall⟩
  | carry run st =>
    simp only [h1] at h
    cases stop with
    | zero => simp [scanRun] at h
    | succ k =>
      have hz : isFree s 0 = false := by
        have hnot := hv.zero_used
        rw [mem_freeSet] at hnot
        simpa [isFree] using fun h => hnot ⟨by omega, h⟩
      rw [scanRun_reset k hz] at h
      cases h2 : scanRun (isFree s) pages (0 + 1) k 0 st with
      | found st' =>
        rw [h2] at h
        cases h
        obtain ⟨hpos, hle, hall⟩ := scanRun_found (Or.inl rfl) h2
        exact ⟨hpos, by omega, run_free hcap (by omega) hall⟩
      | carry run' st' => simp [h2] at h

theorem tpmmAllocContig_spec (hv : Valid s) (pages : ℕ) :
    AllocSpec s (tpmmAllocContig s pages) pages := by
  unfold tpmmAllocContig
  cases h : scanContig s pages s.totalFrames s.firstFreeHint with
  | none => exact Or.inl ⟨rfl, rfl⟩
  | some start =>
    obtain ⟨hpos, -, hfree⟩ := scanContig_some hv le_rfl hv.hint_le h
    exact Or.inr ⟨start, rfl, hpos, hfree⟩

theorem tpmmAllocLowContig_spec (hv : Valid s) (pages : ℕ) :
    AllocSpec s (tpmmAllocLowContig s pages) pages ∧
      BelowGiB (tpmmAllocLowContig s pages) pages := by
  unfold tpmmAllocLowContig
  dsimp only
  split_ifs with hp
  · exact ⟨Or.inl ⟨rfl, rfl⟩, Or.inl rfl⟩
  · cases h : scanContig s pages (min lowFrames s.totalFrames)
      (min s.firstFreeHint (min lowFrames s.totalFrames)) with
    | none => exact ⟨Or.inl ⟨rfl, rfl⟩, Or.inl rfl⟩
    | some start =>
      obtain ⟨hpos, hle, hfree⟩ := scanContig_some hv (by omega) (by omega) h
      refine ⟨Or.inr ⟨start, rfl, hpos, hfree⟩, Or.inr ?_⟩
      simp only [pageSize]
      omega

/-- An allocation keeps the manager valid, whichever outcome it has. -/
theorem AllocSpec.valid {r : Pmm × ℕ} {n : ℕ} (hv : Valid s) (h : AllocSpec s r n) : Valid r.1 := by
  rcases h with ⟨h1, -⟩ | ⟨start, rfl, hn, hfree⟩
  · exact h1 ▸ hv
  · exact takeFrames_valid hv hn hfree

theorem AllocSpec.totalFrames {r : Pmm × ℕ} {n : ℕ} (h : AllocSpec s r n) :
    r.1.totalFrames = s.totalFrames := by
  rcases h with ⟨h1, -⟩ | ⟨start, rfl, hn, hfree⟩
  · rw [h1]
  · simp

/-- The frames a nonzero result stands for. -/
def grantFrames (phys n : ℕ) : Finset ℕ := Finset.Ico (phys / pageSize) (phys / pageSize + n)

/-- A nonzero result is page aligned, its frames were free, and they are exactly
what leaves the pool. -/
theorem AllocSpec.granted {r : Pmm × ℕ} {n : ℕ} (hv : Valid s) (h : AllocSpec s r n)
    (h0 : r.2 ≠ 0) :
    r.2 % pageSize = 0 ∧ 0 < n ∧ grantFrames r.2 n ⊆ freeSet s ∧
      freeSet r.1 = freeSet s \ grantFrames r.2 n := by
  rcases h with ⟨-, h2⟩ | ⟨start, rfl, hn, hfree⟩
  · exact absurd h2 h0
  · have hdiv : start * pageSize / pageSize = start := Nat.mul_div_cancel _ (by decide)
    simp only [grantFrames, hdiv]
    exact ⟨Nat.mul_mod_left _ _, hn, hfree, takeFrames_freeSet hv hn hfree⟩

/-- A zero result leaves the manager as it was: frame zero is never granted. -/
theorem AllocSpec.refused {r : Pmm × ℕ} {n : ℕ} (hv : Valid s) (h : AllocSpec s r n)
    (h0 : r.2 = 0) : r.1 = s := by
  rcases h with ⟨h1, -⟩ | ⟨start, rfl, hn, hfree⟩
  · exact h1
  · have := (Ico_bound hv hn hfree).2
    simp only [pageSize] at h0
    omega

theorem giveFrame_spec (hv : Counted s) {f : ℕ} (hf : f < s.totalFrames) :
    Counted (giveFrame s f) ∧ freeSet (giveFrame s f) = insert f (freeSet s) ∧
      (giveFrame s f).totalFrames = s.totalFrames := by
  have hmax : f < pmmMaxFrames := hf.trans_le hv.total_le
  unfold giveFrame
  by_cases ht : bitTest s.bitmap f = true
  · rw [if_pos ht]
    have hset : freeSet { s with
        bitmap := bitClear s.bitmap f
        freeFrames := incr32 s.freeFrames
        firstFreeHint := if f < s.firstFreeHint then f else s.firstFreeHint } =
        insert f (freeSet s) := by
      simp only [freeSet, bitClear, hmax, if_true]
      exact clearBelow_clear s.bitmap hf
    refine ⟨⟨hv.total_le, ?_, ?_, ?_⟩, hset, rfl⟩
    · have := hv.hint_le
      dsimp only
      split_ifs <;> omega
    · intro g hg hgm
      have hne : g ≠ f := by dsimp only at hg; omega
      rw [bitTest_bitClear _ hmax, hv.above_used g hg hgm]
      simp [hne]
    · have hnot : f ∉ freeSet s := by simp [ht]
      have hle := card_freeSet_le s
      have hcap := hv.total_le
      unfold pmmMaxFrames pmmMaxAddr pageSize at hcap
      rw [hset, Finset.card_insert_of_notMem hnot, ← hv.free_eq]
      rw [← hv.free_eq] at hle
      simp only [incr32]
      omega
  · rw [if_neg ht]
    refine ⟨hv, ?_, rfl⟩
    have hmem : f ∈ freeSet s := (mem_freeSet s f).mpr ⟨hf, by simpa using ht⟩
    exact (Finset.insert_eq_of_mem hmem).symm

/-- Freeing a managed frame other than frame zero adds it to the pool. -/
theorem tpmmFree_spec (hv : Valid s) {phys : ℕ} (hf : frameOf phys < s.totalFrames)
    (h0 : frameOf phys ≠ 0) :
    Valid (tpmmFree s phys) ∧ freeSet (tpmmFree s phys) = insert (frameOf phys) (freeSet s) ∧
      (tpmmFree s phys).totalFrames = s.totalFrames := by
  obtain ⟨hc, hset, ht⟩ := giveFrame_spec hv.toCounted hf
  unfold tpmmFree
  rw [if_neg (by omega)]
  refine ⟨⟨hc, ?_⟩, hset, ht⟩
  rw [hset, Finset.mem_insert, not_or]
  exact ⟨Ne.symm h0, hv.zero_used⟩

theorem reserveFrame_spec (hv : Counted s) (phys : ℕ) :
    Counted (reserveFrame s phys) ∧
      freeSet (reserveFrame s phys) = (freeSet s).erase (frameOf phys) ∧
      (reserveFrame s phys).totalFrames = s.totalFrames := by
  unfold reserveFrame
  dsimp only
  by_cases hout : s.totalFrames ≤ frameOf phys
  · rw [if_pos hout]
    have hnot : frameOf phys ∉ freeSet s := by simp; omega
    exact ⟨hv, (Finset.erase_eq_of_notMem hnot).symm, rfl⟩
  · rw [if_neg hout]
    have hf : frameOf phys < s.totalFrames := by omega
    have hmax : frameOf phys < pmmMaxFrames := hf.trans_le hv.total_le
    have hset : freeSet { s with
        freeFrames := if bitTest s.bitmap (frameOf phys) then s.freeFrames
          else decr32 s.freeFrames
        bitmap := bitSet s.bitmap (frameOf phys) } = (freeSet s).erase (frameOf phys) := by
      simp only [freeSet, bitSet, hmax, if_true]
      exact clearBelow_set _ _ _
    refine ⟨⟨hv.total_le, hv.hint_le, ?_, ?_⟩, hset, rfl⟩
    · intro g hg hgm
      rw [bitTest_bitSet _ hmax, hv.above_used g hg hgm, Bool.or_true]
    · rw [hset]
      dsimp only
      split_ifs with ht
      · have hnot : frameOf phys ∉ freeSet s := by simp [ht]
        rw [Finset.erase_eq_of_notMem hnot]
        exact hv.free_eq
      · have hmem : frameOf phys ∈ freeSet s := (mem_freeSet s _).mpr ⟨hf, by simpa using ht⟩
        have hpos := Finset.card_pos.mpr ⟨_, hmem⟩
        have hle := card_freeSet_le s
        have hcap := hv.total_le
        unfold pmmMaxFrames pmmMaxAddr pageSize at hcap
        rw [Finset.card_erase_of_mem hmem, ← hv.free_eq]
        rw [← hv.free_eq] at hpos hle
        simp only [decr32]
        omega

/-- The frames a range call visits. -/
def regionFrames (base size : ℕ) : Finset ℕ := ((regionPages base size).map frameOf).toFinset

lemma foldl_reserveFrame_spec (pages : List ℕ) (hv : Counted s) :
    Counted (pages.foldl reserveFrame s) ∧
      freeSet (pages.foldl reserveFrame s) = freeSet s \ (pages.map frameOf).toFinset ∧
      (pages.foldl reserveFrame s).totalFrames = s.totalFrames := by
  induction pages generalizing s with
  | nil => simp [hv]
  | cons a as ih =>
    obtain ⟨hv1, hset1, ht1⟩ := reserveFrame_spec hv a
    obtain ⟨hv2, hset2, ht2⟩ := ih hv1
    refine ⟨hv2, ?_, ht2.trans ht1⟩
    simp only [List.foldl_cons, List.map_cons, List.toFinset_cons]
    rw [hset2, hset1]
    ext g
    simp only [Finset.mem_sdiff, Finset.mem_erase, Finset.mem_insert]
    tauto

/-- Reserving a range removes its frames from the pool, used or not before. -/
theorem reserveRegion_spec (hv : Counted s) (base size : ℕ) :
    Counted (reserveRegion s base size) ∧
      freeSet (reserveRegion s base size) = freeSet s \ regionFrames base size ∧
      (reserveRegion s base size).totalFrames = s.totalFrames :=
  foldl_reserveFrame_spec (regionPages base size) hv

lemma releasePages_spec (pages : List ℕ) (hv : Counted s)
    (hin : ∀ a ∈ pages, frameOf a < s.totalFrames) :
    Counted (releasePages s pages) ∧
      freeSet (releasePages s pages) = freeSet s ∪ (pages.map frameOf).toFinset ∧
      (releasePages s pages).totalFrames = s.totalFrames := by
  induction pages generalizing s with
  | nil => simp [releasePages, hv]
  | cons a as ih =>
    have ha := hin a List.mem_cons_self
    obtain ⟨hv1, hset1, ht1⟩ := giveFrame_spec hv ha
    obtain ⟨hv2, hset2, ht2⟩ := ih hv1 (fun b hb => by
      rw [ht1]
      exact hin b (List.mem_cons_of_mem _ hb))
    simp only [releasePages]
    rw [if_neg (by omega)]
    refine ⟨hv2, ?_, ht2.trans ht1⟩
    simp only [List.map_cons, List.toFinset_cons]
    rw [hset2, hset1]
    ext g
    simp only [Finset.mem_union, Finset.mem_insert]
    tauto

/-- Releasing a range of managed frames adds them to the pool. -/
theorem tpmmReleaseRange_spec (hv : Counted s) {base size : ℕ}
    (hin : ∀ f ∈ regionFrames base size, f < s.totalFrames) :
    Counted (tpmmReleaseRange s base size) ∧
      freeSet (tpmmReleaseRange s base size) = freeSet s ∪ regionFrames base size ∧
      (tpmmReleaseRange s base size).totalFrames = s.totalFrames := by
  apply releasePages_spec (regionPages base size) hv
  intro a ha
  apply hin
  exact List.mem_toFinset.mpr (List.mem_map_of_mem ha)

end TraitOS.Tpmm
