import TraitOS.TpmmPool
import TraitOS.Multiboot

/-!
# Building the frame map at boot

`tpmm_init` starts with every frame used, frees the whole frames of each
available memory-map entry below 4 GiB, and then reserves the low 1 MiB and the
loaded kernel image. The source narrows an entry's first frame to 32 bits and
adds base and length in 64 bits; both are kept. A zero entry size divides by
zero and has no result.
-/
namespace TraitOS.Tpmm
open BitmapScan ByteMemory MachineWord Multiboot

/-- The image as the linker script places it: from 1 MiB up to a symbol below
4 GiB. -/
structure KernelImage where
  physEnd : ℕ
  start_le : 0x100000 ≤ physEnd
  end_le : physEnd ≤ pmmMaxAddr

def kernelPhysStart : ℕ := 0x100000

def freshPmm : Pmm := ⟨fun _ => 0xFFFFFFFF#32, 0, 0, 0⟩

def importFrame (s : Pmm) (f : ℕ) : Pmm :=
  let s := if bitTest s.bitmap f then
      { s with bitmap := bitClear s.bitmap f, freeFrames := incr32 s.freeFrames }
    else s
  if s.totalFrames ≤ f then { s with totalFrames := f + 1 } else s

def importFrames (s : Pmm) (f : ℕ) : ℕ → Pmm
  | 0 => s
  | n + 1 => importFrames (importFrame s f) (f + 1) n

def entryAvailable (m : Memory) (e : ℕ) : Prop := load32 m (e + 16) = 1

instance (m : Memory) (e : ℕ) : Decidable (entryAvailable m e) :=
  inferInstanceAs (Decidable (load32 m (e + 16) = 1))

/-- First whole frame of an entry, after the source's conversions. -/
def entryFirst (m : Memory) (e : ℕ) : ℕ :=
  (load64 m e + (pageSize - 1)) % 2 ^ 64 / pageSize % 2 ^ 32

/-- One past the last whole frame of an entry below the 4 GiB ceiling. -/
def entryLast (m : Memory) (e : ℕ) : ℕ :=
  min ((load64 m e + load64 m (e + 8)) % 2 ^ 64) pmmMaxAddr / pageSize

def importEntry (m : Memory) (s : Pmm) (e : ℕ) : Pmm :=
  if entryAvailable m e then importFrames s (entryFirst m e) (entryLast m e - entryFirst m e)
  else s

def importEntries (m : Memory) (entrySize : ℕ) (s : Pmm) (e : ℕ) : ℕ → Pmm
  | 0 => s
  | n + 1 => importEntries m entrySize (importEntry m s e) (e + entrySize) n

def entrySize (m : Memory) (p : ℕ) : ℕ := load32 m (p + 8)

/-- `(size - 16) / entry_size`, in 32 bits. -/
def entryCount (m : Memory) (p : ℕ) : ℕ :=
  (tagSize m p + (2 ^ 32 - 16)) % 2 ^ 32 / entrySize m p

def importTag (m : Memory) (s : Pmm) (p : ℕ) : Option Pmm :=
  if tagType m p = 6 then
    if entrySize m p = 0 then none
    else some (importEntries m (entrySize m p) s (p + 16) (entryCount m p))
  else some s

def tpmmInit (m : Memory) (mbi : ℕ) (image : KernelImage) : Option Pmm :=
  (tagLoop m (infoEnd m mbi) (importTag m) (walkFuel m mbi) (mbi + 8) freshPmm).map (fun s =>
    reserveRegion (reserveRegion s 0 0x100000)
      kernelPhysStart (image.physEnd - kernelPhysStart))

lemma bitTest_fresh (f : ℕ) : bitTest freshPmm.bitmap f = true := by
  rw [bitTest, test_eq_getLsbD]
  change (0xFFFFFFFF#32).getLsbD (f % 32) = true
  have hlt : f % 32 < 32 := Nat.mod_lt _ (by decide)
  generalize f % 32 = i at hlt
  interval_cases i <;> rfl

lemma freeSet_fresh : freeSet freshPmm = ∅ := by
  ext f
  simp [bitTest_fresh f]

lemma freshPmm_counted : Counted freshPmm := by
  refine ⟨Nat.zero_le _, Nat.zero_le _, fun f _ _ => bitTest_fresh f, ?_⟩
  rw [freeSet_fresh]
  rfl

@[simp] theorem importFrame_totalFrames (s : Pmm) (f : ℕ) :
    (importFrame s f).totalFrames = max s.totalFrames (f + 1) := by
  simp only [importFrame]
  split_ifs <;> simp_all <;> omega

@[simp] theorem importFrame_hint (s : Pmm) (f : ℕ) :
    (importFrame s f).firstFreeHint = s.firstFreeHint := by
  simp only [importFrame]
  split_ifs <;> rfl

lemma importFrame_bitTest (s : Pmm) {f : ℕ} (hf : f < pmmMaxFrames) (g : ℕ) :
    bitTest (importFrame s f).bitmap g = (!decide (g = f) && bitTest s.bitmap g) := by
  have hkeep : bitTest s.bitmap f ≠ true →
      bitTest s.bitmap g = (!decide (g = f) && bitTest s.bitmap g) := by
    intro ht
    by_cases hg : g = f
    · subst hg; simpa using ht
    · simp [hg]
  simp only [importFrame]
  split_ifs with h1 h2 h2
  · exact bitTest_bitClear _ hf g
  · exact bitTest_bitClear _ hf g
  · exact hkeep h1
  · exact hkeep h1

lemma importFrame_freeFrames (s : Pmm) (f : ℕ) :
    (importFrame s f).freeFrames =
      if bitTest s.bitmap f then incr32 s.freeFrames else s.freeFrames := by
  simp only [importFrame]
  split_ifs <;> rfl

/-- Importing a frame adds it to the pool; the frames between the old count and
the new one stay used. -/
lemma importFrame_freeSet {s : Pmm} (hc : Counted s) {f : ℕ} (hf : f < pmmMaxFrames) :
    freeSet (importFrame s f) = insert f (freeSet s) := by
  ext g
  rw [Finset.mem_insert, mem_freeSet, mem_freeSet, importFrame_bitTest s hf,
    importFrame_totalFrames]
  by_cases hg : g = f
  · simp [hg]
  · simp only [hg, decide_false, Bool.not_false, Bool.true_and, false_or]
    constructor
    · rintro ⟨hlt, ht⟩
      refine ⟨?_, ht⟩
      by_contra hge
      have hused := hc.above_used g (by omega) (by omega)
      rw [ht] at hused
      contradiction
    · rintro ⟨hlt, ht⟩
      exact ⟨by omega, ht⟩

lemma importFrame_counted {s : Pmm} (hc : Counted s) {f : ℕ} (hf : f < pmmMaxFrames) :
    Counted (importFrame s f) := by
  have htotal := hc.total_le
  have hhint := hc.hint_le
  refine ⟨by rw [importFrame_totalFrames]; omega,
    by rw [importFrame_totalFrames, importFrame_hint]; omega, ?_, ?_⟩
  · intro g hg hgm
    rw [importFrame_totalFrames] at hg
    have hne : g ≠ f := by omega
    rw [importFrame_bitTest s hf, hc.above_used g (by omega) hgm]
    simp [hne]
  · rw [importFrame_freeSet hc hf, importFrame_freeFrames]
    have hle := card_freeSet_le s
    rw [← hc.free_eq] at hle
    unfold pmmMaxFrames pmmMaxAddr pageSize at htotal
    split_ifs with ht
    · have hnot : f ∉ freeSet s := by simp [ht]
      rw [Finset.card_insert_of_notMem hnot, ← hc.free_eq]
      simp only [incr32]
      omega
    · have hmem : f ∈ freeSet s := by
        refine (mem_freeSet s f).mpr ⟨?_, by simpa using ht⟩
        by_contra hge
        exact ht (hc.above_used f (by omega) hf)
      rw [Finset.insert_eq_of_mem hmem]
      exact hc.free_eq

lemma importFrames_spec {s : Pmm} (hc : Counted s) {f n : ℕ} (hf : f + n ≤ pmmMaxFrames) :
    Counted (importFrames s f n) ∧
      freeSet (importFrames s f n) = freeSet s ∪ Finset.Ico f (f + n) := by
  induction n generalizing s f with
  | zero => simp [importFrames, hc]
  | succ n ih =>
    obtain ⟨hc', hset⟩ := ih (importFrame_counted hc (by omega : f < pmmMaxFrames))
      (by omega : f + 1 + n ≤ pmmMaxFrames)
    refine ⟨hc', ?_⟩
    simp only [importFrames]
    rw [hset, importFrame_freeSet hc (by omega)]
    ext g
    have hsplit : f ≤ g ∧ g < f + (n + 1) ↔ g = f ∨ f + 1 ≤ g ∧ g < f + 1 + n := by omega
    simp only [Finset.mem_union, Finset.mem_insert, Finset.mem_Ico, hsplit]
    tauto

/-- The frames an entry contributes. -/
def entryFrames (m : Memory) (e : ℕ) : Finset ℕ :=
  if entryAvailable m e then Finset.Ico (entryFirst m e) (entryLast m e) else ∅

lemma entryLast_le (m : Memory) (e : ℕ) : entryLast m e ≤ pmmMaxFrames :=
  Nat.div_le_div_right (min_le_right _ _)

lemma importEntry_spec {s : Pmm} (hc : Counted s) (m : Memory) (e : ℕ) :
    Counted (importEntry m s e) ∧ freeSet (importEntry m s e) = freeSet s ∪ entryFrames m e := by
  have hlast := entryLast_le m e
  unfold importEntry entryFrames
  split_ifs with h
  · by_cases hle : entryFirst m e ≤ entryLast m e
    · obtain ⟨hc', hset⟩ := importFrames_spec hc
        (by omega : entryFirst m e + (entryLast m e - entryFirst m e) ≤ pmmMaxFrames)
      rw [Nat.add_sub_cancel' hle] at hset
      exact ⟨hc', hset⟩
    · rw [Nat.sub_eq_zero_of_le (by omega), Finset.Ico_eq_empty (by omega), Finset.union_empty]
      exact ⟨hc, rfl⟩
  · exact ⟨hc, (Finset.union_empty _).symm⟩

/-- The frames a memory-map tag contributes, entry by entry. -/
def tagFrames (m : Memory) (p : ℕ) : Finset ℕ :=
  if tagType m p = 6 then
    (Finset.range (entryCount m p)).biUnion (fun i => entryFrames m (p + 16 + i * entrySize m p))
  else ∅

lemma union_biUnion_range_succ (F : ℕ → Finset ℕ) (e size n : ℕ) :
    F e ∪ (Finset.range n).biUnion (fun i => F (e + size + i * size)) =
      (Finset.range (n + 1)).biUnion (fun i => F (e + i * size)) := by
  have hnext (i : ℕ) : e + (i + 1) * size = e + size + i * size := by
    rw [Nat.succ_mul, Nat.add_assoc, Nat.add_comm size]
  ext g
  simp only [Finset.mem_union, Finset.mem_biUnion, Finset.mem_range]
  constructor
  · rintro (hg | ⟨i, hi, hg⟩)
    · exact ⟨0, by omega, by simpa using hg⟩
    · exact ⟨i + 1, by omega, by rwa [hnext i]⟩
  · rintro ⟨i, hi, hg⟩
    cases i with
    | zero => exact Or.inl (by simpa using hg)
    | succ i => exact Or.inr ⟨i, by omega, by rwa [hnext i] at hg⟩

lemma importEntries_spec {s : Pmm} (hc : Counted s) (m : Memory) (size e n : ℕ) :
    Counted (importEntries m size s e n) ∧
      freeSet (importEntries m size s e n) =
        freeSet s ∪ (Finset.range n).biUnion (fun i => entryFrames m (e + i * size)) := by
  induction n generalizing s e with
  | zero => simp [importEntries, hc]
  | succ n ih =>
    obtain ⟨hc1, hset1⟩ := importEntry_spec hc m e
    obtain ⟨hc2, hset2⟩ := ih hc1 (e + size)
    refine ⟨hc2, ?_⟩
    rw [importEntries, hset2, hset1, Finset.union_assoc,
      union_biUnion_range_succ (entryFrames m) e size n]

lemma importTag_spec {s t : Pmm} (hc : Counted s) (m : Memory) {p : ℕ}
    (h : importTag m s p = some t) : Counted t ∧ freeSet t = freeSet s ∪ tagFrames m p := by
  unfold importTag at h
  unfold tagFrames
  split_ifs at h ⊢ with htype hsize
  · cases h
    exact importEntries_spec hc m _ _ _
  · cases h
    exact ⟨hc, (Finset.union_empty _).symm⟩

lemma foldlM_importTag_spec {s t : Pmm} (hc : Counted s) (m : Memory) {ps : List ℕ}
    (h : ps.foldlM (importTag m) s = some t) :
    Counted t ∧ ∀ f, f ∈ freeSet t ↔ f ∈ freeSet s ∨ ∃ p ∈ ps, f ∈ tagFrames m p := by
  induction ps generalizing s with
  | nil =>
    simp only [List.foldlM_nil, Option.pure_def, Option.some.injEq] at h
    subst h
    simp [hc]
  | cons p ps ih =>
    simp only [List.foldlM_cons, Option.bind_eq_bind, Option.bind_eq_some_iff] at h
    obtain ⟨u, hu, hrest⟩ := h
    obtain ⟨hc1, hset1⟩ := importTag_spec hc m hu
    obtain ⟨hc2, hmem2⟩ := ih hc1 hrest
    refine ⟨hc2, ?_⟩
    intro f
    rw [hmem2, hset1, Finset.mem_union]
    simp only [List.mem_cons, exists_eq_or_imp, or_assoc]

/-- A frame the memory map offers: a whole frame of some available entry, as the
source computes its bounds. -/
def Offered (m : Memory) (mbi f : ℕ) : Prop := ∃ p, IsTag m mbi p ∧ f ∈ tagFrames m p

lemma mem_regionFrames {base size : ℕ} (h : base + size ≤ pmmMaxAddr) (f : ℕ) :
    f ∈ regionFrames base size ↔ base / pageSize ≤ f ∧ f * pageSize < base + size := by
  unfold pmmMaxAddr at h
  simp only [regionFrames, regionPages, List.mem_toFinset, List.mem_map, List.mem_range,
    frameOf, pageSize, exists_exists_and_eq_and]
  rw [Nat.mod_eq_of_lt (by omega)]
  constructor
  · rintro ⟨i, hi, rfl⟩
    omega
  · rintro ⟨h1, h2⟩
    exact ⟨f - base / 4096, by omega, by omega⟩

/-- The frames kept out of the pool for good: the low 1 MiB and the image. -/
def bootReserved (image : KernelImage) : Finset ℕ :=
  regionFrames 0 0x100000 ∪ regionFrames kernelPhysStart (image.physEnd - kernelPhysStart)

lemma mem_bootReserved (image : KernelImage) (f : ℕ) :
    f ∈ bootReserved image ↔ f < 0x100 ∨
      kernelPhysStart / pageSize ≤ f ∧ f * pageSize < image.physEnd := by
  have h1 := image.start_le
  have h2 := image.end_le
  rw [bootReserved, Finset.mem_union, mem_regionFrames (by decide),
    mem_regionFrames (by unfold kernelPhysStart; omega)]
  unfold kernelPhysStart pageSize
  omega

/-- After boot a frame is free exactly when the memory map offers it and it is
neither low nor part of the image; the bookkeeping agrees with that. -/
theorem tpmmInit_spec {m : Memory} {mbi : ℕ} {image : KernelImage} {s : Pmm}
    (h : tpmmInit m mbi image = some s) :
    Valid s ∧ ∀ f, f ∈ freeSet s ↔ Offered m mbi f ∧ f ∉ bootReserved image := by
  unfold tpmmInit at h
  rw [tagLoop_eq_foldlM] at h
  obtain ⟨t, ht, rfl⟩ := Option.map_eq_some_iff.mp h
  obtain ⟨ps, hps, hfold⟩ := Option.bind_eq_some_iff.mp ht
  obtain ⟨hc, hmem⟩ := foldlM_importTag_spec freshPmm_counted m hfold
  obtain ⟨hc1, hset1, -⟩ := reserveRegion_spec hc 0 0x100000
  obtain ⟨hc2, hset2, -⟩ := reserveRegion_spec hc1 kernelPhysStart
    (image.physEnd - kernelPhysStart)
  have hiff : ∀ f, f ∈ freeSet (reserveRegion (reserveRegion t 0 0x100000) kernelPhysStart
      (image.physEnd - kernelPhysStart)) ↔ Offered m mbi f ∧ f ∉ bootReserved image := by
    intro f
    rw [hset2, hset1, Finset.mem_sdiff, Finset.mem_sdiff, hmem, freeSet_fresh, bootReserved,
      Finset.mem_union, not_or, and_assoc]
    simp only [Finset.notMem_empty, false_or, Offered, mem_infoTags hps]
  refine ⟨⟨hc2, ?_⟩, hiff⟩
  rw [hiff, mem_bootReserved]
  simp

/-- The initialisation returns on a block that holds its tags, none of them a memory map with
entries of no size. -/
theorem tpmmInit_of_tagsInside {m : Memory} {mbi : ℕ} (htags : TagsInside m mbi)
    (hentry : ∀ p, IsTag m mbi p → tagType m p = 6 → entrySize m p ≠ 0) (image : KernelImage) :
    ∃ s, tpmmInit m mbi image = some s := by
  obtain ⟨ps, hps⟩ := infoTags_of_tagsInside htags
  have hfold : ∀ (qs : List ℕ) (s : Pmm), (∀ p ∈ qs, IsTag m mbi p) →
      ∃ t, qs.foldlM (importTag m) s = some t := by
    intro qs
    induction qs with
    | nil => intro s _; exact ⟨s, rfl⟩
    | cons p qs ih =>
      intro s hqs
      have hsome : ∃ u, importTag m s p = some u := by
        unfold importTag
        split_ifs with htype hzero
        · exact absurd hzero (hentry p (hqs p List.mem_cons_self) htype)
        · exact ⟨_, rfl⟩
        · exact ⟨_, rfl⟩
      obtain ⟨u, hu⟩ := hsome
      obtain ⟨t, ht⟩ := ih u (fun q hq => hqs q (List.mem_cons_of_mem _ hq))
      exact ⟨t, by rw [List.foldlM_cons, hu]; exact ht⟩
  obtain ⟨t, ht⟩ := hfold ps freshPmm (fun p hp => (mem_infoTags hps p).mp hp)
  unfold tpmmInit
  rw [tagLoop_eq_foldlM]
  unfold infoTags at hps
  rw [hps, Option.bind_some, ht]
  exact ⟨_, rfl⟩

theorem tpmmInit_of_wellFormed {m : Memory} {mbi : ℕ} (hwf : WellFormed m mbi)
    (image : KernelImage) : ∃ s, tpmmInit m mbi image = some s := by
  refine tpmmInit_of_tagsInside hwf.tag_size (fun p hp htype => ?_) image
  have := (hwf.mmap_size p hp htype).2
  unfold entrySize
  omega

end TraitOS.Tpmm
