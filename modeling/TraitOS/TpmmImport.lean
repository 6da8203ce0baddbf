import TraitOS.TpmmContract

/-!
# What the memory map says and what is imported

The entries of the map are 64-bit ranges, the frame numbers of the import 32-bit. The end of an
entry is clamped to 4 GiB before it is narrowed, its start is not: an entry from `2 ^ 44` on is
read as one that starts near the bottom. A map tag too short for its own header has no entries;
the count of its entries wraps instead.
-/
namespace TraitOS.Tpmm
open ByteMemory Multiboot

variable {m : Memory}

def entryBase (m : Memory) (e : ℕ) : ℕ := load64 m e
def entryLength (m : Memory) (e : ℕ) : ℕ := load64 m (e + 8)

/-- Entry `i` of the memory-map tag at `p`, inside the tag. -/
structure MapEntry (m : Memory) (mbi p i : ℕ) : Prop where
  isTag : IsTag m mbi p
  type_eq : tagType m p = 6
  inside : 16 + (i + 1) * entrySize m p ≤ tagSize m p

def entryAt (m : Memory) (p i : ℕ) : ℕ := p + 16 + i * entrySize m p

/-- An available entry contains all bytes of a frame below 4 GiB. -/
def Contained (m : Memory) (mbi f : ℕ) : Prop :=
  f < pmmMaxFrames ∧ ∃ p i, MapEntry m mbi p i ∧ entryAvailable m (entryAt m p i) ∧
    entryBase m (entryAt m p i) ≤ f * pageSize ∧
    (f + 1) * pageSize ≤ entryBase m (entryAt m p i) + entryLength m (entryAt m p i)

/-- A frame imported for an entry whose start does not survive the narrowing, or for an entry
read behind a tag without room for any. -/
def Strays (m : Memory) (mbi f : ℕ) : Prop :=
  ∃ p i, IsTag m mbi p ∧ tagType m p = 6 ∧ i < entryCount m p ∧ f ∈ entryFrames m (entryAt m p i) ∧
    (tagSize m p < 16 ∨ 2 ^ 44 - pageSize < entryBase m (entryAt m p i))

/-- The map is imported exactly. -/
structure Imported (m : Memory) (mbi : ℕ) (image : KernelImage) (s : Pmm) : Prop where
  free : ∀ f, f ∈ freeSet s ↔ Contained m mbi f ∧ ¬ f * pageSize < 0x100000 ∧
    ¬ (kernelPhysStart < (f + 1) * pageSize ∧ f * pageSize < image.physEnd)
  below : ∀ f, Contained m mbi f → f < s.totalFrames
  highest : s.totalFrames = 0 ∨ Contained m mbi (s.totalFrames - 1)

/-- The tags of the block and the entries of its memory maps have the sizes they need. -/
structure MapFormed (m : Memory) (mbi : ℕ) : Prop where
  tags : TagsInside m mbi
  entry_size : ∀ p, IsTag m mbi p → tagType m p = 6 → 24 ≤ entrySize m p
  range : ∀ p i, MapEntry m mbi p i →
    entryBase m (entryAt m p i) + entryLength m (entryAt m p i) ≤ 2 ^ 64 - pageSize

/-! ## The frame count -/

/-- The frame count ends behind a free frame. -/
def Topped (s : Pmm) : Prop := s.totalFrames = 0 ∨ s.totalFrames - 1 ∈ freeSet s

lemma importFrame_topped {s : Pmm} (hc : Counted s) (h : Topped s) {f : ℕ} (hf : f < pmmMaxFrames) :
    Topped (importFrame s f) := by
  unfold Topped at *
  rw [importFrame_totalFrames, importFrame_freeSet hc hf, Finset.mem_insert]
  by_cases hle : s.totalFrames ≤ f
  · exact Or.inr (Or.inl (by omega))
  · refine Or.inr (Or.inr ?_)
    rw [max_eq_left (by omega)]
    exact h.resolve_left (by omega)

lemma importFrames_topped (n : ℕ) {s : Pmm} (hc : Counted s) (h : Topped s) {f : ℕ}
    (hf : f + n ≤ pmmMaxFrames) : Topped (importFrames s f n) := by
  induction n generalizing s f with
  | zero => exact h
  | succ n ih =>
    exact ih (importFrame_counted hc (by omega)) (importFrame_topped hc h (by omega)) (by omega)

lemma importEntry_topped {s : Pmm} (hc : Counted s) (h : Topped s) (m : Memory) (e : ℕ) :
    Topped (importEntry m s e) := by
  have hlast := entryLast_le m e
  unfold importEntry
  split_ifs
  · by_cases hle : entryFirst m e ≤ entryLast m e
    · exact importFrames_topped _ hc h (by omega)
    · rw [Nat.sub_eq_zero_of_le (by omega)]
      exact h
  · exact h

lemma importEntries_topped (m : Memory) (size n : ℕ) {s : Pmm} (hc : Counted s) (h : Topped s)
    (e : ℕ) : Topped (importEntries m size s e n) := by
  induction n generalizing s e with
  | zero => exact h
  | succ n ih => exact ih (importEntry_spec hc m e).1 (importEntry_topped hc h m e) _

lemma foldlM_importTag_topped {ps : List ℕ} {s t : Pmm} (hc : Counted s) (h : Topped s)
    (hfold : ps.foldlM (importTag m) s = some t) : Topped t := by
  induction ps generalizing s with
  | nil =>
    simp only [List.foldlM_nil, Option.pure_def, Option.some.injEq] at hfold
    exact hfold ▸ h
  | cons p ps ih =>
    simp only [List.foldlM_cons, Option.bind_eq_bind, Option.bind_eq_some_iff] at hfold
    obtain ⟨u, hu, hrest⟩ := hfold
    refine ih (importTag_spec hc m hu).1 ?_ hrest
    unfold importTag at hu
    split_ifs at hu
    · exact Option.some.inj hu ▸ importEntries_topped m _ _ hc h _
    · exact Option.some.inj hu ▸ h

/-- After boot the frame count is one more than the highest frame offered. -/
theorem tpmmInit_totalFrames {mbi : ℕ} {image : KernelImage} {s : Pmm}
    (h : tpmmInit m mbi image = some s) :
    (∀ f, Offered m mbi f → f < s.totalFrames) ∧
      (s.totalFrames = 0 ∨ Offered m mbi (s.totalFrames - 1)) := by
  unfold tpmmInit at h
  rw [tagLoop_eq_foldlM] at h
  obtain ⟨t, ht, rfl⟩ := Option.map_eq_some_iff.mp h
  obtain ⟨ps, hps, hfold⟩ := Option.bind_eq_some_iff.mp ht
  obtain ⟨hc, hmem⟩ := foldlM_importTag_spec freshPmm_counted m hfold
  obtain ⟨hc1, _, ht1⟩ := reserveRegion_spec hc 0 0x100000
  obtain ⟨_, _, ht2⟩ := reserveRegion_spec hc1 kernelPhysStart (image.physEnd - kernelPhysStart)
  have hoffered (f : ℕ) : f ∈ freeSet t ↔ Offered m mbi f := by
    rw [hmem, freeSet_fresh]
    simp only [Finset.notMem_empty, false_or, Offered, mem_infoTags hps]
  rw [ht2, ht1]
  refine ⟨fun f hf => ((mem_freeSet t f).mp ((hoffered f).mpr hf)).1, ?_⟩
  exact (foldlM_importTag_topped freshPmm_counted (Or.inl rfl) hfold).imp id (hoffered _).mp

/-! ## Frames offered and frames contained -/

lemma entryCount_iff {p i : ℕ} (hsize : 16 ≤ tagSize m p) (hentry : 24 ≤ entrySize m p) :
    i < entryCount m p ↔ 16 + (i + 1) * entrySize m p ≤ tagSize m p := by
  have hlt : tagSize m p < 2 ^ 32 := load32_lt _ _
  have hcount : (tagSize m p + (2 ^ 32 - 16)) % 2 ^ 32 = tagSize m p - 16 := by omega
  rw [entryCount, hcount, ← Nat.add_one_le_iff, Nat.le_div_iff_mul_le (by omega)]
  omega

lemma whole_frames {base len f : ℕ} (hrange : base + len ≤ 2 ^ 64 - 4096)
    (hbase : base ≤ 2 ^ 44 - 4096) :
    ((base + 4095) % 2 ^ 64 / 4096 % 2 ^ 32 ≤ f ∧
      f < min ((base + len) % 2 ^ 64) 0x100000000 / 4096) ↔
      f < 0x100000000 / 4096 ∧ base ≤ f * 4096 ∧ (f + 1) * 4096 ≤ base + len := by
  have hfirst : (base + 4095) % 2 ^ 64 / 4096 % 2 ^ 32 = (base + 4095) / 4096 := by
    rw [Nat.mod_eq_of_lt (by omega), Nat.mod_eq_of_lt (by omega)]
  rw [hfirst, Nat.mod_eq_of_lt (by omega), Nat.div_le_iff_le_mul_add_pred (by decide),
    ← Nat.add_one_le_iff, Nat.le_div_iff_mul_le (by decide), le_min_iff]
  omega

/-- An entry below `2 ^ 44` contributes the frames it contains. -/
lemma mem_entryFrames {e : ℕ} (havail : entryAvailable m e)
    (hrange : entryBase m e + entryLength m e ≤ 2 ^ 64 - pageSize)
    (hbase : entryBase m e ≤ 2 ^ 44 - pageSize) (f : ℕ) :
    f ∈ entryFrames m e ↔ f < pmmMaxFrames ∧ entryBase m e ≤ f * pageSize ∧
      (f + 1) * pageSize ≤ entryBase m e + entryLength m e := by
  unfold entryBase entryLength pageSize at *
  rw [entryFrames, if_pos havail, Finset.mem_Ico, entryFirst, entryLast]
  unfold pmmMaxFrames pmmMaxAddr pageSize
  exact whole_frames hrange hbase

lemma mem_biUnion_stride (F : ℕ → Finset ℕ) (e size n f : ℕ) :
    f ∈ (Finset.range n).biUnion (fun i => F (e + i * size)) ↔ ∃ i < n, f ∈ F (e + i * size) := by
  simp only [Finset.mem_biUnion, Finset.mem_range]

lemma mem_tagFrames (m : Memory) (p f : ℕ) :
    f ∈ tagFrames m p ↔ tagType m p = 6 ∧
      ∃ i < entryCount m p, f ∈ entryFrames m (entryAt m p i) := by
  by_cases h : tagType m p = 6
  · have hmem := mem_biUnion_stride (entryFrames m) (p + 16) (entrySize m p) (entryCount m p) f
    rw [tagFrames, if_pos h]
    exact hmem.trans ⟨fun hf => ⟨h, hf⟩, And.right⟩
  · rw [tagFrames, if_neg h]
    exact iff_of_false (Finset.notMem_empty f) fun hf => h hf.1

lemma available_of_mem {e f : ℕ} (h : f ∈ entryFrames m e) : entryAvailable m e := by
  by_contra hno
  rw [entryFrames, if_neg hno] at h
  exact Finset.notMem_empty f h

/-- The frames offered are those contained in the map and those that stray. -/
theorem offered_iff {mbi : ℕ} (hwf : MapFormed m mbi) (f : ℕ) :
    Offered m mbi f ↔ Contained m mbi f ∨ Strays m mbi f := by
  constructor
  · intro ⟨p, hp, hf⟩
    obtain ⟨htype, i, hi, hf⟩ := (mem_tagFrames m p f).mp hf
    by_cases hstray : tagSize m p < 16 ∨ 2 ^ 44 - pageSize < entryBase m (entryAt m p i)
    · exact Or.inr ⟨p, i, hp, htype, hi, hf, hstray⟩
    · rw [not_or, not_lt, not_lt] at hstray
      have hentry : MapEntry m mbi p i :=
        ⟨hp, htype, (entryCount_iff hstray.1 (hwf.entry_size p hp htype)).mp hi⟩
      have havail := available_of_mem hf
      obtain ⟨hmax, hin⟩ := (mem_entryFrames havail (hwf.range p i hentry) hstray.2 f).mp hf
      exact Or.inl ⟨hmax, p, i, hentry, havail, hin⟩
  · intro h
    obtain ⟨hmax, p, i, hentry, havail, hin⟩ | ⟨p, i, hp, htype, hi, hf, _⟩ := h
    · refine ⟨p, hentry.isTag, (mem_tagFrames m p f).mpr ⟨hentry.type_eq, i, ?_, ?_⟩⟩
      · have hinside := hentry.inside
        exact (entryCount_iff (by omega) (hwf.entry_size p hentry.isTag hentry.type_eq)).mpr hinside
      · refine (mem_entryFrames havail (hwf.range p i hentry) ?_ f).mpr ⟨hmax, hin⟩
        unfold pmmMaxFrames pmmMaxAddr pageSize at *
        omega
    · exact ⟨p, hp, (mem_tagFrames m p f).mpr ⟨htype, i, hi, hf⟩⟩

lemma not_mem_bootReserved (image : KernelImage) (f : ℕ) :
    f ∉ bootReserved image ↔ ¬ f * pageSize < 0x100000 ∧
      ¬ (kernelPhysStart < (f + 1) * pageSize ∧ f * pageSize < image.physEnd) := by
  rw [mem_bootReserved]
  unfold kernelPhysStart pageSize
  omega

/-- The import is exact when every stray frame is reserved anyway or contained in the map, and
lies below a frame of the map. -/
theorem memoryMap_exact_iff (m : Memory) (mbi : ℕ) (image : KernelImage) (hwf : MapFormed m mbi) :
    ∃ s, tpmmInit m mbi image = some s ∧ (Imported m mbi image s ↔
      ∀ f, Strays m mbi f → (Contained m mbi f ∨ f ∈ bootReserved image) ∧
        ∃ g, f ≤ g ∧ Contained m mbi g) := by
  obtain ⟨s, hs⟩ := tpmmInit_of_tagsInside hwf.tags
    (fun p hp htype h0 => by have := hwf.entry_size p hp htype; omega) image
  refine ⟨s, hs, ?_⟩
  obtain ⟨hbelow, htop⟩ := tpmmInit_totalFrames hs
  have hfree := (tpmmInit_spec hs).2
  simp only [offered_iff hwf] at hbelow htop hfree
  constructor
  · intro him f hf
    have hlt := hbelow f (Or.inr hf)
    refine ⟨?_, s.totalFrames - 1, by omega, him.highest.resolve_left (by omega)⟩
    by_cases hres : f ∈ bootReserved image
    · exact Or.inr hres
    · exact Or.inl ((him.free f).mp ((hfree f).mpr ⟨Or.inr hf, hres⟩)).1
  · intro hstray
    refine ⟨fun f => ?_, fun f hf => hbelow f (Or.inl hf), htop.imp id fun h => ?_⟩
    · rw [hfree, not_mem_bootReserved]
      refine and_congr_left fun hres => ⟨fun h => h.elim id fun hf => ?_, Or.inl⟩
      exact (hstray f hf).1.resolve_right ((not_mem_bootReserved image f).mpr hres)
    · obtain hc | hf := h
      · exact hc
      · obtain ⟨g, hg, hc⟩ := (hstray _ hf).2
        have := hbelow g (Or.inl hc)
        exact (show s.totalFrames - 1 = g by omega) ▸ hc

/-- A block at `0x8000` whose only tag is a memory map with one available entry. -/
def mapMemory (base length : ℕ) : Memory :=
  let m := storeLE (fun _ => 0) 0x8000 4 56
  let m := storeLE (storeLE (storeLE m 0x8008 4 6) 0x800C 4 40) 0x8010 4 24
  let m := storeLE (storeLE m 0x8018 8 base) 0x8020 8 length
  storeLE (storeLE m 0x8028 4 1) 0x8034 4 8

/-- The entries of a block, read off its executed walk. -/
lemma mapFormed_of_tags {mbi : ℕ} {ps : List ℕ} (htags : infoTags m mbi = some ps)
    (hall : ∀ p ∈ ps, 8 ≤ tagSize m p ∧ p + tagSize m p ≤ infoEnd m mbi)
    (hentry : ∀ p ∈ ps, tagType m p = 6 → 16 ≤ tagSize m p ∧ 24 ≤ entrySize m p ∧
      ∀ i < entryCount m p, entryBase m (entryAt m p i) + entryLength m (entryAt m p i) ≤
        2 ^ 64 - pageSize) :
    MapFormed m mbi := by
  have hmem (p : ℕ) (hp : IsTag m mbi p) : p ∈ ps := (mem_infoTags htags p).mpr hp
  refine ⟨fun p hp => hall p (hmem p hp), fun p hp htype => (hentry p (hmem p hp) htype).2.1,
    fun p i h => ?_⟩
  obtain ⟨h16, h24, hrange⟩ := hentry p (hmem p h.isTag) h.type_eq
  exact hrange i ((entryCount_iff h16 h24).mpr h.inside)

theorem memoryMap_exact_near :
    ∃ s, tpmmInit (mapMemory 0x200000 0x3000) 0x8000 sampleImage = some s ∧
      Imported (mapMemory 0x200000 0x3000) 0x8000 sampleImage s := by
  have htags : infoTags (mapMemory 0x200000 0x3000) 0x8000 = some [0x8008] := by decide +kernel
  have hwf := mapFormed_of_tags htags (by decide +kernel) (by decide +kernel)
  obtain ⟨s, hs, hiff⟩ := memoryMap_exact_iff (mapMemory 0x200000 0x3000) 0x8000 sampleImage hwf
  refine ⟨s, hs, hiff.mpr ?_⟩
  intro f ⟨p, i, hp, _, hi, _, hstray⟩
  obtain rfl := List.mem_singleton.mp ((mem_infoTags htags p).mpr hp)
  have hcount : entryCount (mapMemory 0x200000 0x3000) 0x8008 = 1 := by decide +kernel
  obtain rfl : i = 0 := by omega
  exact absurd hstray (by decide +kernel)

/-- An entry at `2 ^ 44` is imported as all of the first 4 GiB. -/
theorem far_entry_frees_low_frames :
    ∃ s, tpmmInit (mapMemory (2 ^ 44) 0x1000) 0x8000 sampleImage = some s ∧ 0x1000 ∈ freeSet s ∧
      ¬ Contained (mapMemory (2 ^ 44) 0x1000) 0x8000 0x1000 := by
  have htags : infoTags (mapMemory (2 ^ 44) 0x1000) 0x8000 = some [0x8008] := by decide +kernel
  have hwf := mapFormed_of_tags htags (by decide +kernel) (by decide +kernel)
  have hcount : entryCount (mapMemory (2 ^ 44) 0x1000) 0x8008 = 1 := by decide +kernel
  obtain ⟨s, hs⟩ := tpmmInit_of_tagsInside hwf.tags
    (fun p hp htype h0 => by have := hwf.entry_size p hp htype; omega) sampleImage
  refine ⟨s, hs, ?_, ?_⟩
  · refine ((tpmmInit_spec hs).2 0x1000).mpr ⟨⟨0x8008, (mem_infoTags htags _).mp List.mem_cons_self,
      ?_⟩, ?_⟩
    · refine (mem_tagFrames _ _ _).mpr ⟨by decide +kernel, 0, by omega, ?_⟩
      have hfirst : entryFirst (mapMemory (2 ^ 44) 0x1000) 0x8018 = 0 := by decide +kernel
      have hlast : entryLast (mapMemory (2 ^ 44) 0x1000) 0x8018 = 0x100000 := by decide +kernel
      have havail : entryAvailable (mapMemory (2 ^ 44) 0x1000) 0x8018 := by decide +kernel
      have hat : entryAt (mapMemory (2 ^ 44) 0x1000) 0x8008 0 = 0x8018 := by decide +kernel
      rw [hat, entryFrames, if_pos havail, hfirst, hlast]
      exact Finset.mem_Ico.mpr ⟨by decide, by decide⟩
    · rw [mem_bootReserved]
      decide
  · intro ⟨_, p, i, hentry, _, hbase, _⟩
    obtain rfl := List.mem_singleton.mp ((mem_infoTags htags p).mpr hentry.isTag)
    have hi := (entryCount_iff (by decide +kernel) (by decide +kernel)).mpr hentry.inside
    obtain rfl : i = 0 := by omega
    exact absurd hbase (by decide +kernel)

end TraitOS.Tpmm
