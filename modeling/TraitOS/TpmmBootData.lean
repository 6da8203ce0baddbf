import TraitOS.TpmmContract

/-!
# Boot data and the frame map

The information block and the modules it lists are still needed after the frame
map is built: the initrd is unpacked several steps later. The map is built from
the memory-map tag and the linker symbols alone, so whether boot data is safe
depends on where the loader put it. The result below says exactly when it is.
-/
namespace TraitOS.Tpmm
open ByteMemory Multiboot Runs

def moduleStart (m : Memory) (p : ℕ) : ℕ := load32 m (p + 8)
def moduleEnd (m : Memory) (p : ℕ) : ℕ := load32 m (p + 12)

/-- A byte of the information block or of one of the modules it lists. -/
def BootByte (m : Memory) (mbi x : ℕ) : Prop :=
  mbi ≤ x ∧ x < infoEnd m mbi ∨
    ∃ p, IsTag m mbi p ∧ tagType m p = 3 ∧ moduleStart m p ≤ x ∧ x < moduleEnd m p

def BootFrame (m : Memory) (mbi f : ℕ) : Prop := ∃ x, BootByte m mbi x ∧ x / pageSize = f

/-- Boot data is marked used, and no run of the clients is handed any of it. -/
def BootDataSafe (m : Memory) (mbi : ℕ) (s : Pmm) : Prop :=
  (∀ f, BootFrame m mbi f → bitTest s.bitmap f = true) ∧
    ∀ calls c, exec clientStep ⟨s, []⟩ calls = some c →
      ∀ g ∈ c.grants, ∀ f ∈ g.frames, ¬ BootFrame m mbi f

lemma bootFrame_lt {m : Memory} {mbi f : ℕ} (hwf : WellFormed m mbi) (h : BootFrame m mbi f) :
    f < pmmMaxFrames := by
  obtain ⟨x, hx, rfl⟩ := h
  have hlt : x < 2 ^ 32 := by
    rcases hx with ⟨-, hx⟩ | ⟨p, -, -, -, hx⟩
    · exact hx.trans_le hwf.fits
    · exact hx.trans (load32_lt m _)
  unfold pmmMaxFrames pmmMaxAddr pageSize
  omega

lemma used_iff_not_free {s : Pmm} (hv : Valid s) {f : ℕ} (hf : f < pmmMaxFrames) :
    bitTest s.bitmap f = true ↔ f ∉ freeSet s := by
  rw [mem_freeSet]
  constructor
  · intro ht h
    rw [ht] at h
    exact absurd h.2 (by simp)
  · intro h
    by_contra hnot
    refine h ⟨?_, by simpa using hnot⟩
    by_contra hge
    exact hnot (hv.above_used f (by omega) hf)

/-- Boot data is safe exactly when the loader put it where no frame can come
from: in the low 1 MiB, in frames of the image, or outside the whole frames of
every available memory-map entry. -/
theorem bootData_safe_iff (m : Memory) (mbi : ℕ) (image : KernelImage) (hwf : WellFormed m mbi) :
    ∃ s, tpmmInit m mbi image = some s ∧ (BootDataSafe m mbi s ↔
      ∀ f, BootFrame m mbi f → f ∈ bootReserved image ∨ ¬ Offered m mbi f) := by
  obtain ⟨s, hs⟩ := tpmmInit_of_wellFormed hwf image
  obtain ⟨hv, hfree⟩ := tpmmInit_spec hs
  refine ⟨s, hs, ?_⟩
  constructor
  · rintro ⟨hused, -⟩ f hf
    have hnot := (used_iff_not_free hv (bootFrame_lt hwf hf)).mp (hused f hf)
    rw [hfree, not_and_not_right] at hnot
    exact (em (f ∈ bootReserved image)).imp_right (fun hres hoff => hres (hnot hoff))
  · intro hout
    have hnot (f : ℕ) (hf : BootFrame m mbi f) : f ∉ freeSet s := by
      rw [hfree]
      rintro ⟨hoff, hres⟩
      exact (hout f hf).elim hres (fun h => h hoff)
    refine ⟨fun f hf => (used_iff_not_free hv (bootFrame_lt hwf hf)).mpr (hnot f hf), ?_⟩
    intro calls c hrun g hg f hf hboot
    have hi := run_inv (R := {f}) hs
      (fun k hk => Finset.mem_singleton.mp hk ▸ hnot f hboot) calls hrun
    exact (hi.kept f (by simp)).2 ⟨g, hg, hf⟩

/-- A block at `0x8000` with the three frames from 2 MiB available and a module
of one page at `start`. -/
def moduleMemory (start : ℕ) : Memory :=
  let m := storeLE (fun _ => 0) 0x8000 4 80
  let m := storeLE (storeLE (storeLE m 0x8008 4 6) 0x800C 4 40) 0x8010 4 24
  let m := storeLE (storeLE m 0x8018 8 0x200000) 0x8020 8 0x3000
  let m := storeLE (storeLE (storeLE m 0x8028 4 1) 0x8030 4 3) 0x8034 4 24
  let m := storeLE (storeLE m 0x8038 4 start) 0x803C 4 (start + 0x1000)
  storeLE m 0x804C 4 8

/-- The tags of a block, read off its executed walk. -/
lemma wellFormed_of_tags {m : Memory} {mbi : ℕ} {ps : List ℕ} (htags : infoTags m mbi = some ps)
    (hfits : infoEnd m mbi ≤ 2 ^ 32)
    (hall : ∀ p ∈ ps, 8 ≤ tagSize m p ∧ p + tagSize m p ≤ infoEnd m mbi ∧
      (tagType m p = 6 → 16 ≤ tagSize m p ∧ 24 ≤ load32 m (p + 8)) ∧
        (tagType m p = 3 → 16 ≤ tagSize m p)) :
    WellFormed m mbi := by
  have hmem (p : ℕ) (hp : IsTag m mbi p) := hall p ((mem_infoTags htags p).mpr hp)
  exact ⟨hfits, fun p hp => ⟨(hmem p hp).1, (hmem p hp).2.1⟩,
    fun p hp => (hmem p hp).2.2.1, fun p hp => (hmem p hp).2.2.2⟩

lemma initrdInside_tags : infoTags (moduleMemory 0x201000) 0x8000 = some [0x8008, 0x8030] := by
  decide

lemma initrdInside_wellFormed : WellFormed (moduleMemory 0x201000) 0x8000 :=
  wellFormed_of_tags initrdInside_tags (by decide) (by decide)

/-- The loader placed the initrd in available memory, as boot loaders do; its
page is free after the frame map is built. -/
theorem initrd_frame_is_free :
    ∃ s, tpmmInit (moduleMemory 0x201000) 0x8000 sampleImage = some s ∧
      ¬ BootDataSafe (moduleMemory 0x201000) 0x8000 s := by
  obtain ⟨s, hs⟩ := tpmmInit_of_wellFormed initrdInside_wellFormed sampleImage
  refine ⟨s, hs, ?_⟩
  rintro ⟨hused, -⟩
  have hboot : BootFrame (moduleMemory 0x201000) 0x8000 0x201 := by
    refine ⟨0x201000, Or.inr ⟨0x8030, ?_, by decide, by decide, by decide⟩, by decide⟩
    exact (mem_infoTags initrdInside_tags _).mp (by simp)
  have hoffered : Offered (moduleMemory 0x201000) 0x8000 0x201 := by
    refine ⟨0x8008, (mem_infoTags initrdInside_tags _).mp (by simp), ?_⟩
    decide
  have hfree := ((tpmmInit_spec hs).2 0x201).mpr ⟨hoffered, by
    rw [mem_bootReserved]
    decide⟩
  exact (used_iff_not_free (tpmmInit_spec hs).1 (by decide)).mp (hused _ hboot) hfree

lemma initrdOutside_tags : infoTags (moduleMemory 0x300000) 0x8000 = some [0x8008, 0x8030] := by
  decide

/-- With the module outside the available entry every boot frame stays used. -/
theorem initrd_outside_is_safe :
    WellFormed (moduleMemory 0x300000) 0x8000 ∧
      ∃ s, tpmmInit (moduleMemory 0x300000) 0x8000 sampleImage = some s ∧
        BootDataSafe (moduleMemory 0x300000) 0x8000 s := by
  have hwf : WellFormed (moduleMemory 0x300000) 0x8000 :=
    wellFormed_of_tags initrdOutside_tags (by decide) (by decide)
  obtain ⟨s, hs, hiff⟩ := bootData_safe_iff (moduleMemory 0x300000) 0x8000 sampleImage hwf
  refine ⟨hwf, s, hs, hiff.mpr ?_⟩
  rintro f ⟨x, hx | ⟨p, hp, ht, hlo, hhi⟩, rfl⟩
  · have hend : infoEnd (moduleMemory 0x300000) 0x8000 = 0x8050 := by decide
    rw [hend] at hx
    refine Or.inl ((mem_bootReserved sampleImage _).mpr (Or.inl ?_))
    unfold pageSize
    omega
  · have hp' := (mem_infoTags initrdOutside_tags p).mpr hp
    simp only [List.mem_cons, List.not_mem_nil, or_false] at hp'
    rcases hp' with rfl | rfl
    · exact absurd ht (by decide)
    · have hstart : moduleStart (moduleMemory 0x300000) 0x8030 = 0x300000 := by decide
      have hstop : moduleEnd (moduleMemory 0x300000) 0x8030 = 0x301000 := by decide
      rw [hstart] at hlo
      rw [hstop] at hhi
      have hframe : x / pageSize = 0x300 := by unfold pageSize; omega
      rw [hframe]
      refine Or.inr ?_
      rintro ⟨q, hq, hmem⟩
      have hq' := (mem_infoTags initrdOutside_tags q).mpr hq
      simp only [List.mem_cons, List.not_mem_nil, or_false] at hq'
      rcases hq' with rfl | rfl
      · exact absurd hmem (by decide)
      · exact absurd hmem (by decide)

end TraitOS.Tpmm
