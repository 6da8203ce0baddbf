import TraitOS.TelfImage

/-!
# The pages of a segment

`telf_load` counts the pages of a segment from the page of its first byte to the page of its
last one, and the parser keeps two segments apart by comparing where the pages of one start
with where the other ends. Both are compared here with the set of pages a segment has bytes
in. A segment without bytes has no last byte: the loader counts a page, or 2^52 of them.
-/
namespace TraitOS.Telf
open ByteMemory Tpmm Tvmm

variable {s : TelfSegment}

/-- The pages that have a byte of the segment. -/
def pagesTouched (s : TelfSegment) : Finset ℕ :=
  (Finset.Ico s.vaddr (s.vaddr + s.memsz)).image (· / 4096)

lemma mem_pagesTouched (hpos : 0 < s.memsz) (p : ℕ) :
    p ∈ pagesTouched s ↔ s.vaddr / 4096 ≤ p ∧ p ≤ (s.vaddr + s.memsz - 1) / 4096 := by
  unfold pagesTouched
  rw [Finset.mem_image]
  constructor
  · rintro ⟨x, hx, rfl⟩
    rw [Finset.mem_Ico] at hx
    exact ⟨Nat.div_le_div_right hx.1, Nat.div_le_div_right (by omega)⟩
  · rintro ⟨hlo, hhi⟩
    -- the first byte of the page, or the first of the segment
    refine ⟨max s.vaddr (p * 4096), Finset.mem_Ico.mpr ?_, ?_⟩
    · omega
    · omega

lemma card_pagesTouched (hpos : 0 < s.memsz) :
    (pagesTouched s).card = (s.vaddr + s.memsz - 1) / 4096 - s.vaddr / 4096 + 1 := by
  have hIcc : pagesTouched s = Finset.Icc (s.vaddr / 4096) ((s.vaddr + s.memsz - 1) / 4096) := by
    ext p
    rw [mem_pagesTouched hpos, Finset.mem_Icc]
  rw [hIcc, Nat.card_Icc]
  omega

lemma pagesTouched_empty (h : s.memsz = 0) : pagesTouched s = ∅ := by
  unfold pagesTouched
  rw [h, Nat.add_zero, Finset.Ico_self, Finset.image_empty]

/-! ## Counting -/

lemma segmentPages_pos (hspace : s.vaddr + s.memsz < 2 ^ 64) (hpos : 0 < s.memsz) :
    segmentPages s = (s.vaddr + s.memsz - 1) / 4096 - s.vaddr / 4096 + 1 := by
  have hlast : (s.vaddr + s.memsz + (2 ^ 64 - 1)) % 2 ^ 64 = s.vaddr + s.memsz - 1 := by omega
  unfold segmentPages firstPage
  simp only [hlast]
  omega

/-- Without a last byte the loader takes the byte before the segment. -/
lemma segmentPages_empty (hlo : 0 < s.vaddr) (hspace : s.vaddr < 2 ^ 64) (h : s.memsz = 0) :
    segmentPages s = if s.vaddr % 4096 = 0 then 2 ^ 52 else 1 := by
  have hlast : (s.vaddr + (2 ^ 64 - 1)) % 2 ^ 64 = s.vaddr - 1 := by omega
  unfold segmentPages firstPage
  simp only [h, Nat.add_zero, hlast]
  split_ifs with hal
  · omega
  · omega

lemma segmentPages_exact_iff (hlo : userBase ≤ s.vaddr) (hhi : s.vaddr + s.memsz ≤ userEnd) :
    segmentPages s = (pagesTouched s).card ↔ 0 < s.memsz := by
  have hend : userEnd < 2 ^ 64 := by decide
  have hbase : 0 < userBase := by decide
  rcases Nat.eq_zero_or_pos s.memsz with h0 | hpos
  · refine iff_of_false ?_ (by omega)
    rw [pagesTouched_empty h0, Finset.card_empty, segmentPages_empty (by omega) (by omega) h0]
    split_ifs
    · decide
    · decide
  · exact iff_of_true ((segmentPages_pos (by omega) hpos).trans (card_pagesTouched hpos).symm) hpos

lemma loadSegment_cases (s : Vmm) (as : ℕ) (blob : Memory) (seg : TelfSegment) :
    ∃ s', loadSegment s as blob seg = (s', .ok ()) ∨ loadSegment s as blob seg =
      (s', .error .range) := by
  unfold loadSegment
  dsimp only
  split_ifs
  · exact ⟨_, Or.inr rfl⟩
  · exact ⟨_, Or.inr rfl⟩
  · exact ⟨_, Or.inr rfl⟩
  · exact ⟨_, Or.inl rfl⟩
  · exact ⟨_, Or.inr rfl⟩

/-- There are not so many frames. -/
lemma tpmmAllocLowContig_large (s : Pmm) {pages : ℕ} (h : lowFrames <
    pages) : (tpmmAllocLowContig s pages).2 = 0 := by
  have hcap : pages = 0 ∨ min lowFrames s.totalFrames < pages :=
    Or.inr (lt_of_le_of_lt (min_le_left _ _) h)
  unfold tpmmAllocLowContig
  dsimp only
  rw [if_pos hcap]

lemma loadSegment_large {seg : TelfSegment} (h : lowFrames < segmentPages seg) (s : Vmm) (as : ℕ)
    (blob : Memory) : (loadSegment s as blob seg).2 = .error .range := by
  obtain ⟨⟨pmm, phys⟩, hres⟩ : ∃ q, tpmmAllocLowContig s.heap.vm.pmm (segmentPages seg) = q :=
    ⟨_, rfl⟩
  have hnone := tpmmAllocLowContig_large s.heap.vm.pmm h
  rw [hres] at hnone
  unfold loadSegment
  by_cases hrange : seg.vaddr < userBase ∨ userEnd < (seg.vaddr + seg.memsz) % 2 ^ 64
  · rw [if_pos hrange]
  · rw [if_neg hrange]
    by_cases hany : anyMapped s as (firstPage seg) (segmentPages seg) = true
    · rw [if_pos hany]
    · rw [if_neg hany, hres]
      dsimp only
      rw [if_pos hnone]

lemma loadSegments_large {seg : TelfSegment} (h : lowFrames < segmentPages seg) (as : ℕ)
    (blob : Memory) (segs : List TelfSegment) (hseg : seg ∈ segs) (s : Vmm) :
    (loadSegments s as blob segs).2 = .error .range := by
  induction segs generalizing s with
  | nil => exact absurd hseg List.not_mem_nil
  | cons first rest ih =>
    rw [loadSegments]
    obtain ⟨s₁, hok | herr⟩ := loadSegment_cases s as blob first
    · rw [hok]
      rcases List.mem_cons.mp hseg with rfl | hin
      · have hfail := loadSegment_large h s as blob
        rw [hok] at hfail
        cases hfail
      · exact ih hin s₁
    · rw [herr]

lemma telfLoad_large {blob : Memory} {size : ℕ} {plan : TelfPlan}
    (hparse : telfParse blob size = .ok plan) {seg : TelfSegment} (hseg : seg ∈ plan.segs)
    (h : lowFrames < segmentPages seg) (s : Vmm) (as : ℕ) :
    (telfLoad s as blob size).2 = .error .range := by
  have hfail := loadSegments_large h as blob plan.segs hseg s
  unfold telfLoad
  rw [hparse]
  dsimp only
  rcases hload : loadSegments s as blob plan.segs with ⟨s₁, e | u⟩
  · rw [hload] at hfail
    rw [Except.error.inj hfail]
  · rw [hload] at hfail
    exact nomatch hfail

/-- The loader counts the pages of a segment right if and only if the segment is not empty;
and an empty segment at the start of a page keeps the whole file from being loaded. -/
theorem telfLoad_pages_iff (blob : Memory) (size : ℕ) (plan : TelfPlan)
    (h : telfParse blob size = .ok plan) (seg : TelfSegment) (hseg : seg ∈ plan.segs)
    (hlo : userBase ≤ seg.vaddr) (hhi : seg.vaddr + seg.memsz ≤ userEnd) :
    (segmentPages seg = (pagesTouched seg).card ↔ 0 < seg.memsz) ∧
    (seg.memsz = 0 → seg.vaddr % 4096 = 0 → ∀ s as, (telfLoad s as blob size).2 =
      .error .range) := by
  refine ⟨segmentPages_exact_iff hlo hhi, fun h0 hal s as => ?_⟩
  have hend : userEnd < 2 ^ 64 := by decide
  have hbase : 0 < userBase := by decide
  have hpages := segmentPages_empty (by omega) (by omega) h0
  rw [if_pos hal] at hpages
  exact telfLoad_large h hseg (by rw [hpages]; decide) s as

theorem telfLoad_pages_small :
    ∃ plan, telfParse (oneSegment 0x8000000000 16 32) 136 = .ok plan ∧
      ∀ seg ∈ plan.segs, segmentPages seg = (pagesTouched seg).card := by
  have hparse : telfParse (oneSegment 0x8000000000 16 32) 136 =
      .ok ⟨0x8000000000, [⟨0x8000000000, 120, 16, 32, 5⟩]⟩ := by decide +kernel
  refine ⟨_, hparse, fun seg hseg => ?_⟩
  have hiff := telfLoad_pages_iff _ _ _ hparse seg hseg
  obtain rfl := List.mem_singleton.mp hseg
  exact (hiff (by decide) (by decide)).1.mpr (by decide)

/-- A file with two program headers; the first segment starts at the user base, and the bytes
of both start at 176. -/
def twoSegments (file₁ mem₁ vaddr₂ file₂ mem₂ : ℕ) : Memory :=
  let b := storeLE (storeLE (oneSegment 0x8000000000 file₁ mem₁) 56 2 2) 72 8 176
  let b := storeLE (storeLE (storeLE b 120 4 1) 124 4 6) 128 8 176
  storeLE (storeLE (storeLE b 136 8 vaddr₂) 152 8 file₂) 160 8 mem₂

/-- A program with an empty data segment is accepted, and not loaded on any machine. -/
theorem empty_segment_stops_loading :
    ∃ plan seg, telfParse (twoSegments 16 32 0x8000001000 0 0) 192 = .ok plan ∧ seg ∈ plan.segs ∧
      userBase ≤ seg.vaddr ∧ seg.vaddr + seg.memsz ≤ userEnd ∧ segmentPages seg = 2 ^ 52 ∧
        (pagesTouched seg).card = 0 ∧
      ∀ s as, (telfLoad s as (twoSegments 16 32 0x8000001000 0 0) 192).2 = .error .range := by
  have hparse : telfParse (twoSegments 16 32 0x8000001000 0 0) 192 =
      .ok ⟨0x8000000000, [⟨0x8000000000, 176, 16, 32, 5⟩, ⟨0x8000001000, 176, 0, 0, 3⟩]⟩ := by
        decide +kernel
  have hmem : (⟨0x8000001000, 176, 0, 0, 3⟩ : TelfSegment) ∈
      [(⟨0x8000000000, 176, 16, 32, 5⟩ : TelfSegment), ⟨0x8000001000, 176, 0, 0, 3⟩] :=
    List.mem_cons_of_mem _ List.mem_cons_self
  have hpages : segmentPages ⟨0x8000001000, 176, 0, 0, 3⟩ = 2 ^ 52 :=
    segmentPages_empty (by decide) (by decide) rfl
  refine ⟨_, _, hparse, hmem, by decide, by decide, hpages, ?_,
    telfLoad_large hparse hmem (by rw [hpages]; decide)⟩
  rw [pagesTouched_empty rfl, Finset.card_empty]

end TraitOS.Telf
