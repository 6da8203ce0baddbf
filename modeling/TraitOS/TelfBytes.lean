import TraitOS.TelfImage

/-!
# The bytes of a loaded file

What user code reads at the addresses of a file that was loaded. Frames keep what was in
them while they are free, so what the loader does not write shows through; the bytes are
therefore compared over all memories that differ in the free frames only.
-/
namespace TraitOS.Telf
open ByteMemory PageTable Tpmm Tmalloc Tvmm

/-- The byte user code reads at an address, if the address is mapped for it. -/
def userByte (s : Vmm) (as virt : ℕ) : Option UInt8 :=
  if hasBits (leafIn s as virt) (needBits false) = true then
    (translate s.heap.vm.mem (rootOf s as) virt).map s.heap.vm.mem
  else none

/-- A memory that differs from that of the state in free frames only. -/
def DiffersInFree (s : Vmm) (m : Memory) : Prop :=
  ∀ x, x / frameBytes ∉ freeSet s.heap.vm.pmm → m x = s.heap.vm.mem x

lemma DiffersInFree.refl (s : Vmm) : DiffersInFree s s.heap.vm.mem := fun _ _ => rfl

lemma DiffersInFree.twin {lay : Layout} {s : Vmm} {as tree r : ℕ} {use : ℕ → Use} {m : Memory}
    (h : DiffersInFree s m) (hsp : Space lay s as tree r use) : Twin use s.heap.vm m := by
  intro x hx
  exact h x fun hfree => not_isTable_idle (hsp.tables.idle_of_free hfree) hx

/-! ## Reading a region -/

lemma Region.user_leaf {R : Region} {F : Finset ℕ} (hR : R.Fits F) (phys : ℕ) :
    hasBits (leafEntry phys R.flags) (needBits false) = true := by
  unfold hasBits
  rw [leafEntry_and _ _ (by decide)]
  exact hR.flags_user

lemma Region.target_leaf {R : Region} {F : Finset ℕ} (hR : R.Fits F) {j : ℕ}
    (hj : j < R.pages * 4096) :
    target (leafEntry (R.phys + j / 4096 * 4096) R.flags) = R.phys + j / 4096 * 4096 := by
  have hal := hR.phys_aligned
  have hlow := hR.low
  have hframe : R.phys + j / 4096 * 4096 = (R.phys / 4096 + j / 4096) * frameBytes := by
    unfold frameBytes
    omega
  rw [(leafEntry_spec _ hR.flags_lt).2.2, hR.flags_target, Nat.or_zero, hframe]
  exact target_frame (by omega)

section Reading
variable {lay : Layout} {tree r : ℕ} {F : Finset ℕ} {leaf₀ : ℕ → ℕ} {p : Paging} {use : ℕ → Use}
  {rs : List Region}
  {s : Vmm} {as : ℕ} {m : Memory}

lemma leafIn_twin (h : Loaded lay tree r F leaf₀ p use rs) (hpages : ¬ lay.pages)
    (hu : ¬ tree < pmmMaxFrames) (hroot : rootOf s as = r * frameBytes) (hm : Twin use p m)
    (v : ℕ) : leafIn (setVm s ⟨m, p.pmm⟩) as v = (rs.findSome? (·.leaf v)).getD (leaf₀ v) := by
  rw [leafIn_setVm, hroot]
  exact (hm.leafOf h.tables hpages h.root hu v).trans (h.leaves v)

/-- A page of a region that no later region covers is read from the frames of the region. -/
theorem Loaded.userByte_at (h : Loaded lay tree r F leaf₀ p use rs) (hpages : ¬ lay.pages)
    (hu : ¬ tree < pmmMaxFrames) (hroot : rootOf s as = r * frameBytes) (hm : Twin use p m)
    {R : Region} (hR : R ∈ rs) {j : ℕ} (hj : j < R.pages * 4096)
    (hfind : rs.findSome? (·.leaf (R.first + j)) = R.leaf (R.first + j)) :
    userByte (setVm s ⟨m, p.pmm⟩) as (R.first + j) = some (m (R.phys + j)) := by
  have hfits := h.fits R hR
  have hlower := hfits.lower
  have hupper := hfits.upper
  have hleaf := leafIn_twin h hpages hu hroot hm (R.first + j)
  rw [hfind, Region.leaf_at hfits hj, Option.getD_some] at hleaf
  have htrans := translate_user (hm.tables h.tables hpages) h.root hu
    (kernelSlot_user (v := R.first + j) (by omega) (by omega))
  unfold userByte
  rw [hleaf, if_pos (Region.user_leaf hfits _), rootOf_setVm, hroot]
  rw [leafIn_setVm, hroot] at hleaf
  dsimp only at htrans
  rw [hleaf, if_pos (leafEntry_spec _ hfits.flags_lt).2.1, Region.target_leaf hfits hj] at htrans
  have hoff : R.phys + j / 4096 * 4096 + (R.first + j) % 4096 = R.phys + j := by
    have hal := hfits.first_aligned
    omega
  rw [hoff] at htrans
  exact congrArg (Option.map m) htrans

lemma Loaded.userByte_none (h : Loaded lay tree r F leaf₀ p use rs) (hpages : ¬ lay.pages)
    (hu : ¬ tree < pmmMaxFrames) (hroot : rootOf s as = r * frameBytes) (hm : Twin use p m) {v : ℕ}
    (hnone : hasBits (leaf₀ v) (needBits false) = false) (hfind : rs.findSome? (·.leaf v) = none) :
    userByte (setVm s ⟨m, p.pmm⟩) as v = none := by
  unfold userByte
  rw [leafIn_twin h hpages hu hroot hm, hfind, Option.getD_none, hnone, if_neg Bool.false_ne_true]

end Reading

/-- The bytes of a file that was loaded, for every content of the free frames: a region
holds what was written, and what its frames held where nothing was. -/
theorem Space.image {lay : Layout} {s s' : Vmm} {as tree r size : ℕ} {use : ℕ → Use} {blob : Memory}
    {plan : TelfPlan} (hsp : Space lay s as tree r use) (hnone : NoUserPages s as)
    (hload : telfLoad s as blob size = (s', .ok plan))
    (hin : ∀ off ∈ loadedHeaders blob, StaysInside (segmentOf (programHeader blob off))) :
    ∃ rs, Regions blob plan.segs rs ∧ (∀ R ∈ rs, R.Fits (freeSet s.heap.vm.pmm)) ∧
      ∀ m, DiffersInFree s m → ∃ s₂, telfLoad (setMem s m) as blob size = (s₂, .ok plan) ∧
        (∀ R ∈ rs, ∀ j < R.pages * 4096, userByte s₂ as (R.first + j) = some (R.byte m j)) ∧
        ∀ v, userByte s₂ as v ≠ none → ∃ R ∈ rs, R.leaf v ≠ none := by
  obtain ⟨p', use', rs, rfl, hloaded, hapart, hregions, htwin⟩ := hsp.load hload hin
  refine ⟨rs, hregions, hloaded.fits, fun m hm => ?_⟩
  obtain ⟨m', hload', hm', hfilled⟩ := htwin m (hm.twin hsp)
  refine ⟨_, hload', fun R hR j hj => ?_, fun v hv => ?_⟩
  · have hleaf := Region.leaf_at (hloaded.fits R hR) hj
    rw [hloaded.userByte_at hsp.loose hsp.user hsp.rootOf_eq hm' hR hj ((hapart.find hR hleaf).trans
      hleaf.symm), (hfilled m fun _ _ => rfl).content R hR j hj]
  · by_contra hall
    push Not at hall
    refine hv (hloaded.userByte_none hsp.loose hsp.user hsp.rootOf_eq hm' ?_
      (List.findSome?_eq_none_iff.mpr hall))
    rw [← hsp.rootOf_eq]
    exact hnone v

/-! ## How much can be mapped -/

/-- Numbers that are all in one of some intervals are no more than the intervals hold. -/
lemma card_le_of_intervals {α : Type*} (start len : α → ℕ) (xs : List α) : ∀ S : Finset ℕ,
    (∀ k ∈ S, ∃ x ∈ xs, start x ≤ k ∧ k < start x + len x) → S.card ≤ (xs.map len).sum := by
  induction xs with
  | nil =>
    intro S h
    have hempty : S = ∅ := Finset.eq_empty_of_forall_notMem fun k hk => by simpa using h k hk
    simp [hempty]
  | cons x xs ih =>
    intro S h
    have hhead : S.filter (fun k => start x ≤ k ∧ k < start x + len x) ⊆ Finset.Ico (start x)
      (start x + len x) := by
      intro k hk
      exact Finset.mem_Ico.mpr (Finset.mem_filter.mp hk).2
    have hcard := Finset.card_le_card hhead
    have htail := ih (S.filter fun k => ¬ (start x ≤ k ∧ k < start x + len x)) fun k hk => by
      obtain ⟨hS, hnot⟩ := Finset.mem_filter.mp hk
      obtain ⟨y, hy, hin⟩ := h k hS
      rcases List.mem_cons.mp hy with rfl | hy
      · exact absurd hin hnot
      · exact ⟨y, hy, hin⟩
    have hsplit := Finset.card_filter_add_card_filter_not (s := S) fun k => start x ≤ k ∧
      k < start x + len x
    rw [Nat.card_Ico] at hcard
    rw [List.map_cons, List.sum_cons]
    omega

lemma loadHeaders_length_le (blob : Memory) (left i : ℕ) : (loadHeaders blob left i).length ≤
    left := by
  induction left generalizing i with
  | zero => simp [loadHeaders]
  | succ left ih =>
    have hrest := ih (i + 1)
    rw [loadHeaders]
    split_ifs
    · omega
    · rw [List.length_cons]
      omega

lemma plan_length_le {blob : Memory} {size : ℕ} {plan : TelfPlan}
    (h : telfParse blob size = .ok plan) : plan.segs.length ≤ telfMaxSegments := by
  have hle := loadHeaders_length_le blob (ehdrPhnum blob) 0
  rw [(plan_segs h).1, List.length_map]
  simp only [telfParse, rejectIf_bind_eq_ok] at h
  obtain ⟨-, -, -, -, -, -, -, -, -, -, hnum, -⟩ := h
  unfold loadedHeaders
  omega

/-- No file has 4 GiB of consecutive addresses mapped. -/
lemma exists_unmapped {rs : List Region} {F : Finset ℕ} (hfits : ∀ R ∈ rs, R.Fits F)
    (hlen : rs.length ≤ telfMaxSegments) {v : ℕ} (hv : v < userEnd) :
    ∃ i < 2 ^ 32, ∀ R ∈ rs, R.leaf (v + i) = none := by
  by_contra hall
  push Not at hall
  have hcover : ∀ k ∈ Finset.Ico (v / 4096) (v / 4096 + 2 ^ 20), ∃ R ∈ rs, R.first / 4096 ≤ k ∧
      k < R.first / 4096 + R.pages := by
    intro k hk
    rw [Finset.mem_Ico] at hk
    obtain ⟨R, hR, hleaf⟩ := hall (k * 4096 - v) (by omega)
    refine ⟨R, hR, ?_⟩
    unfold userEnd at hv
    unfold Region.leaf rangeLeaf pageOf at hleaf
    by_contra hout
    exact hleaf (if_neg (by omega))
  have hcard := card_le_of_intervals (fun R : Region => R.first / 4096) Region.pages rs _ hcover
  have hsum : (rs.map Region.pages).sum ≤ rs.length * (2 ^ 18 - 1) := by
    rw [← List.length_map Region.pages]
    refine List.sum_le_card_nsmul _ _ fun n hn => ?_
    obtain ⟨R, hR, rfl⟩ := List.mem_map.mp hn
    have hlow := (hfits R hR).low
    have hal := (hfits R hR).phys_aligned
    have hne := (hfits R hR).nonzero
    omega
  rw [Nat.card_Ico] at hcard
  unfold telfMaxSegments at hlen
  omega

/-! ## The file in memory -/

/-- The byte a header asks for at an offset of its segment. -/
def headerByte (blob : Memory) (h : ProgramHeader) (i : ℕ) : UInt8 :=
  if i < h.filesz then blob (h.offset + i) else 0

/-- User code finds the bytes of the file where its headers say. -/
def ImageHolds (blob : Memory) (s : Vmm) (as : ℕ) : Prop :=
  ∀ off ∈ loadedHeaders blob, ∀ i < (programHeader blob off).memsz,
    userByte s as ((programHeader blob off).vaddr + i) =
      some (headerByte blob (programHeader blob off) i)

/-- A header whose segment starts a page, and which loses nothing in the plan. -/
structure Placed (blob : Memory) (h : ProgramHeader) : Prop where
  aligned : h.vaddr % 4096 = 0
  memsz : h.memsz < 2 ^ 32
  bytes : ∀ i < h.filesz, blob (h.offset % 2 ^ 32 + i) = blob (h.offset + i)

section Image
variable {blob : Memory} {size : ℕ} {h : ProgramHeader} {phys : ℕ} {m : Memory}

lemma staysInside_of_memsz (hb : InBounds size h) (hm : h.memsz < 2 ^ 32) :
    StaysInside (segmentOf h) := by
  have hfile := hb.sizes
  have hle := memsz_le_pages (segmentOf_space hb)
  have hmem : (segmentOf h).memsz = h.memsz := Nat.mod_eq_of_lt hm
  have hfilesz : (segmentOf h).filesz = h.filesz := Nat.mod_eq_of_lt (hfile.trans_lt hm)
  unfold StaysInside
  omega

/-- What is written for a header, at an offset of its frames. -/
lemma segmentRegion_data (hb : InBounds size h) (hm : h.memsz < 2 ^ 32) (j : ℕ) :
    (segmentRegion blob (segmentOf h) phys).data j =
      if j < h.filesz then some (blob (h.offset % 2 ^ 32 + j)) else if j < h.memsz then some 0
        else none := by
  have hmem : (segmentOf h).memsz = h.memsz := Nat.mod_eq_of_lt hm
  have hfile : (segmentOf h).filesz = h.filesz := Nat.mod_eq_of_lt (hb.sizes.trans_lt hm)
  change segmentByte blob (segmentOf h) j = _
  unfold segmentByte
  rw [hmem, hfile]
  rfl

lemma Placed.byte_eq (hp : Placed blob h) (hb : InBounds size h) {i : ℕ} (hi : i < h.memsz) :
    (segmentRegion blob (segmentOf h) phys).byte m i = headerByte blob h i := by
  rw [Region.byte, segmentRegion_data hb hp.memsz, if_pos hi]
  unfold headerByte
  by_cases hf : i < h.filesz
  · rw [if_pos hf, if_pos hf, Option.getD_some, hp.bytes i hf]
  · rw [if_neg hf, if_neg hf, Option.getD_some]

end Image

lemma exists_byte_ne (a : UInt8) : ∃ b, b ≠ a := by
  by_cases h : a = 0
  · exact ⟨1, by rw [h]; decide⟩
  · exact ⟨0, Ne.symm h⟩

lemma segment_end_le {seg : TelfSegment} (hspace : seg.vaddr + seg.memsz < 2 ^ 64)
    (hpos : 0 < seg.memsz) : seg.vaddr + seg.memsz ≤ firstPage seg + segmentPages seg * 4096 := by
  have hlast : (seg.vaddr + seg.memsz + (2 ^ 64 - 1)) % 2 ^ 64 = seg.vaddr + seg.memsz - 1 := by
    omega
  unfold segmentPages firstPage
  simp only [hlast]
  omega

/-- The place of a byte of a segment in its region. -/
lemma segmentRegion_offset (blob : Memory) {size : ℕ} {h : ProgramHeader} (hb : InBounds size h)
    (hm : h.memsz < 2 ^ 32) (phys : ℕ) {i : ℕ} (hi : i < h.memsz) :
    (segmentRegion blob (segmentOf h) phys).first + (h.vaddr % 4096 + i) = h.vaddr + i ∧
      h.vaddr % 4096 + i < (segmentRegion blob (segmentOf h) phys).pages * 4096 := by
  have hmem : (segmentOf h).memsz = h.memsz := Nat.mod_eq_of_lt hm
  have hend : h.vaddr + (segmentOf h).memsz ≤ h.vaddr / 4096 * 4096 +
    segmentPages (segmentOf h) * 4096 :=
    segment_end_le (segmentOf_space hb) (by omega)
  change h.vaddr / 4096 * 4096 + _ = _ ∧ _ < segmentPages (segmentOf h) * 4096
  omega

/-- Where a region's frames were not written, some content of the free frames shows any
byte one likes. -/
lemma exists_content {s : Vmm} {R : Region} (hR : R.Fits (freeSet s.heap.vm.pmm)) {j : ℕ}
    (hj : j < R.pages * 4096) (hdata : R.data j = none) (b : UInt8) :
    ∃ m, DiffersInFree s m ∧ R.byte m j = b := by
  refine ⟨Function.update s.heap.vm.mem (R.phys + j) b, fun x hx => ?_, ?_⟩
  · apply Function.update_of_ne
    rintro rfl
    exact hx (hR.taken (Region.frame_of_offset hR.phys_aligned hj))
  · rw [Region.byte, hdata, Option.getD_none, Function.update_self]

/-- A file that was loaded is in memory as its headers say, whatever the free frames held,
and its copies stay in its frames, exactly when every segment that is not empty starts a
page and loses nothing in the plan. -/
theorem telfLoad_image_iff (s s' : Vmm) (as size : ℕ) (blob : Memory) (plan : TelfPlan)
    (hspace : IsSpace s as) (hnone : NoUserPages s as)
    (hload : telfLoad s as blob size = (s', .ok plan)) :
    ((∀ off ∈ loadedHeaders blob, StaysInside (segmentOf (programHeader blob off))) ∧
        ∀ m, DiffersInFree s m → ∀ s₂ plan₂, telfLoad (setMem s m) as blob size = (s₂, .ok plan₂) →
          ImageHolds blob s₂ as) ↔
      ∀ off ∈ loadedHeaders blob, 0 < (programHeader blob off).memsz →
        Placed blob (programHeader blob off) := by
  obtain ⟨lay, tree, r, use, hsp⟩ := hspace
  have hparse := (telfLoad_ok hload).1
  obtain ⟨hsegs, hbounds⟩ := plan_segs hparse
  constructor
  · rintro ⟨hin, himage⟩ off hoff hpos
    obtain ⟨rs, hregions, hfits, hruns⟩ := hsp.image hnone hload hin
    obtain ⟨phys, hR⟩ := hregions.1 _ (hsegs ▸ List.mem_map_of_mem hoff)
    have hb := hbounds off hoff
    obtain ⟨s₁, hok₁, hbytes₁, hmapped₁⟩ := hruns _ (DiffersInFree.refl s)
    have himage₁ := himage _ (DiffersInFree.refl s) s₁ plan hok₁ off hoff
    have hmem : (programHeader blob off).memsz < 2 ^ 32 := by
      by_contra hbig
      have hend : (programHeader blob off).vaddr / 4096 * 4096 +
          segmentPages (segmentOf (programHeader blob off)) * 4096 ≤ userEnd := (hfits _ hR).upper
      have hpages : 0 < segmentPages (segmentOf (programHeader blob off)) := Nat.succ_pos _
      obtain ⟨i, hi, hleaf⟩ := exists_unmapped hfits (hregions.2.2.trans_le (plan_length_le hparse))
        (v := (programHeader blob off).vaddr) (by omega)
      obtain ⟨R, hR', hne⟩ := hmapped₁ ((programHeader blob off).vaddr + i) (by
        rw [himage₁ i (by omega)]
        exact Option.some_ne_none _)
      exact hne (hleaf R hR')
    have haligned : (programHeader blob off).vaddr % 4096 = 0 := by
      by_contra hd
      -- the last byte of the segment lies behind what was written for it
      obtain ⟨haddr, hj⟩ := segmentRegion_offset blob hb hmem phys
        (Nat.sub_lt hpos Nat.one_pos : (programHeader blob off).memsz - 1 < _)
      obtain ⟨b, hne⟩ :=
        exists_byte_ne (headerByte blob (programHeader blob off)
          ((programHeader blob off).memsz - 1))
      have hsizes := hb.sizes
      obtain ⟨m, hm, hbyte⟩ := exists_content (hfits _ hR) hj
        (by rw [segmentRegion_data hb hmem, if_neg (by omega), if_neg (by omega)]) b
      obtain ⟨s₂, hok₂, hbytes₂, _⟩ := hruns m hm
      have hread := hbytes₂ _ hR _ hj
      rw [haddr, himage m hm s₂ plan hok₂ off hoff _ (by omega), hbyte] at hread
      exact hne (Option.some.inj hread).symm
    refine ⟨haligned, hmem, fun i hi => ?_⟩
    have hlt := hi.trans_le hb.sizes
    obtain ⟨haddr, hj⟩ := segmentRegion_offset blob hb hmem phys hlt
    have hread := hbytes₁ _ hR _ hj
    rw [haddr, himage₁ i hlt, haligned, Nat.zero_add, Region.byte, segmentRegion_data hb hmem,
      if_pos hi, Option.getD_some, headerByte, if_pos hi] at hread
    exact (Option.some.inj hread).symm
  · intro hplaced
    have hin : ∀ off ∈ loadedHeaders blob, StaysInside (segmentOf (programHeader blob off)) := by
      intro off hoff
      apply staysInside_of_memsz (hbounds off hoff)
      rcases Nat.eq_zero_or_pos (programHeader blob off).memsz with h0 | hpos
      · rw [h0]
        decide
      · exact (hplaced off hoff hpos).memsz
    obtain ⟨rs, hregions, hfits, hruns⟩ := hsp.image hnone hload hin
    refine ⟨hin, fun m hm s₂ plan₂ hok off hoff i hi => ?_⟩
    obtain ⟨s₃, hok', hbytes, _⟩ := hruns m hm
    obtain ⟨rfl, _⟩ := Prod.mk.inj (hok'.symm.trans hok)
    obtain ⟨phys, hR⟩ := hregions.1 _ (hsegs ▸ List.mem_map_of_mem hoff)
    have hp := hplaced off hoff (by omega)
    obtain ⟨haddr, hj⟩ := segmentRegion_offset blob (hbounds off hoff) hp.memsz phys hi
    rw [← haddr, hbytes _ hR _ hj, hp.aligned, Nat.zero_add, hp.byte_eq (hbounds off hoff) hi]

theorem telfLoad_image_aligned :
    ∃ s' plan, telfLoad loaderMachine loaderSpace (oneSegment 0x8000000000 16 32) 136 =
      (s', .ok plan) ∧ ∀ m, DiffersInFree loaderMachine m → ∀ s₂ plan₂,
        telfLoad (setMem loaderMachine m) loaderSpace (oneSegment 0x8000000000 16 32) 136 =
          (s₂, .ok plan₂) → ImageHolds (oneSegment 0x8000000000 16 32) s₂ loaderSpace := by
  have hheaders : loadedHeaders (oneSegment 0x8000000000 16 32) = [64] := by decide +kernel
  have hparse : telfParse (oneSegment 0x8000000000 16 32) 136 =
      .ok ⟨0x8000000000, [⟨0x8000000000, 120, 16, 32, 5⟩]⟩ := by decide +kernel
  have hheader : programHeader (oneSegment 0x8000000000 16 32) 64 =
    ⟨1, 5, 120, 0x8000000000, 16, 32, 0⟩ := by
    decide +kernel
  obtain ⟨s', hload⟩ := loaderMachine_loads hparse rfl (by decide) (by decide) (by decide)
  refine ⟨s', _, hload, ((telfLoad_image_iff _ _ _ _ _ _ ⟨_, _, _, _, loaderMachine_space⟩
    loaderMachine_noUserPages hload).mpr fun off hoff _ => ?_).2⟩
  rw [hheaders, List.mem_singleton] at hoff
  subst hoff
  rw [hheader]
  exact ⟨by decide, by decide, fun _ _ => rfl⟩

/-- A file whose segment starts 16 bytes into a page; its first byte is 0x41. -/
def shiftedFile : Memory := storeLE (oneSegment 0x8000000010 16 32) 120 1 0x41

/-- The bytes of a segment are copied to the start of its first page, not to its address. -/
theorem unaligned_segment_is_shifted :
    ∃ s' plan, telfLoad loaderMachine loaderSpace shiftedFile 136 = (s', .ok plan) ∧
      userByte s' loaderSpace 0x8000000010 = some 0 ∧ ¬ ImageHolds shiftedFile s' loaderSpace := by
  have hheaders : loadedHeaders shiftedFile = [64] := by decide +kernel
  have hparse : telfParse shiftedFile 136 = .ok ⟨0x8000000010, [⟨0x8000000010, 120, 16, 32, 5⟩]⟩ :=
    by decide +kernel
  have hheader : programHeader shiftedFile 64 = ⟨1, 5, 120, 0x8000000010, 16, 32, 0⟩ := by
    decide +kernel
  obtain ⟨s', hload⟩ := loaderMachine_loads hparse rfl (by decide) (by decide) (by decide)
  obtain ⟨rs, hregions, _, hruns⟩ :=
    loaderMachine_space.image loaderMachine_noUserPages hload fun off hoff => by
    rw [hheaders, List.mem_singleton] at hoff
    subst hoff
    decide +kernel
  obtain ⟨phys, hR⟩ := hregions.1 _ (List.mem_singleton_self _)
  obtain ⟨s₂, hload₂, hbytes, _⟩ := hruns _ (DiffersInFree.refl loaderMachine)
  obtain ⟨rfl, _⟩ := Prod.mk.inj (hload₂.symm.trans hload)
  have hpages : 16 < segmentPages ⟨0x8000000010, 120, 16, 32, 5⟩ * 4096 := by decide
  have hread : userByte s₂ loaderSpace 0x8000000010 = some 0 := (hbytes _ hR 16 hpages).trans rfl
  refine ⟨s₂, _, hload, hread, fun himage => ?_⟩
  have hfirst := himage 64 (hheaders ▸ List.mem_singleton_self 64) 0 (by rw [hheader]; decide)
  rw [hheader] at hfirst
  have hbyte : headerByte shiftedFile ⟨1, 5, 120, 0x8000000010, 16, 32, 0⟩ 0 = 0x41 := by
    decide +kernel
  rw [hbyte] at hfirst
  exact absurd (hread.symm.trans hfirst) (by decide)

end TraitOS.Telf
