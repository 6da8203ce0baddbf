import TraitOS.TelfPages

/-!
# The overlap check

The parser keeps two segments apart by comparing where the pages of one start with where the
other one ends. For segments with bytes that is exact. So the check of the loader for pages
that are mapped already finds none in an empty space, as long as the bytes of every segment
stay in its frames: else they may end up in the tables of the space.
-/
namespace TraitOS.Telf
open ByteMemory PageTable Tpmm Tstring Tmalloc Tvmm

variable {blob : Memory}

/-! ## Page sets -/

lemma overlap_iff {s t : TelfSegment} (hs : s.vaddr + s.memsz < 2 ^ 64)
    (ht : t.vaddr + t.memsz < 2 ^ 64) (hs0 : 0 < s.memsz) (ht0 : 0 < t.memsz) :
    Overlap s t ↔ ¬ Disjoint (pagesTouched s) (pagesTouched t) := by
  unfold Overlap
  rw [Nat.mod_eq_of_lt hs, Nat.mod_eq_of_lt ht, Finset.not_disjoint_iff]
  simp only [mem_pagesTouched hs0, mem_pagesTouched ht0]
  refine ⟨fun h => ⟨max (s.vaddr / 4096) (t.vaddr / 4096), ?_⟩, fun ⟨p, h⟩ => ?_⟩
  · omega
  · omega

lemma taken_space {size : ℕ} {offs : List ℕ} {segs : List TelfSegment}
    (h : List.Forall₂ (Taken blob size) offs segs) : ∀ s ∈ segs, s.vaddr + s.memsz < 2 ^ 64 := by
  induction h with
  | nil => exact fun _ hs => absurd hs List.not_mem_nil
  | cons hs _ ih => exact List.forall_mem_cons.mpr ⟨hs.2 ▸ segmentOf_space hs.1, ih⟩

/-- The segments the parser has collected when it comes to the overlap check. -/
lemma parsed_space {size : ℕ} {segs : List TelfSegment}
    (h : parseSegments blob size (ehdrPhnum blob) 0 [] = .ok segs) :
    ∀ s ∈ segs, s.vaddr + s.memsz < 2 ^ 64 := by
  obtain ⟨new, hnew, htaken⟩ := parseSegments_taken _ _ _ _ h
  rw [hnew, List.nil_append]
  exact taken_space htaken

lemma plan_apart {size : ℕ} {plan : TelfPlan} (h : telfParse blob size = .ok plan) :
    plan.segs.Pairwise fun s t => ¬ Overlap s t := by
  simp only [telfParse, rejectIf_bind_eq_ok] at h
  obtain ⟨-, -, -, -, -, -, -, -, -, -, -, h⟩ := h
  obtain ⟨segs, _, h⟩ := bind_eq_ok.mp h
  simp only [rejectIf_bind_eq_ok] at h
  obtain ⟨-, hapart, hplan⟩ := h
  obtain rfl := Except.ok.inj hplan
  exact not_not.mp hapart

lemma plan_disjoint {size : ℕ} {plan : TelfPlan} (h : telfParse blob size = .ok plan)
    (hpos : ∀ seg ∈ plan.segs, 0 < seg.memsz) :
    plan.segs.Pairwise fun s t => Disjoint (pagesTouched s) (pagesTouched t) := by
  have hspace := taken_space (telfParse_taken h)
  refine (plan_apart h).imp_of_mem fun {s t} hs ht hover => ?_
  by_contra hmeet
  exact hover ((overlap_iff (hspace s hs) (hspace t ht) (hpos s hs) (hpos t ht)).mpr hmeet)

/-! ## The check of the loader -/

/-- A space without user mappings. -/
def NoMappings (s : Vmm) (as : ℕ) : Prop := ∀ virt, vmmAspacePhys s as virt = none

/-- In its turn some segment, whose range is accepted, has a page that is mapped already. -/
def CheckFires (s : Vmm) (as : ℕ) (blob : Memory) (segs : List TelfSegment) : Prop :=
  ∃ front seg rest s', segs = front ++ seg :: rest ∧ loadSegments s as blob front = (s', .ok ()) ∧
    userBase ≤ seg.vaddr ∧ (seg.vaddr + seg.memsz) % 2 ^ 64 ≤ userEnd ∧
    anyMapped s' as (firstPage seg) (segmentPages seg) = true

section Check
variable {lay : Layout} {tree r : ℕ} {p : Paging} {use : ℕ → Use}

/-- A page the source finds mapped has a leaf. -/
lemma leaf_of_mapped (ht : Tables lay p use) (hr : use r = .node tree [])
    (hu : ¬ tree < pmmMaxFrames) {v : ℕ} (hk : kernelSlot (pml4Index v) = false)
    (h : (physOf p.mem (r * frameBytes) v).isSome = true) :
    present (leafOf p.mem (r * frameBytes) v) = true := by
  have heq := translate_eq ht v hr hu
  obtain ⟨frame, hframe⟩ := Option.isSome_iff_exists.mp h
  rw [hframe, Option.map_some, translate_user ht hr hu hk] at heq
  by_contra hp
  rw [if_neg hp] at heq
  exact nomatch heq

/-- The pages of a segment in the user region. -/
lemma segment_page {seg : TelfSegment} (hlo : userBase ≤ seg.vaddr)
    (hhi : seg.vaddr + seg.memsz ≤ userEnd) (hpos : 0 < seg.memsz) {k : ℕ}
    (hk : k < segmentPages seg) :
    userBase ≤ firstPage seg + k * 4096 ∧ firstPage seg + k * 4096 < userEnd ∧
      pageOf (firstPage seg + k * 4096) ∈ pagesTouched seg := by
  have hend : userEnd < 2 ^ 48 := by decide
  rw [segmentPages_pos (by omega) hpos] at hk
  rw [mem_pagesTouched hpos]
  unfold pageOf firstPage
  unfold userBase at hlo ⊢
  omega

lemma leaf_page {seg : TelfSegment} {phys v : ℕ} (hspace : seg.vaddr + seg.memsz < 2 ^ 64)
    (hpos : 0 < seg.memsz) (h : (segmentRegion blob seg phys).leaf v ≠ none) :
    pageOf v ∈ pagesTouched seg := by
  have hin : firstPage seg / 4096 ≤ pageOf v ∧
    pageOf v < firstPage seg / 4096 + segmentPages seg := by
    by_contra hout
    exact h (if_neg hout)
  rw [segmentPages_pos hspace hpos] at hin
  rw [mem_pagesTouched hpos]
  unfold firstPage at hin
  omega

end Check

/-- While the bytes of the segments stay in their frames, pages are mapped only as pages of
segments; so the check finds none. -/
lemma check_silent {s : Vmm} {as : ℕ} (hspace : IsSpace s as) (hnone : NoMappings s as)
    {segs : List TelfSegment}
    (hsegs : ∀ seg ∈ segs, seg.vaddr + seg.memsz < 2 ^ 64 ∧ StaysInside seg)
    (hpos : ∀ seg ∈ segs, 0 < seg.memsz)
    (hdisj : segs.Pairwise fun s t => Disjoint (pagesTouched s) (pagesTouched t)) :
    ¬ CheckFires s as blob segs := by
  rintro ⟨front, seg, rest, s', rfl, hload, hlo, hhi, hany⟩
  obtain ⟨lay, tree, r, use, hsp⟩ := hspace
  have hstart : Loaded lay tree r (freeSet s.heap.vm.pmm) (leafOf s.heap.vm.mem (r * frameBytes))
    s.heap.vm use [] :=
    ⟨hsp.tables, hsp.root, fun v => Option.getD_none.symm, fun _ h => absurd h List.not_mem_nil,
      fun _ h => absurd h List.not_mem_nil, Finset.Subset.refl _⟩
  have hfront : ∀ t ∈ front, t ∈ front ++ seg :: rest := fun t ht => List.mem_append_left _ ht
  have hseg : seg ∈ front ++ seg :: rest := List.mem_append_right _ List.mem_cons_self
  obtain ⟨p', use', new, rfl, hloaded, -, hregions, -⟩ :=
    Loaded.segments (s := s) (F :=
      freeSet s.heap.vm.pmm) hsp.loose hsp.user hsp.rootOf_eq front hstart
      List.Pairwise.nil (fun t ht => hsegs t (hfront t ht)) hload
  rw [List.append_nil] at hloaded
  obtain ⟨k, hk, hmapped⟩ := List.any_eq_true.mp hany
  rw [Nat.mod_eq_of_lt (hsegs seg hseg).1] at hhi
  obtain ⟨h1, h2, hpage⟩ := segment_page hlo hhi (hpos seg hseg) (List.mem_range.mp hk)
  have hslot := kernelSlot_user h1 h2
  -- the page was free before, so it has the leaf of a segment loaded so far
  have habs : present (leafOf s.heap.vm.mem (r * frameBytes) (firstPage seg + k * 4096)) =
    false := by
    refine leaf_of_unmapped hsp.tables hsp.root hsp.user hslot ?_
    have hfree := hnone (firstPage seg + k * 4096)
    unfold vmmAspacePhys at hfree
    rwa [hslot, if_neg Bool.false_ne_true, hsp.rootOf_eq] at hfree
  have hend : userEnd < 2 ^ 64 := by decide
  rw [Nat.mod_eq_of_lt (h2.trans hend), vmmAspacePhys_setVm, hslot, if_neg Bool.false_ne_true,
    hsp.rootOf_eq] at hmapped
  have hpresent := leaf_of_mapped hloaded.tables hloaded.root hsp.user hslot hmapped
  rw [hloaded.leaves] at hpresent
  cases hfind : new.findSome? (·.leaf (firstPage seg + k * 4096)) with
  | none =>
    rw [hfind, Option.getD_none, habs] at hpresent
    exact Bool.false_ne_true hpresent
  | some e =>
    obtain ⟨R, hR, he⟩ := List.exists_of_findSome?_eq_some hfind
    obtain ⟨t, ht, heq⟩ := (regions_of_forall₂ hregions).2.1 R (List.mem_reverse.mpr hR)
    rw [heq] at he
    have hother := leaf_page (hsegs t (hfront t ht)).1 (hpos t (hfront t ht))
      (by rw [he]; exact Option.some_ne_none e)
    exact Finset.disjoint_left.mp ((List.pairwise_append.mp hdisj).2.2 t ht seg List.mem_cons_self)
      hother hpage

lemma loaderMachine_noMappings : NoMappings loaderMachine loaderSpace := by
  intro virt
  unfold vmmAspacePhys
  rw [physOf_of_absent (by rw [loaderMachine_entry, present_zero])]
  split_ifs
  · rfl
  · rfl

/-- The check of the parser is exact for segments with bytes, and that of the loader never
fires in an empty space if the bytes of every segment stay in its frames. -/
theorem overlap_check_exact (blob : Memory) (size : ℕ) :
    (∀ plan, telfParse blob size = .ok plan → (∀ seg ∈ plan.segs, 0 < seg.memsz) →
      plan.segs.Pairwise fun s t => Disjoint (pagesTouched s) (pagesTouched t)) ∧
    (∀ segs, parseSegments blob size (ehdrPhnum blob) 0 [] = .ok segs → ∀ s ∈ segs, ∀ t ∈ segs,
      0 < s.memsz → 0 < t.memsz → Overlap s t → ¬ Disjoint (pagesTouched s) (pagesTouched t)) ∧
    ∀ plan, telfParse blob size = .ok plan → (∀ seg ∈ plan.segs, 0 < seg.memsz) →
      (∀ seg ∈ plan.segs, StaysInside seg) →
        ∀ s as, IsSpace s as → NoMappings s as → ¬ CheckFires s as blob plan.segs := by
  refine ⟨fun plan h hpos => plan_disjoint h hpos, fun segs h s hs t ht hs0 ht0 hover => ?_,
    fun plan h hpos hin s as hspace hnone => ?_⟩
  · exact (overlap_iff (parsed_space h s hs) (parsed_space h t ht) hs0 ht0).mp hover
  · have hbounds := taken_space (telfParse_taken h)
    exact check_silent hspace hnone (fun seg hseg => ⟨hbounds seg hseg, hin seg hseg⟩)
      hpos (plan_disjoint h hpos)

/-- A file with two segments, loaded into an empty space. -/
theorem overlap_check_exact_two :
    ∃ plan, telfParse (twoSegments 16 32 0x8000001000 0 16) 192 = .ok plan ∧ plan.segs.length = 2 ∧
      (plan.segs.Pairwise fun s t => Disjoint (pagesTouched s) (pagesTouched t)) ∧
      ¬ CheckFires loaderMachine loaderSpace (twoSegments 16 32 0x8000001000 0 16) plan.segs := by
  have hparse : telfParse (twoSegments 16 32 0x8000001000 0 16) 192 =
      .ok ⟨0x8000000000, [⟨0x8000000000, 176, 16, 32, 5⟩, ⟨0x8000001000, 176, 0, 16, 3⟩]⟩ := by
    decide +kernel
  obtain ⟨hdisjoint, -, hsilent⟩ := overlap_check_exact (twoSegments 16 32 0x8000001000 0 16) 192
  refine ⟨_, hparse, rfl, hdisjoint _ hparse (by decide), hsilent _ hparse (by decide) ?_ _ _
    ⟨_, _, _, _, loaderMachine_space⟩ loaderMachine_noMappings⟩
  unfold StaysInside
  decide

/-- A file whose first segment has one byte of memory, because its memory size 2^32 + 1 is
cut, and a page and 16 bytes in the file. The 16 bytes are two entries for the frame at 0x9000. -/
def overrunFile : Memory :=
  storeLE (storeLE (twoSegments 4112 (2 ^ 32 + 1) 0x8000001000 0 16) 4272 8 0x9001) 4280 8 0x9001

def overrunSegment : TelfSegment := ⟨0x8000000000, 176, 4112, 1, 5⟩

/-- The bytes behind the page at 0x8000 go to the frame at 0x9000. -/
lemma overrun_entry (m : Memory) {i : ℕ} (hi : i < 2) :
    entry (fillSegment m 0x8000 overrunFile overrunSegment) 0x9000 i =
    entry (fun x => overrunFile (176 + (x - 0x8000))) 0x9000 i := by
  refine loadLE_congr fun x hlo hhi => ?_
  rw [fillSegment_apply, if_pos (by omega), segmentByte, if_pos (show x - 0x8000 <
    overrunSegment.filesz from by change _ < 4112; omega), Option.getD_some]
  rfl

/-- If the first table of the space is in that frame, it now maps the second page. -/
lemma overrun_phys {m : Memory} (h : entry m 0x2000 1 = 0x9007) :
    (physOf (fillSegment m 0x8000 overrunFile overrunSegment) 0x2000 0x8000001000).isSome =
      true := by
  have hroot : entry (fillSegment m 0x8000 overrunFile overrunSegment) 0x2000 1 = 0x9007 := by
    rw [← h]
    refine loadLE_congr fun x hlo hhi => ?_
    rw [fillSegment_apply, if_neg (by omega)]
  have hfirst := (overrun_entry m (show 0 < 2 by decide)).trans (show _ = 0x9001 by decide +kernel)
  have hsecond := (overrun_entry m (show 1 < 2 by decide)).trans (show _ = 0x9001 by decide +kernel)
  unfold physOf tableLookup
  rw [show pml4Index 0x8000001000 = 1 by decide, show pdptIndex 0x8000001000 = 0 by decide,
    show pdIndex 0x8000001000 = 0 by decide, show ptIndex 0x8000001000 =
      1 by decide, hroot, if_pos (by decide),
    Option.bind_some, show target 0x9007 = 0x9000 by decide, hfirst, if_pos (by decide),
      Option.bind_some,
    show target 0x9001 = 0x9000 by decide, hfirst, if_neg (by decide), if_pos (by decide),
      Option.bind_some,
    show target 0x9001 = 0x9000 by decide, hsecond, if_pos (by decide)]
  rfl

/-- A new table is cleared as a whole. -/
lemma tableEnsure_fill (p : Paging) (table idx flags : ℕ) : tableEnsure p table idx flags =
    if present (entry p.mem table idx) then (p, some (target (entry p.mem table idx)))
    else if (tpmmAllocLow p.pmm).2 = 0 then ({ p with pmm := (tpmmAllocLow p.pmm).1 }, none)
    else (⟨setEntry (fill p.mem (target (tpmmAllocLow p.pmm).2) 4096 0) table idx
      ((tpmmAllocLow p.pmm).2 ||| pagePresent ||| pageWrite ||| (flags &&& pageUser)),
        (tpmmAllocLow p.pmm).1⟩,
      some (target (tpmmAllocLow p.pmm).2)) := by
  rw [tableEnsure]
  simp only [tmemset_eq_fill]

/-- The file is accepted, and its second segment is refused as mapped already: by the bytes of
the first one. -/
theorem overrun_fires_check :
    ∃ plan, telfParse overrunFile 4288 = .ok plan ∧ (∀ seg ∈ plan.segs, 0 < seg.memsz) ∧
      IsSpace loaderMachine loaderSpace ∧ NoMappings loaderMachine loaderSpace ∧
      CheckFires loaderMachine loaderSpace overrunFile plan.segs := by
  have hparse : telfParse overrunFile 4288 =
    .ok ⟨0x8000000000, [overrunSegment, ⟨0x8000001000, 176, 0, 16, 3⟩]⟩ := by
    decide +kernel
  obtain ⟨p, hmap, hload⟩ := @loaderMachine_loadSegment overrunFile overrunSegment (by decide)
    (by decide) (by decide)
  have hphys : (tpmmAllocLowContig closedMachine.pmm 1).2 = 0x8000 := by decide +kernel
  have htable : (fun q : Paging × Bool => entry q.1.mem 0x2000 1) (mapRun
      ⟨fun _ => 0, (tpmmAllocLowContig closedMachine.pmm 1).1⟩ (rootOf loaderMachine loaderSpace)
        (firstPage overrunSegment)
          (tpmmAllocLowContig closedMachine.pmm 1).2 (segmentFlags overrunSegment) 1) = 0x9007 := by
    rw [mapRun, mapRun, mapPage, ensureTables]
    simp only [tableEnsure_fill]
    decide +kernel
  rw [hmap] at htable
  rw [hphys] at hload
  refine ⟨_, hparse, by decide, ⟨_, _, _, _, loaderMachine_space⟩, loaderMachine_noMappings,
    [overrunSegment], _, [], _, rfl, by rw [loadSegments, hload]; rfl, by decide, by decide, ?_⟩
  refine List.any_eq_true.mpr ⟨0, by decide, ?_⟩
  rw [vmmAspacePhys_setVm, loaderMachine_space.rootOf_eq]
  exact overrun_phys htable

end TraitOS.Telf
