import TraitOS.TelfLoad
import TraitOS.TmallocFailure

/-!
# The image of a loaded file

What a file that was loaded looks like from user space: the permissions of its pages, the
bytes at its addresses, and where what was in the frames before shows through.
-/
namespace TraitOS.Telf
open ByteMemory PageTable Tpmm Tmalloc Tvmm

/-- The leaf entry of an address in a space. -/
def leafIn (s : Vmm) (as virt : ℕ) : ℕ := leafOf s.heap.vm.mem (rootOf s as) virt

/-- No page of the space is mapped with the user flag. -/
def NoUserPages (s : Vmm) (as : ℕ) : Prop :=
  ∀ virt, hasBits (leafIn s as virt) (needBits false) = false

/-! ## Permissions -/

/-- The leaf of a user page that is both writable and executable. -/
def WriteExec (leaf : ℕ) : Prop := hasBits leaf (needBits true) = true ∧ hasBits leaf pageNx = false

/-- A program header asks for a segment that is both writable and executable. -/
def AsksWriteExec (h : ProgramHeader) : Prop := h.flags / 2 % 2 = 1 ∧ h.flags % 2 = 1

instance (h : ProgramHeader) : Decidable (AsksWriteExec h) := inferInstanceAs (Decidable (_ ∧ _))

instance (seg : TelfSegment) : Decidable (StaysInside seg) := inferInstanceAs (Decidable (_ ≤ _))

lemma leafEntry_and (phys flags : ℕ) {need : ℕ} (h : addrMask &&& need = 0) :
    leafEntry phys flags &&& need = (flags ||| pagePresent) &&& need := by
  unfold leafEntry target
  rw [Nat.or_assoc, Nat.and_or_distrib_right, Nat.and_assoc, h, Nat.and_zero, Nat.zero_or]

lemma writeExec_segment (phys : ℕ) (h : ProgramHeader) :
    WriteExec (leafEntry phys (segmentFlags (segmentOf h))) ↔ AsksWriteExec h := by
  have hbits {need : ℕ} (hn : addrMask &&& need =
      0) : hasBits (leafEntry phys (segmentFlags (segmentOf h))) need =
      hasBits (segmentFlags (segmentOf h) ||| pagePresent) need := by
    unfold hasBits
    rw [leafEntry_and _ _ hn]
  unfold WriteExec AsksWriteExec
  rw [hbits (by decide), hbits (by decide)]
  unfold segmentFlags segmentOf
  dsimp only
  by_cases hw : h.flags / 2 % 2 = 1 <;> by_cases hx : h.flags % 2 =
    1 <;> by_cases hr : h.flags / 4 % 2 = 1
  all_goals
    simp only [hw, hx, hr, if_true, if_false]
    decide

lemma user_of_writeExec {leaf : ℕ} (h : WriteExec leaf) : hasBits leaf (needBits false) = true := by
  have hall : leaf &&& needBits true = needBits true := of_decide_eq_true h.1
  have hsub : needBits true &&& needBits false = needBits false := by decide
  refine decide_eq_true ?_
  rw [← hsub, ← Nat.and_assoc, hall]

lemma leafIn_setVm (s : Vmm) (p : Paging) (as virt : ℕ) : leafIn (setVm s p) as virt =
    leafOf p.mem (rootOf s as) virt := by
  unfold leafIn
  rw [rootOf_setVm]
  rfl

/-- The first page of a segment has the flags its header asks for. -/
lemma Space.header_leaf {lay : Layout} {s s' : Vmm} {as tree r size : ℕ} {use : ℕ → Use}
    {blob : Memory} {plan : TelfPlan} (hsp : Space lay s as tree r use)
    (hload : telfLoad s as blob size = (s', .ok plan))
    (hin : ∀ off ∈ loadedHeaders blob, StaysInside (segmentOf (programHeader blob off))) {off : ℕ}
    (hoff : off ∈ loadedHeaders blob) : ∃ virt phys,
      leafIn s' as virt = leafEntry phys (segmentFlags (segmentOf (programHeader blob off))) := by
  obtain ⟨p', use', rs, rfl, hloaded, hapart, hregions, _⟩ := hsp.load hload hin
  obtain ⟨hsegs, _⟩ := plan_segs (telfLoad_ok hload).1
  have hmem : segmentOf (programHeader blob off) ∈ plan.segs := by
    rw [hsegs]
    exact List.mem_map_of_mem hoff
  obtain ⟨phys, hR⟩ := hregions.1 _ hmem
  have hfirst := Region.leaf_at (hloaded.fits _ hR) (Nat.mul_pos (Nat.succ_pos _) (by decide))
  refine ⟨(segmentRegion blob (segmentOf (programHeader blob off)) phys).first + 0,
    phys + 0 / 4096 * 4096, ?_⟩
  rw [leafIn_setVm, hsp.rootOf_eq, hloaded.leaves, hapart.find hR hfirst, Option.getD_some]
  rfl

/-- If the bytes of a file stay in their frames, no user page is both writable and
executable exactly when no header asks for such a segment. -/
theorem telfLoad_write_exec_iff (s s' : Vmm) (as size : ℕ) (blob : Memory) (plan : TelfPlan)
    (hspace : IsSpace s as) (hnone : NoUserPages s as)
    (hload : telfLoad s as blob size = (s', .ok plan))
    (hin : ∀ off ∈ loadedHeaders blob, StaysInside (segmentOf (programHeader blob off))) :
    (∀ virt, ¬ WriteExec (leafIn s' as virt)) ↔
      ∀ off ∈ loadedHeaders blob, ¬ AsksWriteExec (programHeader blob off) := by
  obtain ⟨lay, tree, r, use, hsp⟩ := hspace
  constructor
  · intro hwx off hoff hask
    obtain ⟨virt, phys, hleaf⟩ := hsp.header_leaf hload hin hoff
    apply hwx virt
    rw [hleaf]
    exact (writeExec_segment _ _).mpr hask
  · intro hask virt hwx
    obtain ⟨p', use', rs, rfl, hloaded, _, hregions, _⟩ := hsp.load hload hin
    obtain ⟨hsegs, _⟩ := plan_segs (telfLoad_ok hload).1
    have hleaf (v : ℕ) : leafIn (setVm s p') as v =
      (rs.findSome? (·.leaf v)).getD (leafIn s as v) := by
      rw [leafIn_setVm, leafIn, hsp.rootOf_eq, hloaded.leaves v]
    rw [hleaf] at hwx
    cases hfind : rs.findSome? (·.leaf virt) with
    | none =>
      rw [hfind, Option.getD_none] at hwx
      exact Bool.false_ne_true ((hnone virt).symm.trans (user_of_writeExec hwx))
    | some e =>
      rw [hfind, Option.getD_some] at hwx
      obtain ⟨R, hR, he⟩ := List.exists_of_findSome?_eq_some hfind
      obtain ⟨seg, hseg, heq⟩ := hregions.2.1 R hR
      rw [hsegs] at hseg
      obtain ⟨off, hoff, rfl⟩ := List.mem_map.mp hseg
      rw [heq] at he
      unfold Region.leaf rangeLeaf at he
      split_ifs at he
      rw [← Option.some.inj he] at hwx
      exact hask off hoff ((writeExec_segment _ _).mp hwx)

/-! ## A small machine -/

/-- A machine with 256 KiB of empty memory and one space, whose PML4 is in frame 2. -/
def loaderMachine : Vmm where
  heap := emptyHeap ⟨fun _ => 0, closedMachine.pmm⟩ 0x1000
    (store64 (store64 (fun _ => 0) 0xFFFFFFFFC0000010 0x2000) 0xFFFFFFFFC0000018
      (physToVirt 0x2000))
  kernelAddr := 0xFFFFFFFF8010A000
  kernelAspace := rootAspace 1
  current := 0xFFFFFFFF8010A000
  cr3 := 0x1000

def loaderSpace : ℕ := 0xFFFFFFFFC0000010

/-- Only the PML4 of the space is a table. -/
def loaderUse (f : ℕ) : Use := if f = 2 then .node loaderSpace [] else .idle

lemma loaderUse_node {f t : ℕ} {q : List ℕ} (h : loaderUse f = .node t q) : f = 2 ∧
    t = loaderSpace ∧ q = [] := by
  unfold loaderUse at h
  split_ifs at h with hf
  cases h
  exact ⟨hf, rfl, rfl⟩

lemma loaderUse_ne_idle {f : ℕ} (h : loaderUse f ≠ .idle) : f = 2 := by
  by_contra hne
  exact h (if_neg hne)

lemma loaderMachine_entry (table i : ℕ) : entry loaderMachine.heap.vm.mem table i = 0 := by
  have hzero : ∀ n, loadLE (fun _ => 0) (table + 8 * i) n = 0 := by
    intro n
    induction n with
    | zero => rfl
    | succ n ih => rw [loadLE, ih]; simp
  exact hzero 8

lemma loaderMachine_tables :
    Tables ⟨fun _ _ _ => False, False⟩ loaderMachine.heap.vm loaderUse where
  owned := by
    refine ⟨fun f t q i _ _ _ _ hp => ?_, fun f t q i _ _ _ _ => ?_, fun k t q i hk => ?_,
      fun f g t hf hg => ?_, fun f t q hf => ?_⟩
    · rw [loaderMachine_entry, present_zero] at hp
      exact absurd hp Bool.false_ne_true
    · rw [loaderMachine_entry]
      decide
    · exact absurd (loaderUse_node hk).2.2 (by simp)
    · rw [(loaderUse_node hf).1, (loaderUse_node hg).1]
    · rw [(loaderUse_node hf).2.2]
      decide
  valid := closedMachine_valid
  held := fun f hf => by
    rw [loaderUse_ne_idle hf]
    decide +kernel
  nonzero := by decide
  managed := fun f hf => by
    rw [loaderUse_ne_idle hf]
    decide
  low := fun f t q hf _ => by
    rw [(loaderUse_node hf).1]
    decide
  named := fun f t hf ht => by
    rw [(loaderUse_node hf).2.1] at ht
    exact absurd ht (by decide)
  shared := fun i k ⟨_, _, _, _, _, _, hp, _⟩ => by
    rw [loaderMachine_entry, present_zero] at hp
    exact absurd hp Bool.false_ne_true
  single := fun i i' k ⟨_, _, _, _, _, _, hp, _⟩ _ => by
    rw [loaderMachine_entry, present_zero] at hp
    exact absurd hp Bool.false_ne_true
  leaves := fun _ _ _ h => h.elim

lemma loaderMachine_space : Space ⟨fun _ _ _ => False, False⟩ loaderMachine loaderSpace loaderSpace
    2 loaderUse where
  loose := id
  tables := loaderMachine_tables
  root := rfl
  user := by decide
  rootOf_eq := by decide +kernel

lemma loaderMachine_noUserPages : NoUserPages loaderMachine loaderSpace := by
  intro virt
  unfold leafIn
  rw [leafOf_of_absent (by rw [loaderMachine_entry, present_zero])]
  decide

lemma mapRun_supply (root first phys flags n : ℕ) {p : Paging} {k : ℕ}
    (h : Supply (k + 3 * n) p.pmm) :
    ∃ p', mapRun p root first phys flags n = (p', true) ∧ Supply k p'.pmm := by
  induction n generalizing k with
  | zero => exact ⟨p, rfl, h⟩
  | succ n ih =>
    obtain ⟨p₁, heq, hs⟩ := ih (k := k + 3) (by rwa [Nat.add_assoc, Nat.add_comm 3])
    obtain ⟨p₂, heq₂, hs₂⟩ := mapPage_supply root (first + n * 4096) (phys + n * 4096) flags hs
    exact ⟨p₂, by rw [mapRun_succ heq, if_pos rfl, heq₂], hs₂⟩

/-- A segment of one page is loaded. -/
lemma loaderMachine_loadSegment (blob : Memory) {seg : TelfSegment} (hlo : userBase ≤ seg.vaddr)
    (hhi : seg.vaddr + seg.memsz ≤ userEnd) (hone : segmentPages seg = 1) :
    ∃ p, mapRun ⟨fun _ => 0, (tpmmAllocLowContig closedMachine.pmm 1).1⟩
      (rootOf loaderMachine loaderSpace)
        (firstPage seg) (tpmmAllocLowContig closedMachine.pmm 1).2 (segmentFlags seg) 1 =
          (p, true) ∧
      loadSegment loaderMachine loaderSpace blob seg = (setVm loaderMachine
        ⟨fillSegment p.mem (tpmmAllocLowContig closedMachine.pmm 1).2 blob seg, p.pmm⟩, .ok ()) :=
          by
  have hspace : seg.vaddr + seg.memsz < 2 ^ 64 := lt_of_le_of_lt hhi (by decide)
  have hphys : (tpmmAllocLowContig closedMachine.pmm 1).2 ≠ 0 := by decide
  obtain ⟨p₂, hmap, _⟩ :=
    mapRun_supply (p := ⟨fun _ => 0, (tpmmAllocLowContig closedMachine.pmm 1).1⟩) (k := 0)
    (rootOf loaderMachine loaderSpace) (firstPage seg)
      (tpmmAllocLowContig closedMachine.pmm 1).2 (segmentFlags seg) 1
    (by decide)
  have hrun : SegmentRun loaderMachine loaderMachine.heap.vm loaderSpace
    (rootOf loaderMachine loaderSpace) seg
      (tpmmAllocLowContig closedMachine.pmm 1).1 (tpmmAllocLowContig closedMachine.pmm 1).2 p₂ := by
    refine ⟨hlo, by rwa [Nat.mod_eq_of_lt hspace], ?_, by rw [hone]; rfl, hphys,
      by rw [hone]; exact hmap⟩
    refine List.any_eq_false.mpr fun k _ => ?_
    rw [vmmAspacePhys_setVm, physOf_of_absent (by rw [loaderMachine_entry, present_zero])]
    simp
  exact ⟨p₂, hmap, (loadSegment_run (p := loaderMachine.heap.vm) closedMachine_valid hspace).mpr ⟨_,
    _, _, hrun, rfl⟩⟩

/-- A file with one segment of one page is loaded. -/
lemma loaderMachine_loads {blob : Memory} {size : ℕ} {plan : TelfPlan} {seg : TelfSegment}
    (hparse : telfParse blob size = .ok plan) (hsegs : plan.segs = [seg])
    (hlo : userBase ≤ seg.vaddr) (hhi : seg.vaddr + seg.memsz ≤ userEnd)
    (hone : segmentPages seg = 1) :
    ∃ s', telfLoad loaderMachine loaderSpace blob size = (s', .ok plan) := by
  obtain ⟨_, _, hseg⟩ := loaderMachine_loadSegment blob hlo hhi hone
  obtain ⟨s', hload⟩ : ∃ s', loadSegments loaderMachine loaderSpace blob plan.segs =
    (s', .ok ()) := by
    rw [hsegs, loadSegments, hseg]
    exact ⟨_, rfl⟩
  exact ⟨s', telfLoad_of hparse hload⟩

/-- A file with one segment that may be read and executed. -/
theorem telfLoad_write_exec_readOnly :
    ∃ s' plan, telfLoad loaderMachine loaderSpace (oneSegment 0x8000000000 16 32) 136 =
      (s', .ok plan) ∧ ∀ virt, ¬ WriteExec (leafIn s' loaderSpace virt) := by
  have hheaders : loadedHeaders (oneSegment 0x8000000000 16 32) = [64] := by decide +kernel
  have hparse : telfParse (oneSegment 0x8000000000 16 32) 136 =
      .ok ⟨0x8000000000, [⟨0x8000000000, 120, 16, 32, 5⟩]⟩ := by decide +kernel
  obtain ⟨s', hload⟩ := loaderMachine_loads hparse rfl (by decide) (by decide) (by decide)
  refine ⟨s', _, hload, (telfLoad_write_exec_iff _ _ _ _ _ _ ⟨_, _, _, _, loaderMachine_space⟩
    loaderMachine_noUserPages hload fun off hoff => ?_).mpr fun off hoff => ?_⟩
  · rw [hheaders, List.mem_singleton] at hoff
    subst hoff
    decide +kernel
  · rw [hheaders, List.mem_singleton] at hoff
    subst hoff
    decide +kernel

/-- A segment that asks for all permissions gets them. -/
theorem writable_code_is_loaded :
    ∃ s' plan, telfLoad loaderMachine loaderSpace (storeLE (oneSegment 0x8000000000 16 32) 68 4 7)
      136 = (s', .ok plan) ∧ ∃ virt, WriteExec (leafIn s' loaderSpace virt) := by
  have hheaders : loadedHeaders (storeLE (oneSegment 0x8000000000 16 32) 68 4 7) = [64] := by
    decide +kernel
  have hparse : telfParse (storeLE (oneSegment 0x8000000000 16 32) 68 4 7) 136 =
      .ok ⟨0x8000000000, [⟨0x8000000000, 120, 16, 32, 7⟩]⟩ := by decide +kernel
  obtain ⟨s', hload⟩ := loaderMachine_loads hparse rfl (by decide) (by decide) (by decide)
  have hoff : 64 ∈ loadedHeaders (storeLE (oneSegment 0x8000000000 16 32) 68 4 7) := by
    rw [hheaders]
    exact List.mem_singleton_self 64
  obtain ⟨virt, phys, hleaf⟩ := loaderMachine_space.header_leaf hload
    (fun off hoff => by
      rw [hheaders, List.mem_singleton] at hoff
      subst hoff
      decide +kernel) hoff
  refine ⟨s', _, hload, virt, ?_⟩
  rw [hleaf, writeExec_segment]
  decide +kernel

end TraitOS.Telf
