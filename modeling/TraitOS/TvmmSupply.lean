import TraitOS.TvmmBoot

/-!
# Calls that find the memory they need

Each table that a mapping adds is one frame of the first 1 GiB, so a pool that still
supplies three frames is enough for a mapping, and three frames a page for a growth
of the heap. The first address space of a machine can be created when the pool
supplies a root, the first chunk of the heap and the tables for it.
-/
namespace TraitOS.Tvmm
open ByteMemory PageTable FreeList Tpmm Tmalloc

instance decidableSupply : (n : ℕ) → (s : Pmm) → Decidable (Supply n s)
  | 0, _ => inferInstanceAs (Decidable True)
  | n + 1, s => @instDecidableAnd _ _ inferInstance (decidableSupply n (tpmmAllocLow s).1)

lemma tableEnsure_supply {p : Paging} {k : ℕ} (table idx flags : ℕ) (h : Supply (k + 1) p.pmm) :
    ∃ p' next, tableEnsure p table idx flags = (p', some next) ∧ Supply k p'.pmm := by
  unfold tableEnsure
  by_cases hp : present (entry p.mem table idx) = true
  · rw [if_pos hp]
    exact ⟨p, _, rfl, h.pred⟩
  · rw [if_neg hp]
    dsimp only
    rw [if_neg h.1]
    exact ⟨_, _, rfl, h.2⟩

theorem mapPage_supply {p : Paging} {k : ℕ} (root virt phys flags : ℕ) (h : Supply (k + 3) p.pmm) :
    ∃ p', mapPage p root virt phys flags = (p', true) ∧ Supply k p'.pmm := by
  obtain ⟨p₁, pdpt, h₁, hs₁⟩ := tableEnsure_supply root (pml4Index virt) flags h
  obtain ⟨p₂, pd, h₂, hs₂⟩ := tableEnsure_supply pdpt (pdptIndex virt) flags hs₁
  obtain ⟨p₃, pt, h₃, hs₃⟩ := tableEnsure_supply pd (pdIndex virt) flags hs₂
  unfold mapPage ensureTables
  rw [h₁, withTable_some, h₂, withTable_some, h₃, withTable_some]
  exact ⟨_, rfl, hs₃⟩

/-- The mapping loop of a growth. -/
theorem mapPages_supply (current : ℕ) {virt : ℕ} (base : ℕ) (hvirt : heapVirtBase ≤ virt) (n : ℕ) :
    ∀ {p : Paging} {i k : ℕ}, Supply (k + 3 * n) p.pmm → virt + (i + n) * 4096 ≤ 2 ^ 64 →
      ∃ p', mapPages p current virt base i n = (p', none) ∧ Supply k p'.pmm := by
  induction n with
  | zero => exact fun h _ => ⟨_, rfl, h⟩
  | succ n ih =>
    intro p i k h hend
    have hv : InWindow ((virt + i * 4096) % 2 ^ 64) := by
      rw [Nat.mod_eq_of_lt (by omega)]
      exact inWindow_of_bounds (by omega) (by omega)
    obtain ⟨p₁, hmap, hs₁⟩ := mapPage_supply (k := k + 3 * n) current ((virt + i * 4096) % 2 ^ 64)
      (base + i * 4096) (pageWrite ||| pageNx) h
    have hkernel : vmmMapPage p current ((virt + i * 4096) % 2 ^ 64) (base + i * 4096)
        (pageWrite ||| pageNx) = (p₁, true) := (if_neg (by rw [hv.1]; decide)).trans hmap
    unfold mapPages
    dsimp only
    rw [hkernel, if_pos rfl]
    exact ih hs₁ (show virt + (i + 1 + n) * 4096 ≤ 2 ^ 64 by linarith)

/-! ## The first space of a machine -/

/-- Where the first block of the heap lies. -/
def firstBlock : ℕ := heapVirtBase + headerBytes

/-- A growth by one chunk that finds the frames it needs. -/
lemma growHeap_supply {h : Heap} (need : ℕ) {k : ℕ} (hpages : growPages need = 16)
    (hbase : heapVirtBase ≤ h.heapVirt) (hend : h.heapVirt + 16 * 4096 < 2 ^ 64)
    (hc : (tpmmAllocContig h.vm.pmm 16).2 ≠ 0)
    (hs : Supply (k + 48) (tpmmAllocContig h.vm.pmm 16).1) :
    ∃ p', growHeap h need = { h with
        vm := p'
        bump := h.heapVirt + headerBytes
        bumpEnd := h.heapVirt + 16 * 4096
        heapVirt := h.heapVirt + 16 * 4096
        totalBytes := (h.totalBytes + 16 * 4096) % 2 ^ 64 } ∧ Supply k p'.pmm := by
  obtain ⟨p', hmap, hs'⟩ := mapPages_supply (p := { h.vm with
      pmm := (tpmmAllocContig h.vm.pmm 16).1 }) (i := 0) h.current (tpmmAllocContig h.vm.pmm 16).2
    hbase 16 hs (by omega)
  refine ⟨p', ?_, hs'⟩
  unfold growHeap
  dsimp only
  rw [hpages, if_neg hc, hmap, Nat.mod_eq_of_lt hend,
    Nat.mod_eq_of_lt (show h.heapVirt + headerBytes < 2 ^ 64 by unfold headerBytes; omega)]

/-- The first request to the heap grows it by one chunk. -/
theorem tmalloc_first {p : Paging} (current : ℕ) {k : ℕ} (cells : Memory)
    (hc : (tpmmAllocContig p.pmm 16).2 ≠ 0) (hs : Supply (k + 48) (tpmmAllocContig p.pmm 16).1) :
    ∃ h, tmalloc (emptyHeap p current cells) 16 = some (h, firstBlock) ∧ Supply k h.vm.pmm := by
  have hseek : firstFit (emptyHeap p current cells) (wanted 16) = some none := by
    rcases firstFit_spec (emptyHeap_laid p current cells) (wanted 16) with ⟨front, b, back, hnil,
      _⟩ | h
    · exact absurd hnil (by simp)
    · exact h.1
  have hwanted : wanted 16 = 16 := by decide
  have hfull : bumpFull (emptyHeap p current cells) (wanted 16) = true := by
    rw [hwanted]
    simp [bumpFull, emptyHeap, headerBytes]
  obtain ⟨p', hgrow, hs'⟩ := growHeap_supply (h := emptyHeap p current cells)
    (wanted 16 + headerBytes) (by decide) (le_refl heapVirtBase)
    (show heapVirtBase + 16 * 4096 < 2 ^ 64 by decide) hc hs
  obtain ⟨h, hrefill, hbump, hend, hvm⟩ : ∃ h, refill (emptyHeap p current cells) 16 = h ∧
      h.bump = firstBlock ∧ h.bumpEnd = heapVirtBase + 16 * 4096 ∧ h.vm = p' :=
    ⟨_, (if_pos hfull).trans hgrow, rfl, rfl, rfl⟩
  have hroom : bumpFull h 16 = false := by
    unfold bumpFull
    rw [hbump, hend]
    decide
  rw [tmalloc_of_noFit (by decide) hseek, hrefill, hwanted, hroom, if_neg Bool.false_ne_true]
  refine ⟨(carve h 16).1, congrArg some (Prod.ext rfl hbump), ?_⟩
  exact hvm ▸ hs'

/-- What the pool must supply for the first space, with `k` more frames. -/
def FirstSupply (k : ℕ) (s : Pmm) : Prop :=
  (tpmmAllocLow s).2 ≠ 0 ∧ (tpmmAllocContig (tpmmAllocLow s).1 16).2 ≠ 0 ∧
    Supply (k + 48) (tpmmAllocContig (tpmmAllocLow s).1 16).1

instance (k : ℕ) (s : Pmm) : Decidable (FirstSupply k s) := inferInstanceAs (Decidable (_ ∧ _ ∧ _))

theorem Sound.create_first {lay : Layout} {w : World} {g : Ghost} (hs : Sound lay w g)
    {current k : ℕ} {cells : Memory} (hheap : w.vmm.heap = emptyHeap w.vm current cells)
    (hsup : FirstSupply k w.vm.pmm) :
    ∃ w' g' c, step w .create = some w' ∧ Sound lay w' g' ∧ Steady (fun _ _ => False) w w' g g' ∧
      Created w w' g' firstBlock c ∧ w'.vmm.current = w.vmm.current ∧ Supply k w'.vm.pmm := by
  have hroom : HasRoom w.vmm.heap 16 := by
    intro _
    rw [hheap]
    exact (by decide : heapVirtBase + growPages (wanted 16 + headerBytes) * 4096 < 2 ^ 64)
  obtain ⟨w', g', hstep, hs', hst, hcur, _, hres⟩ := hs.create hroom
  obtain ⟨h0, hc, hsupply⟩ := hsup
  obtain ⟨f, hf, _⟩ := granted_one hs.tables.valid (tpmmAllocLow_spec hs.tables.valid).1 h0
  obtain ⟨kernel, hkernel, hroot, _⟩ := hs.root (Or.inl rfl)
  have hlow : f < lowFrames := by
    have := (tpmmAllocLow_spec hs.tables.valid).2.resolve_left h0
    rw [hf] at this
    unfold frameBytes pageSize lowFrames at *
    omega
  have hcreate := vmmAspaceCreate_of_frame rfl hf h0 hlow hroot
  obtain ⟨h, hmalloc, hk⟩ :=
    tmalloc_first (p := ⟨newPml4 w.vm.mem f kernel, (tpmmAllocLow w.vm.pmm).1⟩)
    current cells hc hsupply
  have hsame : ({ w.vmm.heap with vm := ⟨newPml4 w.vm.mem f kernel, (tpmmAllocLow w.vm.pmm).1⟩ } :
      Heap) = emptyHeap ⟨newPml4 w.vm.mem f kernel, (tpmmAllocLow w.vm.pmm).1⟩ current cells := by
    rw [hheap]
    rfl
  rw [hsame, hmalloc] at hcreate
  have hne : firstBlock ≠ 0 := by decide
  have hfin : finishCreate w.vmm f (h, firstBlock) = _ := if_neg hne
  simp only [step, hcreate, Option.map_some, hfin, if_neg hne, Option.some.injEq] at hstep
  have hspaces : w'.spaces = firstBlock :: w.spaces := by rw [← hstep]
  have hpmm : w'.vm.pmm = h.vm.pmm := by rw [← hstep]
  rcases hres with hold | ⟨as, c, hnew⟩
  · rw [hspaces] at hold
    exact absurd hold (List.cons_ne_self _ _)
  · obtain rfl : as = firstBlock := (List.cons.inj (hnew.spaces.symm.trans hspaces)).1
    refine ⟨w', g', c, ?_, hs', hst, hnew, hcur, hpmm ▸ hk⟩
    simp only [step, hcreate, Option.map_some, hfin, if_neg hne, Option.some.injEq]
    exact hstep

/-! ## A small machine -/

/-- 2 MiB of memory, of which the first 272 frames are in use: the boot tables start at
1 MiB. -/
def bootPool : Pmm where
  bitmap := fun i => if 8 < i ∧ i < 16 then 0#32 else if i = 8 then 0xFFFF#32 else 0xFFFFFFFF#32
  totalFrames := 512
  freeFrames := 240
  firstFreeHint := 272

def bootMachine : World where
  vmm := vmmInit ⟨setupPaging (fun _ => 0) 0x100000, bootPool⟩ 0x100000 0xFFFFFFFF8010A000 (fun _ =>
    0)
  spaces := []
  spare := ∅

def bootMachineFrames : BootFrames := ⟨256, 257, 258, 259, 260, none, none⟩

lemma bootPool_valid : Valid bootPool := by
  refine ⟨⟨by decide, by decide, ?_, by decide +kernel⟩, by decide +kernel⟩
  intro f hf _
  have hword : bootPool.bitmap (f / 32) = 0xFFFFFFFF#32 := by
    have hf' : 512 ≤ f := hf
    unfold bootPool
    dsimp only
    rw [if_neg (by omega), if_neg (by omega)]
  have hbits : ∀ k < 32, ((0xFFFFFFFF#32 >>> k) &&& 1#32 != 0#32) = true := by decide
  unfold bitTest BitmapScan.test
  rw [hword]
  exact hbits _ (Nat.mod_lt _ (by decide))

theorem bootMachine_booted : Booted bootMachineFrames bootMachine where
  tree := setupPaging_tree _ (by decide)
  placed := ⟨by decide, bootPool_valid, by decide +kernel, by decide, by decide⟩
  init := rfl
  kernelAddr := by decide
  spaces := rfl
  spare := rfl

/-- A caller takes a frame, and then a space is created. -/
theorem bootMachine_create (pages : Prop) :
    ∃ w₁ w g c, step bootMachine (.alloc .single) = some w₁ ∧ HasRoom w₁.vmm.heap 16 ∧
      step w₁ .create = some w ∧ Sound (bootLayout bootMachineFrames pages) w g ∧
      Created w₁ w g firstBlock c ∧ w.spare = {272} ∧ w.vmm.current = bootMachine.vmm.kernelAddr ∧
      Steady (fun _ _ => False) bootMachine w
        (bootGhost bootMachineFrames bootMachine.vmm.kernelAddr) g ∧ Supply 8 w.vm.pmm := by
  obtain ⟨w₁, hstep, hheap, hpmm, hspare, hcur, hhas⟩ : ∃ w₁, step bootMachine (.alloc .single) =
      some w₁ ∧ w₁.vmm.heap = emptyHeap w₁.vm (target 0x100000) (fun _ => 0) ∧
      w₁.vm.pmm = (tpmmAlloc bootPool).1 ∧ w₁.spare = {272} ∧
      w₁.vmm.current = bootMachine.vmm.kernelAddr ∧ ∀ as, w₁.Has as ↔ bootMachine.Has as :=
    ⟨_, rfl, rfl, rfl, by decide +kernel, rfl, fun _ => Iff.rfl⟩
  obtain ⟨use, hs, hst₁, _⟩ := (bootMachine_booted.sound pages).alloc .single hstep
  have hsup : FirstSupply 8 w₁.vm.pmm := by
    rw [hpmm]
    decide +kernel
  obtain ⟨w, g, c, hcreate, hs', hst, hnew, hcur', hk⟩ := hs.create_first hheap hsup
  refine ⟨w₁, w, g, c, hstep, ?_, hcreate, hs', hnew, hnew.spare.trans hspare, hcur'.trans hcur,
    hst₁.trans hst (fun as => (hhas as).mpr) (fun as => (hhas as).mp), hk⟩
  intro _
  rw [hheap]
  exact (by decide : heapVirtBase + growPages (wanted 16 + headerBytes) * 4096 < 2 ^ 64)

end TraitOS.Tvmm
