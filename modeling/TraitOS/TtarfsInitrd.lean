import TraitOS.Multiboot
import TraitOS.TvmmKernelLaw

/-!
# Loading the archive

The first module of the information block is mapped page by page into a window of its own,
unpacked from there, and the window is unmapped again. The window starts with the page the
module starts in, and is read from its beginning: of a module that starts inside a page it
shows other bytes.
-/
namespace TraitOS.Ttarfs
open ByteMemory PageTable Multiboot Tpmm Tmalloc Tvmm Runs

/-- A tag of type `MB2_TAG_MODULE`. -/
def isModule (m : Memory) (p : ℕ) : Bool := tagType m p = 3

/-- The range in a module tag. -/
def tagRange (m : Memory) (p : ℕ) : ℕ × ℕ := (load32 m (p + 8), load32 m (p + 12))

/-- The range `tfs_load_initrd` unpacks, if its walk returns; `some none` when it sees no module. -/
def initrdRange (m : Memory) (mbi : ℕ) : Option (Option (ℕ × ℕ)) :=
  (findTag m mbi (isModule m)).map (Option.map (tagRange m))

lemma findTag_range_iff {m : Memory} {mbi : ℕ} {accept : ℕ → Bool} {r : ℕ × ℕ} :
    (findTag m mbi accept).map (Option.map (tagRange m)) = some (some r) ↔
      ∃ p, FirstTag m mbi accept p ∧ tagRange m p = r := by
  simp only [← findTag_eq_some_iff]
  aesop

/-! ## The window -/

def initrdScratch : ℕ := 0xFFFFFFFE80000000

/-- `stop - start` in 32 bits. -/
def initrdLen (start stop : ℕ) : ℕ := (stop + 2 ^ 32 - start) % 2 ^ 32

def initrdPages (start stop : ℕ) : ℕ := (initrdLen start stop + 4095) / 4096

/-- After the mapping loop: take back what it mapped before it failed, or unpack and then unmap the
window. Unpacking grows the heap and so changes the tables. -/
def finishModule (root start stop : ℕ) (unpack : Paging → Paging × ℤ) : Paging × Option ℕ →
    Paging × ℤ
  | (p, some i) => (unmapPages p root initrdScratch i, -1)
  | (p, none) =>
    let r := if 0 < initrdLen start stop then unpack p else (p, 0)
    (unmapPages r.1 root initrdScratch (initrdPages start stop), r.2)

def loadModule (p : Paging) (root start stop : ℕ) (unpack : Paging → Paging × ℤ) : Paging × ℤ :=
  finishModule root start stop unpack (mapPages p root initrdScratch start 0
    (initrdPages start stop))

/-- The tables after the call and its result, if the walk over the block returns. -/
def tfsLoadInitrd (p : Paging) (root mbi : ℕ) (unpack : Paging → Paging × ℤ) :
    Option (Paging × ℤ) :=
  (initrdRange p.mem mbi).map fun range =>
    range.elim (p, 0) fun r => loadModule p root r.1 r.2 unpack

/-- The tables are trees with this root, and no large leaf is in the window. -/
def Ordered (root : ℕ) (p : Paging) : Prop :=
  ∃ lay use r tree, root = r * frameBytes ∧ Tables lay p use ∧ use r = .node tree [] ∧
    ¬ tree < pmmMaxFrames ∧ ∀ k i j, 506 ≤ i → i < 510 → ¬ lay.leaf k i j

lemma physOf_page {m : Memory} {root v v' : ℕ} (h : pageOf v = pageOf v') : physOf m root v =
    physOf m root v' := by
  have hpath := ((pageOf_eq_iff v v').mp h)
  simp only [List.cons.injEq] at hpath
  unfold physOf
  rw [hpath.1.1, hpath.1.2.1, hpath.1.2.2.1, hpath.2]

/-- The page is one of the window. -/
def ScratchPage (v : ℕ) : Prop := pml4Index v = 511 ∧ 506 ≤ pdptIndex v ∧ pdptIndex v < 510

lemma ScratchPage.kernelSlot {v : ℕ} (h : ScratchPage v) : kernelSlot (pml4Index v) = true := by
  rw [h.1]
  decide

lemma ScratchPage.of_page {v v' : ℕ} (h : ScratchPage v) (hpage : pageOf v' =
    pageOf v) : ScratchPage v' := by
  have hpath := ((pageOf_eq_iff v' v).mp hpage).1
  simp only [List.cons.injEq] at hpath
  unfold ScratchPage
  rw [hpath.1, hpath.2.1]
  exact h

section Window
variable {root : ℕ} {p : Paging} {v : ℕ}

/-- One page of the window is mapped, or none is and nothing moves. -/
lemma Ordered.mapPage (h : Ordered root p) (hv : ScratchPage v) (phys : ℕ) {p' : Paging}
    {done : Bool} (hmap : vmmMapPage p root v phys (pageWrite ||| pageNx) = (p', done)) :
    Ordered root p' ∧
    (∀ v', done = false ∨ pageOf v' ≠ pageOf v → translate p'.mem root v' =
      translate p.mem root v') ∧
    (done = true → ∀ v', pageOf v' = pageOf v → translate p'.mem root v' =
      some (target phys + v' % 4096)) := by
  obtain ⟨lay, use, r, tree, rfl, ht, hr, hu, hfree⟩ := h
  have hcov (m : Memory) {v' : ℕ} (h' : ScratchPage v') : Uncovered lay m r v' := fun _ =>
    hfree _ _ _ h'.2.1 h'.2.2
  have hmap' : Tvmm.mapPage p (r * frameBytes) v phys (pageWrite ||| pageNx) = (p', done) :=
    (if_neg (not_userSlot_of_kernel hv.kernelSlot)).symm.trans hmap
  obtain ⟨q, use', ht', hcase⟩ := mapKernel_spec ht phys hr hu hv.kernelSlot
    (show pageWrite ||| pageNx < 2 ^ 64 by decide) (hcov p.mem hv)
  rcases hcase with ⟨heq, -, hext⟩ | ⟨heq, ⟨hphys, -⟩, hext⟩
  · obtain ⟨rfl, rfl⟩ := Prod.mk.inj (heq.symm.trans hmap')
    have hr' := (hext.keep r (ne_idle_of_node hr)).trans hr
    exact ⟨⟨lay, use', r, tree, rfl, ht', hr', hu, hfree⟩,
      fun v' _ => hext.translate_eq ht ht' hr hu not_false, fun h => nomatch h⟩
  · obtain ⟨rfl, rfl⟩ := Prod.mk.inj (heq.symm.trans hmap')
    have hr' := (hext.keep r (ne_idle_of_node hr)).trans hr
    refine ⟨⟨lay, use', r, tree, rfl, ht', hr', hu, hfree⟩,
      fun v' hoff => hext.translate_eq ht ht' hr hu (hoff.resolve_left nofun), fun _ v' hpage => ?_⟩
    have hv' := hv.of_page hpage
    rw [translate_eq ht' v' hr' hu, physOf_page hpage, hphys,
      not_underLeaf_of_uncovered ht' hr' hu hv'.kernelSlot (hcov q.mem hv'),
      show target (pageWrite ||| pageNx) = 0 by decide, Nat.or_zero]
    rfl

/-- One page of the window is unmapped. -/
lemma Ordered.unmapPage (h : Ordered root p) (hv : ScratchPage v) :
    Ordered root (vmmUnmapPage p root v) ∧
    (∀ v', pageOf v' ≠ pageOf v → translate (vmmUnmapPage p root v).mem root v' =
      translate p.mem root v') ∧
    ∀ v', pageOf v' = pageOf v → translate (vmmUnmapPage p root v).mem root v' = none := by
  obtain ⟨lay, use, r, tree, rfl, ht, hr, hu, hfree⟩ := h
  have hcov : Uncovered lay p.mem r v := fun _ => hfree _ _ _ hv.2.1 hv.2.2
  have hunmap : vmmUnmapPage p (r * frameBytes) v = Tvmm.unmapPage p (r * frameBytes) v :=
    if_neg (not_userSlot_of_kernel hv.kernelSlot)
  obtain ⟨ht', hphys, hext⟩ := unmapKernel_spec ht hr hu hv.kernelSlot hcov
  rw [hunmap]
  have hext' : Extends (kernelEffect p.mem r v fun v' => pageOf v' =
    pageOf v) p (Tvmm.unmapPage p (r * frameBytes) v)
      use use := hext.mono (fun _ => False.elim) (fun _ _ => False.elim) (fun _ h => h)
  refine ⟨⟨lay, use, r, tree, rfl, ht', hr, hu, hfree⟩,
    fun v' hoff => hext'.translate_eq ht ht' hr hu hoff, fun v' hpage => ?_⟩
  rw [translate_eq ht' v' hr hu, physOf_page hpage, hphys]
  rfl

end Window

/-! ## The loops -/

/-- An address in the 4 GiB of the window. -/
def InScratch (v : ℕ) : Prop := initrdScratch ≤ v ∧ v < initrdScratch + 2 ^ 32

/-- Its page of the window. -/
def pageIn (v : ℕ) : ℕ := (v - initrdScratch) / 4096

lemma scratchPage_of_lt {j : ℕ} (hj : j < 2 ^ 20) :
    ScratchPage ((initrdScratch + j * 4096) % 2 ^ 64) := by
  unfold ScratchPage pml4Index pdptIndex initrdScratch
  rw [index_eq, index_eq]
  omega

lemma InScratch.pageOf_eq_iff {v j : ℕ} (hv : InScratch v) (hj : j < 2 ^ 20) :
    pageOf v = pageOf ((initrdScratch + j * 4096) % 2 ^ 64) ↔ pageIn v = j := by
  unfold InScratch at hv
  unfold pageOf pageIn initrdScratch at *
  omega

/-- What the mapping loop over the pages `i, …, i + n - 1` has done. -/
structure MapsFrom (root base i n : ℕ) (p : Paging) (r : Paging × Option ℕ) : Prop where
  ordered : Ordered root r.1
  outside : ∀ v, InScratch v → pageIn v < i ∨ i + n ≤ pageIn v → translate r.1.mem root v =
    translate p.mem root v
  mapped : r.2 = none → ∀ v, InScratch v → i ≤ pageIn v → pageIn v < i + n →
    translate r.1.mem root v = some (target (base + pageIn v * 4096) + v % 4096)
  failed : ∀ j, r.2 = some j → i ≤ j ∧ j < i + n ∧
    ∀ v, InScratch v → j ≤ pageIn v → translate r.1.mem root v = translate p.mem root v

lemma mapPages_scratch {root : ℕ} (base n : ℕ) {i : ℕ} {p : Paging} (h : Ordered root p)
    (hn : i + n ≤ 2 ^ 20) : MapsFrom root base i n p (mapPages p root initrdScratch base i n) := by
  induction n generalizing p i with
  | zero => exact ⟨h, fun _ _ _ => rfl, fun _ v _ hle hlt => by omega, fun _ hj => (by cases hj)⟩
  | succ n ih =>
    have hi : i < 2 ^ 20 := by omega
    obtain ⟨⟨p', done⟩, hmap⟩ : ∃ r, vmmMapPage p root ((initrdScratch + i * 4096) % 2 ^ 64)
      (base + i * 4096)
      (pageWrite ||| pageNx) = r := ⟨_, rfl⟩
    obtain ⟨hord, hkeep, hthis⟩ := h.mapPage (scratchPage_of_lt hi) _ hmap
    unfold mapPages
    rw [hmap]
    dsimp only
    cases done with
    | false =>
      refine ⟨hord, fun v _ _ => hkeep v (Or.inl rfl), fun h => (by cases h), fun j hj => ?_⟩
      cases hj
      exact ⟨le_rfl, by omega, fun v _ _ => hkeep v (Or.inl rfl)⟩
    | true =>
      have hrest := ih hord (show i + 1 + n ≤ 2 ^ 20 by omega)
      have hother {v : ℕ} (hv : InScratch v) (hne : pageIn v ≠ i) : translate p'.mem root v =
        translate p.mem root v :=
        hkeep v (Or.inr fun hpage => hne ((hv.pageOf_eq_iff hi).mp hpage))
      rw [if_pos rfl]
      refine ⟨hrest.ordered, fun v hv hout => ?_, fun hnone v hv hle hlt => ?_, fun j hj => ?_⟩
      · rw [hrest.outside v hv (by omega), hother hv (by omega)]
      · by_cases hfirst : pageIn v = i
        · rw [hrest.outside v hv (by omega), hthis rfl v ((hv.pageOf_eq_iff hi).mpr hfirst), hfirst]
        · exact hrest.mapped hnone v hv (by omega) (by omega)
      · obtain ⟨hle, hlt, hsame⟩ := hrest.failed j hj
        exact ⟨by omega, by omega,
          fun v hv hpage => (hsame v hv hpage).trans (hother hv (by omega))⟩

lemma unmapPages_scratch {root : ℕ} {p : Paging} (h : Ordered root p) (n : ℕ) (hn : n ≤ 2 ^ 20) :
    Ordered root (unmapPages p root initrdScratch n) ∧ ∀ v, InScratch v →
      translate (unmapPages p root initrdScratch n).mem root v = if pageIn v < n then none
        else translate p.mem root v := by
  induction n with
  | zero => exact ⟨h, fun v _ => (if_neg (Nat.not_lt_zero _)).symm⟩
  | succ n ih =>
    obtain ⟨hord, htrans⟩ := ih (by omega)
    have hlt : n < 2 ^ 20 := by omega
    obtain ⟨hord', hother, hthis⟩ := hord.unmapPage (scratchPage_of_lt hlt)
    refine ⟨hord', fun v hv => ?_⟩
    by_cases hpage : pageIn v = n
    · rw [if_pos (by omega)]
      exact hthis v ((hv.pageOf_eq_iff hlt).mpr hpage)
    · refine (hother v fun h => hpage ((hv.pageOf_eq_iff hlt).mp h)).trans ((htrans v hv).trans ?_)
      by_cases hbelow : pageIn v < n
      · rw [if_pos hbelow, if_pos (by omega)]
      · rw [if_neg hbelow, if_neg (by omega)]

/-! ## The module in the window -/

/-- An address of the window that the module takes. -/
def InModuleWindow (start stop v : ℕ) : Prop :=
  initrdScratch ≤ v ∧ v < initrdScratch + initrdPages start stop * 4096

section Module
variable {p : Paging} {root start stop : ℕ}

lemma initrdPages_le (start stop : ℕ) : initrdPages start stop ≤ 2 ^ 20 := by
  unfold initrdPages initrdLen
  omega

lemma InModuleWindow.inScratch {v : ℕ} (h : InModuleWindow start stop v) :
    InScratch v ∧ pageIn v < initrdPages start stop := by
  have hpages := initrdPages_le start stop
  unfold InModuleWindow at h
  unfold InScratch pageIn
  omega

/-- Byte `k` of the window is byte `k` of the page the module starts in. -/
lemma translate_window {q : Paging} (hok : Ordered root p)
    (hmap : mapPages p root initrdScratch start 0 (initrdPages start stop) = (q, none))
    (hstart : start < 2 ^ 32) {k : ℕ} (hk : k < initrdLen start stop) :
    translate q.mem root (initrdScratch + k) = some (start / 4096 * 4096 + k) := by
  have hspec := mapPages_scratch start (initrdPages start stop) hok
    ((Nat.zero_add _).trans_le (initrdPages_le _ _))
  rw [hmap] at hspec
  have hin : InScratch (initrdScratch + k) := by
    unfold InScratch
    unfold initrdLen at hk
    omega
  have hpage : pageIn (initrdScratch + k) = k / 4096 := by
    unfold pageIn
    rw [Nat.add_sub_cancel_left]
  have hlt : pageIn (initrdScratch + k) < 0 + initrdPages start stop := by
    rw [hpage]
    unfold initrdPages
    omega
  have hoff : (initrdScratch + k) % 4096 = k % 4096 := by
    unfold initrdScratch
    omega
  have htarget : target (start + k / 4096 * 4096) + k % 4096 = start / 4096 * 4096 + k := by
    rw [target_eq]
    unfold frameBytes
    unfold initrdLen at hk
    omega
  rw [hspec.mapped rfl _ hin (Nat.zero_le _) hlt, hpage, hoff, htarget]

/-- Whatever happens, the window is unmapped in the end. -/
lemma loadModule_unmaps (hok : Ordered root p) (unpack : Paging → Paging × ℤ)
    (hunpack : ∀ q, Ordered root q → Ordered root (unpack q).1)
    (hclear : ∀ v, InModuleWindow start stop v → translate p.mem root v = none) {v : ℕ}
    (hv : InModuleWindow start stop v) :
    translate (loadModule p root start stop unpack).1.mem root v = none := by
  have hpages := initrdPages_le start stop
  obtain ⟨hin, hpage⟩ := hv.inScratch
  have hspec :=
    mapPages_scratch start (initrdPages start stop) hok (by rw [Nat.zero_add]; exact hpages)
  obtain ⟨⟨q, stopped⟩, hmap⟩ : ∃ r,
    mapPages p root initrdScratch start 0 (initrdPages start stop) = r := ⟨_, rfl⟩
  rw [hmap] at hspec
  cases stopped with
  | none =>
    have hord : Ordered root (if 0 < initrdLen start stop then unpack q else (q, 0)).1 := by
      split_ifs
      · exact hunpack q hspec.ordered
      · exact hspec.ordered
    rw [loadModule, hmap, finishModule, (unmapPages_scratch hord _ hpages).2 v hin, if_pos hpage]
  | some i =>
    obtain ⟨-, hlt, hsame⟩ := hspec.failed i rfl
    rw [loadModule, hmap, finishModule, (unmapPages_scratch hspec.ordered i (by omega)).2 v hin]
    by_cases hbelow : pageIn v < i
    · exact if_pos hbelow
    · rw [if_neg hbelow, hsame v hin (not_lt.mp hbelow), hclear v hv]

end Module

/-- The tables are in order in every state a run of disciplined calls reaches after boot. -/
theorem ordered_of_run {b : BootFrames} {w₀ w : World} (hb : Booted b w₀) {ops : List Op}
    (hrun : exec (guarded step Disciplined) w₀ ops = some w) : Ordered w.vmm.heap.current w.vm := by
  obtain ⟨g, hs⟩ := hb.run hrun
  obtain ⟨r, hr, hroot, -⟩ := hs.root hs.current.1
  refine ⟨_, g.use, r, _, hs.current.2.trans hroot, hs.tables, hr, hs.not_lt hs.current.1, ?_⟩
  rintro k i j hle hlt (⟨-, rfl, -⟩ | ⟨-, rfl, -⟩)
  · exact absurd hle (by decide)
  · exact absurd hlt (by decide)

/-- The window shows exactly the module if and only if it starts with a page, or is empty; and
in the end no page of the window is mapped. -/
theorem tfsLoadInitrd_window_iff (p : Paging) (root mbi start stop : ℕ)
    (unpack : Paging → Paging × ℤ) (hok : Ordered root p)
    (hunpack : ∀ q, Ordered root q → Ordered root (unpack q).1)
    (hrange : initrdRange p.mem mbi = some (some (start, stop))) (hle : start ≤ stop)
    (hclear : ∀ v, InModuleWindow start stop v → translate p.mem root v = none) :
    (∀ q, mapPages p root initrdScratch start 0 (initrdPages start stop) = (q, none) →
      ((∀ k < stop - start, translate q.mem root (initrdScratch + k) = some (start + k)) ↔
        start % 4096 = 0 ∨ start = stop)) ∧
    ∃ r, tfsLoadInitrd p root mbi unpack = some r ∧
      ∀ v, InModuleWindow start stop v → translate r.1.mem root v = none := by
  obtain ⟨tag, -, htag⟩ := findTag_range_iff.mp hrange
  obtain ⟨hfst, hsnd⟩ := Prod.mk.inj htag
  have hstart : start < 2 ^ 32 := hfst ▸ load32_lt _ _
  have hstop : stop < 2 ^ 32 := hsnd ▸ load32_lt _ _
  have hlen : initrdLen start stop = stop - start := by
    unfold initrdLen
    omega
  refine ⟨fun q hmap => ⟨fun hshows => ?_, fun haligned k hk => ?_⟩,
    loadModule p root start stop unpack, ?_,
    fun v hv => loadModule_unmaps hok unpack hunpack hclear hv⟩
  · by_cases hempty : start = stop
    · exact Or.inr hempty
    · have hfirst := hshows 0 (by omega)
      rw [translate_window hok hmap hstart (by omega)] at hfirst
      have hbase := Option.some.inj hfirst
      omega
  · rw [translate_window hok hmap hstart (by omega)]
    have hbase : start / 4096 * 4096 + k = start + k := by omega
    rw [hbase]
  · unfold tfsLoadInitrd
    rw [hrange, Option.map_some, Option.elim_some]

/-- A machine after boot with an information block at `0x8000` that lists a module of 16 bytes; its
first byte is 1. -/
def initrdMemory (start : ℕ) : Memory :=
  let m := storeLE (fun _ => 0) 0x8000 4 40
  let m := storeLE (storeLE m 0x8008 4 3) 0x800C 4 24
  let m := storeLE (storeLE m 0x8010 4 start) 0x8014 4 (start + 16)
  storeLE (storeLE m 0x8024 4 8) start 1 1

def initrdMachine (start : ℕ) : World where
  vmm := vmmInit ⟨setupPaging (initrdMemory start) 0x100000, bootPool⟩ 0x100000 0xFFFFFFFF8010A000
    (fun _ => 0)
  spaces := []
  spare := ∅

lemma bootPool_placed : Placed bootMachineFrames bootPool := bootMachine_booted.placed

lemma initrdMachine_booted (start : ℕ) : Booted bootMachineFrames (initrdMachine start) where
  tree := setupPaging_tree (initrdMemory start) (by decide)
  placed := bootPool_placed
  init := rfl
  kernelAddr := (by decide : virtBase ≤ 0xFFFFFFFF8010A000 ∧ 0xFFFFFFFF8010A000 < heapVirtBase)
  spaces := rfl
  spare := rfl

section Boot
variable {b : BootFrames} {m : Memory} {v : ℕ}

lemma bootTree_scratch (h : BootTree b m) (hv : ScratchPage v) :
    tableLookup m (b.p4 * frameBytes) (pml4Index v) = some (b.p3High * frameBytes) ∧
      tableLookup m (b.p3High * frameBytes) (pdptIndex v) = none := by
  have hempty : present (entry m (b.p3High * frameBytes) (pdptIndex v)) = false := by
    rw [h.thirdHigh.empty _ (pdptIndex_lt v) hv.2.2.ne]
    decide
  refine ⟨?_, tableLookup_of_absent hempty⟩
  rw [hv.1, tableLookup_of_present h.last.1, target_eq_frameNo, h.last.2.2]

/-- After boot nothing is mapped in the window. -/
lemma translate_bootTree (h : BootTree b m) (hv : ScratchPage v) : translate m (b.p4 * frameBytes)
    v = none := by
  obtain ⟨hpdpt, hpd⟩ := bootTree_scratch h hv
  unfold Tvmm.translate
  rw [hpdpt, Option.bind_some, hpd]
  rfl

lemma underLeaf_bootTree (h : BootTree b m) (hv : ScratchPage v) : underLeaf m (b.p4 * frameBytes)
    v = false := by
  obtain ⟨hpdpt, hpd⟩ := bootTree_scratch h hv
  unfold underLeaf
  rw [hpdpt, Option.elim_some, hpd]
  rfl

lemma tablesAt_bootTree (h : BootTree b m) (hv : ScratchPage v) :
    tablesAt m (b.p4 * frameBytes) v = [b.p4 * frameBytes, b.p3High * frameBytes] := by
  obtain ⟨hpdpt, hpd⟩ := bootTree_scratch h hv
  unfold tablesAt
  rw [hpdpt, Option.elim_some, hpd]
  rfl

/-- Right after boot a page of the window is mapped without a change to any frame that is neither
free nor a table. -/
lemma mapPage_keeps {p q : Paging} {phys flags x : ℕ} {done : Bool} (h : BootTree b p.mem)
    (hplaced : Placed b p.pmm) (hv : ScratchPage v)
    (hmap : mapPage p (b.p4 * frameBytes) v phys flags = (q, done))
    (htable : x / frameBytes ∉ b.frames) (hfree : x / frameBytes ∉ freeSet p.pmm) :
    q.mem x = p.mem x := by
  have hmem (c : ℕ) (hc : c * frameBytes ∈ tablesAt p.mem (b.p4 * frameBytes) v) : c ∈
    b.frames := by
    rw [tablesAt_bootTree h hv] at hc
    have hframe {d : ℕ} (hd : c * frameBytes = d * frameBytes) : c = d :=
      Nat.eq_of_mul_eq_mul_right (by decide) hd
    rcases List.mem_cons.mp hc with hc | hc
    · simp [BootFrames.frames, hframe hc]
    · simp [BootFrames.frames, hframe (List.mem_singleton.mp hc)]
  refine mapPage_content phys flags hplaced.valid (fun c hc => hplaced.held c (hmem c hc))
    (underLeaf_bootTree h hv) hmap x ?_
  rintro (hin | hin)
  · exact htable (hmem _ hin)
  · exact hfree hin

end Boot

lemma scratchPage_of_inScratch {v : ℕ} (h : InScratch v) : ScratchPage v := by
  unfold InScratch initrdScratch at h
  unfold ScratchPage pml4Index pdptIndex
  rw [index_eq, index_eq]
  omega

/-- A module of one page is mapped if there are frames for the tables. -/
lemma mapPages_one {p : Paging} (root start : ℕ) (hsup : Supply 3 p.pmm) :
    ∃ q, mapPage p root initrdScratch start (pageWrite ||| pageNx) = (q, true) ∧
      mapPages p root initrdScratch start 0 1 = (q, none) := by
  obtain ⟨q, hq, -⟩ := mapPage_supply (k := 0) root initrdScratch start (pageWrite ||| pageNx) hsup
  have hvirt : (initrdScratch + 0 * 4096) % 2 ^ 64 = initrdScratch := by decide
  have hone : vmmMapPage p root ((initrdScratch + 0 * 4096) % 2 ^ 64) (start + 0 * 4096)
      (pageWrite ||| pageNx) = (q, true) := by
    rw [hvirt, Nat.zero_mul, Nat.add_zero]
    exact (if_neg (by decide)).trans hq
  refine ⟨q, hq, ?_⟩
  rw [mapPages, hone]
  rfl

lemma initrdMachine_ordered (start : ℕ) : Ordered (bootMachineFrames.p4 * frameBytes)
    (initrdMachine start).vm :=
  ordered_of_run (initrdMachine_booted start) (show exec (guarded step Disciplined) _ [] =
    some _ from rfl)

lemma bootPool_supply : Supply 3 bootPool := by decide +kernel

/-- A module at the start of a page. -/
theorem aligned_module_shown :
    ∃ q, mapPages (initrdMachine 0x200000).vm (bootMachineFrames.p4 * frameBytes)
      initrdScratch 0x200000 0 1 = (q, none) ∧
      ∀ k < 16, translate q.mem (bootMachineFrames.p4 * frameBytes) (initrdScratch + k) =
        some (0x200000 + k) := by
  have hrange : initrdRange (initrdMachine 0x200000).vm.mem 0x8000 =
    some (some (0x200000, 0x200010)) := by decide +kernel
  obtain ⟨q, -, hmap⟩ := mapPages_one (p := (initrdMachine 0x200000).vm)
    (bootMachineFrames.p4 * frameBytes) 0x200000 bootPool_supply
  have hlaw := tfsLoadInitrd_window_iff (initrdMachine 0x200000).vm
    (bootMachineFrames.p4 * frameBytes) 0x8000 0x200000 0x200010
    (fun q => (q, 0)) (initrdMachine_ordered 0x200000)
      (fun q hq => hq) hrange (by decide) fun v hv =>
      translate_bootTree (initrdMachine_booted 0x200000).tree
        (scratchPage_of_inScratch hv.inScratch.1)
  exact ⟨q, hmap, (hlaw.1 q hmap).mpr (Or.inl (by decide))⟩

/-- A module at offset 16 of its page: the window shows the page from its start. -/
theorem unaligned_module_not_shown :
    initrdRange (initrdMachine 0x200010).vm.mem 0x8000 = some (some (0x200010, 0x200020)) ∧
      ∃ q, mapPages (initrdMachine 0x200010).vm (bootMachineFrames.p4 * frameBytes)
        initrdScratch 0x200010 0 1 = (q, none) ∧
        translate q.mem (bootMachineFrames.p4 * frameBytes) (initrdScratch + 0) = some 0x200000 ∧
          q.mem 0x200000 = 0 ∧ q.mem 0x200010 = 1 := by
  obtain ⟨q, hq, hmap⟩ := mapPages_one (p := (initrdMachine 0x200010).vm)
    (bootMachineFrames.p4 * frameBytes) 0x200010 bootPool_supply
  have hbooted := initrdMachine_booted 0x200010
  have hpage : ScratchPage initrdScratch :=
    scratchPage_of_inScratch ⟨le_rfl, Nat.lt_add_of_pos_right (by decide)⟩
  have hkept (x : ℕ) (hx : x / frameBytes = 512) : q.mem x = (initrdMachine 0x200010).vm.mem x := by
    refine mapPage_keeps hbooted.tree hbooted.placed hpage hq ?_ ?_ <;> rw [hx]
    · decide
    · exact fun hin => absurd ((mem_freeSet _ _).mp hin).1 (by decide)
  have hpages : initrdPages 0x200010 0x200020 = 1 := by decide
  have hlen : 0 < initrdLen 0x200010 0x200020 := by decide
  have hfirst := translate_window (initrdMachine_ordered 0x200010) (hpages.symm ▸ hmap)
    (by decide) hlen
  have hrange : initrdRange (initrdMachine 0x200010).vm.mem 0x8000 =
    some (some (0x200010, 0x200020)) := by decide +kernel
  have hzero : (initrdMachine 0x200010).vm.mem 0x200000 = 0 := by decide +kernel
  have hone : (initrdMachine 0x200010).vm.mem 0x200010 = 1 := by decide +kernel
  exact ⟨hrange, q, hmap, hfirst, (hkept _ (by decide)).trans hzero,
    (hkept _ (by decide)).trans hone⟩

end TraitOS.Ttarfs
