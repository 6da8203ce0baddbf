import TraitOS.TmallocRequest
import TraitOS.TmallocTables

/-!
# Failed requests

A request fails when the heap cannot grow. The growth then gives its frames back, and of the
pool only the frames it took for page tables are missing afterwards. A request also fails when
the chunk it grew by has room for the header of its block but not for its own first sixteen
bytes; then nothing is given back.
-/
namespace TraitOS.Tmalloc
open ByteMemory FreeList PageTable Runs Tpmm Tvmm

/-! ## Frames taken for page tables -/

/-- The frame a step of the walk takes for a table. -/
def ensureFrames (p : Paging) (table idx : ℕ) : Finset ℕ :=
  if present (entry p.mem table idx) = true ∨ (tpmmAllocLow p.pmm).2 = 0 then ∅
  else {(tpmmAllocLow p.pmm).2 / pageSize}

/-- The frames taken below the table a step has found. -/
def nextFrames (r : Paging × Option ℕ) (next : Paging → ℕ → Finset ℕ) : Finset ℕ :=
  match r with
  | (_, none) => ∅
  | (p, some table) => next p table

/-- The frames a mapping takes for tables, level by level. -/
def mapFrames (p : Paging) (root virt flags : ℕ) : Finset ℕ :=
  ensureFrames p root (pml4Index virt) ∪
    nextFrames (tableEnsure p root (pml4Index virt) flags) fun p pdpt =>
      ensureFrames p pdpt (pdptIndex virt) ∪
        nextFrames (tableEnsure p pdpt (pdptIndex virt) flags) fun p pd =>
          ensureFrames p pd (pdIndex virt)

def kernelMapFrames (p : Paging) (current virt flags : ℕ) : Finset ℕ :=
  if 0 < pml4Index virt ∧ pml4Index virt < kernelPml4Start then ∅
    else mapFrames p current virt flags

/-- The frames the mapping loop takes for tables. -/
def loopFrames (p : Paging) (current virt base i : ℕ) : ℕ → Finset ℕ
  | 0 => ∅
  | n + 1 =>
    let r := vmmMapPage p current ((virt + i * 4096) % 2 ^ 64) (base + i * 4096)
      (pageWrite ||| pageNx)
    kernelMapFrames p current ((virt + i * 4096) % 2 ^ 64) (pageWrite ||| pageNx) ∪
      if r.2 then loopFrames r.1 current virt base (i + 1) n else ∅

/-- Of the pool, exactly the frames `F` are taken. -/
structure Takes (s s' : Pmm) (F : Finset ℕ) : Prop where
  valid : Valid s'
  totalFrames : s'.totalFrames = s.totalFrames
  subset : F ⊆ freeSet s
  pool : freeSet s' = freeSet s \ F

lemma Takes.refl {s : Pmm} (hv : Valid s) : Takes s s ∅ :=
  ⟨hv, rfl, Finset.empty_subset _, Finset.sdiff_empty.symm⟩

lemma Takes.trans {s s' s'' : Pmm} {F G : Finset ℕ} (h : Takes s s' F) (h' : Takes s' s'' G) :
    Takes s s'' (F ∪ G) := by
  refine ⟨h'.valid, h'.totalFrames.trans h.totalFrames, Finset.union_subset h.subset ?_, ?_⟩
  · exact h'.subset.trans (h.pool ▸ Finset.sdiff_subset)
  · rw [h'.pool, h.pool, sdiff_sdiff_left, Finset.sup_eq_union]

lemma tableEnsure_cases (p : Paging) (table idx flags : ℕ) :
    (present (entry p.mem table idx) = true ∧ ∃ next, tableEnsure p table idx flags = (p, next)) ∨
      (¬ present (entry p.mem table idx) = true ∧
        ∃ m next, tableEnsure p table idx flags = (⟨m, (tpmmAllocLow p.pmm).1⟩, next)) := by
  unfold tableEnsure
  by_cases hp : present (entry p.mem table idx) = true
  · rw [if_pos hp]
    exact Or.inl ⟨hp, _, rfl⟩
  · rw [if_neg hp]
    dsimp only
    by_cases h0 : (tpmmAllocLow p.pmm).2 = 0
    · rw [if_pos h0]
      exact Or.inr ⟨hp, _, _, rfl⟩
    · rw [if_neg h0]
      exact Or.inr ⟨hp, _, _, rfl⟩

lemma tableEnsure_takes {p : Paging} (hv : Valid p.pmm) (table idx flags : ℕ) :
    Takes p.pmm (tableEnsure p table idx flags).1.pmm (ensureFrames p table idx) := by
  have hspec := (tpmmAllocLow_spec hv).1
  obtain ⟨hp, next, heq⟩ | ⟨hp, m, next, heq⟩ := tableEnsure_cases p table idx flags
  · rw [heq, ensureFrames, if_pos (Or.inl hp)]
    exact Takes.refl hv
  · rw [heq]
    by_cases h0 : (tpmmAllocLow p.pmm).2 = 0
    · rw [ensureFrames, if_pos (Or.inr h0), hspec.refused hv h0]
      exact Takes.refl hv
    · obtain ⟨_, _, hsub, hset⟩ := hspec.granted hv h0
      have hone : grantFrames (tpmmAllocLow p.pmm).2 1 = {(tpmmAllocLow p.pmm).2 / pageSize} :=
        Nat.Ico_succ_singleton _
      rw [hone] at hsub hset
      rw [ensureFrames, if_neg (not_or.mpr ⟨hp, h0⟩)]
      exact ⟨hspec.valid hv, hspec.totalFrames, hsub, hset⟩

lemma nextFrames_none (p : Paging) (next : Paging → ℕ → Finset ℕ) : nextFrames (p, none) next = ∅ :=
  rfl

lemma nextFrames_some (p : Paging) (table : ℕ) (next : Paging → ℕ → Finset ℕ) :
    nextFrames (p, some table) next = next p table := rfl

lemma mapPage_pmm (p : Paging) (root virt phys flags : ℕ) :
    (mapPage p root virt phys flags).1.pmm = (ensureTables p root virt flags).1.pmm := by
  unfold mapPage
  generalize ensureTables p root virt flags = r
  obtain ⟨q, _ | pt⟩ := r <;> rfl

lemma mapPage_takes {p : Paging} (hv : Valid p.pmm) (root virt phys flags : ℕ) :
    Takes p.pmm (mapPage p root virt phys flags).1.pmm (mapFrames p root virt flags) := by
  rw [mapPage_pmm]
  unfold ensureTables mapFrames
  have h₁ := tableEnsure_takes hv root (pml4Index virt) flags
  obtain ⟨r₁, hr₁⟩ : ∃ r, tableEnsure p root (pml4Index virt) flags = r := ⟨_, rfl⟩
  rw [hr₁] at h₁ ⊢
  obtain ⟨p₁, _ | pdpt⟩ := r₁
  · rw [withTable_none, nextFrames_none, Finset.union_empty]
    exact h₁
  · rw [withTable_some, nextFrames_some]
    refine h₁.trans ?_
    have h₂ := tableEnsure_takes h₁.valid pdpt (pdptIndex virt) flags
    obtain ⟨r₂, hr₂⟩ : ∃ r, tableEnsure p₁ pdpt (pdptIndex virt) flags = r := ⟨_, rfl⟩
    rw [hr₂] at h₂ ⊢
    obtain ⟨p₂, _ | pd⟩ := r₂
    · rw [withTable_none, nextFrames_none, Finset.union_empty]
      exact h₂
    · rw [withTable_some, nextFrames_some]
      exact h₂.trans (tableEnsure_takes h₂.valid pd (pdIndex virt) flags)

lemma vmmMapPage_takes {p : Paging} (hv : Valid p.pmm) (current virt phys flags : ℕ) :
    Takes p.pmm (vmmMapPage p current virt phys flags).1.pmm (kernelMapFrames p current virt
      flags) := by
  unfold vmmMapPage kernelMapFrames
  split_ifs
  · exact Takes.refl hv
  · exact mapPage_takes hv current virt phys flags

lemma mapPages_takes (current virt base n : ℕ) : ∀ {p : Paging} {i : ℕ}, Valid p.pmm →
    Takes p.pmm (mapPages p current virt base i n).1.pmm (loopFrames p current virt base i n) := by
  induction n with
  | zero => exact fun hv => Takes.refl hv
  | succ n ih =>
    intro p i hv
    have h := vmmMapPage_takes hv current ((virt + i * 4096) % 2 ^ 64) (base + i * 4096)
      (pageWrite ||| pageNx)
    unfold mapPages loopFrames
    dsimp only
    by_cases hok : (vmmMapPage p current ((virt + i * 4096) % 2 ^ 64) (base + i * 4096)
        (pageWrite ||| pageNx)).2 = true
    · rw [if_pos hok, if_pos hok]
      exact h.trans (ih h.valid)
    · rw [if_neg hok, if_neg hok, Finset.union_empty]
      exact h

lemma unmapPages_pmm (p : Paging) (current virt n : ℕ) : (unmapPages p current virt n).pmm =
    p.pmm := by
  induction n with
  | zero => rfl
  | succ n ih =>
    unfold unmapPages vmmUnmapPage unmapPage
    split_ifs
    · exact ih
    · cases lookupTables (unmapPages p current virt n).mem current ((virt + n * 4096) % 2 ^ 64) <;>
        exact ih

/-! ## Growth -/

/-- The frames a growth takes for page tables. -/
def growthTables (h : Heap) (need : ℕ) : Finset ℕ :=
  if (tpmmAllocContig h.vm.pmm (growPages need)).2 = 0 then ∅
  else loopFrames { h.vm with pmm := (tpmmAllocContig h.vm.pmm (growPages need)).1 }
    h.current h.heapVirt
    (tpmmAllocContig h.vm.pmm (growPages need)).2 0 (growPages need)

/-- Frames taken for pages and given back are back in the pool; those taken for tables are not. -/
lemma Takes.giveBack {s s' s'' : Pmm} {base n : ℕ} {T : Finset ℕ} (hv : Valid s)
    (hgrant : Takes s s' (grantFrames base n)) (hal : base % pageSize = 0) (h : Takes s' s'' T) :
    Takes s (freePages s'' base n) T := by
  obtain ⟨b, rfl⟩ : ∃ b, base = b * frameBytes :=
    ⟨base / 4096, by unfold pageSize at hal; unfold frameBytes; omega⟩
  have hframes : grantFrames (b * frameBytes) n = Finset.Ico b (b + n) := by
    unfold grantFrames
    rw [show b * frameBytes / pageSize = b from Nat.mul_div_cancel _ (by decide)]
  rw [hframes] at hgrant
  have htotal := h.totalFrames.trans hgrant.totalFrames
  obtain ⟨hv', hset, htot⟩ := freePages_spec h.valid (b := b) n fun f hf => by
    have hfree := hgrant.subset hf
    refine ⟨?_, fun h0 => hv.zero_used (h0 ▸ hfree)⟩
    rw [htotal]
    exact ((mem_freeSet s f).mp hfree).1
  have hsub : T ⊆ freeSet s \ Finset.Ico b (b + n) := hgrant.pool ▸ h.subset
  refine ⟨hv', htot.trans htotal, hsub.trans Finset.sdiff_subset, ?_⟩
  rw [hset, h.pool, hgrant.pool]
  ext f
  have hin := @hgrant.subset f
  have hout := @hsub f
  simp only [Finset.mem_union, Finset.mem_sdiff] at *
  tauto

lemma contig_takes {s : Pmm} (hv : Valid s) {n : ℕ} (h0 : (tpmmAllocContig s n).2 ≠ 0) :
    (tpmmAllocContig s n).2 % pageSize = 0 ∧
      Takes s (tpmmAllocContig s n).1 (grantFrames (tpmmAllocContig s n).2 n) := by
  have hspec := tpmmAllocContig_spec hv n
  obtain ⟨hal, _, hsub, hset⟩ := hspec.granted hv h0
  exact ⟨hal, hspec.valid hv, hspec.totalFrames, hsub, hset⟩

/-- A growth that fails leaves the statics alone and takes no frame but for tables. -/
theorem growHeap_undone {h : Heap} {need : ℕ} (hv : Valid h.vm.pmm) (hf : GrowthFails h need) :
    ∃ vm, growHeap h need = { h with vm := vm } ∧ Takes h.vm.pmm vm.pmm (growthTables h need) := by
  unfold growHeap growthTables
  dsimp only
  by_cases h0 : (tpmmAllocContig h.vm.pmm (growPages need)).2 = 0
  · rw [if_pos h0, if_pos h0]
    refine ⟨_, rfl, ?_⟩
    rw [(tpmmAllocContig_spec hv _).refused hv h0]
    exact Takes.refl hv
  · rw [if_neg h0, if_neg h0]
    obtain ⟨hal, hgrant⟩ := contig_takes hv h0
    have hmap := hf.resolve_left h0
    have htakes :=
      mapPages_takes h.current h.heapVirt (tpmmAllocContig h.vm.pmm (growPages need)).2
        (growPages need)
      (p := { h.vm with pmm := (tpmmAllocContig h.vm.pmm (growPages need)).1 }) (i :=
        0) hgrant.valid
    generalize mapPages { h.vm with pmm := (tpmmAllocContig h.vm.pmm (growPages need)).1 } h.current
      h.heapVirt (tpmmAllocContig h.vm.pmm (growPages need)).2 0 (growPages need) = r at *
    obtain ⟨p, _ | i⟩ := r
    · exact nomatch hmap
    · refine ⟨_, rfl, ?_⟩
      unfold unwind
      dsimp only
      rw [unmapPages_pmm]
      exact hgrant.giveBack hv hal htakes

theorem growHeap_valid {h : Heap} (hv : Valid h.vm.pmm)
    (need : ℕ) : Valid (growHeap h need).vm.pmm := by
  by_cases hf : GrowthFails h need
  · obtain ⟨vm, heq, htakes⟩ := growHeap_undone hv hf
    rw [heq]
    exact htakes.valid
  · obtain ⟨h0, hmap⟩ := not_or.mp hf
    have htakes :=
      mapPages_takes h.current h.heapVirt (tpmmAllocContig h.vm.pmm (growPages need)).2
        (growPages need)
      (p := { h.vm with pmm := (tpmmAllocContig h.vm.pmm (growPages need)).1 }) (i :=
        0) (contig_takes hv h0).2.valid
    unfold growHeap
    dsimp only
    rw [if_neg h0]
    generalize mapPages { h.vm with pmm := (tpmmAllocContig h.vm.pmm (growPages need)).1 } h.current
      h.heapVirt (tpmmAllocContig h.vm.pmm (growPages need)).2 0 (growPages need) = r at *
    obtain ⟨p, _ | i⟩ := r
    · exact htakes.valid
    · exact absurd rfl hmap

/-! ## Requests -/

/-- The block of the request with its header fills whole pages, at least sixteen of them. -/
def Tight (n : ℕ) : Prop := 65536 ≤ wanted n + headerBytes ∧ (wanted n + headerBytes) % 4096 = 0

instance (n : ℕ) : Decidable (Tight n) := inferInstanceAs (Decidable (_ ∧ _))

/-- The heap grows for the request, by a chunk that is too small for it. -/
def Misfit (h : Heap) (n : ℕ) : Prop := firstFit h (wanted n) = some none ∧ Grows h n ∧ Tight n

/-- If the request returns the null pointer, growth has failed, the statics and the headers are as
before, and the pool lacks only frames taken for page tables. -/
def Clean (h : Heap) (n : ℕ) (h' : Heap) (p : ℕ) : Prop :=
  p = 0 → bumpFull h (wanted n) = true ∧ GrowthFails h (wanted n + headerBytes) ∧
    ∃ vm, h' = { h with vm := vm } ∧
      freeSet vm.pmm = freeSet h.vm.pmm \ growthTables h (wanted n + headerBytes)

/-- The chunk of a growth by `need` bytes has room for `need` bytes behind its first sixteen
unless these fill whole pages. -/
lemma growPages_lt_iff (need : ℕ) (hal : need % 16 = 0) (hn : need < 2 ^ 32) :
    growPages need * 4096 < need + 16 ↔ 65536 ≤ need ∧ need % 4096 = 0 := by
  unfold growPages
  split_ifs with h <;> omega

lemma bumpFull_newChunk {h h' : Heap} {n : ℕ} (hn : n < 2 ^ 30)
    (hc : NewChunk h h' (growPages (wanted n + headerBytes) * 4096)) (hal : h.heapVirt % 4096 = 0) :
    bumpFull h' (wanted n) = true ↔ Tight n := by
  obtain ⟨_, _, hw, _⟩ := wanted_bounds hn
  have hneed := wanted_need_lt hn
  have hpages := (growPages_bounds hneed).2
  have hiff := growPages_lt_iff (wanted n + headerBytes) (by unfold headerBytes at *; omega) hneed
  obtain ⟨hlt, hbump, hend, _, _⟩ := hc
  unfold bumpFull Tight
  rw [hbump, hend, ← hiff, decide_eq_true_eq]
  unfold headerBytes at *
  rw [Nat.mod_eq_of_lt (by omega)]
  omega

theorem tmalloc_clean_iff {h : Heap} {live held free : List Block} {chunks : List Chunk} {n : ℕ}
    (hl : Laid h live held free chunks) (hv : Valid h.vm.pmm) (hn : NoWrap h n) :
    ∃ h' p, tmalloc h n = some (h', p) ∧ (Clean h n h' p ↔ ¬ Misfit h n) := by
  obtain ⟨h', p, hres, hout⟩ := tmalloc_outcome hl hn
  refine ⟨h', p, hres, ?_⟩
  cases hout with
  | refused hseek hfull _ =>
    by_cases hg : Grows h n
    · have htight :=
        (bumpFull_newChunk hn.1 (refill_of_grows hg hn hseek) hl.arranged.virt_aligned).mp hfull
      exact iff_of_false (fun hclean => hg.2 (hclean rfl).2.1) fun hno => hno ⟨hseek, hg, htight⟩
    · refine iff_of_true (fun _ => ?_) fun hmis => hg hmis.2.1
      have hfull' : bumpFull h (wanted n) = true := by
        by_contra hno
        rw [refill, if_neg hno] at hfull
        exact hno hfull
      have hf : GrowthFails h (wanted n + headerBytes) := not_not.mp fun hf => hg ⟨hfull', hf⟩
      obtain ⟨vm, heq, htakes⟩ := growHeap_undone hv hf
      rw [refill, if_pos hfull']
      exact ⟨hfull', hf, vm, heq, htakes.pool⟩
  | fitted front b back hfree _ hseek _ _ _ _ _ =>
    refine iff_of_true (fun h0 => ?_) fun hmis => nomatch hseek.symm.trans hmis.1
    exact absurd h0 (hl.addr_ne_zero (by simp [hfree]))
  | carved hseek hfit hne _ =>
    refine iff_of_true (fun h0 => absurd h0 hne) fun ⟨_, hg, htight⟩ => ?_
    have hchunk := refill_of_grows hg hn hseek
    have hfull := (bumpFull_newChunk hn.1 hchunk hl.arranged.virt_aligned).mpr htight
    have hlt := hchunk.lt
    rw [bumpFull, decide_eq_true_eq] at hfull
    have := Nat.mod_le ((refill h n).bump + wanted n + headerBytes) (2 ^ 64)
    omega

/-! ## Runs -/

lemma refill_valid {h : Heap} (hv : Valid h.vm.pmm) (n : ℕ) : Valid (refill h n).vm.pmm := by
  unfold refill
  split_ifs
  · exact growHeap_valid hv _
  · exact hv

lemma ledgerStep_valid {l t : Ledger} {a : Call} (hi : LedgerInv l) (hv : Valid l.heap.vm.pmm)
    (h : ledgerStep l a = some t) : Valid t.heap.vm.pmm := by
  cases a with
  | malloc n =>
    unfold ledgerStep at h
    dsimp only at h
    split_ifs at h with hn
    obtain ⟨⟨h', p⟩, hres, rfl⟩ := Option.map_eq_some_iff.mp h
    have hwrap := noWrap_of_grown hi hn
    obtain ⟨free, _, hl⟩ := hi
    obtain ⟨h₁, p₁, hres₁, hout⟩ := tmalloc_outcome hl hwrap
    obtain ⟨rfl, rfl⟩ := Prod.mk.inj (Option.some.inj (hres₁.symm.trans hres))
    rw [(handOut_heap l h₁ p₁ (wanted n)).1]
    cases hout with
    | refused _ _ _ => exact refill_valid hv n
    | fitted front _ _ _ _ _ _ _ hres' _ _ =>
      have hvm := (takeFit_vm l.heap (lastLink .head front) (wanted n)).1
      rw [hres'] at hvm
      exact hvm ▸ hv
    | carved _ _ _ _ => exact refill_valid hv n
  | free p =>
    unfold ledgerStep at h
    dsimp only at h
    split_ifs at h
    cases h
    rw [(release_heap l (tfree l.heap p) p).1]
    unfold tfree
    split_ifs <;> exact hv
  | store x v =>
    unfold ledgerStep at h
    dsimp only at h
    split_ifs at h
    cases h
    exact hv

/-- In every run on a valid frame manager a request returns, and fails only for want of memory
and without a trace unless the heap grows for it by a chunk that is too small. -/
theorem tmalloc_fails_cleanly_iff (vm : Paging) (current : ℕ) (cells : Memory) (hv : Valid vm.pmm)
    (calls : List Call) (l : Ledger)
    (hrun : exec ledgerStep (newLedger vm current cells) calls = some l) (n : ℕ)
    (hn : l.heap.grown + n < 2 ^ 29) :
    ∃ h' p, tmalloc l.heap n = some (h', p) ∧ (Clean l.heap n h' p ↔ ¬ Misfit l.heap n) := by
  obtain ⟨hi, hv⟩ : LedgerInv l ∧ Valid l.heap.vm.pmm := by
    refine exec_invariant (I := fun l => LedgerInv l ∧ Valid l.heap.vm.pmm) ?_ calls
      ⟨⟨[], .nil, emptyHeap_laid vm current cells⟩, hv⟩ hrun
    intro s a t ⟨hi, hv⟩ hstep
    exact ⟨ledgerInv_step hi hstep, ledgerStep_valid hi hv hstep⟩
  have hwrap := noWrap_of_grown hi hn
  obtain ⟨free, _, hl⟩ := hi
  exact tmalloc_clean_iff hl hv hwrap

/-- The small machine with every frame above its 64 used. -/
def closedMachine : Paging :=
  { smallMachine with
    pmm := ⟨fun i => if i = 0 then 0xFF#32 else if i = 1 then 0#32 else 0xFFFFFFFF#32, 64, 56, 8⟩ }

lemma closedMachine_valid : Valid closedMachine.pmm := by
  refine ⟨⟨by decide, by decide, fun f hf _ => ?_, by decide +kernel⟩, by decide +kernel⟩
  have hword : 2 ≤ f / 32 := by
    change 64 ≤ f at hf
    omega
  have hbit : f % 32 < 32 := Nat.mod_lt _ (by decide)
  unfold bitTest
  rw [BitmapScan.test_eq_getLsbD]
  dsimp only [closedMachine]
  rw [if_neg (by omega), if_neg (by omega), show 0xFFFFFFFF#32 = BitVec.allOnes 32 from rfl,
    BitVec.getLsbD_allOnes]
  exact decide_eq_true hbit

/-- The heap has 40 frames to grow by; a request for more finds none and changes nothing. -/
theorem tmalloc_fails_cleanly_large :
    ∃ l h', exec ledgerStep (newLedger closedMachine 0x1000 (fun _ => 0)) [.malloc 16] = some l ∧
      tmalloc l.heap 200000 = some (h', 0) ∧ Clean l.heap 200000 h' 0 := by
  have hrun : (exec ledgerStep (newLedger closedMachine 0x1000 (fun _ => 0)) [.malloc 16]).map
      (fun l => ((tmalloc l.heap 200000).map Prod.snd, decide (l.heap.grown + 200000 < 2 ^ 29))) =
      some (some 0, true) := by decide +kernel
  obtain ⟨l, hl, hv⟩ := Option.map_eq_some_iff.mp hrun
  obtain ⟨hp, hn⟩ := Prod.mk.inj hv
  obtain ⟨h', p, hres, hiff⟩ :=
    tmalloc_fails_cleanly_iff _ _ _ closedMachine_valid _ l hl 200000 (of_decide_eq_true hn)
  rw [hres, Option.map_some, Option.some.injEq] at hp
  dsimp only at hp
  subst hp
  exact ⟨l, h', hl, hres, hiff.mpr fun hmis => absurd hmis.2.2 (by decide)⟩

/-- A request for 65520 bytes grows the empty heap by 65536 and returns the null pointer. -/
theorem growth_too_small :
    ∃ h', tmalloc (emptyHeap closedMachine 0x1000 (fun _ => 0)) 65520 = some (h', 0) ∧
      ¬ GrowthFails (emptyHeap closedMachine 0x1000 (fun _ => 0)) (wanted 65520 + headerBytes) ∧
      h'.totalBytes = 65536 ∧ (freeSet h'.vm.pmm).card = 40 := by
  have hrun : (tmalloc (emptyHeap closedMachine 0x1000 (fun _ => 0)) 65520).map
      (fun r => (r.2, r.1.totalBytes, (freeSet r.1.vm.pmm).card)) = some (0, 65536, 40) := by
        decide +kernel
  obtain ⟨⟨h', p⟩, hres, hv⟩ := Option.map_eq_some_iff.mp hrun
  simp only [Prod.mk.injEq] at hv
  obtain ⟨rfl, htotal, hcard⟩ := hv
  exact ⟨h', hres, by decide +kernel, htotal, hcard⟩

end TraitOS.Tmalloc
