import TraitOS.TmallocLayout

/-!
# Specification of the heap calls

`Laid` is the heap invariant: headers and lists agree, the blocks lie as they
should, and both counters count the blocks handed out. Among these, the live ones
still have their headers and the held ones are kept by clients that wrote over
them. Every call keeps the invariant, on its own lists: a request moves memory
from the free list or the bump region to the live blocks, a release moves a block
back.
-/
namespace TraitOS.Tmalloc
open ByteMemory FreeList MachineWord Tpmm Tvmm

variable {h : Heap} {live held free : List Block} {n : ℕ} {chunks : List Chunk} {b : Block}
  {want : ℕ}

structure Laid (h : Heap) (live held free : List Block) (chunks : List Chunk) : Prop where
  stored : Stored h live free
  arranged : Arranged (frontier h) ((live ++ held) ++ free) chunks
  count : h.blockCount = (live ++ held).length
  used : h.usedBytes = ((live ++ held).map Block.size).sum % 2 ^ 64

theorem emptyHeap_laid (vm : Paging) (current : ℕ) (cells : Memory) :
    Laid (emptyHeap vm current cells) [] [] [] [] where
  stored := ⟨rfl, by simp, by simp⟩
  arranged := {
    apart := List.Pairwise.nil
    placed := by simp
    offBump := by simp
    chunk := by simp
    bump_le := le_rfl
    bump_aligned := rfl
    bump_inside := Or.inl rfl
    bumpEnd_le := Nat.zero_le _
    virt_aligned := show heapVirtBase % 4096 = 0 by decide
    virt_base := le_rfl
    virt_lt := show heapVirtBase < 2 ^ 64 by decide }
  count := rfl
  used := rfl

/-- The window of the heap has room for few blocks only. -/
theorem Arranged.length_lt {f : Frontier} {bs : List Block} (ha : Arranged f bs chunks) :
    bs.length < 2 ^ 27 := by
  have hlen := length_le_of_apart ha.apart heapVirtBase (2 ^ 64)
    (fun b hb => (ha.placed b hb).aligned) (fun b hb => (ha.bounds hb).1)
    (fun b hb => by
      have h1 := (ha.bounds hb).2
      have h2 := ha.virt_lt
      unfold Block.stop at h1
      omega)
  have hval : 2 ^ 64 / headerBytes + 1 - heapVirtBase / headerBytes < 2 ^ 27 := by decide
  omega

theorem Laid.live_lt (hl : Laid h live held free chunks) : (live ++ held).length < 2 ^ 27 := by
  have hlen := hl.arranged.length_lt
  rw [List.length_append] at hlen
  omega

lemma sublist_out (live held bs : List Block) : (live ++ bs).Sublist ((live ++ held) ++ bs) :=
  List.Sublist.append_right (List.sublist_append_left live held) bs

theorem Laid.addr_ne_zero (hl : Laid h live held free chunks) (hb : b ∈ (live ++ held) ++ free) :
    b.addr ≠ 0 := by
  have hlo := (hl.arranged.bounds hb).1
  unfold heapVirtBase at hlo
  omega

theorem Laid.freeList_lt (hl : Laid h live held free chunks) : h.freeList < 2 ^ 64 := by
  cases free with
  | nil =>
    have h0 : h.freeList = 0 := hl.stored.linked
    omega
  | cons b free =>
    have hb : h.freeList = b.addr := hl.stored.linked.1
    have hhi := (hl.arranged.bounds (b := b) (by simp)).2
    have hlt := hl.arranged.virt_lt
    unfold Block.stop at hhi
    omega

/-! ## Releasing a live block -/

lemma sum_release {x s used : ℕ} (hu : used = (x + s) % 2 ^ 64) (hx : x < 2 ^ 64) :
    (used + 2 ^ 64 - x) % 2 ^ 64 = s % 2 ^ 64 := by omega

theorem tfree_laid {front back held free : List Block}
    (hl : Laid h (front ++ b :: back) held free chunks) :
    Laid (tfree h b.addr) (front ++ back) held (b :: free) chunks := by
  have hmem : b ∈ front ++ b :: back := by simp
  have h0 := hl.addr_ne_zero (List.mem_append_left free (List.mem_append_left held hmem))
  have hout : ((front ++ b :: back) ++ held).Perm (b :: ((front ++ back) ++ held)) :=
    List.Perm.append_right held List.perm_middle
  have hperm := List.Perm.append_right free hout
  have hperm' : (b :: (((front ++ back) ++ held) ++ free)).Perm
      (((front ++ back) ++ held) ++ b :: free) := List.perm_middle.symm
  have hapart := pairwise_apart_perm hperm hl.arranged.apart
  have heq := tfree_of_magic h0 (hl.stored.magic b hmem)
  have hfront : frontier (tfree h b.addr) = frontier h := by rw [heq]; rfl
  have hlen := hl.live_lt
  have hcount := hl.count
  rw [hout.length_eq, List.length_cons] at hlen hcount
  exact {
    stored := hl.stored.release
      (hapart.sublist (List.Sublist.cons_cons b (sublist_out _ held free))) h0 hl.freeList_lt
    arranged := by
      rw [hfront]
      exact (hl.arranged.perm hperm).perm hperm'
    count := by
      rw [heq]
      dsimp only
      rw [hcount, decr32_of_pos (by omega) (by omega)]
      omega
    used := by
      have hsum : (List.map Block.size ((front ++ b :: back) ++ held)).sum =
          b.size + (List.map Block.size ((front ++ back) ++ held)).sum :=
        (hout.map Block.size).sum_eq
      rw [heq]
      dsimp only
      rw [hl.stored.size b hmem]
      exact sum_release (hsum ▸ hl.used) (hl.stored.size b hmem ▸ blockSize_lt h b.addr) }

/-! ## Handing out a block of the free list -/

/-- What is put back when a block of the list is larger than asked for. -/
def surplus (b : Block) (want : ℕ) : List Block :=
  if want + headerBytes + 16 ≤ b.size then
    [⟨b.addr + headerBytes + want, b.size - want - headerBytes⟩]
  else []

theorem Arranged.surplus {f : Frontier} {bs : List Block} (ha : Arranged f (b :: bs) chunks)
    (hw : want % headerBytes = 0) (hpos : headerBytes ≤ want) (hfit : want ≤ b.size) :
    Arranged f (⟨b.addr, want⟩ :: surplus b want ++ bs) chunks := by
  have hb := ha.placed b List.mem_cons_self
  have hba := hb.aligned
  have hbs := hb.size_aligned
  by_cases hsplit : want + headerBytes + 16 ≤ b.size
  · rw [Tmalloc.surplus, if_pos hsplit]
    apply ha.cut
    · simp [Apart, Block.stop]
    · intro x hx
      unfold headerBytes at *
      rcases List.mem_pair.mp hx with rfl | rfl
      · exact ⟨hba, hw, hpos⟩
      · dsimp only
        omega
    · intro x hx
      unfold Block.stop headerBytes at *
      rcases List.mem_pair.mp hx with rfl | rfl
      · dsimp only
        omega
      · dsimp only
        omega
  · rw [Tmalloc.surplus, if_neg hsplit]
    apply ha.cut
    · exact List.pairwise_singleton _ _
    · intro x hx
      rw [List.mem_singleton.mp hx]
      exact ⟨hba, hw, hpos⟩
    · intro x hx
      rw [List.mem_singleton.mp hx]
      unfold Block.stop
      dsimp only
      omega

lemma readLink_setSize {pp : Link} {b : ℕ} (v : ℕ) (hp : OffHeader b pp) :
    readLink (setSize h b v) pp = readLink h pp := by
  cases pp with
  | head => rfl
  | node a => exact (sameHeader_setSize h v (Or.symm hp)).blockMeta

lemma readLink_setMeta {pp : Link} {b : ℕ} (v : ℕ) (hp : OffHeader b pp) :
    readLink (setMeta h b v) pp = readLink h pp := by
  cases pp with
  | head => rfl
  | node a => exact (sameHeader_setMeta h v (Or.symm hp)).blockMeta

/-- Writing the header of a block that is in neither list and linking it in. -/
theorem Stored.addFree {live front back : List Block} (hst : Stored h live (front ++ back))
    (hap : (live ++ (front ++ b :: back)).Pairwise Apart) (h0 : b.addr ≠ 0) (hlt : b.stop < 2 ^ 64)
    (hnext : readLink h (lastLink .head front) < 2 ^ 64) :
    Stored (writeLink (setMeta (setSize h b.addr b.size) b.addr
      (readLink h (lastLink .head front))) (lastLink .head front) b.addr) live
      (front ++ b :: back) := by
  have hperm : (live ++ (front ++ b :: back)).Perm (b :: (live ++ (front ++ back))) :=
    (List.Perm.append_left live List.perm_middle).trans List.perm_middle
  have hb := (List.pairwise_cons.mp (pairwise_apart_perm hperm hap)).1
  have hoff : OffHeader b.addr (lastLink .head front) :=
    offHeader_lastLink (fun a ha => (hb a (by simp [ha])).symm)
  unfold Block.stop at hlt
  have hframe : Stored (setMeta (setSize h b.addr b.size) b.addr
      (readLink h (lastLink .head front))) live (front ++ back) := by
    apply hst.frame
    · rfl
    · intro x hx
      have hx' := headersApart_of_apart (hb x hx)
      exact (sameHeader_setSize h b.size hx').trans (sameHeader_setMeta _ _ hx')
  apply hframe.insert hap h0 (by omega)
  · rw [blockSize_setMeta, blockSize_setSize h b.addr (by omega)]
  · rw [readLink_setMeta _ hoff, readLink_setSize _ hoff, blockMeta_setMeta _ _ hnext]

/-- The split of the source keeps the list and puts the surplus where the block
was. -/
theorem Stored.splitBlock {live front back : List Block} (hst : Stored h live (front ++ back))
    (hap : (live ++ (front ++ (surplus b want ++ back))).Pairwise Apart)
    (hs : blockSize h b.addr = b.size) (hlo : headerBytes ≤ b.addr) (hstop : b.stop < 2 ^ 64)
    (hfit : want ≤ b.size) (hnext : readLink h (lastLink .head front) < 2 ^ 64) :
    Stored (splitBlock h (lastLink .head front) b.addr want) live
      (front ++ (surplus b want ++ back)) := by
  have h16 : headerBytes = 16 := rfl
  unfold Block.stop at hstop
  have hmod : (want + headerBytes + 16) % 2 ^ 64 = want + headerBytes + 16 :=
    Nat.mod_eq_of_lt (by omega)
  unfold Tmalloc.splitBlock
  rw [hmod, hs]
  by_cases hsplit : want + headerBytes + 16 ≤ b.size
  · have hrest : (b.addr + headerBytes + want) % 2 ^ 64 = b.addr + headerBytes + want :=
      Nat.mod_eq_of_lt (by omega)
    have hsize : (b.size + 2 ^ 64 - want - headerBytes) % 2 ^ 64 = b.size - want - headerBytes := by
      omega
    have hsur : surplus b want = [⟨b.addr + headerBytes + want, b.size - want - headerBytes⟩] :=
      if_pos hsplit
    rw [hsur] at hap ⊢
    rw [if_pos hsplit, hrest, hsize]
    have hoff : OffHeader (b.addr + headerBytes + want) (lastLink .head front) := by
      have hcross := (List.pairwise_append.mp (List.pairwise_append.mp hap).2.1).2.2
      exact offHeader_lastLink (x := ⟨b.addr + headerBytes + want, b.size - want - headerBytes⟩)
        (fun a ha => hcross a ha _ (by simp))
    have hadd := hst.addFree hap (by dsimp only; omega) (by simp only [Block.stop]; omega) hnext
    simp only [readLink_setSize _ hoff]
    exact hadd
  · rw [if_neg hsplit]
    rw [surplus, if_neg hsplit]
    exact hst

/-- Only headers and the list head differ. -/
def OnlyBlocks (h h' : Heap) : Prop := ∃ c l, h' = { h with cells := c, freeList := l }

lemma OnlyBlocks.trans {h h' h'' : Heap} (h1 : OnlyBlocks h h') (h2 : OnlyBlocks h' h'') :
    OnlyBlocks h h'' := by
  obtain ⟨c, l, rfl⟩ := h1
  obtain ⟨c', l', rfl⟩ := h2
  exact ⟨c', l', rfl⟩

lemma onlyBlocks_writeLink (h : Heap) (pp : Link) (v : ℕ) : OnlyBlocks h (writeLink h pp v) := by
  cases pp with
  | head => exact ⟨h.cells, v, rfl⟩
  | node a => exact ⟨_, h.freeList, rfl⟩

lemma onlyBlocks_splitBlock (h : Heap) (pp : Link) (b want : ℕ) :
    OnlyBlocks h (splitBlock h pp b want) := by
  unfold splitBlock
  split_ifs
  · exact OnlyBlocks.trans ⟨_, h.freeList, rfl⟩ (onlyBlocks_writeLink _ _ _)
  · exact ⟨h.cells, h.freeList, rfl⟩

/-- Counting one more live block. -/
theorem markLive_laid (hst : Stored h live free)
    (ha : Arranged (frontier h) (b :: ((live ++ held) ++ free)) chunks)
    (hc : h.blockCount = (live ++ held).length)
    (hu : h.usedBytes = ((live ++ held).map Block.size).sum % 2 ^ 64) :
    Laid (markLive h b.addr b.size) (b :: live) held free chunks := by
  have hstop := (ha.bounds List.mem_cons_self).2
  have hlt := ha.virt_lt
  have hlen := ha.length_lt
  rw [List.length_cons, List.length_append] at hlen
  unfold Block.stop at hstop
  exact {
    stored := hst.markLive (fun x hx => (List.pairwise_cons.mp ha.apart).1 x
      ((sublist_out live held free).subset hx)) (by omega)
    arranged := ha
    count := by
      change incr32 h.blockCount = (live ++ held).length + 1
      rw [hc, incr32_of_lt (by omega)]
    used := by
      change (h.usedBytes + b.size) % 2 ^ 64 =
        (b.size + ((live ++ held).map Block.size).sum) % 2 ^ 64
      rw [hu]
      omega }

theorem takeFit_laid {live held front back : List Block}
    (hl : Laid h live held (front ++ b :: back) chunks) (hw : want % headerBytes = 0)
    (hpos : headerBytes ≤ want) (hfit : want ≤ b.size) :
    ∃ h', takeFit h (lastLink .head front) want = (h', b.addr) ∧ h'.heapVirt = h.heapVirt ∧
      Laid h' (⟨b.addr, want⟩ :: live) held (front ++ (surplus b want ++ back)) chunks := by
  have hbmem : b ∈ (live ++ held) ++ (front ++ b :: back) := by simp
  have hread : readLink h (lastLink .head front) = b.addr := hl.stored.linked.drop.1
  have hbsize : blockSize h b.addr = b.size := hl.stored.linked.size b (by simp)
  have hperm : ((live ++ held) ++ (front ++ b :: back)).Perm
      (b :: ((live ++ held) ++ (front ++ back))) :=
    (List.Perm.append_left (live ++ held) List.perm_middle).trans List.perm_middle
  have hb := (List.pairwise_cons.mp (pairwise_apart_perm hperm hl.arranged.apart)).1
  have hparts : (⟨b.addr, want⟩ :: surplus b want ++ ((live ++ held) ++ (front ++ back))).Perm
      (⟨b.addr, want⟩ :: ((live ++ held) ++ (front ++ (surplus b want ++ back)))) := by
    apply List.Perm.cons
    refine List.perm_append_comm_assoc _ _ _ |>.trans (List.Perm.append_left (live ++ held) ?_)
    exact List.perm_append_comm_assoc _ _ _
  have harr := ((hl.arranged.perm hperm).surplus hw hpos hfit).perm hparts
  have hbounds := hl.arranged.bounds hbmem
  have hvlt := hl.arranged.virt_lt
  let h1 := writeLink h (lastLink .head front) (blockMeta h b.addr)
  let h2 := splitBlock h1 (lastLink .head front) b.addr want
  have hoff : OffHeader b.addr (lastLink .head front) :=
    offHeader_lastLink (fun a ha => (hb a (by simp [ha])).symm)
  have hst1 : Stored h1 live (front ++ back) := 
    hl.stored.unlink (hl.arranged.apart.sublist (sublist_out live held _))
  have hst2 : Stored h2 live (front ++ (surplus b want ++ back)) := by
    apply hst1.splitBlock ((List.pairwise_cons.mp harr.apart).2.sublist (sublist_out live held _))
    · exact (blockSize_writeLink h _ _ _ (Or.inl hoff)).trans hbsize
    · unfold heapVirtBase at hbounds
      unfold headerBytes
      omega
    · exact lt_of_le_of_lt hbounds.2 hvlt
    · exact hfit
    · rw [readLink_writeLink h _ (blockMeta_lt h b.addr)]
      exact blockMeta_lt h b.addr
  have honly : OnlyBlocks h h2 :=
    (onlyBlocks_writeLink h _ _).trans (onlyBlocks_splitBlock h1 _ _ _)
  have hres : takeFit h (lastLink .head front) want = (markLive h2 b.addr want, b.addr) := by
    unfold takeFit
    rw [hread]
  obtain ⟨c, l, heq⟩ := honly
  refine ⟨markLive h2 b.addr want, hres, by rw [heq]; rfl, ?_⟩
  apply markLive_laid (b := ⟨b.addr, want⟩) hst2
  · rw [heq]
    exact harr
  · rw [heq]
    exact hl.count
  · rw [heq]
    exact hl.used

/-! ## Carving and growing -/

theorem carve_laid (hl : Laid h live held free chunks) (hw : want % headerBytes = 0)
    (hpos : headerBytes ≤ want) (hfit : h.bump + headerBytes + want ≤ h.bumpEnd) :
    Laid (carve h want).1 (⟨h.bump, want⟩ :: live) held free chunks := by
  have ha : Arranged { frontier h with bump := h.bump + headerBytes + want }
      (⟨h.bump, want⟩ :: ((live ++ held) ++ free)) chunks := hl.arranged.carve hw hpos hfit
  have hend := hl.arranged.bumpEnd_le
  have hlt := hl.arranged.virt_lt
  have hmod : (h.bump + headerBytes + want) % 2 ^ 64 = h.bump + headerBytes + want := by
    apply Nat.mod_eq_of_lt
    unfold frontier at hend hlt
    dsimp only at hend hlt
    omega
  have hlaid : Laid (markLive { h with bump := h.bump + headerBytes + want } h.bump want)
      (⟨h.bump, want⟩ :: live) held free chunks := by
    apply markLive_laid (b := ⟨h.bump, want⟩)
    · apply hl.stored.frame
      · rfl
      · exact fun b _ x _ _ => rfl
    · exact ha
    · exact hl.count
    · exact hl.used
  have hcarve : (carve h want).1 =
      markLive { h with bump := h.bump + headerBytes + want } h.bump want := by
    unfold carve
    rw [hmod]
    rfl
  rw [hcarve]
  exact hlaid

/-- A growth either leaves the allocator's statics alone or adds one chunk. -/
theorem growHeap_cases (h : Heap) (need : ℕ) : ∃ vm,
    growHeap h need = { h with vm := vm } ∨
      growHeap h need = { h with
        vm := vm
        bump := (h.heapVirt + headerBytes) % 2 ^ 64
        bumpEnd := (h.heapVirt + growPages need * 4096) % 2 ^ 64
        heapVirt := (h.heapVirt + growPages need * 4096) % 2 ^ 64
        totalBytes := (h.totalBytes + growPages need * 4096) % 2 ^ 64 } := by
  unfold growHeap
  dsimp only
  by_cases h0 : (tpmmAllocContig h.vm.pmm (growPages need)).2 = 0
  · rw [if_pos h0]
    exact ⟨_, Or.inl rfl⟩
  · rw [if_neg h0]
    rcases mapPages { h.vm with pmm := (tpmmAllocContig h.vm.pmm (growPages need)).1 } h.current
      h.heapVirt (tpmmAllocContig h.vm.pmm (growPages need)).2 0 (growPages need) with ⟨p, r⟩
    cases r with
    | none => exact ⟨p, Or.inr rfl⟩
    | some i => exact ⟨_, Or.inl rfl⟩

/-- The chunks of the heap after a call, read off the end of the mapped heap. -/
def chunksAfter (h h' : Heap) (chunks : List Chunk) : List Chunk :=
  if h'.heapVirt = h.heapVirt then chunks else ⟨h.heapVirt, h'.heapVirt⟩ :: chunks

theorem growPages_bounds {need : ℕ} (hn : need < 2 ^ 32) :
    0 < growPages need ∧ need ≤ growPages need * 4096 := by
  unfold growPages
  split_ifs <;> omega

theorem growHeap_laid {need : ℕ} (hl : Laid h live held free chunks) (hn : need < 2 ^ 32)
    (hroom : h.heapVirt + growPages need * 4096 < 2 ^ 64) :
    Laid (growHeap h need) live held free (chunksAfter h (growHeap h need) chunks) := by
  have hpos := (growPages_bounds hn).1
  have hstored : ∀ h' : Heap, h'.cells = h.cells → h'.freeList = h.freeList →
      Stored h' live free := by
    intro h' hc hf
    apply hl.stored.frame hf
    intro b _ x _ _
    rw [hc]
  obtain ⟨vm, heq | heq⟩ := growHeap_cases h need
  · rw [heq]
    have hsame : chunksAfter h { h with vm := vm } chunks = chunks := if_pos rfl
    rw [hsame]
    exact ⟨hstored _ rfl rfl, hl.arranged, hl.count, hl.used⟩
  · rw [Nat.mod_eq_of_lt hroom,
      Nat.mod_eq_of_lt (show h.heapVirt + headerBytes < 2 ^ 64 by unfold headerBytes; omega)] at heq
    rw [heq]
    have hnew : chunksAfter h { h with
        vm := vm
        bump := h.heapVirt + headerBytes
        bumpEnd := h.heapVirt + growPages need * 4096
        heapVirt := h.heapVirt + growPages need * 4096
        totalBytes := (h.totalBytes + growPages need * 4096) % 2 ^ 64 } chunks =
        ⟨h.heapVirt, h.heapVirt + growPages need * 4096⟩ :: chunks :=
      if_neg (by dsimp only; omega)
    rw [hnew]
    exact ⟨hstored _ rfl rfl, hl.arranged.grow hpos hroom, hl.count, hl.used⟩

theorem growHeap_bump_le (hl : Laid h live held free chunks) (need : ℕ) :
    (growHeap h need).bump ≤ h.heapVirt + headerBytes := by
  have hend : h.bump ≤ h.bumpEnd ∧ h.bumpEnd ≤ h.heapVirt :=
    ⟨hl.arranged.bump_le, hl.arranged.bumpEnd_le⟩
  obtain ⟨vm, heq | heq⟩ := growHeap_cases h need
  · rw [heq]
    dsimp only
    omega
  · rw [heq]
    exact Nat.mod_le _ _

/-! ## The request -/

theorem wanted_bounds (hn : n < 2 ^ 30) :
    n ≤ wanted n ∧ wanted n ≤ n + 16 ∧ wanted n % headerBytes = 0 ∧ headerBytes ≤ wanted n := by
  unfold wanted align16 headerBytes
  split_ifs <;> omega

/-- Where a request that no free block satisfies still fits: one more chunk for it
ends below the top of the address space. -/
def HasRoom (h : Heap) (n : ℕ) : Prop :=
  firstFit h (wanted n) = some none →
    h.heapVirt + growPages (wanted n + headerBytes) * 4096 < 2 ^ 64

instance (h : Heap) (n : ℕ) : Decidable (HasRoom h n) :=
  inferInstanceAs (Decidable (_ → _))

/-- No sum of a request wraps: it is below 1 GiB, and if no free block satisfies it, its block
ends below the top of the address space and so does the chunk it has the heap grow by. -/
def NoWrap (h : Heap) (n : ℕ) : Prop :=
  n < 2 ^ 30 ∧ (firstFit h (wanted n) = some none → h.bump + wanted n + headerBytes < 2 ^ 64 ∧
    (bumpFull h (wanted n) = true → h.heapVirt + growPages (wanted n + headerBytes) * 4096 <
      2 ^ 64))

instance (h : Heap) (n : ℕ) : Decidable (NoWrap h n) :=
  inferInstanceAs (Decidable (_ ∧ (_ → _ ∧ (_ → _))))

lemma HasRoom.noWrap (hl : Laid h live held free chunks) (hn : n < 2 ^ 29) (hroom : HasRoom h n) :
    NoWrap h n := by
  refine ⟨by omega, fun hseek => ⟨?_, fun _ => hroom hseek⟩⟩
  have hlim := hroom hseek
  obtain ⟨_, hhigh, _, _⟩ := wanted_bounds (show n < 2 ^ 30 by omega)
  have hpages :=
    (growPages_bounds (show wanted n + headerBytes < 2 ^ 32 by unfold headerBytes; omega)).2
  have hend : h.bump ≤ h.bumpEnd ∧ h.bumpEnd ≤ h.heapVirt :=
    ⟨hl.arranged.bump_le, hl.arranged.bumpEnd_le⟩
  omega

theorem carveOrFail_laid (hl : Laid h live held free chunks) (hw : want % headerBytes = 0)
    (hpos : headerBytes ≤ want) (hlt : h.bump + want + headerBytes < 2 ^ 64) :
    if bumpFull h want then Laid h live held free chunks
    else h.bump ≠ 0 ∧ Laid (carve h want).1 (⟨h.bump, want⟩ :: live) held free chunks := by
  have hmod := Nat.mod_eq_of_lt hlt
  by_cases hfull : bumpFull h want = true
  · rw [if_pos hfull]
    exact hl
  · rw [if_neg hfull]
    unfold bumpFull at hfull
    rw [hmod] at hfull
    have hfit : h.bump + headerBytes + want ≤ h.bumpEnd := by
      simp only [decide_eq_true_eq] at hfull
      omega
    have hcarve := carve_laid hl hw hpos hfit
    have hin := hcarve.addr_ne_zero (b := ⟨h.bump, want⟩) (by simp)
    exact ⟨hin, hcarve⟩

theorem firstFit_spec (hl : Laid h live held free chunks) (want : ℕ) :
    (∃ front b back, free = front ++ b :: back ∧ want ≤ b.size ∧
        firstFit h want = some (some (lastLink .head front))) ∨
      (firstFit h want = some none ∧ ∀ b ∈ free, b.size < want) := by
  have hfuel : free.length < 2 ^ 64 := by
    have := hl.arranged.length_lt
    rw [List.length_append] at this
    omega
  rcases @seek_spec _ (links h) (fun size => want ≤ size) _ _ hl.stored.linked hfuel with
    ⟨front, b, back, hfree, hfit, hseek⟩ | ⟨hseek, hall⟩
  · exact Or.inl ⟨front, b, back, hfree, by simpa using hfit, hseek⟩
  · exact Or.inr ⟨hseek, fun b hb => by simpa using hall b hb⟩

/-- The heap once a request that no free block satisfies has asked for room. -/
def refill (h : Heap) (n : ℕ) : Heap :=
  if bumpFull h (wanted n) then growHeap h (wanted n + headerBytes) else h

/-- Growth or not, the invariant holds and the bump region ends below the new
limit. -/
theorem refill_laid (hl : Laid h live held free chunks) (hn : NoWrap h n)
    (hseek : firstFit h (wanted n) = some none) :
    Laid (refill h n) live held free (chunksAfter h (refill h n) chunks) ∧
      (refill h n).bump + wanted n + headerBytes < 2 ^ 64 ∧ (refill h n).cells = h.cells := by
  obtain ⟨_, hhigh, _, _⟩ := wanted_bounds hn.1
  obtain ⟨hlt, hlim⟩ := hn.2 hseek
  have hn := hn.1
  have h16 : headerBytes = 16 := rfl
  have hneed : wanted n + headerBytes < 2 ^ 32 := by omega
  have hpages := (growPages_bounds hneed).2
  unfold refill
  by_cases hfull : bumpFull h (wanted n) = true
  · rw [if_pos hfull]
    have hlim := hlim hfull
    refine ⟨growHeap_laid hl hneed hlim, ?_, ?_⟩
    · have hbump := growHeap_bump_le hl (wanted n + headerBytes)
      have hal : h.heapVirt % 4096 = 0 := hl.arranged.virt_aligned
      omega
    · obtain ⟨vm, heq | heq⟩ := growHeap_cases h (wanted n + headerBytes)
      · rw [heq]
      · rw [heq]
  · rw [if_neg hfull, show chunksAfter h h chunks = chunks from if_pos rfl]
    exact ⟨hl, hlt, rfl⟩

lemma tmalloc_of_noFit (hn : n < 2 ^ 30) (hseek : firstFit h (wanted n) = some none) :
    tmalloc h n = if bumpFull (refill h n) (wanted n) then some (refill h n, 0)
      else some (carve (refill h n) (wanted n)) := by
  obtain ⟨_, hhigh, _, _⟩ := wanted_bounds hn
  unfold tmalloc refill
  dsimp only
  rw [hseek, Nat.mod_eq_of_lt (show wanted n + headerBytes < 2 ^ 64 by unfold headerBytes; omega)]

lemma tmalloc_of_fit {pp : Link} (hseek : firstFit h (wanted n) = some (some pp)) :
    tmalloc h n = some (takeFit h pp (wanted n)) := by
  unfold tmalloc
  dsimp only
  rw [hseek]

/-! ## What a request leaves alone -/

lemma sameHeader_markLive (h : Heap) {a b : ℕ} (want : ℕ) (hab : HeadersApart b a) :
    SameHeader h (markLive h b want) a :=
  (sameHeader_setSize h want hab).trans (sameHeader_setMeta _ mallocMagic hab)

lemma sameHeader_splitBlock {pp : Link} {b x : Block} (hs : blockSize h b.addr = b.size)
    (hlo : headerBytes ≤ b.addr) (hstop : b.stop < 2 ^ 64) (hfit : want ≤ b.size) (hxb : Apart x b)
    (hoff : OffHeader x.addr pp) : SameHeader h (splitBlock h pp b.addr want) x.addr := by
  unfold Block.stop headerBytes at hstop
  unfold splitBlock
  rw [hs, Nat.mod_eq_of_lt (show want + headerBytes + 16 <
    2 ^ 64 by unfold headerBytes at *; omega)]
  by_cases hsplit : want + headerBytes + 16 ≤ b.size
  · have hrest : HeadersApart ((b.addr + headerBytes + want) % 2 ^ 64) x.addr := by
      unfold Apart Block.stop at hxb
      unfold HeadersApart headerBytes at *
      omega
    rw [if_pos hsplit]
    exact ((sameHeader_setSize h _ hrest).trans (sameHeader_setMeta _ _ hrest)).trans
      (sameHeader_writeLink _ _ hoff)
  · rw [if_neg hsplit]
    exact fun _ _ _ => rfl

/-- Handing out a free block touches the headers of free blocks only. -/
theorem sameHeader_takeFit {live held front back : List Block} {b x : Block}
    (hl : Laid h live held (front ++ b :: back) chunks) (hfit : want ≤ b.size)
    (hx : x ∈ live ++ held) : SameHeader h (takeFit h (lastLink .head front) want).1 x.addr := by
  have hread : readLink h (lastLink .head front) = b.addr := hl.stored.linked.drop.1
  have hbsize : blockSize h b.addr = b.size := hl.stored.linked.size b (by simp)
  have hap := List.pairwise_append.mp hl.arranged.apart
  have hxb : Apart x b := hap.2.2 x hx b (by simp)
  have hoff : OffHeader x.addr (lastLink .head front) :=
    offHeader_lastLink (fun a ha => (hap.2.2 x hx a (by simp [ha])).symm)
  have hoffb : OffHeader b.addr (lastLink .head front) :=
    offHeader_lastLink (fun a ha => (List.pairwise_append.mp hap.2.1).2.2 a ha b (by simp))
  have hbounds := hl.arranged.bounds (List.mem_append_right (live ++ held)
    (List.mem_append_right front (List.mem_cons_self (a := b) (l := back))))
  have hlo : headerBytes ≤ b.addr := le_trans (by decide) hbounds.1
  have hstop : b.stop < 2 ^ 64 := lt_of_le_of_lt hbounds.2 hl.arranged.virt_lt
  unfold takeFit
  rw [hread]
  refine ((sameHeader_writeLink h _ hoff).trans (sameHeader_splitBlock ?_ hlo hstop hfit hxb
    hoff)).trans
    (sameHeader_markLive _ want (headersApart_of_apart hxb.symm))
  exact (blockSize_writeLink h _ _ _ (Or.inl hoffb)).trans hbsize

lemma sameHeader_carve {x : Block} (hl : Laid h live held free chunks)
    (hfit : h.bump + headerBytes ≤ h.bumpEnd) (hx : x ∈ live ++ held) :
    SameHeader h (carve h want).1 x.addr := by
  have hoff : x.stop ≤ h.bump ∨ h.bumpEnd ≤ x.addr :=
    hl.arranged.offBump x (List.mem_append_left _ hx)
  have hap : HeadersApart h.bump x.addr := by
    unfold Block.stop at hoff
    unfold HeadersApart
    omega
  exact sameHeader_markLive h want hap

/-- A request leaves the headers of all blocks that are out as they are, whoever
wrote them. -/
theorem sameHeader_tmalloc {h h' : Heap} {n ptr : ℕ} (hl : Laid h live held free chunks)
    (hn : n < 2 ^ 29) (hroom : HasRoom h n) (heq : tmalloc h n = some (h', ptr)) {x : Block}
    (hx : x ∈ live ++ held) : SameHeader h h' x.addr := by
  rcases firstFit_spec hl (wanted n) with ⟨front, b, back, rfl, hfit, hseek⟩ | ⟨hseek, _⟩
  · rw [tmalloc_of_fit hseek] at heq
    cases heq
    exact sameHeader_takeFit hl hfit hx
  · rw [tmalloc_of_noFit (by omega) hseek] at heq
    obtain ⟨hl1, hbump, hcells⟩ := refill_laid hl (hroom.noWrap hl hn) hseek
    have hsame : SameHeader h (refill h n) x.addr := fun y _ _ => congrFun hcells y
    by_cases hfull : bumpFull (refill h n) (wanted n) = true
    · rw [if_pos hfull] at heq
      cases heq
      exact hsame
    · rw [if_neg hfull] at heq
      cases heq
      refine hsame.trans (sameHeader_carve hl1 ?_ hx)
      unfold bumpFull at hfull
      rw [Nat.mod_eq_of_lt hbump, decide_eq_true_eq] at hfull
      omega

/-- The outcomes of a request: no room even after growth, a block taken out of the free list with
its surplus put back, or a block cut from the bump region. -/
inductive Outcome (h : Heap) (n : ℕ) (live held free : List Block) (chunks : List Chunk) : Heap →
    ℕ → Prop where
  | refused (hseek : firstFit h (wanted n) = some none)
      (hfull : bumpFull (refill h n) (wanted n) = true)
      (hlaid : Laid (refill h n) live held free (chunksAfter h (refill h n) chunks)) :
      Outcome h n live held free chunks (refill h n) 0
  | fitted (front : List Block) (b : Block) (back : List Block) (hfree : free = front ++ b :: back)
      (hfit : wanted n ≤ b.size) (hseek : firstFit h (wanted n) =
        some (some (lastLink .head front)))
      (hread : readLink h (lastLink .head front) = b.addr) (h' : Heap)
      (hres : takeFit h (lastLink .head front) (wanted n) = (h', b.addr)) (hvirt : h'.heapVirt =
        h.heapVirt)
      (hlaid : Laid h' (⟨b.addr, wanted n⟩ :: live) held (front ++ (surplus b (wanted n) ++ back))
        chunks) :
      Outcome h n live held free chunks h' b.addr
  | carved (hseek : firstFit h (wanted n) = some none)
      (hfit : (refill h n).bump + headerBytes + wanted n ≤ (refill h n).bumpEnd)
        (hne : (refill h n).bump ≠ 0)
      (hlaid : Laid (carve (refill h n) (wanted n)).1 (⟨(refill h n).bump, wanted n⟩ ::
        live) held free (chunksAfter h (refill h n) chunks)) :
      Outcome h n live held free chunks (carve (refill h n) (wanted n)).1 (refill h n).bump

lemma chunksAfter_carve (h h' : Heap) (want : ℕ) (chunks : List Chunk) :
    chunksAfter h (carve h' want).1 chunks = chunksAfter h h' chunks := by
  unfold chunksAfter
  rw [show (carve h' want).1.heapVirt = h'.heapVirt from rfl]

theorem tmalloc_outcome (hl : Laid h live held free chunks) (hn : NoWrap h n) :
    ∃ h' p, tmalloc h n = some (h', p) ∧ Outcome h n live held free chunks h' p := by
  obtain ⟨_, _, hw, hpos⟩ := wanted_bounds hn.1
  rcases firstFit_spec hl (wanted n) with ⟨front, b, back, rfl, hfit, hseek⟩ | ⟨hseek, _⟩
  · rw [tmalloc_of_fit hseek]
    obtain ⟨h', hres, hvirt, hlaid⟩ := takeFit_laid hl hw hpos hfit
    exact ⟨h', b.addr, congrArg some hres,
      .fitted front b back rfl hfit hseek hl.stored.linked.drop.1 h' hres hvirt hlaid⟩
  · rw [tmalloc_of_noFit hn.1 hseek]
    obtain ⟨hl1, hbump, _⟩ := refill_laid hl hn hseek
    have hout := carveOrFail_laid hl1 hw hpos hbump
    by_cases hfull : bumpFull (refill h n) (wanted n) = true
    · rw [if_pos hfull]
      exact ⟨_, _, rfl, .refused hseek hfull hl1⟩
    · rw [if_neg hfull] at hout ⊢
      refine ⟨_, _, rfl, .carved hseek ?_ hout.1 hout.2⟩
      rw [bumpFull, Nat.mod_eq_of_lt hbump, decide_eq_true_eq] at hfull
      omega

/-- Every request returns. What it hands out is a live block of the size asked for, taken
out of the free list, with the surplus put back, or cut from the bump region. -/
theorem tmalloc_cases (hl : Laid h live held free chunks) (hn : NoWrap h n) :
    ∃ h' p, tmalloc h n = some (h', p) ∧
      ((p = 0 ∧ Laid h' live held free (chunksAfter h h' chunks)) ∨
        (∃ front b back, free = front ++ b :: back ∧ p = b.addr ∧
          Laid h' (⟨p, wanted n⟩ :: live) held (front ++ (surplus b (wanted n) ++ back))
            (chunksAfter h h' chunks)) ∨
        (p ≠ 0 ∧ Laid h' (⟨p, wanted n⟩ :: live) held free (chunksAfter h h' chunks))) := by
  obtain ⟨h', p, hres, hout⟩ := tmalloc_outcome hl hn
  refine ⟨h', p, hres, ?_⟩
  cases hout with
  | refused _ _ hlaid => exact Or.inl ⟨rfl, hlaid⟩
  | fitted front b back hfree _ _ _ _ _ hvirt hlaid =>
    rw [show chunksAfter h h' chunks = chunks from if_pos hvirt]
    exact Or.inr (Or.inl ⟨front, b, back, hfree, rfl, hlaid⟩)
  | carved _ _ hne hlaid =>
    rw [chunksAfter_carve]
    exact Or.inr (Or.inr ⟨hne, hlaid⟩)

theorem tmalloc_laid (hl : Laid h live held free chunks) (hn : NoWrap h n) :
    ∃ h' p, tmalloc h n = some (h', p) ∧
      ((p = 0 ∧ Laid h' live held free (chunksAfter h h' chunks)) ∨
        (p ≠ 0 ∧ ∃ free', Laid h' (⟨p, wanted n⟩ :: live) held free' (chunksAfter h h' chunks))) :=
          by
  obtain ⟨h', p, hres, hnull | ⟨front, b, back, rfl, rfl, hlaid⟩ | ⟨hp, hlaid⟩⟩ :=
    tmalloc_cases hl hn
  · exact ⟨h', p, hres, Or.inl hnull⟩
  · exact ⟨h', _, hres, Or.inr ⟨hl.addr_ne_zero (by simp), _, hlaid⟩⟩
  · exact ⟨h', p, hres, Or.inr ⟨hp, _, hlaid⟩⟩

end TraitOS.Tmalloc
