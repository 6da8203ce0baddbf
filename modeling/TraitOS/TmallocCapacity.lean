import TraitOS.TmallocLedger

/-!
# The capacity of the kernel heap

Every byte of a chunk behind its first sixteen belongs to a live block, to a spare block or to
the bump region, until a call gives it up. Two calls do: one that reuses a block with too little
to spare for a block of its own, and a growth that abandons what is left of the bump region. The
account below follows what is given up, call by call.
-/
namespace TraitOS.Tmalloc
open ByteMemory FreeList Runs Tpmm Tvmm

/-! ## Growth -/

/-- Growth by `need` bytes fails: no run of frames, or a page that cannot be mapped. -/
def GrowthFails (h : Heap) (need : ℕ) : Prop :=
  (tpmmAllocContig h.vm.pmm (growPages need)).2 = 0 ∨
    (mapPages { h.vm with pmm := (tpmmAllocContig h.vm.pmm (growPages need)).1 }
      h.current h.heapVirt
      (tpmmAllocContig h.vm.pmm (growPages need)).2 0 (growPages need)).2.isSome = true

instance (h : Heap) (need : ℕ) : Decidable (GrowthFails h need) :=
  inferInstanceAs (Decidable (_ ∨ _))

/-- A request that no free block satisfies adds a chunk. -/
def Grows (h : Heap) (n : ℕ) : Prop :=
  bumpFull h (wanted n) = true ∧ ¬ GrowthFails h (wanted n + headerBytes)

instance (h : Heap) (n : ℕ) : Decidable (Grows h n) := inferInstanceAs (Decidable (_ ∧ _))

/-- Statics of the heap that only growth and carving change. -/
structure SameFrontier (h h' : Heap) : Prop where
  bump : h'.bump = h.bump
  bumpEnd : h'.bumpEnd = h.bumpEnd
  heapVirt : h'.heapVirt = h.heapVirt
  totalBytes : h'.totalBytes = h.totalBytes

lemma growHeap_of_fails {h : Heap} {need : ℕ} (hf : GrowthFails h need) :
    ∃ vm, growHeap h need = { h with vm := vm } := by
  unfold growHeap
  dsimp only
  by_cases h0 : (tpmmAllocContig h.vm.pmm (growPages need)).2 = 0
  · exact ⟨_, if_pos h0⟩
  · rw [if_neg h0]
    have hmap := hf.resolve_left h0
    rcases hres : mapPages { h.vm with pmm := (tpmmAllocContig h.vm.pmm (growPages need)).1 }
      h.current
      h.heapVirt (tpmmAllocContig h.vm.pmm (growPages need)).2 0 (growPages need) with ⟨p, _ | i⟩
    · rw [hres] at hmap
      exact nomatch hmap
    · exact ⟨_, rfl⟩

lemma growHeap_of_not_fails {h : Heap} {need : ℕ} (hf : ¬ GrowthFails h need) :
    ∃ vm, growHeap h need = { h with
      vm := vm
      bump := (h.heapVirt + headerBytes) % 2 ^ 64
      bumpEnd := (h.heapVirt + growPages need * 4096) % 2 ^ 64
      heapVirt := (h.heapVirt + growPages need * 4096) % 2 ^ 64
      totalBytes := (h.totalBytes + growPages need * 4096) % 2 ^ 64 } := by
  obtain ⟨h0, hmap⟩ := not_or.mp hf
  unfold growHeap
  dsimp only
  rw [if_neg h0]
  rcases hres : mapPages { h.vm with pmm := (tpmmAllocContig h.vm.pmm (growPages need)).1 }
    h.current
    h.heapVirt (tpmmAllocContig h.vm.pmm (growPages need)).2 0 (growPages need) with ⟨p, _ | i⟩
  · exact ⟨p, rfl⟩
  · rw [hres] at hmap
    exact absurd rfl hmap

/-- The bump region moves to a new chunk of `size` bytes. -/
structure NewChunk (h h' : Heap) (size : ℕ) : Prop where
  lt : h.heapVirt + size < 2 ^ 64
  bump : h'.bump = h.heapVirt + headerBytes
  bumpEnd : h'.bumpEnd = h.heapVirt + size
  heapVirt : h'.heapVirt = h.heapVirt + size
  totalBytes : h'.totalBytes = (h.totalBytes + size) % 2 ^ 64

lemma refill_of_not_grows {h : Heap} {n : ℕ} (hg : ¬ Grows h n) : SameFrontier h (refill h n) := by
  unfold refill
  by_cases hfull : bumpFull h (wanted n) = true
  · rw [if_pos hfull]
    obtain ⟨vm, heq⟩ := growHeap_of_fails (not_not.mp fun hf => hg ⟨hfull, hf⟩)
    rw [heq]
    exact ⟨rfl, rfl, rfl, rfl⟩
  · rw [if_neg hfull]
    exact ⟨rfl, rfl, rfl, rfl⟩

lemma wanted_need_lt {n : ℕ} (hn : n < 2 ^ 30) : wanted n + headerBytes < 2 ^ 32 := by
  have := (wanted_bounds hn).2.1
  unfold headerBytes
  omega

lemma refill_of_grows {h : Heap} {n : ℕ} (hg : Grows h n) (hn : NoWrap h n)
    (hseek : firstFit h (wanted n) = some none) :
    NewChunk h (refill h n) (growPages (wanted n + headerBytes) * 4096) := by
  have hlim := (hn.2 hseek).2 hg.1
  have hpos := (growPages_bounds (wanted_need_lt hn.1)).2
  unfold refill
  rw [if_pos hg.1]
  obtain ⟨vm, heq⟩ := growHeap_of_not_fails hg.2
  rw [heq, Nat.mod_eq_of_lt hlim, Nat.mod_eq_of_lt (show h.heapVirt + headerBytes <
    2 ^ 64 by omega)]
  exact ⟨hlim, rfl, rfl, rfl, rfl⟩

/-! ## The account -/

def extent (b : Block) : ℕ := headerBytes + b.size

def extents (bs : List Block) : ℕ := (bs.map extent).sum

/-- What is left of the bump region. -/
def Heap.region (h : Heap) : ℕ := h.bumpEnd - h.bump

/-- Of the bytes the heap has grown by, `lost` are neither in a block nor in the bump region nor
the first sixteen of a chunk. -/
structure Balance (l : Ledger) (lost : ℕ) : Prop where
  account : extents l.live + extents l.spare + l.heap.region + headerBytes * l.chunks.length +
    lost = l.heap.totalBytes
  total : l.heap.totalBytes = l.heap.grown

/-- The bytes a call gives up. -/
def loss (l : Ledger) : Call → ℕ
  | .malloc n =>
    match firstFit l.heap (wanted n) with
    | some (some pp) =>
      let size := blockSize l.heap (readLink l.heap pp)
      if wanted n + headerBytes + 16 ≤ size then 0 else size - wanted n
    | some none => if Grows l.heap n then l.heap.region else 0
    | none => 0
  | _ => 0

lemma extents_append (bs cs : List Block) : extents (bs ++ cs) = extents bs + extents cs := by
  simp [extents]

lemma extents_cons (b : Block) (bs : List Block) : extents (b :: bs) = extent b + extents bs := by
  simp [extents]

lemma extents_erase {b : Block} {bs : List Block} (hb : b ∈ bs) : extent b + extents (bs.erase b) =
    extents bs := by
  rw [← extents_cons]
  exact ((List.perm_cons_erase hb).map extent).sum_eq.symm

/-- What remains of a block, cut or not. -/
lemma extents_surplus {b : Block} {want : ℕ} (hfit : want ≤ b.size) :
    extents (surplus b want) + (if want + headerBytes + 16 ≤ b.size then 0 else b.size - want) =
      b.size - want := by
  unfold surplus
  split_ifs
  · simp only [extents, extent, List.map_cons, List.map_nil, List.sum_cons, List.sum_nil]
    omega
  · simp [extents]

/-! ## The calls -/

lemma Balance.same {l : Ledger} {lost : ℕ} (hb : Balance l lost) {h' : Heap}
    (hs : SameFrontier l.heap h') {live spare : List Block} {k : ℕ}
    (hsum : extents live + extents spare + k = extents l.live + extents l.spare) :
    Balance ⟨h', live, spare, l.chunks⟩ (lost + k) := by
  refine ⟨?_, ?_⟩
  · have := hb.account
    unfold Heap.region at this ⊢
    dsimp only
    rw [hs.bump, hs.bumpEnd, hs.totalBytes]
    omega
  · unfold Heap.grown
    rw [hs.totalBytes, hs.heapVirt]
    exact hb.total

/-- Growth moves the account to the new chunk and gives up the old bump region. -/
lemma Balance.refill {l : Ledger} {lost n : ℕ} (hb : Balance l lost) {held free : List Block}
    (hl : Laid l.heap l.live held free l.chunks) (hn : NoWrap l.heap n)
    (hseek : firstFit l.heap (wanted n) = some none) :
    Balance { l with
      heap := refill l.heap n
      chunks := chunksAfter l.heap (refill l.heap n) l.chunks } (lost + loss l (.malloc n)) := by
  have hloss : loss l (.malloc n) = if Grows l.heap n then l.heap.region else 0 := by
    unfold loss
    dsimp only
    rw [hseek]
  rw [hloss]
  by_cases hg : Grows l.heap n
  · rw [if_pos hg]
    have hbase : heapVirtBase ≤ l.heap.heapVirt := hl.arranged.virt_base
    have hpos := (growPages_bounds (wanted_need_lt hn.1)).2
    obtain ⟨hlt, hbump, hend, hvirt, htotal⟩ := refill_of_grows hg hn hseek
    obtain ⟨haccount, hgrown⟩ := hb
    generalize growPages (wanted n + headerBytes) * 4096 = size at *
    have hlen : (chunksAfter l.heap (Tmalloc.refill l.heap n) l.chunks).length =
      l.chunks.length + 1 := by
      unfold chunksAfter
      rw [if_neg (by rw [hvirt]; unfold headerBytes at hpos; omega), List.length_cons]
    unfold Heap.grown Heap.region headerBytes heapVirtBase at *
    refine ⟨?_, ?_⟩
    · dsimp only
      unfold Heap.region headerBytes
      rw [hbump, hend, htotal, hlen]
      omega
    · dsimp only
      unfold Heap.grown heapVirtBase
      rw [htotal, hvirt]
      omega
  · rw [if_neg hg]
    have hs := refill_of_not_grows hg
    rw [show chunksAfter l.heap (Tmalloc.refill l.heap n) l.chunks =
      l.chunks from if_pos hs.heapVirt]
    exact hb.same hs rfl

lemma Balance.carve {l : Ledger} {lost want : ℕ} (hb : Balance l lost)
    (hfit : l.heap.bump + headerBytes + want ≤ l.heap.bumpEnd) (hlt : l.heap.bumpEnd < 2 ^ 64) :
    Balance { l with heap := (carve l.heap want).1, live := ⟨l.heap.bump, want⟩ :: l.live } lost :=
      by
  have hbump : (Tmalloc.carve l.heap want).1.bump = l.heap.bump + headerBytes + want :=
    Nat.mod_eq_of_lt (by omega)
  refine ⟨?_, hb.total⟩
  have := hb.account
  unfold Heap.region at *
  dsimp only
  simp only [hbump, extents_cons, extent]
  change _ + (l.heap.bumpEnd - _) + _ + _ = l.heap.totalBytes
  omega

lemma takeFit_frontier (h : Heap) (pp : Link) (want : ℕ) : SameFrontier h (takeFit h pp want).1 :=
  by
  obtain ⟨c, f, heq⟩ := (onlyBlocks_writeLink h pp (blockMeta h (readLink h pp))).trans
    (onlyBlocks_splitBlock (writeLink h pp (blockMeta h (readLink h pp))) pp (readLink h pp) want)
  unfold takeFit
  dsimp only
  rw [heq]
  exact ⟨rfl, rfl, rfl, rfl⟩

/-- A request gives up what `loss` says. -/
theorem balance_handOut {l : Ledger} {lost n p : ℕ} {h' : Heap} (hi : LedgerInv l)
    (hb : Balance l lost) (hn : NoWrap l.heap n) (hres : tmalloc l.heap n = some (h', p)) :
    Balance (l.handOut h' p (wanted n)) (lost + loss l (.malloc n)) := by
  obtain ⟨free, hperm, hl⟩ := hi
  obtain ⟨h₁, p₁, hres₁, hout⟩ := tmalloc_outcome hl hn
  obtain ⟨rfl, rfl⟩ := Prod.mk.inj (Option.some.inj (hres₁.symm.trans hres))
  cases hout with
  | refused hseek _ _ => exact hb.refill hl hn hseek
  | fitted front b back hfree hfit hseek hread _ hres' hvirt _ =>
    subst hfree
    have hmem : b ∈ l.spare := hperm.mem_iff.mp (by simp)
    have hsize : blockSize l.heap b.addr = b.size := hl.stored.linked.size b (by simp)
    have hloss : loss l (.malloc n) =
        if wanted n + headerBytes + 16 ≤ b.size then 0 else b.size - wanted n := by
      unfold loss
      dsimp only
      rw [hseek]
      dsimp only
      rw [hread, hsize]
    rw [handOut_spare (pairwise_apart_perm hperm hl.apart_free) hmem (hl.addr_ne_zero (by simp)),
      show chunksAfter l.heap h₁ l.chunks = l.chunks from if_pos hvirt, hloss]
    have hs := takeFit_frontier l.heap (lastLink .head front) (wanted n)
    rw [hres'] at hs
    refine hb.same hs ?_
    have herase := extents_erase hmem
    have hsurplus := extents_surplus hfit
    simp only [extents_cons, extents_append, extent] at *
    omega
  | carved hseek hfit hne hlaid =>
    rw [handOut_new hne (hlaid.new_addr hperm), chunksAfter_carve]
    have hl₁ := (refill_laid hl hn hseek).1
    exact (hb.refill hl hn hseek).carve hfit (lt_of_le_of_lt hl₁.arranged.bumpEnd_le
      hl₁.arranged.virt_lt)

lemma tfree_frontier (h : Heap) (p : ℕ) : SameFrontier h (tfree h p) := by
  unfold tfree
  split_ifs <;> exact ⟨rfl, rfl, rfl, rfl⟩

lemma balance_free {l t : Ledger} {lost p : ℕ} (hb : Balance l lost)
    (h : ledgerStep l (.free p) = some t) : Balance t lost := by
  unfold ledgerStep at h
  dsimp only at h
  split_ifs at h
  cases h
  unfold Ledger.release
  cases hf : l.live.find? fun b => b.addr = p with
  | none => exact hb.same (k := 0) (tfree_frontier _ _) rfl
  | some b =>
    refine hb.same (k := 0) (tfree_frontier _ _) ?_
    have herase := extents_erase (List.mem_of_find?_eq_some hf)
    rw [extents_cons]
    omega

theorem balance_step {l t : Ledger} {lost : ℕ} {a : Call} (hi : LedgerInv l) (hb : Balance l lost)
    (h : ledgerStep l a = some t) : Balance t (lost + loss l a) := by
  cases a with
  | malloc n =>
    unfold ledgerStep at h
    dsimp only at h
    split_ifs at h with hn
    obtain ⟨⟨h', p⟩, hres, rfl⟩ := Option.map_eq_some_iff.mp h
    exact balance_handOut hi hb (noWrap_of_grown hi hn) hres
  | free p => exact balance_free hb h
  | store x v =>
    unfold ledgerStep at h
    dsimp only at h
    split_ifs at h
    cases h
    exact ⟨hb.account, hb.total⟩

/-! ## Runs -/

/-- Nothing is given up: a block that is reused has the wanted size or enough to spare for a
block of its own, and the heap grows only once the bump region is used up. -/
def Lossless (l : Ledger) (a : Call) : Prop := loss l a = 0

instance (l : Ledger) (a : Call) : Decidable (Lossless l a) := inferInstanceAs (Decidable (_ = 0))

/-- The bytes of the chunks, less sixteen for each, are in blocks or in the bump region. -/
def Conserved (l : Ledger) : Prop :=
  extents l.live + extents l.spare + l.heap.region =
    l.heap.totalBytes - headerBytes * l.chunks.length

lemma Balance.conserved_iff {l : Ledger} {lost : ℕ} (hb : Balance l lost) : Conserved l ↔
    lost = 0 := by
  have := hb.account
  unfold Conserved
  omega

lemma ledgerInv_step {l t : Ledger} {a : Call} (hi : LedgerInv l) (h : ledgerStep l a =
    some t) : LedgerInv t := by
  cases a with
  | malloc n => exact ledgerInv_malloc hi h
  | free p => exact ledgerInv_free hi h
  | store x v => exact ledgerInv_store hi h

/-- What is given up stays given up, so the account of a run is even only if that of every call is.
-/
theorem balance_run (calls : List Call) :
    ∀ {l t : Ledger} {lost : ℕ}, LedgerInv l → Balance l lost →
    exec ledgerStep l calls = some t →
      ∃ more, Balance t (lost + more) ∧ (more = 0 ↔ exec (guarded ledgerStep Lossless) l calls =
        some t) := by
  induction calls with
  | nil =>
    intro l t lost _ hb h
    cases h
    exact ⟨0, hb, iff_of_true rfl rfl⟩
  | cons a calls ih =>
    intro l t lost hi hb h
    obtain ⟨u, hu, hrest⟩ := (exec_cons_eq_some ledgerStep l t a calls).mp h
    obtain ⟨more, hbal, hiff⟩ := ih (ledgerInv_step hi hu) (balance_step hi hb hu) hrest
    refine ⟨loss l a + more, by rwa [← Nat.add_assoc], ?_⟩
    rw [Nat.add_eq_zero_iff, hiff, exec_cons_eq_some]
    constructor
    · intro ⟨h0, hrun⟩
      exact ⟨u, (guarded_eq_some _ _ _ _ _).mpr ⟨h0, hu⟩, hrun⟩
    · intro ⟨v, hv, hrun⟩
      obtain ⟨h0, hv⟩ := (guarded_eq_some _ _ _ _ _).mp hv
      cases hu.symm.trans hv
      exact ⟨h0, hrun⟩

/-- After a run the capacity of the heap is conserved exactly when no call of it gave
anything up. -/
theorem heap_conserved_iff (vm : Paging) (current : ℕ) (cells : Memory) (calls : List Call)
    (l : Ledger) (hrun : exec ledgerStep (newLedger vm current cells) calls = some l) :
    Conserved l ↔ exec (guarded ledgerStep Lossless) (newLedger vm current cells) calls =
      some l := by
  have hinit : Balance (newLedger vm current cells) 0 := by
    constructor <;> simp [newLedger, emptyHeap, extents, Heap.region, Heap.grown]
  obtain ⟨more, hb, hiff⟩ :=
    balance_run calls ⟨[], .nil, emptyHeap_laid vm current cells⟩ hinit hrun
  rw [hb.conserved_iff, Nat.zero_add]
  exact hiff

/-- A freed block is cut in two and reused. -/
theorem heap_conserved_split :
    ∃ l, exec ledgerStep (newLedger smallMachine 0x1000 (fun _ => 0))
        [.malloc 80, .free 0xFFFFFFFFC0000010, .malloc 40] = some l ∧ Conserved l := by
  have hsome : (exec (guarded ledgerStep Lossless) (newLedger smallMachine 0x1000 (fun _ => 0))
      [.malloc 80, .free 0xFFFFFFFFC0000010, .malloc 40]).isSome = true := by decide +kernel
  obtain ⟨l, hl⟩ := Option.isSome_iff_exists.mp hsome
  have hrun := exec_of_guarded _ hl
  exact ⟨l, hrun, (heap_conserved_iff _ _ _ _ l hrun).mpr hl⟩

/-- A block of 32 bytes is freed and reused for 16: the other 16 are in no block. -/
theorem reuse_loses_bytes :
    ∃ l, exec ledgerStep (newLedger smallMachine 0x1000 (fun _ => 0))
        [.malloc 32, .free 0xFFFFFFFFC0000010, .malloc 16] = some l ∧
      extents l.live + extents l.spare + l.heap.region + 16 =
        l.heap.totalBytes - headerBytes * l.chunks.length := by
  have hrun : (exec ledgerStep (newLedger smallMachine 0x1000 (fun _ => 0))
      [.malloc 32, .free 0xFFFFFFFFC0000010, .malloc 16]).map (fun l =>
        (extents l.live + extents l.spare, l.heap.region, l.heap.totalBytes, l.chunks.length)) =
      some (32, 65472, 65536, 1) := by decide +kernel
  obtain ⟨l, hl, hv⟩ := Option.map_eq_some_iff.mp hrun
  simp only [Prod.mk.injEq] at hv
  obtain ⟨hsum, hregion, htotal, hlen⟩ := hv
  refine ⟨l, hl, ?_⟩
  rw [hsum, hregion, htotal, hlen]
  rfl

end TraitOS.Tmalloc
