import TraitOS.Tmalloc

/-!
# Blocks of the kernel heap

What the allocator's memory means: a list of live blocks, the free blocks in the
order of the free list, and the chunks all of them lie in. `Stored` ties these
lists to the headers in memory, `Arranged` says how the blocks lie. Each change
the allocator makes to memory has one lemma about `Stored`, and the two ways it
cuts memory into blocks have one lemma each about `Arranged`.
-/
namespace TraitOS.Tmalloc
open ByteMemory FreeList MachineWord Tvmm

variable {f : Frontier} {chunks : List Chunk} {b : Block}

/-- The headers in memory say what the lists say. -/
structure Stored (h : Heap) (live free : List Block) : Prop where
  linked : Linked (links h) .head free
  size : ∀ b ∈ live, blockSize h b.addr = b.size
  magic : ∀ b ∈ live, blockMeta h b.addr = mallocMagic

/-- Two memories agree on the header of a block. -/
def SameHeader (h h' : Heap) (b : ℕ) : Prop :=
  ∀ x, b ≤ x → x < b + headerBytes → h'.cells x = h.cells x

lemma SameHeader.blockSize {h h' : Heap} {b : ℕ} (hs : SameHeader h h' b) :
    blockSize h' b = blockSize h b :=
  loadLE_congr (fun x hx hxb => hs x hx (by unfold headerBytes; omega))

lemma SameHeader.blockMeta {h h' : Heap} {b : ℕ} (hs : SameHeader h h' b) :
    blockMeta h' b = blockMeta h b :=
  loadLE_congr (fun x hx hxb => hs x (by omega) (by unfold headerBytes; omega))

theorem Stored.frame {h h' : Heap} {live free : List Block} (hst : Stored h live free)
    (hl : h'.freeList = h.freeList) (hs : ∀ b ∈ live ++ free, SameHeader h h' b.addr) :
    Stored h' live free := by
  have hlive : ∀ b ∈ live, SameHeader h h' b.addr :=
    fun b hb => hs b (List.mem_append_left _ hb)
  have hfree : ∀ b ∈ free, SameHeader h h' b.addr :=
    fun b hb => hs b (List.mem_append_right _ hb)
  exact {
    linked := hst.linked.congr hl (fun b hb => (hfree b hb).blockMeta)
      (fun b hb => (hfree b hb).blockSize)
    size := fun b hb => (hlive b hb).blockSize.trans (hst.size b hb)
    magic := fun b hb => (hlive b hb).blockMeta.trans (hst.magic b hb) }

/-- Headers that do not meet. -/
def HeadersApart (a b : ℕ) : Prop := a + headerBytes ≤ b ∨ b + headerBytes ≤ a

lemma headersApart_of_apart {a b : Block} (h : Apart a b) : HeadersApart a.addr b.addr := by
  unfold Apart Block.stop at h
  unfold HeadersApart
  omega

lemma sameHeader_setSize (h : Heap) {a b : ℕ} (v : ℕ) (hab : HeadersApart a b) :
    SameHeader h (setSize h a v) b := by
  intro x hx hxb
  unfold HeadersApart headerBytes at *
  exact storeLE_of_out h.cells v (by omega)

lemma sameHeader_setMeta (h : Heap) {a b : ℕ} (v : ℕ) (hab : HeadersApart a b) :
    SameHeader h (setMeta h a v) b := by
  intro x hx hxb
  unfold HeadersApart headerBytes at *
  exact storeLE_of_out h.cells v (by omega)

lemma SameHeader.trans {h h' h'' : Heap} {b : ℕ} (hs : SameHeader h h' b)
    (hs' : SameHeader h' h'' b) : SameHeader h h'' b :=
  fun x hx hxb => (hs' x hx hxb).trans (hs x hx hxb)

@[simp] theorem blockSize_setSize (h : Heap) (b : ℕ) {v : ℕ} (hv : v < 2 ^ 64) :
    blockSize (setSize h b v) b = v := load64_store64_self h.cells b hv

@[simp] theorem blockMeta_setMeta (h : Heap) (b : ℕ) {v : ℕ} (hv : v < 2 ^ 64) :
    blockMeta (setMeta h b v) b = v := load64_store64_self h.cells (b + 8) hv

@[simp] theorem blockSize_setMeta (h : Heap) (b v : ℕ) :
    blockSize (setMeta h b v) b = blockSize h b :=
  load64_store64_of_disjoint h.cells v (Or.inl le_rfl)

lemma blockSize_lt (h : Heap) (b : ℕ) : blockSize h b < 2 ^ 64 := load64_lt _ _
lemma blockMeta_lt (h : Heap) (b : ℕ) : blockMeta h b < 2 ^ 64 := load64_lt _ _

/-! ## Writing one link -/

/-- A link that is not in the header at `b`. -/
def OffHeader (b : ℕ) : Link → Prop
  | .head => True
  | .node a => HeadersApart a b

lemma sameHeader_writeLink (h : Heap) {pp : Link} {b : ℕ} (v : ℕ) (hp : OffHeader b pp) :
    SameHeader h (writeLink h pp v) b := by
  cases pp with
  | head => exact fun x _ _ => rfl
  | node a => exact sameHeader_setMeta h v hp

lemma readLink_writeLink (h : Heap) (pp : Link) {v : ℕ} (hv : v < 2 ^ 64) :
    readLink (writeLink h pp v) pp = v := by
  cases pp with
  | head => rfl
  | node a => exact blockMeta_setMeta h a hv

lemma blockSize_writeLink (h : Heap) (pp : Link) (v b : ℕ) (hp : OffHeader b pp ∨ pp = .node b) :
    blockSize (writeLink h pp v) b = blockSize h b := by
  rcases hp with hoff | heq
  · exact (sameHeader_writeLink h v hoff).blockSize
  · rw [heq]
    exact blockSize_setMeta h b v

/-- Links of different blocks of a chain do not share a header. -/
lemma readLink_writeLink_of_ne {bs : List Block} (hap : bs.Pairwise Apart) (h : Heap) {v : ℕ}
    {j k : Link} (hj : j ∈ linksOf .head bs) (hk : k ∈ linksOf .head bs) (hjk : j ≠ k) :
    readLink (writeLink h k v) j = readLink h j := by
  have hnode : ∀ {l : Link}, l ∈ linksOf .head bs → l = .head ∨ ∃ b ∈ bs, l = .node b.addr := by
    intro l hl
    rcases List.mem_cons.mp hl with h0 | h1
    · exact Or.inl h0
    · obtain ⟨b, hb, rfl⟩ := List.mem_map.mp h1
      exact Or.inr ⟨b, hb, rfl⟩
  rcases hnode hj with rfl | ⟨a, ha, rfl⟩
  · rcases hnode hk with rfl | ⟨b, hb, rfl⟩
    · exact absurd rfl hjk
    · rfl
  · rcases hnode hk with rfl | ⟨b, hb, rfl⟩
    · rfl
    · have hab : a ≠ b := fun h => hjk (by rw [h])
      have hba : Apart b a := hap.forall hb ha hab.symm
      exact (sameHeader_setMeta h v (headersApart_of_apart hba)).blockMeta

lemma offHeader_lastLink {front : List Block} {x : Block} (h : ∀ a ∈ front, Apart a x) :
    OffHeader x.addr (lastLink .head front) := by
  rcases List.mem_cons.mp (lastLink_mem_linksOf .head front) with h0 | h1
  · rw [h0]
    trivial
  · obtain ⟨a, ha, heq⟩ := List.mem_map.mp h1
    rw [← heq]
    exact headersApart_of_apart (h a ha)

/-- Let the link behind `front` lead to other blocks. -/
theorem Stored.relink {h : Heap} {live front bs bs' : List Block} {v : ℕ}
    (hst : Stored h live (front ++ bs)) (hap : (live ++ front).Pairwise Apart)
    (hback : Linked (links (writeLink h (lastLink .head front) v)) (lastLink .head front) bs') :
    Stored (writeLink h (lastLink .head front) v) live (front ++ bs') := by
  obtain ⟨_, hfront, hcross⟩ := List.pairwise_append.mp hap
  have hlive : ∀ b ∈ live, SameHeader h (writeLink h (lastLink .head front) v) b.addr :=
    fun b hb => sameHeader_writeLink h v (offHeader_lastLink (fun a ha => (hcross b hb a ha).symm))
  have hlast := lastLink_mem_linksOf .head front
  have hsize : ∀ b ∈ front,
      blockSize (writeLink h (lastLink .head front) v) b.addr = blockSize h b.addr := by
    intro b hb
    apply blockSize_writeLink
    by_cases hl : lastLink .head front = .node b.addr
    · exact Or.inr hl
    · left
      rcases List.mem_cons.mp hlast with h0 | h1
      · rw [h0]
        trivial
      · obtain ⟨a, ha, heq⟩ := List.mem_map.mp h1
        have hab : a ≠ b := fun hab => hl (by rw [← heq, hab])
        rw [← heq]
        exact headersApart_of_apart (hfront.forall ha hb hab)
  exact {
    linked := hst.linked.splice (nodup_linksOf_head hfront)
      (fun j hj hne => readLink_writeLink_of_ne hfront h hj hlast hne) hsize hback
    size := fun b hb => (hlive b hb).blockSize.trans (hst.size b hb)
    magic := fun b hb => (hlive b hb).blockMeta.trans (hst.magic b hb) }

/-- Take a block off the list by letting its predecessor lead past it. -/
theorem Stored.unlink {h : Heap} {live front back : List Block}
    (hst : Stored h live (front ++ b :: back))
    (hap : (live ++ (front ++ b :: back)).Pairwise Apart) :
    Stored (writeLink h (lastLink .head front) (blockMeta h b.addr)) live (front ++ back) := by
  have hsub : (live ++ front).Pairwise Apart :=
    hap.sublist (List.Sublist.append_left (List.sublist_append_left _ _) _)
  have hchain := (List.pairwise_append.mp hap).2.1
  have hcross := (List.pairwise_append.mp hchain).2.2
  apply hst.relink hsub
  have hoff : ∀ x ∈ back, SameHeader h
      (writeLink h (lastLink .head front) (blockMeta h b.addr)) x.addr :=
    fun x hx => sameHeader_writeLink h _
      (offHeader_lastLink (fun a ha => hcross a ha x (List.mem_cons_of_mem _ hx)))
  obtain ⟨_, _, _, htail⟩ := hst.linked.drop
  exact htail.congr (readLink_writeLink h _ (blockMeta_lt h b.addr))
    (fun x hx => (hoff x hx).blockMeta) (fun x hx => (hoff x hx).blockSize)

/-- Put a block whose header is already written behind a front part of the list. -/
theorem Stored.insert {h : Heap} {live front back : List Block}
    (hst : Stored h live (front ++ back)) (hap : (live ++ (front ++ b :: back)).Pairwise Apart)
    (h0 : b.addr ≠ 0) (hlt : b.addr < 2 ^ 64) (hs : blockSize h b.addr = b.size)
    (hm : blockMeta h b.addr = readLink h (lastLink .head front)) :
    Stored (writeLink h (lastLink .head front) b.addr) live (front ++ b :: back) := by
  have hsub : (live ++ front).Pairwise Apart :=
    hap.sublist (List.Sublist.append_left (List.sublist_append_left _ _) _)
  have hchain := (List.pairwise_append.mp hap).2.1
  have hcross := (List.pairwise_append.mp hchain).2.2
  apply hst.relink hsub
  have hoff : ∀ x ∈ b :: back, SameHeader h (writeLink h (lastLink .head front) b.addr) x.addr :=
    fun x hx => sameHeader_writeLink h _ (offHeader_lastLink (fun a ha => hcross a ha x hx))
  have hb := hoff b List.mem_cons_self
  refine ⟨readLink_writeLink h _ hlt, h0, hb.blockSize.trans hs, ?_⟩
  exact hst.linked.drop.congr (hb.blockMeta.trans hm)
    (fun x hx => (hoff x (List.mem_cons_of_mem _ hx)).blockMeta)
    (fun x hx => (hoff x (List.mem_cons_of_mem _ hx)).blockSize)

/-- Hand out a block that is in neither list. -/
theorem Stored.markLive {h : Heap} {live free : List Block} (hst : Stored h live free)
    (hap : ∀ x ∈ live ++ free, Apart b x) (hlt : b.size < 2 ^ 64) :
    Stored (markLive h b.addr b.size) (b :: live) free := by
  have hold : Stored (Tmalloc.markLive h b.addr b.size) live free := by
    apply hst.frame
    · rfl
    intro x hx
    have hx' := headersApart_of_apart (hap x hx)
    exact (sameHeader_setSize h b.size hx').trans (sameHeader_setMeta _ mallocMagic hx')
  have hsize : blockSize (Tmalloc.markLive h b.addr b.size) b.addr = b.size :=
    (blockSize_setMeta (setSize h b.addr b.size) b.addr mallocMagic).trans
      (blockSize_setSize h b.addr hlt)
  have hmagic : blockMeta (Tmalloc.markLive h b.addr b.size) b.addr = mallocMagic :=
    blockMeta_setMeta (setSize h b.addr b.size) b.addr (show mallocMagic < 2 ^ 64 by decide)
  exact {
    linked := hold.linked
    size := List.forall_mem_cons.mpr ⟨hsize, hold.size⟩
    magic := List.forall_mem_cons.mpr ⟨hmagic, hold.magic⟩ }

theorem tfree_of_magic {h : Heap} {b : ℕ} (h0 : b ≠ 0) (hm : blockMeta h b = mallocMagic) :
    tfree h b = { setMeta h b h.freeList with
      usedBytes := (h.usedBytes + 2 ^ 64 - blockSize h b) % 2 ^ 64
      blockCount := decr32 h.blockCount
      freeList := b } := by
  unfold tfree
  rw [if_neg h0, if_neg (not_not_intro hm)]

/-- Push a live block on the list. -/
theorem Stored.release {h : Heap} {front back free : List Block}
    (hst : Stored h (front ++ b :: back) free) (hap : (b :: (front ++ back ++ free)).Pairwise Apart)
    (h0 : b.addr ≠ 0) (hhead : h.freeList < 2 ^ 64) :
    Stored (tfree h b.addr) (front ++ back) (b :: free) := by
  have hb : b ∈ front ++ b :: back := by simp
  have hsub : ∀ x ∈ front ++ back, x ∈ front ++ b :: back := by
    intro x hx
    rcases List.mem_append.mp hx with hf | hr
    · exact List.mem_append_left _ hf
    · exact List.mem_append_right _ (List.mem_cons_of_mem _ hr)
  have hoff : ∀ x ∈ front ++ back ++ free, SameHeader h (tfree h b.addr) x.addr := by
    intro x hx
    rw [tfree_of_magic h0 (hst.magic b hb)]
    exact sameHeader_setMeta h h.freeList
      (headersApart_of_apart ((List.pairwise_cons.mp hap).1 x hx))
  have hlive : ∀ x ∈ front ++ back, SameHeader h (tfree h b.addr) x.addr :=
    fun x hx => hoff x (List.mem_append_left _ hx)
  have hfree : ∀ x ∈ free, SameHeader h (tfree h b.addr) x.addr :=
    fun x hx => hoff x (List.mem_append_right _ hx)
  have hlink : blockMeta (tfree h b.addr) b.addr = h.freeList := by
    rw [tfree_of_magic h0 (hst.magic b hb)]
    exact blockMeta_setMeta h b.addr hhead
  have hsize : blockSize (tfree h b.addr) b.addr = b.size := by
    rw [tfree_of_magic h0 (hst.magic b hb)]
    exact (blockSize_setMeta h b.addr h.freeList).trans (hst.size b hb)
  have hhead' : (tfree h b.addr).freeList = b.addr := by
    rw [tfree_of_magic h0 (hst.magic b hb)]
  exact {
    linked := ⟨hhead', h0, hsize, hst.linked.congr hlink (fun x hx => (hfree x hx).blockMeta)
      (fun x hx => (hfree x hx).blockSize)⟩
    size := fun x hx => (hlive x hx).blockSize.trans (hst.size x (hsub x hx))
    magic := fun x hx => (hlive x hx).blockMeta.trans (hst.magic x (hsub x hx)) }

/-! ## How blocks lie -/

/-- The part of the allocator's state that is not in headers: the bump region and
the end of the mapped heap. -/
structure Frontier where
  bump : ℕ
  bumpEnd : ℕ
  heapVirt : ℕ

def frontier (h : Heap) : Frontier := ⟨h.bump, h.bumpEnd, h.heapVirt⟩

/-- An address range a growth has mapped. -/
structure Chunk where
  start : ℕ
  stop : ℕ
deriving DecidableEq, Repr

structure Placed (chunks : List Chunk) (b : Block) : Prop where
  aligned : b.addr % headerBytes = 0
  size_aligned : b.size % headerBytes = 0
  size_pos : headerBytes ≤ b.size
  inside : ∃ c ∈ chunks, c.start ≤ b.addr ∧ b.stop ≤ c.stop

structure Arranged (f : Frontier) (blocks : List Block) (chunks : List Chunk) : Prop where
  apart : blocks.Pairwise Apart
  placed : ∀ b ∈ blocks, Placed chunks b
  offBump : ∀ b ∈ blocks, b.stop ≤ f.bump ∨ f.bumpEnd ≤ b.addr
  chunk : ∀ c ∈ chunks, heapVirtBase ≤ c.start ∧ c.stop ≤ f.heapVirt
  bump_le : f.bump ≤ f.bumpEnd
  bump_aligned : f.bump % headerBytes = 0
  bump_inside : f.bump = f.bumpEnd ∨ ∃ c ∈ chunks, c.start ≤ f.bump ∧ f.bumpEnd ≤ c.stop
  bumpEnd_le : f.bumpEnd ≤ f.heapVirt
  virt_aligned : f.heapVirt % 4096 = 0
  virt_base : heapVirtBase ≤ f.heapVirt
  virt_lt : f.heapVirt < 2 ^ 64

theorem Arranged.bounds {blocks : List Block} (ha : Arranged f blocks chunks) (hb : b ∈ blocks) :
    heapVirtBase ≤ b.addr ∧ b.stop ≤ f.heapVirt := by
  obtain ⟨c, hc, h1, h2⟩ := (ha.placed b hb).inside
  have h3 := ha.chunk c hc
  omega

theorem Arranged.perm {blocks blocks' : List Block} (ha : Arranged f blocks chunks)
    (hp : blocks.Perm blocks') : Arranged f blocks' chunks :=
  { ha with
    apart := pairwise_apart_perm hp ha.apart
    placed := fun b hb => ha.placed b (hp.mem_iff.mpr hb)
    offBump := fun b hb => ha.offBump b (hp.mem_iff.mpr hb) }

/-- Cut a block into blocks that lie within it. -/
theorem Arranged.cut {bs parts : List Block} (ha : Arranged f (b :: bs) chunks)
    (hap : parts.Pairwise Apart)
    (hal : ∀ x ∈ parts, x.addr % headerBytes = 0 ∧ x.size % headerBytes = 0 ∧ headerBytes ≤ x.size)
    (hin : ∀ x ∈ parts, b.addr ≤ x.addr ∧ x.stop ≤ b.stop) : Arranged f (parts ++ bs) chunks := by
  obtain ⟨hbb, hbs⟩ := List.pairwise_cons.mp ha.apart
  have hplaced := List.forall_mem_cons.mp ha.placed
  have hoff := List.forall_mem_cons.mp ha.offBump
  obtain ⟨c, hc, hlo, hhi⟩ := hplaced.1.inside
  exact { ha with
    apart := List.pairwise_append.mpr ⟨hap, hbs, fun x hx y hy =>
      (hbb y hy).mono (hin x hx).1 (hin x hx).2⟩
    placed := List.forall_mem_append.mpr ⟨fun x hx =>
      ⟨(hal x hx).1, (hal x hx).2.1, (hal x hx).2.2, c, hc,
        hlo.trans (hin x hx).1, (hin x hx).2.trans hhi⟩, hplaced.2⟩
    offBump := List.forall_mem_append.mpr ⟨fun x hx => by
      have := hin x hx
      have := hoff.1
      omega, hoff.2⟩ }

/-- Cut a block off the start of the bump region. -/
theorem Arranged.carve {bs : List Block} {want : ℕ} (ha : Arranged f bs chunks)
    (hw : want % headerBytes = 0) (hpos : headerBytes ≤ want)
    (hfit : f.bump + headerBytes + want ≤ f.bumpEnd) :
    Arranged { f with bump := f.bump + headerBytes + want } (⟨f.bump, want⟩ :: bs) chunks := by
  have h16 : headerBytes = 16 := rfl
  have hbal := ha.bump_aligned
  have hin : ∃ c ∈ chunks, c.start ≤ f.bump ∧ f.bumpEnd ≤ c.stop := by
    rcases ha.bump_inside with heq | hin
    · omega
    · exact hin
  obtain ⟨c, hc, hlo, hhi⟩ := hin
  exact { ha with
    apart := List.pairwise_cons.mpr ⟨fun x hx => by
      have := ha.offBump x hx
      unfold Apart
      simp only [Block.stop] at *
      omega, ha.apart⟩
    placed := List.forall_mem_cons.mpr
      ⟨⟨hbal, hw, hpos, c, hc, hlo, by simp only [Block.stop]; omega⟩, ha.placed⟩
    offBump := List.forall_mem_cons.mpr ⟨Or.inl le_rfl, fun x hx => by
      have := ha.offBump x hx
      dsimp only
      omega⟩
    bump_le := hfit
    bump_aligned := by
      dsimp only
      unfold headerBytes at *
      omega
    bump_inside := Or.inr ⟨c, hc, by dsimp only; omega, hhi⟩ }

/-- A new chunk behind the heap; what was left of the bump region is given up. -/
theorem Arranged.grow {bs : List Block} {pages : ℕ} (ha : Arranged f bs chunks) (hpos : 0 < pages)
    (hlt : f.heapVirt + pages * 4096 < 2 ^ 64) :
    Arranged ⟨f.heapVirt + headerBytes, f.heapVirt + pages * 4096, f.heapVirt + pages * 4096⟩ bs
      (⟨f.heapVirt, f.heapVirt + pages * 4096⟩ :: chunks) := by
  have h16 : headerBytes = 16 := rfl
  have hval := ha.virt_aligned
  exact {
    apart := ha.apart
    placed := fun b hb => { ha.placed b hb with
      inside := by
        obtain ⟨c, hc, hcb⟩ := (ha.placed b hb).inside
        exact ⟨c, List.mem_cons_of_mem _ hc, hcb⟩ }
    offBump := fun b hb => by
      have := (ha.bounds hb).2
      dsimp only
      omega
    chunk := List.forall_mem_cons.mpr ⟨⟨ha.virt_base, le_rfl⟩, fun c hc => by
      have := ha.chunk c hc
      dsimp only
      omega⟩
    bump_le := by dsimp only; omega
    bump_aligned := by
      dsimp only
      unfold headerBytes at *
      omega
    bump_inside := Or.inr ⟨_, List.mem_cons_self, by dsimp only; omega, le_rfl⟩
    bumpEnd_le := le_rfl
    virt_aligned := by dsimp only; omega
    virt_base := ha.virt_base.trans (Nat.le_add_right _ _)
    virt_lt := hlt }

end TraitOS.Tmalloc
