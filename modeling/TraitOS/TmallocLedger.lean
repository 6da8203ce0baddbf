import TraitOS.TmallocIsolation

/-!
# The ledger of the kernel heap

Beside the heap stands a ledger that knows only the calls and the pointers they return:
which blocks are live, and which were freed or split off and not handed out since. In
every run in which no header is written by a client, the headers, the free list and the
counters say what the ledger says.
-/
namespace TraitOS.Tmalloc
open ByteMemory FreeList Runs Tvmm

variable {h : Heap} {l : Ledger} {live free : List Block} {chunks : List Chunk}

structure Ledger where
  heap : Heap
  live : List Block
  spare : List Block
  chunks : List Chunk

/-- The bytes the heap has grown by so far. -/
def Heap.grown (h : Heap) : ℕ := h.heapVirt - heapVirtBase

/-- A pointer was handed out for a block of `want` bytes: a spare block, whose surplus stays
spare, or new memory. -/
def Ledger.handOut (l : Ledger) (heap : Heap) (p want : ℕ) : Ledger :=
  let chunks := chunksAfter l.heap heap l.chunks
  if p = 0 then { l with heap := heap, chunks := chunks }
  else
    match l.spare.find? fun b => b.addr = p with
    | some b => ⟨heap, ⟨p, want⟩ :: l.live, surplus b want ++ l.spare.erase b, chunks⟩
    | none => ⟨heap, ⟨p, want⟩ :: l.live, l.spare, chunks⟩

def Ledger.release (l : Ledger) (heap : Heap) (p : ℕ) : Ledger :=
  match l.live.find? fun b => b.addr = p with
  | some b => { l with heap := heap, live := l.live.erase b, spare := b :: l.spare }
  | none => { l with heap := heap }

/-- Requests stay within the first half of the heap's window; `tfree` gets a null pointer, a
live pointer or one that is spare; stores go anywhere but to a header. -/
def ledgerStep (l : Ledger) : Call → Option Ledger
  | .malloc n =>
    if l.heap.grown + n < 2 ^ 29 then
      (tmalloc l.heap n).map fun r => l.handOut r.1 r.2 (wanted n)
    else none
  | .free p =>
    if p = 0 ∨ p ∈ l.live.map Block.addr ∨ p ∈ l.spare.map Block.addr then some
      (l.release (tfree l.heap p) p)
    else none
  | .store x v =>
    if ∀ b ∈ l.live ++ l.spare, x < b.addr ∨ b.addr + headerBytes ≤ x then
      some { l with heap := { l.heap with cells := Function.update l.heap.cells x v } }
    else none

def newLedger (vm : Paging) (current : ℕ) (cells : Memory) : Ledger :=
  ⟨emptyHeap vm current cells, [], [], []⟩

/-- The heap is laid out as the ledger says; the free list has the spare blocks in some
order. -/
def LedgerInv (l : Ledger) : Prop := ∃ free, free.Perm l.spare ∧ Laid l.heap l.live [] free l.chunks

lemma hasRoom_of_grown {live held free : List Block} {n : ℕ} (hl : Laid h live held free chunks)
    (hn : h.grown + n < 2 ^ 29) : HasRoom h n := by
  intro _
  have hbase := hl.arranged.virt_base
  obtain ⟨_, hwant, _⟩ := wanted_bounds (show n < 2 ^ 30 by omega)
  unfold Heap.grown at hn
  unfold growPages headerBytes
  change heapVirtBase ≤ h.heapVirt at hbase
  unfold heapVirtBase at hn hbase
  split_ifs <;> omega

/-! ## Looking up a block by its address -/

lemma eq_of_addr {bs : List Block} (hap : bs.Pairwise Apart) {a b : Block} (ha : a ∈ bs)
    (hb : b ∈ bs) (h : a.addr = b.addr) : a = b := by
  by_contra hne
  exact (hap.forall ha hb hne).addr_ne h

lemma find_addr {bs : List Block} (hap : bs.Pairwise Apart) {b : Block} (hb : b ∈ bs) :
    (bs.find? fun a => a.addr = b.addr) = some b := by
  cases hf : bs.find? fun a => a.addr = b.addr with
  | none => exact absurd (List.find?_eq_none.mp hf b hb) (by simp)
  | some a =>
    have haddr : a.addr = b.addr := by simpa using List.find?_some hf
    rw [eq_of_addr hap (List.mem_of_find?_eq_some hf) hb haddr]

lemma find_addr_none {bs : List Block} {p : ℕ} (h : ∀ b ∈ bs, b.addr ≠ p) :
    (bs.find? fun a => a.addr = p) = none :=
  List.find?_eq_none.mpr fun b hb => by simpa using h b hb

lemma Laid.apart (hl : Laid h live [] free chunks) : (live ++ free).Pairwise Apart := by
  have := hl.arranged.apart
  rwa [List.append_nil] at this

lemma Laid.apart_free (hl : Laid h live [] free chunks) :
    free.Pairwise Apart := (List.pairwise_append.mp hl.apart).2.1

lemma Laid.apart_live (hl : Laid h live [] free chunks) :
    live.Pairwise Apart := (List.pairwise_append.mp hl.apart).1

/-! ## The steps -/

lemma handOut_spare {b : Block} (hap : l.spare.Pairwise Apart) (hb : b ∈ l.spare) (h0 : b.addr ≠ 0)
    (heap : Heap) (want : ℕ) :
    l.handOut heap b.addr want = ⟨heap, ⟨b.addr, want⟩ :: l.live, surplus b want ++ l.spare.erase b,
      chunksAfter l.heap heap l.chunks⟩ := by
  simp only [Ledger.handOut, if_neg h0, find_addr hap hb]

lemma handOut_new {p : ℕ} (h0 : p ≠ 0) (hnew : ∀ b ∈ l.spare, b.addr ≠ p) (heap : Heap) (want : ℕ) :
    l.handOut heap p want =
      ⟨heap, ⟨p, want⟩ :: l.live, l.spare, chunksAfter l.heap heap l.chunks⟩ := by
  simp only [Ledger.handOut, if_neg h0, find_addr_none hnew]

/-- New memory is not the memory of a spare block. -/
lemma Laid.new_addr {live free spare : List Block} {b : Block}
    (hl : Laid h (b :: live) [] free chunks) (hperm : free.Perm spare) :
    ∀ a ∈ spare, a.addr ≠ b.addr :=
  fun a ha heq => ((List.pairwise_append.mp hl.apart).2.2 b List.mem_cons_self a
    (hperm.mem_iff.mpr ha)).addr_ne heq.symm

/-- A request keeps the ledger right. -/
theorem ledgerInv_handOut {n p : ℕ} {h' : Heap} (hi : LedgerInv l) (hn : NoWrap l.heap n)
    (hres : tmalloc l.heap n = some (h', p)) : LedgerInv (l.handOut h' p (wanted n)) := by
  obtain ⟨free, hperm, hl⟩ := hi
  obtain ⟨h₁, p₁, hres₁, hout⟩ := tmalloc_cases hl hn
  cases hres₁.symm.trans hres
  rcases hout with ⟨rfl, hlaid⟩ | ⟨front, b, back, rfl, rfl, hlaid⟩ | ⟨hp, hlaid⟩
  · exact ⟨free, hperm, by simpa only [Ledger.handOut, if_pos] using hlaid⟩
  · have hb : b ∈ l.spare := hperm.mem_iff.mp (by simp)
    rw [handOut_spare (pairwise_apart_perm hperm hl.apart_free) hb (hl.addr_ne_zero (by simp))]
    refine ⟨_, ?_, hlaid⟩
    -- the rest of the free list is the rest of the spare blocks
    have hrest : (front ++ back).Perm (l.spare.erase b) := by
      have := (List.perm_middle.symm.trans hperm).erase b
      rwa [List.erase_cons_head] at this
    exact (List.perm_append_comm_assoc _ _ _).trans (hrest.append_left _)
  · rw [handOut_new hp (hlaid.new_addr hperm)]
    exact ⟨free, hperm, hlaid⟩

lemma noWrap_of_grown (hi : LedgerInv l) {n : ℕ} (hn : l.heap.grown + n < 2 ^ 29) :
    NoWrap l.heap n := by
  obtain ⟨_, _, hl⟩ := hi
  exact (hasRoom_of_grown hl hn).noWrap hl (by omega)

theorem ledgerInv_malloc {l t : Ledger} {n : ℕ} (hi : LedgerInv l)
    (h : ledgerStep l (.malloc n) = some t) : LedgerInv t := by
  unfold ledgerStep at h
  dsimp only at h
  split_ifs at h with hn
  obtain ⟨⟨h', p⟩, hres, rfl⟩ := Option.map_eq_some_iff.mp h
  exact ledgerInv_handOut hi (noWrap_of_grown hi hn) hres

lemma Laid.meta_ne_magic (hl : Laid h live [] free chunks) {b : Block} (hb : b ∈ free) :
    blockMeta h b.addr ≠ mallocMagic := by
  obtain ⟨front, back, rfl⟩ := List.append_of_mem hb
  have hnext := hl.stored.linked.drop.2.2.2
  rcases hnext.next_cases with h0 | ⟨a, ha, hlink⟩
  · change blockMeta h b.addr = 0 at h0
    rw [h0]
    decide
  · change blockMeta h b.addr = a.addr at hlink
    have hlo := (hl.arranged.bounds (b := a) (by simp [ha])).1
    unfold heapVirtBase at hlo
    unfold mallocMagic
    omega

/-- Freeing what is free already changes nothing. -/
lemma Laid.tfree_again (hl : Laid h live [] free chunks) {p : ℕ}
    (hp : p = 0 ∨ p ∈ free.map Block.addr) : tfree h p = h := by
  unfold tfree
  by_cases h0 : p = 0
  · rw [if_pos h0]
  · rw [if_neg h0]
    obtain ⟨b, hb, rfl⟩ := List.mem_map.mp (hp.resolve_left h0)
    rw [if_pos (hl.meta_ne_magic hb)]

theorem ledgerInv_free {l t : Ledger} {p : ℕ} (hi : LedgerInv l)
    (h : ledgerStep l (.free p) = some t) : LedgerInv t := by
  obtain ⟨free, hperm, hl⟩ := hi
  by_cases hp : p = 0 ∨ p ∈ l.live.map Block.addr ∨ p ∈ l.spare.map Block.addr
  · simp only [ledgerStep, if_pos hp, Option.some.injEq] at h
    subst h
    by_cases hlive : p ∈ l.live.map Block.addr
    · obtain ⟨b, hb, rfl⟩ := List.mem_map.mp hlive
      obtain ⟨front, back, -, hsplit, herase⟩ := List.exists_erase_eq hb
      simp only [Ledger.release, find_addr hl.apart_live hb, herase]
      rw [hsplit] at hl
      exact ⟨b :: free, hperm.cons b, tfree_laid hl⟩
    · have hnone := find_addr_none fun b hb heq => hlive (List.mem_map.mpr ⟨b, hb, heq⟩)
      have hagain :=
        hl.tfree_again (hp.imp_right fun h =>
          (hperm.map Block.addr).mem_iff.mpr (h.resolve_left hlive))
      simp only [Ledger.release, hnone, hagain]
      exact ⟨free, hperm, hl⟩
  · simp only [ledgerStep, if_neg hp] at h
    exact nomatch h

theorem ledgerInv_store {l t : Ledger} {x : ℕ} {v : UInt8} (hi : LedgerInv l)
    (h : ledgerStep l (.store x v) = some t) : LedgerInv t := by
  obtain ⟨free, hperm, hl⟩ := hi
  by_cases hx : ∀ b ∈ l.live ++ l.spare, x < b.addr ∨ b.addr + headerBytes ≤ x
  · simp only [ledgerStep, if_pos hx, Option.some.injEq] at h
    subst h
    have hsame : ∀ b ∈ l.live ++ free,
        SameHeader l.heap { l.heap with cells := Function.update l.heap.cells x v } b.addr := by
      intro b hb y hlo hhi
      have hoff := hx b ((hperm.append_left l.live).mem_iff.mp hb)
      have hne : y ≠ x := by omega
      exact Function.update_of_ne hne v l.heap.cells
    exact ⟨free, hperm, hl.stored.frame rfl hsame, hl.arranged, hl.count, hl.used⟩
  · simp only [ledgerStep, if_neg hx] at h
    exact nomatch h

theorem ledgerInv_run (vm : Paging) (current : ℕ) (cells : Memory) {calls : List Call}
    (hrun : exec ledgerStep (newLedger vm current cells) calls = some l) : LedgerInv l := by
  refine exec_invariant (I := LedgerInv) ?_ calls ⟨[], .nil, emptyHeap_laid vm current cells⟩ hrun
  intro s a t hs hstep
  cases a with
  | malloc n => exact ledgerInv_malloc hs hstep
  | free p => exact ledgerInv_free hs hstep
  | store x v => exact ledgerInv_store hs hstep

/-! ## What the ledger says -/

/-- The metadata of the heap agree with the ledger. -/
structure Metadata (l : Ledger) : Prop where
  apart : (l.live ++ l.spare).Pairwise Apart
  offBump : ∀ b ∈ l.live ++ l.spare, b.stop ≤ l.heap.bump ∨ l.heap.bumpEnd ≤ b.addr
  aligned : (∀ b ∈ l.live ++ l.spare, b.addr % 16 = 0 ∧ b.size % 16 = 0) ∧ l.heap.bump % 16 = 0
  inside : ∀ b ∈ l.live ++ l.spare, ∃ c ∈ l.chunks, c.start ≤ b.addr ∧ b.stop ≤ c.stop
  bump_inside : l.heap.bump = l.heap.bumpEnd ∨
    ∃ c ∈ l.chunks, c.start ≤ l.heap.bump ∧ l.heap.bump ≤ l.heap.bumpEnd ∧ l.heap.bumpEnd ≤ c.stop
  sizes : ∀ b ∈ l.live ++ l.spare, blockSize l.heap b.addr = b.size
  freeList : ∃ free, free.Perm l.spare ∧ (free.map Block.addr).Nodup ∧
    Linked (links l.heap) .head free
  used : l.heap.usedBytes = (l.live.map Block.size).sum
  count : l.heap.blockCount = l.live.length
  again : ∀ p, p = 0 ∨ p ∈ l.spare.map Block.addr → tfree l.heap p = l.heap

lemma Laid.sum_lt (hl : Laid h live [] free chunks) : (live.map Block.size).sum < 2 ^ 64 := by
  have hsize : ∀ s ∈ live.map Block.size, s ≤ 2 ^ 30 := by
    intro s hs
    obtain ⟨b, hb, rfl⟩ := List.mem_map.mp hs
    obtain ⟨hlo, hhi⟩ := hl.arranged.bounds (b := b) (by simp [hb])
    have hvirt := hl.arranged.virt_lt
    unfold heapVirtBase Block.stop at *
    omega
  have hlen := hl.live_lt
  rw [List.append_nil] at hlen
  have hsum := List.sum_le_card_nsmul _ _ hsize
  rw [List.length_map, smul_eq_mul] at hsum
  omega

lemma LedgerInv.metadata (hi : LedgerInv l) : Metadata l := by
  obtain ⟨free, hperm, hl⟩ := hi
  have hall : (l.live ++ free).Perm (l.live ++ l.spare) := hperm.append_left l.live
  have harr := hl.arranged
  rw [List.append_nil] at harr
  have harr' := harr.perm hall
  exact {
    apart := harr'.apart
    offBump := harr'.offBump
    aligned := ⟨fun b hb => ⟨(harr'.placed b hb).aligned, (harr'.placed b hb).size_aligned⟩,
      harr'.bump_aligned⟩
    inside := fun b hb => (harr'.placed b hb).inside
    bump_inside := harr'.bump_inside.imp_right fun ⟨c, hc, hlo, hhi⟩ =>
      ⟨c, hc, hlo, harr'.bump_le, hhi⟩
    sizes := fun b hb => by
      rcases List.mem_append.mp hb with hlive | hspare
      · exact hl.stored.size b hlive
      · exact hl.stored.linked.size b (hperm.mem_iff.mpr hspare)
    freeList := ⟨free, hperm, nodup_addr_of_apart hl.apart_free, hl.stored.linked⟩
    used := by
      have hused := hl.used
      rwa [List.append_nil, Nat.mod_eq_of_lt hl.sum_lt] at hused
    count := by
      have hcount := hl.count
      rwa [List.append_nil] at hcount
    again := fun p hp => hl.tfree_again (hp.imp_right (hperm.map Block.addr).mem_iff.mpr) }

/-- In every run from the empty heap the metadata agree with the ledger, and the next
request returns. -/
theorem heap_metadata (vm : Paging) (current : ℕ) (cells : Memory) (calls : List Call) (l : Ledger)
    (hrun : exec ledgerStep (newLedger vm current cells) calls = some l) :
    Metadata l ∧ ∀ n, l.heap.grown + n < 2 ^ 29 → (tmalloc l.heap n).isSome = true := by
  have hi := ledgerInv_run vm current cells hrun
  refine ⟨hi.metadata, fun n hn => ?_⟩
  obtain ⟨free, -, hl⟩ := hi
  obtain ⟨h', p, hres, -⟩ := tmalloc_cases hl ((hasRoom_of_grown hl hn).noWrap hl (by omega))
  rw [hres]
  rfl

/-- A block of 80 bytes is freed twice and half of it handed out again. -/
theorem heap_metadata_split :
    ∃ l, exec ledgerStep (newLedger smallMachine 0x1000 (fun _ => 0))
        [.malloc 80, .store 0xFFFFFFFFC0000024 7, .free 0xFFFFFFFFC0000010,
          .free 0xFFFFFFFFC0000010, .malloc 40] = some l ∧
      l.live = [⟨0xFFFFFFFFC0000010, 48⟩] ∧ l.spare = [⟨0xFFFFFFFFC0000050, 16⟩] ∧ Metadata l := by
  have hlists : (exec ledgerStep (newLedger smallMachine 0x1000 (fun _ => 0))
      [.malloc 80, .store 0xFFFFFFFFC0000024 7, .free 0xFFFFFFFFC0000010, .free 0xFFFFFFFFC0000010,
        .malloc 40]).map (fun l => (l.live, l.spare)) =
      some ([⟨0xFFFFFFFFC0000010, 48⟩], [⟨0xFFFFFFFFC0000050, 16⟩]) := by decide +kernel
  obtain ⟨l, hl, hv⟩ := Option.map_eq_some_iff.mp hlists
  obtain ⟨hlive, hspare⟩ := Prod.mk.inj hv
  exact ⟨l, hl, hlive, hspare, (heap_metadata _ _ _ _ l hl).1⟩

end TraitOS.Tmalloc
