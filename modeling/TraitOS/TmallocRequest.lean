import TraitOS.TmallocCapacity

/-!
# What a request returns

A request of the heap adds the header to its size, rounds it and compares the end of its block
with the end of the chunk, all in 64 bits and 1 GiB below the top of the address space. While no
sum wraps, the block handed out has the bytes asked for inside one chunk; a block handed out after
a sum has wrapped never has.
-/
namespace TraitOS.Tmalloc
open ByteMemory FreeList Runs Tvmm

variable {live held free : List Block} {chunks : List Chunk}

/-- The calls of the ledger with requests of any size. -/
def heapStep (l : Ledger) : Call → Option Ledger
  | .malloc n => (tmalloc l.heap n).map fun r => l.handOut r.1 r.2 (wanted n)
  | .free p => ledgerStep l (.free p)
  | .store x v => ledgerStep l (.store x v)

def NoWrapCall (l : Ledger) : Call → Prop
  | .malloc n => NoWrap l.heap n
  | _ => True

instance (l : Ledger) (a : Call) : Decidable (NoWrapCall l a) :=
  match a with
  | .malloc n => inferInstanceAs (Decidable (NoWrap l.heap n))
  | .free _ => inferInstanceAs (Decidable True)
  | .store _ _ => inferInstanceAs (Decidable True)

/-- The bytes `[p, p + n)` lie in one chunk, and the bump region after the call in one as well. -/
def BigEnough (chunks : List Chunk) (h' : Heap) (p n : ℕ) : Prop :=
  (∃ c ∈ chunks, c.start ≤ p ∧ p + n ≤ c.stop) ∧
    ∃ c ∈ chunks, c.start ≤ h'.bump ∧ h'.bump ≤ h'.bumpEnd ∧ h'.bumpEnd ≤ c.stop

/-! ## The chunk of the bump region -/

/-- Once the heap has grown, the bump region lies in a chunk, also when it is used up. -/
def BumpHome (h : Heap) (chunks : List Chunk) : Prop :=
  chunks = [] ∨ ∃ c ∈ chunks, c.start ≤ h.bump ∧ h.bumpEnd ≤ c.stop

lemma BumpHome.same {h h' : Heap} (hb : BumpHome h chunks) (hs : SameFrontier h h') :
    BumpHome h' (chunksAfter h h' chunks) := by
  rw [show chunksAfter h h' chunks = chunks from if_pos hs.heapVirt, BumpHome, hs.bump, hs.bumpEnd]
  exact hb

lemma BumpHome.refill {h : Heap} {n : ℕ} (hb : BumpHome h chunks) (hn : NoWrap h n)
    (hseek : firstFit h (wanted n) = some none) :
    BumpHome (refill h n) (chunksAfter h (refill h n) chunks) := by
  by_cases hg : Grows h n
  · obtain ⟨_, hbump, hend, hvirt, _⟩ := refill_of_grows hg hn hseek
    have hpos := (growPages_bounds (wanted_need_lt hn.1)).1
    rw [chunksAfter, if_neg (by omega)]
    refine Or.inr ⟨_, List.mem_cons_self, ?_, ?_⟩
    · dsimp only
      omega
    · dsimp only
      omega
  · exact hb.same (refill_of_not_grows hg)

lemma BumpHome.carve {h : Heap} {want : ℕ} (hb : BumpHome h chunks)
    (hfit : h.bump + headerBytes + want ≤ h.bumpEnd) (hlt : h.bumpEnd < 2 ^ 64) :
    BumpHome (carve h want).1 chunks := by
  have hbump : (Tmalloc.carve h want).1.bump = h.bump + headerBytes + want :=
    Nat.mod_eq_of_lt (by omega)
  refine hb.imp id fun ⟨c, hc, hstart, hstop⟩ => ⟨c, hc, ?_, hstop⟩
  rw [hbump]
  omega

lemma BumpHome.handOut {l : Ledger} {free : List Block} {n p : ℕ} {h' : Heap}
    (hb : BumpHome l.heap l.chunks) (hl : Laid l.heap l.live [] free l.chunks)
    (hn : NoWrap l.heap n) (hout : Outcome l.heap n l.live [] free l.chunks h' p) :
    BumpHome h' (chunksAfter l.heap h' l.chunks) := by
  cases hout with
  | refused hseek _ _ => exact hb.refill hn hseek
  | fitted front _ _ _ _ _ _ _ hres _ _ =>
    have hs := takeFit_frontier l.heap (lastLink .head front) (wanted n)
    rw [hres] at hs
    exact hb.same hs
  | carved hseek hfit _ hlaid =>
    rw [chunksAfter_carve]
    have hl₁ := (refill_laid hl hn hseek).1
    exact (hb.refill hn hseek).carve hfit (lt_of_le_of_lt hl₁.arranged.bumpEnd_le
      hl₁.arranged.virt_lt)

/-! ## Requests that wrap -/

/-- A block of the heap is smaller than 1 GiB. -/
lemma Laid.size_lt {h : Heap} (hl : Laid h live held free chunks) {b : Block} (hb : b ∈ free) :
    heapVirtBase ≤ b.addr ∧ b.size < 2 ^ 30 := by
  obtain ⟨hlo, hhi⟩ := hl.arranged.bounds (b := b) (by simp [hb])
  have hlt := hl.arranged.virt_lt
  unfold Block.stop at hhi
  unfold heapVirtBase at *
  omega

lemma wanted_of_wrap {n : ℕ} (hn : 2 ^ 30 ≤ n) (hw : wanted n < 2 ^ 30) : 2 ^ 64 ≤ n + 15 := by
  unfold wanted align16 at hw
  split_ifs at hw <;> omega

/-- The comparison that decides on growth passes when its sum wraps. -/
lemma bumpFull_of_wrap {h : Heap} {want : ℕ} (hle : h.bump ≤ h.bumpEnd)
    (hwrap : 2 ^ 64 ≤ h.bump + want + headerBytes) (hwant : want + headerBytes ≤ 2 ^ 64)
    (hlt : h.bumpEnd < 2 ^ 64) : bumpFull h want = false := by
  unfold bumpFull
  rw [decide_eq_false_iff_not]
  omega

/-- A block cut from the bump region, the old one or that of a new chunk. -/
lemma tmalloc_noFit_cases {h h' : Heap} {n p : ℕ} (hseek : firstFit h (wanted n) = some none)
    (hres : tmalloc h n = some (h', p)) (hp : p ≠ 0) :
    (bumpFull h (wanted n) = false ∧ p = h.bump ∧ h'.heapVirt = h.heapVirt) ∨
      (bumpFull h (wanted n) = true ∧ p = (h.heapVirt + headerBytes) % 2 ^ 64 ∧
        h'.heapVirt =
          (h.heapVirt + growPages ((wanted n + headerBytes) % 2 ^ 64) * 4096) % 2 ^ 64) := by
  unfold tmalloc at hres
  dsimp only at hres
  rw [hseek] at hres
  dsimp only at hres
  by_cases hfull : bumpFull h (wanted n) = true
  · rw [if_pos hfull] at hres
    obtain ⟨vm, heq | heq⟩ := growHeap_cases h ((wanted n + headerBytes) % 2 ^ 64)
    · have hstill : bumpFull { h with vm := vm } (wanted n) = true := hfull
      rw [heq, if_pos hstill] at hres
      exact absurd (congrArg Prod.snd (Option.some.inj hres)).symm hp
    · rw [heq] at hres
      split_ifs at hres with hfull'
      · exact absurd (congrArg Prod.snd (Option.some.inj hres)).symm hp
      · cases hres
        exact Or.inr ⟨hfull, rfl, rfl⟩
  · rw [if_neg hfull, if_neg hfull] at hres
    cases hres
    exact Or.inl ⟨by simpa using hfull, rfl, rfl⟩

lemma mem_chunksAfter {h h' : Heap} {c : Chunk} (hl : Laid h live held free chunks)
    (hc : c ∈ chunksAfter h h' chunks) :
    (heapVirtBase ≤ c.start ∧ c.stop ≤ h.heapVirt) ∨
      (c.start = h.heapVirt ∧ c.stop = h'.heapVirt) := by
  unfold chunksAfter at hc
  split_ifs at hc
  · exact Or.inl (hl.arranged.chunk c hc)
  · obtain rfl | hc := List.mem_cons.mp hc
    · exact Or.inr ⟨rfl, rfl⟩
    · exact Or.inl (hl.arranged.chunk c hc)

lemma growPages_lt (need : ℕ) : growPages need * 4096 < 2 ^ 64 := by
  unfold growPages
  omega

/-- A block handed out although a sum of the request wraps does not have the bytes asked for. -/
theorem not_inside_of_wrap {h h' : Heap} {n p : ℕ} (hl : Laid h live held free chunks)
    (hn : ¬ NoWrap h n) (hres : tmalloc h n = some (h', p)) (hp : p ≠ 0) :
    ¬ ∃ c ∈ chunksAfter h h' chunks, c.start ≤ p ∧ p + n ≤ c.stop := by
  intro ⟨c, hc, hstart, hstop⟩
  have hbase : heapVirtBase ≤ h.heapVirt := hl.arranged.virt_base
  have hlt : h.heapVirt < 2 ^ 64 := hl.arranged.virt_lt
  have hal : h.heapVirt % 4096 = 0 := hl.arranged.virt_aligned
  have hle : h.bump ≤ h.bumpEnd := hl.arranged.bump_le
  have hend : h.bumpEnd ≤ h.heapVirt := hl.arranged.bumpEnd_le
  have h16 : headerBytes = 16 := rfl
  have hchunk := mem_chunksAfter hl hc
  rcases firstFit_spec hl (wanted n) with ⟨front, b, back, rfl, hfit, hseek⟩ | ⟨hseek, _⟩
  · -- a free block fits: only the rounding can have wrapped
    rw [tmalloc_of_fit hseek] at hres
    have hn30 : 2 ^ 30 ≤ n := by
      by_contra hlt
      exact hn ⟨by omega, fun h => nomatch hseek.symm.trans h⟩
    obtain ⟨hlo, hsize⟩ := hl.size_lt (b := b) (by simp)
    have hwrap := wanted_of_wrap hn30 (by omega)
    have hpb : p = b.addr :=
      (congrArg Prod.snd (Option.some.inj hres)).symm.trans hl.stored.linked.drop.1
    have hvirt : h'.heapVirt = h.heapVirt := by
      have hs := takeFit_frontier h (lastLink .head front) (wanted n)
      rw [Option.some.inj hres] at hs
      exact hs.heapVirt
    unfold heapVirtBase at *
    omega
  · have hpages := growPages_lt ((wanted n + headerBytes) % 2 ^ 64)
    obtain ⟨hroom, rfl, hvirt⟩ | ⟨hfull, rfl, hvirt⟩ := tmalloc_noFit_cases hseek hres hp
    · have hlow : heapVirtBase ≤ h.bump ∧ h.bump + n ≤ h.heapVirt := by omega
      have hn30 : n < 2 ^ 30 := by
        unfold heapVirtBase at hlow
        omega
      have hwant := (wanted_bounds hn30).2.1
      refine hn ⟨hn30, fun _ => ⟨?_, fun hfull => absurd hfull (by simp [hroom])⟩⟩
      unfold headerBytes
      omega
    · have hpos : (h.heapVirt + headerBytes) % 2 ^ 64 = h.heapVirt + headerBytes := by
        unfold headerBytes
        omega
      rw [hpos] at hstart hstop
      obtain ⟨_, hold⟩ | ⟨_, hnew⟩ := hchunk
      · omega
      rw [hnew, hvirt] at hstop
      have hroom : h.heapVirt + growPages ((wanted n + headerBytes) % 2 ^ 64) * 4096 < 2 ^ 64 := by
        omega
      have hn30 : n < 2 ^ 30 := by
        unfold heapVirtBase at hbase
        omega
      have hneed := wanted_need_lt hn30
      rw [Nat.mod_eq_of_lt (by omega : wanted n + headerBytes < 2 ^ 64)] at hroom
      refine hn ⟨hn30, fun _ => ⟨?_, fun _ => hroom⟩⟩
      by_contra hwrap
      have hroom : bumpFull h (wanted n) = false := bumpFull_of_wrap hle (by omega) (by omega)
        (by omega)
      exact Bool.false_ne_true (hroom.symm.trans hfull)

/-! ## Runs -/

/-- A request in which no sum wraps. -/
theorem bigEnough_of_noWrap {l : Ledger} {n p : ℕ} {h' : Heap} (hi : LedgerInv l)
    (hb : BumpHome l.heap l.chunks) (hn : NoWrap l.heap n) (hres : tmalloc l.heap n = some (h', p))
    (hp : p ≠ 0) : BigEnough (chunksAfter l.heap h' l.chunks) h' p n := by
  obtain ⟨free, _, hl⟩ := hi
  obtain ⟨h₁, p₁, hres₁, hout⟩ := tmalloc_outcome hl hn
  obtain ⟨rfl, rfl⟩ := Prod.mk.inj (Option.some.inj (hres₁.symm.trans hres))
  have hhome := hb.handOut hl hn hout
  obtain ⟨h₂, p₂, hres₂, hcases⟩ := tmalloc_laid hl hn
  obtain ⟨rfl, rfl⟩ := Prod.mk.inj (Option.some.inj (hres₁.symm.trans hres₂))
  obtain ⟨_, free', hlaid⟩ := hcases.resolve_left fun hnull => hp hnull.1
  obtain ⟨c, hc, hstart, hstop⟩ := (hlaid.arranged.placed ⟨p₁, wanted n⟩ (by simp)).inside
  have hbytes := (wanted_bounds hn.1).1
  refine ⟨⟨c, hc, hstart, ?_⟩, ?_⟩
  · unfold Block.stop at hstop
    dsimp only at hstop
    omega
  · obtain ⟨d, hd, hlo, hhi⟩ := hhome.resolve_left (List.ne_nil_of_mem hc)
    exact ⟨d, hd, hlo, hlaid.arranged.bump_le, hhi⟩

/-- Every request returns. -/
lemma tmalloc_returns {h : Heap} (hl : Laid h live held free chunks) (n : ℕ) :
    ∃ h' p, tmalloc h n = some (h', p) := by
  rcases firstFit_spec hl (wanted n) with ⟨_, _, _, _, _, hseek⟩ | ⟨hseek, _⟩
  · exact ⟨_, _, tmalloc_of_fit hseek⟩
  · unfold tmalloc
    dsimp only
    rw [hseek]
    dsimp only
    split_ifs
    · exact ⟨_, _, rfl⟩
    · exact ⟨_, _, rfl⟩
    · exact ⟨_, _, rfl⟩

lemma handOut_heap (l : Ledger) (heap : Heap) (p want : ℕ) :
    (l.handOut heap p want).heap = heap ∧ (l.handOut heap p want).chunks =
      chunksAfter l.heap heap l.chunks := by
  unfold Ledger.handOut
  dsimp only
  split_ifs
  · exact ⟨rfl, rfl⟩
  · split <;> exact ⟨rfl, rfl⟩

lemma release_heap (l : Ledger) (heap : Heap) (p : ℕ) :
    (l.release heap p).heap = heap ∧ (l.release heap p).chunks = l.chunks := by
  unfold Ledger.release
  split <;> exact ⟨rfl, rfl⟩

theorem request_step {l t : Ledger} {a : Call} (hi : LedgerInv l ∧ BumpHome l.heap l.chunks)
    (hn : NoWrapCall l a) (h : heapStep l a = some t) : LedgerInv t ∧ BumpHome t.heap t.chunks := by
  obtain ⟨hi, hb⟩ := hi
  cases a with
  | malloc n =>
    obtain ⟨⟨h', p⟩, hres, rfl⟩ := Option.map_eq_some_iff.mp h
    refine ⟨ledgerInv_handOut hi hn hres, ?_⟩
    obtain ⟨free, _, hl⟩ := hi
    obtain ⟨h₁, p₁, hres₁, hout⟩ := tmalloc_outcome hl hn
    obtain ⟨rfl, rfl⟩ := Prod.mk.inj (Option.some.inj (hres₁.symm.trans hres))
    obtain ⟨hheap, hchunks⟩ := handOut_heap l h₁ p₁ (wanted n)
    rw [hheap, hchunks]
    exact hb.handOut hl hn hout
  | free p =>
    refine ⟨ledgerInv_free hi h, ?_⟩
    change ledgerStep l (.free p) = some t at h
    unfold ledgerStep at h
    dsimp only at h
    split_ifs at h
    cases h
    obtain ⟨hheap, hchunks⟩ := release_heap l (tfree l.heap p) p
    have hsame := hb.same (tfree_frontier l.heap p)
    rw [hheap, hchunks]
    rwa [show chunksAfter l.heap (tfree l.heap p) l.chunks = l.chunks from
      if_pos (tfree_frontier l.heap p).heapVirt] at hsame
  | store x v =>
    refine ⟨ledgerInv_store hi h, ?_⟩
    change ledgerStep l (.store x v) = some t at h
    unfold ledgerStep at h
    dsimp only at h
    split_ifs at h
    cases h
    exact hb

/-- In every run of requests that do not wrap, a request of any size returns, and if it hands out
a block the bytes asked for lie in one chunk exactly when it does not wrap either. -/
theorem tmalloc_big_enough_iff (vm : Paging) (current : ℕ) (cells : Memory) (calls : List Call)
    (l : Ledger)
    (hrun : exec (guarded heapStep NoWrapCall) (newLedger vm current cells) calls = some l)
    (n : ℕ) :
    ∃ h' p, tmalloc l.heap n = some (h', p) ∧
      (p ≠ 0 → (BigEnough (chunksAfter l.heap h' l.chunks) h' p n ↔ NoWrap l.heap n)) := by
  obtain ⟨hi, hb⟩ : LedgerInv l ∧ BumpHome l.heap l.chunks := by
    refine exec_invariant (I := fun l => LedgerInv l ∧ BumpHome l.heap l.chunks) ?_ calls
      ⟨⟨[], .nil, emptyHeap_laid vm current cells⟩, Or.inl rfl⟩ hrun
    intro s a t hs hstep
    obtain ⟨hn, hstep⟩ := (guarded_eq_some ..).mp hstep
    exact request_step hs hn hstep
  obtain ⟨free, hperm, hl⟩ := hi
  obtain ⟨h', p, hres⟩ := tmalloc_returns hl n
  refine ⟨h', p, hres, fun hp => ⟨fun hbig => ?_, fun hn => bigEnough_of_noWrap ⟨free, hperm,
    hl⟩ hb hn hres hp⟩⟩
  by_contra hn
  exact not_inside_of_wrap hl hn hres hp hbig.1

/-- A request for 100 bytes of a heap that has grown. -/
theorem tmalloc_big_enough_hundred :
    ∃ l h' p, exec (guarded heapStep NoWrapCall) (newLedger smallMachine 0x1000 (fun _ => 0))
      [.malloc 16] = some l ∧
      tmalloc l.heap 100 = some (h', p) ∧ p ≠ 0 ∧
        BigEnough (chunksAfter l.heap h' l.chunks) h' p 100 := by
  have hrun : (exec (guarded heapStep NoWrapCall) (newLedger smallMachine 0x1000 (fun _ => 0))
    [.malloc 16]).map
      (fun l => ((tmalloc l.heap 100).map Prod.snd, decide (NoWrap l.heap 100))) =
      some (some 0xFFFFFFFFC0000030, true) := by decide +kernel
  obtain ⟨l, hl, hv⟩ := Option.map_eq_some_iff.mp hrun
  obtain ⟨hp, hn⟩ := Prod.mk.inj hv
  obtain ⟨h', p, hres, hiff⟩ := tmalloc_big_enough_iff _ _ _ _ l hl 100
  rw [hres, Option.map_some, Option.some.injEq] at hp
  dsimp only at hp
  have hp0 : p ≠ 0 := by
    rw [hp]
    decide
  exact ⟨l, h', p, hl, hres, hp0, (hiff hp0).mpr (of_decide_eq_true hn)⟩

/-- Rounding `2 ^ 64 - 1` up gives zero: the request gets a block of sixteen bytes. And once the
heap has grown, the end of a block of almost 1 GiB wraps: the block is handed out of a chunk of
64 KiB and the bump pointer leaves the heap. -/
theorem wrapped_requests_succeed :
    (∃ h', tmalloc (emptyHeap smallMachine 0x1000 (fun _ => 0)) (2 ^ 64 - 1) =
        some (h', 0xFFFFFFFFC0000010) ∧ blockSize h' 0xFFFFFFFFC0000010 = 16) ∧
      ∃ l h', exec heapStep (newLedger smallMachine 0x1000 (fun _ => 0)) [.malloc 16] = some l ∧
        l.chunks = [⟨0xFFFFFFFFC0000000, 0xFFFFFFFFC0010000⟩] ∧
        tmalloc l.heap (2 ^ 30 - 64) = some (h', 0xFFFFFFFFC0000030) ∧ h'.bump = 0 := by
  have hsmall : (tmalloc (emptyHeap smallMachine 0x1000 (fun _ => 0)) (2 ^ 64 - 1)).map
      (fun r => (r.2, blockSize r.1 0xFFFFFFFFC0000010)) = some (0xFFFFFFFFC0000010, 16) := by
        decide +kernel
  have hlarge : (exec heapStep (newLedger smallMachine 0x1000 (fun _ => 0)) [.malloc 16]).map
      (fun l => (l.chunks, (tmalloc l.heap (2 ^ 30 - 64)).map fun r => (r.2, r.1.bump))) =
      some ([⟨0xFFFFFFFFC0000000, 0xFFFFFFFFC0010000⟩], some (0xFFFFFFFFC0000030, 0)) := by
        decide +kernel
  obtain ⟨⟨h₁, p₁⟩, hres₁, hv₁⟩ := Option.map_eq_some_iff.mp hsmall
  obtain ⟨rfl, hsize⟩ := Prod.mk.inj hv₁
  obtain ⟨l, hl, hv⟩ := Option.map_eq_some_iff.mp hlarge
  obtain ⟨hchunks, hres⟩ := Prod.mk.inj hv
  obtain ⟨⟨h₂, p₂⟩, hres₂, hv₂⟩ := Option.map_eq_some_iff.mp hres
  obtain ⟨rfl, hbump⟩ := Prod.mk.inj hv₂
  exact ⟨⟨h₁, hres₁, hsize⟩, l, h₂, hl, hchunks, hres₂, hbump⟩

end TraitOS.Tmalloc
