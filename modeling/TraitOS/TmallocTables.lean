import TraitOS.TmallocSpec
import TraitOS.TvmmKernel

/-!
# Heap growth and the page tables

A growth maps pages of the heap's window, which lies in the shared kernel half,
and may add kernel tables for them. No frame of a space changes hands and no
translation outside the window changes, also when the growth fails half way and
takes back what it mapped.
-/
namespace TraitOS.Tmalloc
open ByteMemory PageTable FreeList Tpmm Tvmm

/-- PML4 slot 511, PDPT entry 511. -/
def InWindow (virt : ℕ) : Prop := pml4Index virt = 511 ∧ pdptIndex virt = 511

lemma inWindow_of_bounds {v : ℕ} (hlow : heapVirtBase ≤ v) (hhigh : v < 2 ^ 64) : InWindow v := by
  unfold InWindow pml4Index pdptIndex
  unfold heapVirtBase at hlow
  rw [index_eq, index_eq]
  omega

lemma InWindow.of_page {v v' : ℕ} (h : InWindow v') (hp : pageOf v = pageOf v') : InWindow v := by
  have hpath := ((pageOf_eq_iff v v').mp hp).1
  simp only [List.cons.injEq] at hpath
  exact ⟨hpath.1.trans h.1, hpath.2.1.trans h.2⟩

lemma InWindow.kernelSlot {v : ℕ} (h : InWindow v) : kernelSlot (pml4Index v) = true := by
  rw [h.1]
  decide

/-- There is no large leaf in the window. -/
def WindowFree (lay : Layout) : Prop := ∀ k i, ¬ lay.leaf k 511 i

/-- Kernel tables may be added and translations of the window may change. -/
def windowEffect : Effect := ⟨fun t => t < pmmMaxFrames, fun _ _ => False, InWindow⟩

section Window
variable {lay : Layout} {p : Paging} {use : ℕ → Use} {r tree : ℕ}

/-- The top-level entry of the window. -/
def HasSlot (p : Paging) (r : ℕ) : Prop := present (entry p.mem (r * frameBytes) 511) = true

lemma HasSlot.extends {p' : Paging} {use' : ℕ → Use} (h : HasSlot p r)
    (hext : Extends windowEffect p p' use use') (hr : use r = .node tree [])
    (hu : ¬ tree < pmmMaxFrames) : HasSlot p' r := by
  unfold HasSlot
  rw [hext.roots r tree 511 hr hu (by decide) (by decide) (fun hw => hw)]
  exact h

lemma InWindow.uncovered {v : ℕ} (h : InWindow v) (hwin : WindowFree lay) (m : Memory) :
    Uncovered lay m r v := by
  intro _
  rw [h.2]
  exact hwin _ _

lemma windowEffect_of_kernel {v : ℕ} {moves : ℕ → Prop} {p' : Paging} {use' : ℕ → Use}
    (hv : InWindow v) (hslot : HasSlot p r) (hm : ∀ v', moves v' → pageOf v' = pageOf v)
    (h : Extends (kernelEffect p.mem r v moves) p p' use use') :
    Extends windowEffect p p' use use' := by
  refine h.mono (fun _ ht => ht) ?_ (fun v' hv' => hv.of_page (hm v' hv'))
  rintro r' i ⟨_, _, habs⟩
  unfold slotPresent at habs
  rw [hv.1] at habs
  exact Bool.false_ne_true (habs.symm.trans hslot)

theorem vmmMapPage_window (ht : Tables lay p use) (hwin : WindowFree lay)
    (hr : use r = .node tree []) (hu : ¬ tree < pmmMaxFrames) (hslot : HasSlot p r) {v : ℕ}
    (hv : InWindow v) (phys : ℕ) {flags : ℕ} (hf : flags < 2 ^ 64) :
    ∃ use', Tables lay (vmmMapPage p (r * frameBytes) v phys flags).1 use' ∧
      Extends windowEffect p (vmmMapPage p (r * frameBytes) v phys flags).1 use use' := by
  have hkernel : vmmMapPage p (r * frameBytes) v phys flags =
    mapPage p (r * frameBytes) v phys flags :=
    if_neg (by rw [hv.1]; decide)
  obtain ⟨p', use', ht', ⟨heq, _, hext⟩ | ⟨heq, _, hext⟩⟩ :=
    mapKernel_spec ht phys hr hu hv.kernelSlot hf (hv.uncovered hwin p.mem)
  · rw [hkernel, heq]
    exact ⟨use', ht', windowEffect_of_kernel hv hslot (fun _ => False.elim) hext⟩
  · rw [hkernel, heq]
    exact ⟨use', ht', windowEffect_of_kernel hv hslot (fun _ h => h) hext⟩

/-- The mapping loop. -/
theorem mapPages_spec (hwin : WindowFree lay) (hu : ¬ tree < pmmMaxFrames) {virt : ℕ} (base : ℕ)
    (hlow : heapVirtBase ≤ virt) (n : ℕ) :
    ∀ {p : Paging} {use : ℕ → Use} {i : ℕ}, Tables lay p use → use r = .node tree [] →
      HasSlot p r → virt + (i + n) * 4096 ≤ 2 ^ 64 →
      ∃ use', Tables lay (mapPages p (r * frameBytes) virt base i n).1 use' ∧
        Extends windowEffect p (mapPages p (r * frameBytes) virt base i n).1 use use' ∧
        ∀ j, (mapPages p (r * frameBytes) virt base i n).2 = some j → j < i + n := by
  induction n with
  | zero =>
    intro p use i ht _ _ _
    exact ⟨use, ht, Extends.refl ht _, fun j hj => nomatch hj⟩
  | succ n ih =>
    intro p use i ht hr hslot hend
    have hv : InWindow ((virt + i * 4096) % 2 ^ 64) := by
      rw [Nat.mod_eq_of_lt (by omega)]
      exact inWindow_of_bounds (by omega) (by omega)
    obtain ⟨use1, ht1, hext1⟩ := vmmMapPage_window ht hwin hr hu hslot hv (base + i * 4096)
      (show pageWrite ||| pageNx < 2 ^ 64 by decide)
    unfold mapPages
    dsimp only
    by_cases hok : (vmmMapPage p (r * frameBytes) ((virt + i * 4096) % 2 ^ 64) (base + i * 4096)
        (pageWrite ||| pageNx)).2 = true
    · rw [if_pos hok]
      obtain ⟨use2, ht2, hext2, hj⟩ := ih ht1 ((hext1.keep r (ne_idle_of_node hr)).trans hr)
        (hslot.extends hext1 hr hu) (show virt + (i + 1 + n) * 4096 ≤ 2 ^ 64 by linarith)
      exact ⟨use2, ht2, hext1.trans hext2, fun j h => (hj j h).trans_eq (by omega)⟩
    · rw [if_neg hok]
      refine ⟨use1, ht1, hext1, fun j h => ?_⟩
      cases h
      omega

/-- The loop that takes mapped pages back. -/
theorem unmapPages_spec (hwin : WindowFree lay) (hu : ¬ tree < pmmMaxFrames) (ht : Tables lay p use)
    (hr : use r = .node tree []) {virt : ℕ} (hlow : heapVirtBase ≤ virt) (n : ℕ)
    (hend : virt + n * 4096 ≤ 2 ^ 64) :
    Tables lay (unmapPages p (r * frameBytes) virt n) use ∧
      Extends windowEffect p (unmapPages p (r * frameBytes) virt n) use use := by
  induction n with
  | zero => exact ⟨ht, Extends.refl ht _⟩
  | succ n ih =>
    obtain ⟨ht1, hext1⟩ := ih (by linarith)
    have hv : InWindow ((virt + n * 4096) % 2 ^ 64) := by
      rw [Nat.mod_eq_of_lt (by omega)]
      exact inWindow_of_bounds (by omega) (by omega)
    obtain ⟨ht2, _, hext2⟩ := unmapKernel_spec ht1 hr hu hv.kernelSlot (hv.uncovered hwin _)
    unfold unmapPages vmmUnmapPage
    rw [if_neg (by rw [hv.1]; decide)]
    exact ⟨ht2, hext1.trans (hext2.mono (fun _ => False.elim) (fun _ _ h => h)
      (fun _ h => hv.of_page h))⟩

end Window

/-- Giving back a run of frames. -/
theorem freePages_spec {s : Pmm} (hv : Valid s) {b : ℕ} (n : ℕ)
    (h : ∀ f ∈ Finset.Ico b (b + n), f < s.totalFrames ∧ f ≠ 0) :
    Valid (freePages s (b * frameBytes) n) ∧
      freeSet (freePages s (b * frameBytes) n) = freeSet s ∪ Finset.Ico b (b + n) ∧
      (freePages s (b * frameBytes) n).totalFrames = s.totalFrames := by
  induction n with
  | zero => exact ⟨hv, by simp [freePages], rfl⟩
  | succ n ih =>
    obtain ⟨hv', hset, htot⟩ := ih (fun f hf => h f (by
      rw [Finset.mem_Ico] at hf ⊢
      omega))
    obtain ⟨hlt, hne⟩ := h (b + n) (by
      rw [Finset.mem_Ico]
      omega)
    have hmax := hv.total_le
    have hframe : frameOf (b * frameBytes + n * 4096) = b + n := by
      unfold frameOf pageSize frameBytes
      unfold pmmMaxFrames pmmMaxAddr pageSize at hmax
      omega
    obtain ⟨hv'', hset', htot'⟩ := tpmmFree_spec hv' (hframe.symm ▸ htot.symm ▸ hlt)
      (hframe.symm ▸ hne)
    refine ⟨hv'', ?_, htot'.trans htot⟩
    change freeSet (tpmmFree (freePages s (b * frameBytes) n) (b * frameBytes + n * 4096)) = _
    rw [hset', hset, hframe, ← Finset.union_insert]
    congr 1
    ext f
    rw [Finset.mem_insert, Finset.mem_Ico, Finset.mem_Ico]
    omega

/-- What a heap call does to the tables and the pool. -/
structure Quiet (p p' : Paging) (use use' : ℕ → Use) : Prop where
  keep : ∀ f, use f ≠ .idle → use' f = use f
  fresh : ∀ f, use f = .idle → use' f ≠ .idle →
    ∃ tree path, tree < pmmMaxFrames ∧ use' f = .node tree path
  pool : freeSet p'.pmm ⊆ freeSet p.pmm
  total : p'.pmm.totalFrames = p.pmm.totalFrames
  content : ∀ x, ¬ IsTable (use' (x / frameBytes)) → p'.mem x = p.mem x
  roots : ∀ r tree i, use r = .node tree [] → ¬ tree < pmmMaxFrames → i < entries →
    kernelSlot i = true → entry p'.mem (r * frameBytes) i = entry p.mem (r * frameBytes) i
  lookups : ∀ r tree virt, use r = .node tree [] → ¬ tree < pmmMaxFrames → ¬ InWindow virt →
    physOf p'.mem (r * frameBytes) virt = physOf p.mem (r * frameBytes) virt

theorem Quiet.refl (p : Paging) (use : ℕ → Use) : Quiet p p use use where
  keep := fun _ _ => rfl
  fresh := fun _ h h' => absurd h h'
  pool := Finset.Subset.refl _
  total := rfl
  content := fun _ _ => rfl
  roots := fun _ _ _ _ _ _ _ => rfl
  lookups := fun _ _ _ _ _ _ => rfl

/-- An extension within the window, with the pool seen from outside. -/
theorem quiet_of_extends {m : Memory} {s s' t t' : Pmm} {m' : Memory} {use use' : ℕ → Use}
    (h : Extends windowEffect ⟨m, s⟩ ⟨m', s'⟩ use use') (hpool : freeSet t' ⊆ freeSet t)
    (htot : t'.totalFrames = t.totalFrames) : Quiet ⟨m, t⟩ ⟨m', t'⟩ use use' where
  keep := h.keep
  fresh := fun f hf hf' => by
    obtain ⟨_, tree, path, hg, _, hnode⟩ := h.fresh f hf hf'
    exact ⟨tree, path, hg, hnode⟩
  pool := hpool
  total := htot
  content := h.content
  roots := fun r tree i hr hu hi hk => h.roots r tree i hr hu hi hk (fun hw => hw)
  lookups := h.lookups

theorem growHeap_tables {lay : Layout} {h : Heap} {use : ℕ → Use} {r tree need : ℕ}
    (ht : Tables lay h.vm use) (hwin : WindowFree lay) (hr : use r = .node tree [])
    (hu : ¬ tree < pmmMaxFrames) (hcur : h.current = r * frameBytes) (hslot : HasSlot h.vm r)
    (hlow : heapVirtBase ≤ h.heapVirt) (hroom : h.heapVirt + growPages need * 4096 < 2 ^ 64) :
    ∃ use', Tables lay (growHeap h need).vm use' ∧ Quiet h.vm (growHeap h need).vm use use' := by
  have hspec := tpmmAllocContig_spec ht.valid (growPages need)
  unfold growHeap
  dsimp only
  by_cases h0 : (tpmmAllocContig h.vm.pmm (growPages need)).2 = 0
  · rw [if_pos h0, hspec.refused ht.valid h0]
    exact ⟨use, ht, Quiet.refl _ _⟩
  rw [if_neg h0]
  obtain ⟨hal, _, hsub, hset⟩ := hspec.granted ht.valid h0
  have hvalid := hspec.valid ht.valid
  have htot := hspec.totalFrames
  generalize tpmmAllocContig h.vm.pmm (growPages need) = a at *
  obtain ⟨b, hb⟩ : ∃ b, a.2 = b * frameBytes := ⟨a.2 / pageSize,
    (Nat.div_mul_cancel (Nat.dvd_of_mod_eq_zero hal)).symm⟩
  have hgrant : grantFrames a.2 (growPages need) = Finset.Ico b (b + growPages need) := by
    unfold grantFrames
    rw [hb, show b * frameBytes / pageSize = b from Nat.mul_div_cancel _ (by decide)]
  rw [hgrant] at hsub hset
  have ht1 : Tables lay { h.vm with pmm := a.1 } use := by
    apply ht.setPool hvalid htot
    intro f hf hmem
    rw [hset] at hmem
    exact ht.held f hf (Finset.mem_sdiff.mp hmem).1
  obtain ⟨use2, ht2, hext2, hj⟩ := mapPages_spec hwin hu a.2 hlow (growPages need) ht1 hr
    hslot (by rw [zero_add]; exact hroom.le)
  rw [hcur]
  generalize mapPages { h.vm with pmm := a.1 } (r * frameBytes) h.heapVirt a.2 0 (growPages need) =
    q at *
  have hsub1 : freeSet a.1 ⊆ freeSet h.vm.pmm := hset ▸ Finset.sdiff_subset
  obtain ⟨p2, res⟩ := q
  cases res with
  | none =>
    refine ⟨use2, ht2, quiet_of_extends hext2 ?_ (hext2.total.trans htot)⟩
    exact fun f hf => hsub1 ((hext2.pool f).mp hf).1
  | some i =>
    have hi : i < growPages need := (hj i rfl).trans_eq (zero_add _)
    have hr2 := (hext2.keep r (ne_idle_of_node hr)).trans hr
    obtain ⟨ht3, hext3⟩ := unmapPages_spec hwin hu ht2 hr2 hlow i (by omega)
    have hext := hext2.trans hext3
    have hlt : ∀ f ∈ Finset.Ico b (b + growPages need),
        f < (unmapPages p2 (r * frameBytes) h.heapVirt i).pmm.totalFrames ∧ f ≠ 0 := by
      intro f hf
      have hfree := hsub hf
      refine ⟨?_, fun hz => ht.valid.zero_used (hz ▸ hfree)⟩
      rw [hext.total, htot]
      exact ((mem_freeSet _ _).mp hfree).1
    obtain ⟨hv4, hset4, htot4⟩ := freePages_spec ht3.valid (growPages need) hlt
    rw [← hb] at hv4 hset4 htot4
    refine ⟨use2, ht3.setPool hv4 htot4 ?_, quiet_of_extends hext ?_ ?_⟩
    · -- the frames given back were taken for this growth, so no table lies in them
      intro f hf hmem
      rw [hset4, Finset.mem_union] at hmem
      rcases hmem with hmem | hmem
      · exact ht3.held f hf hmem
      · obtain ⟨hfree, _⟩ := hext.fresh f (ht.idle_of_free (hsub hmem)) hf
        rw [hset] at hfree
        exact (Finset.mem_sdiff.mp hfree).2 hmem
    · rw [hset4]
      exact Finset.union_subset (fun f hf => hsub1 ((hext.pool f).mp hf).1) hsub
    · exact htot4.trans (hext.total.trans htot)

lemma takeFit_vm (h : Heap) (pp : Link) (want : ℕ) :
    (takeFit h pp want).1.vm = h.vm ∧ (takeFit h pp want).1.current = h.current := by
  obtain ⟨c, l, heq⟩ := (onlyBlocks_writeLink h pp (blockMeta h (readLink h pp))).trans
    (onlyBlocks_splitBlock (writeLink h pp (blockMeta h (readLink h pp))) pp (readLink h pp) want)
  have hfst : (takeFit h pp want).1 = markLive (splitBlock (writeLink h pp
      (blockMeta h (readLink h pp))) pp (readLink h pp) want) (readLink h pp) want := rfl
  rw [hfst, heq]
  exact ⟨rfl, rfl⟩

lemma growHeap_current (h : Heap) (need : ℕ) : (growHeap h need).current = h.current := by
  obtain ⟨vm, heq | heq⟩ := growHeap_cases h need
  · rw [heq]
  · rw [heq]

/-- A request seen from the page tables. -/
theorem tmalloc_tables {lay : Layout} {h h' : Heap} {use : ℕ → Use} {r tree n ptr : ℕ}
    {live held free : List Block} {chunks : List Chunk} (hl : Laid h live held free chunks)
    (hn : n < 2 ^ 29) (hroom : HasRoom h n) (heq : tmalloc h n = some (h', ptr))
    (ht : Tables lay h.vm use) (hwin : WindowFree lay) (hr : use r = .node tree [])
    (hu : ¬ tree < pmmMaxFrames) (hcur : h.current = r * frameBytes) (hslot : HasSlot h.vm r) :
    h'.current = h.current ∧ ∃ use', Tables lay h'.vm use' ∧ Quiet h.vm h'.vm use use' := by
  rcases firstFit_spec hl (wanted n) with ⟨front, b, back, _, _, hseek⟩ | ⟨hseek, _⟩
  · rw [tmalloc_of_fit hseek] at heq
    obtain rfl := congrArg Prod.fst (Option.some.inj heq)
    obtain ⟨hvm, hcur'⟩ := takeFit_vm h (lastLink .head front) (wanted n)
    rw [hvm]
    exact ⟨hcur', use, ht, Quiet.refl _ _⟩
  · rw [tmalloc_of_noFit (by omega) hseek] at heq
    have hfill : (refill h n).current = h.current ∧
        ∃ use', Tables lay (refill h n).vm use' ∧ Quiet h.vm (refill h n).vm use use' := by
      unfold refill
      by_cases hfull : bumpFull h (wanted n) = true
      · rw [if_pos hfull]
        exact ⟨growHeap_current _ _,
          growHeap_tables ht hwin hr hu hcur hslot hl.arranged.virt_base (hroom hseek)⟩
      · rw [if_neg hfull]
        exact ⟨rfl, use, ht, Quiet.refl _ _⟩
    generalize refill h n = h1 at *
    by_cases hfull : bumpFull h1 (wanted n) = true
    · rw [if_pos hfull] at heq
      cases heq
      exact hfill
    · rw [if_neg hfull] at heq
      cases heq
      exact hfill

end TraitOS.Tmalloc
