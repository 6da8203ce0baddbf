import TraitOS.TvmmSound

/-!
# Creating and destroying a space

A creation takes a root from the pool, asks the heap for a descriptor and either
plants the root or gives it back. A destruction gives back what the teardown finds
and forgets the space.
-/
namespace TraitOS.Tvmm
open ByteMemory PageTable FreeList Tpmm Tmalloc Tstring

section Life
variable {lay : Layout} {w : World} {g : Ghost}

/-- Two calls in a row, neither of which ends a space. -/
lemma Steady.trans {w' w'' : World} {g' g'' : Ghost} (h : Steady (fun _ _ => False) w w' g g')
    (h' : Steady (fun _ _ => False) w' w'' g' g'') (hstay : ∀ as, w.Has as → w'.Has as)
    (hnone : ∀ as, w'.Has as → w.Has as) : Steady (fun _ _ => False) w w'' g g'' where
  kernel := h'.kernel.trans h.kernel
  root := fun as r has has'' hr =>
    h'.root as r (hstay as has) has'' (h.root as r has (hstay as has) hr)
  slots := fun as r i has has'' hr hi hk _ => by
    have hr' := h.root as r has (hstay as has) hr
    rw [h'.slots as r i (hstay as has) has'' hr' hi hk (fun hw => hw),
      h.slots as r i has (hstay as has) hr hi hk (fun hw => hw)]
  fresh := fun as r k i has'' hno hr hk hi hks =>
    h'.fresh as r k i has'' (fun has' => hno (hnone as has')) hr (h.kernel.symm ▸ hk) hi hks

/-- Calls that change the heap and the tables but no descriptor. -/
theorem Sound.heapStep (hs : Sound lay w g) {h : Heap} {use' : ℕ → Use}
    {live held free : List Block} {chunks : List Chunk} (hcur : h.current = w.vmm.heap.current)
    (ht : Tables lay h.vm use') (hl : Laid h live held free chunks) (hheld : ∀ b ∈ g.held, b ∈ held)
    (hcells : ∀ b ∈ g.held, SameHeader w.vmm.heap h b.addr)
    (hroots : ∀ r t, g.use r = .node t [] → ¬ t < pmmMaxFrames → use' r = .node t [])
    (hslots : ∀ r t i, g.use r = .node t [] → ¬ t < pmmMaxFrames → i < entries →
      kernelSlot i = true → entry h.vm.mem (r * frameBytes) i = entry w.vm.mem (r * frameBytes) i)
    (hnames : ∀ f t path, use' f = .node t path → t < pmmMaxFrames ∨ w.Has t)
    (hspare : lay.pages → ∀ f, use' f = .spare ↔ f ∈ w.spare) :
    let w' : World := { w with vmm := { w.vmm with heap := h } }
    Sound lay w' ⟨use', live, held, free, chunks⟩ ∧
      Steady (fun _ _ => False) w w' g ⟨use', live, held, free, chunks⟩ := by
  intro w'
  have hat : ∀ as, w.Has as → aspaceAt w'.vmm as = aspaceAt w.vmm as := by
    intro as has
    refine aspaceAt_congr rfl rfl (fun hne => ?_)
    obtain ⟨b, hb, rfl⟩ := hs.blocks as (has.resolve_left hne)
    exact ⟨(hcells b hb).blockSize, (hcells b hb).blockMeta⟩
  refine ⟨⟨ht, hl, hs.window, ?_, hnames, ?_, hs.kernelAddr, ⟨hs.current.1, ?_⟩, hspare⟩, rfl, ?_,
    ?_, ?_⟩
  · intro as has
    obtain ⟨r, hr, hdesc, hslot⟩ := hs.roots as has
    refine ⟨r, hroots r as hr (hs.not_lt has), (hat as has).trans hdesc, ?_⟩
    unfold HasSlot
    rw [hslots r as 511 hr (hs.not_lt has) (by decide) (by decide)]
    exact hslot
  · intro as has
    obtain ⟨b, hb, heq⟩ := hs.blocks as has
    exact ⟨b, hheld b hb, heq⟩
  · rw [rootOf_congr (hat _ hs.current.1)]
    exact hcur.trans hs.current.2
  · exact fun as r has _ hr => hroots r as hr (hs.not_lt has)
  · exact fun as r i has _ hr hi hk _ => hslots r as i hr (hs.not_lt has) hi hk
  · exact fun as _ _ _ has' hno => absurd has' hno

/-- The owner of a block overwrites its header. -/
theorem laid_retire {h : Heap} {b : Block} {live held free : List Block} {chunks : List Chunk}
    (hl : Laid h (b :: live) held free chunks) {cells : Memory}
    (hout : ∀ x, x < b.addr ∨ b.addr + headerBytes ≤ x → cells x = h.cells x) :
    Laid { h with cells := cells } live (b :: held) free chunks := by
  have hperm : ((b :: live) ++ held).Perm (live ++ b :: held) := List.perm_middle.symm
  have hap := List.pairwise_cons.mp hl.arranged.apart
  refine ⟨?_, hl.arranged.perm (hperm.append_right free), ?_, ?_⟩
  · have hst : Stored h live free := ⟨hl.stored.linked,
      fun x hx => hl.stored.size x (List.mem_cons_of_mem b hx),
      fun x hx => hl.stored.magic x (List.mem_cons_of_mem b hx)⟩
    refine hst.frame rfl (fun x hx y hlo hhi => ?_)
    apply hout
    have hxb := hap.1 x ((sublist_out live held free).subset hx)
    unfold Apart Block.stop at hxb
    omega
  · exact hl.count.trans hperm.length_eq
  · rw [← (hperm.map Block.size).sum_eq]
    exact hl.used

/-! ## Creation -/

/-- The new PML4: cleared, then given the kernel half of the kernel's. -/
def newPml4 (m : Memory) (c kernel : ℕ) : Memory :=
  copyKernelSlots (fill m (c * frameBytes) frameBytes 0) (c * frameBytes)
    (kernel * frameBytes) entries

lemma entry_newPml4_of_ne (m : Memory) {c f i : ℕ} (kernel : ℕ) (hi : i < entries) (hf : f ≠ c) :
    entry (newPml4 m c kernel) (f * frameBytes) i = entry m (f * frameBytes) i := by
  unfold newPml4
  rw [entry_copyKernelSlots_of_ne _ _ hi hf entries le_rfl, entry_fill_of_ne m hi hf]

lemma entry_newPml4 (m : Memory) {c kernel i : ℕ} (hi : i < entries) (hk : kernel ≠ c) :
    entry (newPml4 m c kernel) (c * frameBytes) i =
      if kernelSlot i = true then entry m (kernel * frameBytes) i else 0 := by
  unfold newPml4
  rw [entry_copyKernelSlots _ hi hk entries le_rfl, entry_fill_of_ne m hi hk,
    entry_fill_self m c hi]
  exact if_congr (and_iff_right hi) rfl rfl

/-- Taking a root from the pool and preparing it. -/
theorem Sound.takeRoot (hs : Sound lay w g) {c : ℕ} (kernel : ℕ) {s : Pmm}
    (hc : c ∈ freeSet w.vm.pmm) (hv : Valid s) (hset : freeSet s = (freeSet w.vm.pmm).erase c)
    (htot : s.totalFrames = w.vm.pmm.totalFrames) :
    Sound lay { w.setVm ⟨newPml4 w.vm.mem c kernel, s⟩ with spare := insert c w.spare }
        { g with use := Function.update g.use c .spare } ∧
      Steady (fun _ _ => False) w
        { w.setVm ⟨newPml4 w.vm.mem c kernel, s⟩ with spare := insert c w.spare } g
        { g with use := Function.update g.use c .spare } ∧
      SameLookups w.vm ⟨newPml4 w.vm.mem c kernel, s⟩ g.use fun _ _ => False := by
  have hidle := hs.tables.idle_of_free hc
  have hself : Function.update g.use c .spare c = .spare := Function.update_self c _ g.use
  have hother : ∀ f, f ≠ c → Function.update g.use c .spare f = g.use f :=
    fun f hf => Function.update_of_ne hf _ _
  have hne : ∀ f t path, g.use f = .node t path → f ≠ c := by
    rintro f t path hf rfl
    exact ne_idle_of_node hf hidle
  have hmem : ∀ f t path i, g.use f = .node t path → i < entries →
      entry (newPml4 w.vm.mem c kernel) (f * frameBytes) i = entry w.vm.mem (f * frameBytes) i :=
    fun f t path i hf hi => entry_newPml4_of_ne _ _ hi (hne f t path hf)
  have huse : ∀ f t path, Function.update g.use c .spare f = .node t path ↔
    g.use f = .node t path := by
    intro f t path
    by_cases hfc : f = c
    · rw [hfc, hself, hidle]
      exact iff_of_false Use.noConfusion Use.noConfusion
    · rw [hother f hfc]
  have ht : Tables lay ⟨newPml4 w.vm.mem c kernel, s⟩ (Function.update g.use c .spare) := by
    refine hs.tables.congr hmem huse hv (fun f hf => ?_)
    dsimp only
    rw [hset, htot]
    by_cases hfc : f = c
    · rw [hfc]
      exact ⟨Finset.notMem_erase c _, fun hz => hs.tables.valid.zero_used (hz ▸ hc),
        ((mem_freeSet _ _).mp hc).1⟩
    · rw [hother f hfc] at hf
      exact ⟨fun h => hs.tables.held f hf (Finset.mem_of_mem_erase h), hs.tables.ne_zero hf,
        hs.tables.managed f hf⟩
  obtain ⟨hs', hst⟩ := hs.update ht (fun r t hr _ => (huse r t []).mpr hr)
    (fun r t i hr _ hi _ _ => hmem r t [] i hr hi) (fun _ _ => False.elim)
    (fun f t path hf => hs.names f t path ((huse f t path).mp hf))
    (fun hpages f => by
      rw [Finset.mem_insert, ← hs.spare hpages f]
      by_cases hfc : f = c
      · rw [hfc, hself]
        exact iff_of_true rfl (Or.inl rfl)
      · rw [hother f hfc]
        exact ⟨Or.inr, fun h => h.resolve_left hfc⟩)
  exact ⟨hs', hst, fun r t v hr hu _ => physOf_congr hs.tables hmem v hr hu⟩

/-- A request to the heap by the kernel. -/
theorem Sound.request (hs : Sound lay w g) {n : ℕ} (hn : n < 2 ^ 29)
    (hroom : HasRoom w.vmm.heap n) :
    ∃ h ptr use' live free chunks, tmalloc w.vmm.heap n = some (h, ptr) ∧
      Sound lay { w with vmm := { w.vmm with heap := h } } ⟨use', live, g.held, free, chunks⟩ ∧
      Steady (fun _ _ => False) w { w with vmm := { w.vmm with heap := h } } g
        ⟨use', live, g.held, free, chunks⟩ ∧
      Quiet w.vm h.vm g.use use' ∧ (ptr ≠ 0 → live = ⟨ptr, wanted n⟩ :: g.live) := by
  obtain ⟨h, ptr, heq, hout⟩ := tmalloc_laid hs.laid (hroom.noWrap hs.laid hn)
  obtain ⟨r, hr, hroot, hslot⟩ := hs.root hs.current.1
  obtain ⟨hcur, use', ht, hquiet⟩ := tmalloc_tables hs.laid hn hroom heq hs.tables hs.window hr
    (hs.not_lt hs.current.1) (hs.current.2.trans hroot) hslot
  obtain ⟨live, free, hlaid, hlive⟩ : ∃ live free,
      Laid h live g.held free (chunksAfter w.vmm.heap h g.chunks) ∧
        (ptr ≠ 0 → live = ⟨ptr, wanted n⟩ :: g.live) := by
    rcases hout with ⟨hp, hl⟩ | ⟨_, free, hl⟩
    · exact ⟨_, _, hl, fun hne => absurd hp hne⟩
    · exact ⟨_, _, hl, fun _ => rfl⟩
  obtain ⟨hs', hst⟩ := hs.heapStep hcur ht hlaid (fun _ hb => hb)
    (fun b hb => sameHeader_tmalloc hs.laid hn hroom heq (List.mem_append_right _ hb))
    (fun r t hr _ => (hquiet.keep r (ne_idle_of_node hr)).trans hr) hquiet.roots
    (fun f t path hf => by
      by_cases hidle : g.use f = .idle
      · obtain ⟨t', path', hlt, hf'⟩ := hquiet.fresh f hidle (ne_idle_of_node hf)
        rw [hf'] at hf
        exact Or.inl ((Use.node.inj hf).1 ▸ hlt)
      · exact hs.names f t path ((hquiet.keep f hidle).symm.trans hf))
    (fun hpages f => by
      rw [← hs.spare hpages f]
      by_cases hidle : g.use f = .idle
      · refine iff_of_false (fun h' => ?_) (fun h' => Use.noConfusion (hidle.symm.trans h'))
        obtain ⟨t, path, _, hf⟩ := hquiet.fresh f hidle (by rw [h']; exact Use.noConfusion)
        exact Use.noConfusion (hf.symm.trans h')
      · rw [hquiet.keep f hidle])
  exact ⟨h, ptr, use', live, free, _, heq, hs', hst, hquiet, hlive⟩

/-- A prepared root with a descriptor becomes a space. -/
theorem Sound.addSpace (hs : Sound lay w g) {c as k : ℕ} (hc : g.use c = .spare)
    (hlow : c < lowFrames) (hnew : ¬ w.Has as) (hblock : ∃ b ∈ g.held, b.addr = as)
    (hdesc : aspaceAt w.vmm as = rootAspace c) (hk : g.use k = .node w.vmm.kernelAddr [])
    (huser : ∀ i < entries, kernelSlot i = false → entry w.vm.mem (c * frameBytes) i = 0)
    (hcopy : ∀ i < entries, kernelSlot i = true → entry w.vm.mem (c * frameBytes) i =
      entry w.vm.mem (k * frameBytes) i) :
    let w' : World := { w with spaces := as :: w.spaces, spare := w.spare.erase c }
    let g' : Ghost := { g with use := Function.update g.use c (.node as []) }
    Sound lay w' g' ∧ Steady (fun _ _ => False) w w' g g' := by
  intro w' g'
  have has : ¬ as < pmmMaxFrames := by
    obtain ⟨b, hb, rfl⟩ := hblock
    have hbase := (hs.laid.arranged.bounds (List.mem_append_left _ (List.mem_append_right _ hb))).1
    have hmax : pmmMaxFrames ≤ heapVirtBase := by decide
    omega
  have hhas : ∀ as', w'.Has as' ↔ as' = as ∨ w.Has as' := by
    intro as'
    unfold World.Has
    rw [List.mem_cons]
    tauto
  have hself : g'.use c = .node as [] := Function.update_self c _ g.use
  have hother : ∀ f, f ≠ c → g'.use f = g.use f := fun f hf => Function.update_of_ne hf _ _
  have hkeep : ∀ f t path, g.use f = .node t path → g'.use f = .node t path := by
    intro f t path hf
    rw [hother f, hf]
    rintro rfl
    exact Use.noConfusion (hc.symm.trans hf)
  have hnone : ∀ f path, g.use f ≠ .node as path := by
    intro f path hf
    exact (hs.names f as path hf).elim has hnew
  have ht := hs.tables.plantSpace hc hlow has hnone hk (hs.not_lt (Or.inl rfl)) huser hcopy
  refine ⟨⟨ht, hs.laid, hs.window, ?_, ?_, ?_, hs.kernelAddr,
    ⟨(hhas _).mpr (Or.inr hs.current.1), hs.current.2⟩, ?_⟩, rfl, ?_, fun _ _ _ _ _ _ _ _ _ =>
      rfl, ?_⟩
  · intro as' has'
    rcases (hhas as').mp has' with rfl | hold
    · refine ⟨c, hself, hdesc, ?_⟩
      unfold HasSlot
      rw [hcopy 511 (by decide) (by decide)]
      exact (hs.root_eq (Or.inl rfl) hk).2
    · obtain ⟨r, hr, hdesc', hslot⟩ := hs.roots as' hold
      exact ⟨r, hkeep r as' [] hr, hdesc', hslot⟩
  · intro f t path hf
    by_cases hfc : f = c
    · rw [hfc, hself] at hf
      exact Or.inr ((hhas t).mpr (Or.inl (Use.node.inj hf).1.symm))
    · rw [hother f hfc] at hf
      exact (hs.names f t path hf).imp id (fun h => (hhas t).mpr (Or.inr h))
  · intro as' has'
    rcases List.mem_cons.mp has' with rfl | hold
    · exact hblock
    · exact hs.blocks as' hold
  · intro hpages f
    rw [Finset.mem_erase, ← hs.spare hpages f]
    by_cases hfc : f = c
    · rw [hfc, hself]
      exact iff_of_false Use.noConfusion (fun h => h.1 rfl)
    · rw [hother f hfc]
      exact ⟨fun h => ⟨hfc, h⟩, fun h => h.2⟩
  · exact fun as' r _ _ hr => hkeep r as' [] hr
  · intro as' r k' i has' hno hr hk' hi hks
    obtain rfl := ((hhas as').mp has').resolve_right hno
    obtain rfl := ht.owned.root r c as' hr hself
    obtain rfl := ht.owned.root k' k _ hk' (hkeep k _ [] hk)
    exact hcopy i hi hks

lemma Sound.reSpare (hs : Sound lay w g) {spare' : Finset ℕ} (h : lay.pages → spare' = w.spare) :
    Sound lay { w with spare := spare' } g :=
  { hs with spare := fun hpages f => (hs.spare hpages f).trans (by rw [h hpages]) }

lemma Steady.reSpare {w' : World} {g' : Ghost} {wires : ℕ → ℕ → Prop} (h : Steady wires w w' g g')
    (spare' : Finset ℕ) : Steady wires w { w' with spare := spare' } g g' :=
  ⟨h.kernel, h.root, h.slots, h.fresh⟩

/-- The descriptor of a root, written into the block the heap gave for it. -/
def writeDescriptor (cells : Memory) (as c : ℕ) : Memory :=
  store64 (store64 cells as (c * frameBytes)) (as + 8) (physToVirt (c * frameBytes))

/-- Writing the descriptor of a prepared root into the block the heap gave. -/
theorem Sound.describe {use : ℕ → Use} {ptr n c : ℕ} {live held free : List Block}
    {chunks : List Chunk} (hs : Sound lay w ⟨use, ⟨ptr, n⟩ :: live, held, free, chunks⟩)
    (hc : c < lowFrames) : let w' : World := { w with vmm := { w.vmm with heap := { w.vmm.heap with
      cells := writeDescriptor w.vmm.heap.cells ptr c } } }
    Sound lay w' ⟨use, live, ⟨ptr, n⟩ :: held, free, chunks⟩ ∧
      Steady (fun _ _ => False) w w' ⟨use, ⟨ptr, n⟩ :: live, held, free, chunks⟩
        ⟨use, live, ⟨ptr, n⟩ :: held, free, chunks⟩ ∧
      ¬ w.Has ptr ∧ aspaceAt w'.vmm ptr = rootAspace c := by
  intro w'
  have hout : ∀ x, x < ptr ∨ ptr + headerBytes ≤ x → w'.vmm.heap.cells x = w.vmm.heap.cells x := by
    intro x hx
    unfold headerBytes at hx
    exact (storeLE_of_out _ _ (by omega)).trans (storeLE_of_out _ _ (by omega))
  have hap := List.pairwise_cons.mp hs.laid.arranged.apart
  have hmem : ∀ b ∈ held, b ∈ live ++ held ++ free :=
    fun b hb => List.mem_append_left _ (List.mem_append_right _ hb)
  have hnew : ¬ w.Has ptr := by
    rintro (rfl | hold)
    · have hbase := (hs.laid.arranged.bounds List.mem_cons_self).1
      exact absurd hs.kernelAddr.2 (Nat.not_lt.mpr hbase)
    · obtain ⟨b, hb, heq⟩ := hs.blocks ptr hold
      have hb' := hap.1 b (hmem b hb)
      unfold Apart Block.stop headerBytes at hb'
      dsimp only at hb'
      omega
  obtain ⟨hs', hst⟩ := hs.heapStep (h := w'.vmm.heap) rfl hs.tables (laid_retire hs.laid hout)
    (fun b hb => List.mem_cons_of_mem _ hb)
    (fun b hb x hlo hhi => by
      have hb' := hap.1 b (hmem b hb)
      unfold Apart Block.stop at hb'
      dsimp only at hb'
      exact hout x (by omega))
    (fun _ _ hr _ => hr) (fun _ _ _ _ _ _ _ => rfl) hs.names hs.spare
  refine ⟨hs', hst, hnew, ?_⟩
  have hkernel : ptr ≠ w.vmm.kernelAddr := fun h => hnew (Or.inl h)
  unfold aspaceAt rootAspace
  rw [if_neg hkernel]
  dsimp only [w']
  unfold writeDescriptor
  have hphys : c * frameBytes < 2 ^ 64 := by
    unfold frameBytes
    unfold lowFrames at hc
    omega
  have halias : physToVirt (c * frameBytes) < 2 ^ 64 := Nat.mod_lt _ (by decide)
  rw [load64_store64_self _ _ halias, load64_store64_of_disjoint _ _ (Or.inl le_rfl),
    load64_store64_self _ _ hphys]

/-- What follows the heap's answer: give the root back, or write its descriptor. -/
def finishCreate (s : Vmm) (c : ℕ) (r : Heap × ℕ) : Vmm × ℕ :=
  if r.2 = 0 then
    ({ s with heap := { r.1 with
        vm := { r.1.vm with pmm := tpmmFree r.1.vm.pmm (c * frameBytes) } } }, 0)
  else ({ s with heap := { r.1 with cells := writeDescriptor r.1.cells r.2 c } }, r.2)

lemma vmmAspaceCreate_of_frame {s : Vmm} {c k : ℕ} {r : Pmm × ℕ}
    (hr : tpmmAllocLow s.heap.vm.pmm = r) (hc : r.2 = c * frameBytes) (h0 : r.2 ≠ 0)
    (hlow : c < lowFrames) (hk : rootOf s s.kernelAddr = k * frameBytes) :
    vmmAspaceCreate s =
      (tmalloc { s.heap with vm := ⟨newPml4 s.heap.vm.mem c k, r.1⟩ } 16).map (finishCreate s c) :=
        by
  have htarget : target (c * frameBytes) = c * frameBytes :=
    target_frame (by unfold lowFrames at hlow; omega)
  have hmem : copyKernelSlots (tmemset s.heap.vm.mem (c * frameBytes) 0 4096) (c * frameBytes)
      (k * frameBytes) 512 = newPml4 s.heap.vm.mem c k := by
    unfold newPml4 frameBytes entries
    rw [tmemset_eq_fill]
  unfold vmmAspaceCreate
  dsimp only
  rw [hr, if_neg h0, hk, hc, htarget, hmem]
  rfl

/-- A creation either changes no space, or adds one whose tree is its root. -/
structure Created (w w' : World) (g' : Ghost) (as c : ℕ) : Prop where
  spaces : w'.spaces = as :: w.spaces
  new : ¬ w.Has as
  root : g'.use c = .node as []
  only : ∀ f path, g'.use f = .node as path → f = c
  taken : c ∈ freeSet w.vm.pmm ∧ freeSet (tpmmAllocLow w.vm.pmm).1 = (freeSet w.vm.pmm).erase c
  pool : freeSet w'.vm.pmm ⊆ freeSet (tpmmAllocLow w.vm.pmm).1
  spare : w'.spare = w.spare

theorem Sound.create (hs : Sound lay w g) (hroom : HasRoom w.vmm.heap 16) :
    ∃ w' g', step w .create = some w' ∧ Sound lay w' g' ∧ Steady (fun _ _ => False) w w' g g' ∧
      w'.vmm.current = w.vmm.current ∧ w'.spare = w.spare ∧
      (w'.spaces = w.spaces ∨ ∃ as c, Created w w' g' as c) := by
  obtain ⟨k, hk, hroot, _⟩ := hs.root (Or.inl rfl)
  obtain ⟨hspec, hbelow⟩ := tpmmAllocLow_spec hs.tables.valid
  obtain ⟨r, hr⟩ : ∃ r, tpmmAllocLow w.vm.pmm = r := ⟨_, rfl⟩
  rw [hr] at hspec hbelow
  by_cases h0 : r.2 = 0
  · have hsame : vmmAspaceCreate w.vmm = some (w.vmm, 0) := by
      unfold vmmAspaceCreate
      rw [hr, if_pos h0, hspec.refused hs.tables.valid h0]
      rfl
    refine ⟨w, g, ?_, hs, ⟨rfl, fun _ _ _ _ h => h, fun _ _ _ _ _ _ _ _ _ => rfl,
      fun _ _ _ _ h hno => absurd h hno⟩, rfl, rfl, Or.inl rfl⟩
    simp only [step, hsame]
    rfl
  obtain ⟨c, hc, hfree, _, hset⟩ := granted_one hs.tables.valid hspec h0
  have hlow : c < lowFrames := by
    have := hbelow.resolve_left h0
    rw [hc] at this
    unfold frameBytes pageSize lowFrames at *
    omega
  have hne : k ≠ c := by
    rintro rfl
    exact ne_idle_of_node hk (hs.tables.idle_of_free hfree)
  obtain ⟨hs₁, hst₁, _⟩ := hs.takeRoot k hfree (hspec.valid hs.tables.valid) hset hspec.totalFrames
  obtain ⟨h, ptr, use', live, free, chunks, heq, hs₂, hst₂, hquiet, hlive⟩ :=
    hs₁.request (n := 16) (by decide) hroom
  have hc₂ : use' c = .spare := by
    have hself : Function.update g.use c .spare c = .spare := Function.update_self c _ g.use
    exact (hquiet.keep c (fun h => Use.noConfusion (hself.symm.trans h))).trans hself
  have hstep : step w .create = some { w with
      vmm := (finishCreate w.vmm c (h, ptr)).1
      spaces := if (finishCreate w.vmm c (h, ptr)).2 = 0 then w.spaces
        else (finishCreate w.vmm c (h, ptr)).2 :: w.spaces } := by
    have hcreate := vmmAspaceCreate_of_frame hr hc h0 hlow hroot
    have heq' : tmalloc { w.vmm.heap with vm := ⟨newPml4 w.vm.mem c k, r.1⟩ } 16 = some (h, ptr) :=
      heq
    rw [heq'] at hcreate
    simp only [step, hcreate, Option.map_some]
  have hst₁₂ := hst₁.trans hst₂ (fun _ h => h) (fun _ h => h)
  have hspare : lay.pages → w.spare = (insert c w.spare).erase c := by
    intro hpages
    refine (Finset.erase_insert (fun hmem => ?_)).symm
    exact Use.noConfusion ((hs.tables.idle_of_free hfree).symm.trans ((hs.spare hpages c).mpr hmem))
  by_cases hptr : ptr = 0
  · obtain ⟨_, hs₃, hst₃, _⟩ := hs₂.giveFrame hc₂
    have hfin : finishCreate w.vmm c (h, ptr) = _ := if_pos hptr
    rw [hfin, if_pos rfl] at hstep
    refine ⟨_, _, hstep, hs₃.reSpare hspare, ?_, rfl, rfl, Or.inl rfl⟩
    exact (hst₁₂.trans hst₃ (fun _ h => h) (fun _ h => h)).reSpare w.spare
  · obtain rfl := hlive hptr
    obtain ⟨hs₃, hst₃, hnew, hdesc⟩ := hs₂.describe hlow
    have hk₂ : use' k = .node w.vmm.kernelAddr [] := hst₁₂.root _ k (Or.inl rfl) (Or.inl rfl) hk
    have hcopied : ∀ i < entries, entry h.vm.mem (c * frameBytes) i =
        if kernelSlot i = true then entry w.vm.mem (k * frameBytes) i else 0 := by
      intro i hi
      rw [← entry_newPml4 w.vm.mem hi hne]
      refine entry_congr_frame hi (fun x hx => hquiet.content x ?_)
      rw [hx, hc₂]
      rintro ⟨t, path, h, _⟩
      exact Use.noConfusion h
    have hkept : ∀ i < entries, kernelSlot i = true →
        entry h.vm.mem (k * frameBytes) i = entry w.vm.mem (k * frameBytes) i :=
      fun i hi hks => hst₁₂.slots _ k i (Or.inl rfl) (Or.inl rfl) hk hi hks (fun hw => hw)
    obtain ⟨hs₄, hst₄⟩ := hs₃.addSpace hc₂ hlow hnew
      ⟨_, List.mem_cons_self, rfl⟩ hdesc hk₂
      (fun i hi hks => (hcopied i hi).trans (if_neg (by rw [hks]; exact Bool.false_ne_true)))
      (fun i hi hks => ((hcopied i hi).trans (if_pos hks)).trans (hkept i hi hks).symm)
    have hfin : finishCreate w.vmm c (h, ptr) = _ := if_neg hptr
    rw [hfin, if_neg hptr] at hstep
    refine ⟨_, _, hstep, hs₄.reSpare hspare, ?_, rfl, rfl, Or.inr ⟨ptr, c, rfl, hnew, ?_, ?_,
      ⟨hfree, hr.symm ▸ hset⟩, ?_, rfl⟩⟩
    · have hst₁₃ := hst₁₂.trans hst₃ (fun _ h => h) (fun _ h => h)
      exact (hst₁₃.trans hst₄ (fun _ h => h) (fun _ h => h)).reSpare w.spare
    · exact Function.update_self c _ _
    · intro f path hf
      by_contra hfc
      have hf' : use' f = .node ptr path := (Function.update_of_ne hfc _ _).symm.trans hf
      exact (hs₂.names f ptr path hf').elim (hs₄.not_lt (Or.inr List.mem_cons_self)) hnew
    · rw [hr]
      exact hquiet.pool

/-! ## Destruction -/

/-- The frames a destruction gives back, in order. -/
def freedSpace (w : World) (r : ℕ) : List ℕ := freedSlots w.vm.mem (r * frameBytes) ++ [r]

lemma tfree_of_not_magic {h : Heap} {ptr : ℕ} (h0 : ptr ≠ 0) (hm : blockMeta h ptr ≠ mallocMagic) :
    tfree h ptr = h := by
  unfold tfree
  rw [if_neg h0, if_pos hm]

lemma giveBack_singleton (s : Pmm) (f : ℕ) : giveBack s [f] = tpmmFree s (f * frameBytes) := rfl

/-- The descriptor of a space has overwritten the header of its block, so the heap
takes the pointer for a bogus one. -/
theorem vmmAspaceDestroy_eq (hs : Sound lay w g) {as r : ℕ} (has : as ∈ w.spaces)
    (hcur : as ≠ w.vmm.current) (hr : g.use r = .node as []) :
    vmmAspaceDestroy w.vmm as =
      setVm w.vmm { w.vm with pmm := giveBack w.vm.pmm (freedSpace w r) } := by
  obtain ⟨r', hr', hdesc, _⟩ := hs.roots as (Or.inr has)
  obtain rfl := hs.tables.owned.root r' r as hr' hr
  have hroot := (hs.root_eq (Or.inr has) hr).1
  have hlow := hs.tables.low r' as [] hr (by decide)
  have hbase : heapVirtBase ≤ as := by
    obtain ⟨b, hb, rfl⟩ := hs.blocks as has
    exact (hs.laid.arranged.bounds (List.mem_append_left _ (List.mem_append_right _ hb))).1
  have h0 : as ≠ 0 := by
    unfold heapVirtBase at hbase
    omega
  have hkernel : as ≠ w.vmm.kernelAddr := by
    have := hs.kernelAddr.2
    omega
  have hmeta : load64 w.vmm.heap.cells (as + 8) ≠ mallocMagic := by
    have hload : load64 w.vmm.heap.cells (as + 8) = physToVirt (r' * frameBytes) := by
      have hpml4 := congrArg Aspace.pml4 hdesc
      rwa [aspaceAt, if_neg hkernel] at hpml4
    rw [hload]
    unfold physToVirt virtBase frameBytes mallocMagic
    unfold lowFrames at hlow
    omega
  have hbogus : ∀ p, tfree { w.vmm.heap with vm := p } as = { w.vmm.heap with vm := p } :=
    fun p => tfree_of_not_magic h0 hmeta
  unfold vmmAspaceDestroy freedSpace setVm
  dsimp only
  rw [if_neg (not_or.mpr ⟨h0, hcur⟩), hroot, hdesc, freeSlots_eq, hbogus, giveBack_append,
    giveBack_singleton]
  dsimp only [rootAspace]

/-- The root and what is below the PDPTs of a space come back, each frame once; its
PDPTs do not. -/
theorem freedSpace_spec (hs : Sound lay w g) (hpages : lay.pages) {as r : ℕ} (has : w.Has as)
    (hr : g.use r = .node as []) :
    (freedSpace w r).Nodup ∧
      ∀ f, f ∈ freedSpace w r ↔ ∃ path, g.use f = .node as path ∧ path.length ≠ 1 := by
  have hlists := lists_freedSlots hs.tables hpages hr (hs.not_lt has)
  have hmem : ∀ f, f ∈ freedSlots w.vm.mem (r * frameBytes) ↔
      ∃ path, g.use f = .node as path ∧ 2 ≤ path.length := by
    intro f
    rw [hlists.mem f]
    simp only [List.nil_append]
    exact exists_congr fun path => and_comm
  have hnot : r ∉ freedSlots w.vm.mem (r * frameBytes) := by
    intro hin
    obtain ⟨path, hpath, hlen⟩ := (hmem r).mp hin
    rw [hr] at hpath
    rw [← (Use.node.inj hpath).2] at hlen
    exact absurd hlen (by decide)
  unfold freedSpace
  refine ⟨hlists.nodup.append (List.nodup_singleton r) (List.disjoint_singleton.mpr hnot),
    fun f => ?_⟩
  rw [List.mem_append, List.mem_singleton, hmem f]
  constructor
  · rintro (⟨path, hpath, hlen⟩ | rfl)
    · exact ⟨path, hpath, by omega⟩
    · exact ⟨[], hr, by decide⟩
  · rintro ⟨path, hpath, hlen⟩
    by_cases hnil : path.length = 0
    · rw [List.length_eq_zero_iff.mp hnil] at hpath
      exact Or.inr (hs.tables.owned.root f r as hpath hr)
    · exact Or.inl ⟨path, hpath, by omega⟩

open Classical in
/-- Destroying a space that is not the current one. -/
theorem Sound.destroy (hs : Sound lay w g) (hpages : lay.pages) {as r : ℕ} (has : as ∈ w.spaces)
    (hcur : as ≠ w.vmm.current) (hr : g.use r = .node as []) {w' : World}
    (hstep : step w (.destroy as) = some w') : ∃ use', Sound lay w' { g with use := use' } ∧
      Steady (fun _ _ => False) w w' g { g with use := use' } ∧
      w'.vm = { w.vm with pmm := giveBack w.vm.pmm (freedSpace w r) } ∧
      freeSet w'.vm.pmm = freeSet w.vm.pmm ∪ (freedSpace w r).toFinset := by
  simp only [step] at hstep
  rw [if_pos has, if_neg hcur, vmmAspaceDestroy_eq hs has hcur hr] at hstep
  obtain ⟨_, hmem⟩ := freedSpace_spec hs hpages (Or.inr has) hr
  obtain ⟨fs, hfs⟩ : ∃ fs, freedSpace w r = fs := ⟨_, rfl⟩
  rw [hfs] at hstep hmem ⊢
  have hne : ∀ f ∈ fs, g.use f ≠ .idle := by
    intro f hf
    obtain ⟨path, hpath, _⟩ := (hmem f).mp hf
    exact ne_idle_of_node hpath
  obtain ⟨hv, hset, htot⟩ := giveBack_spec hs.tables.valid fs
    (fun f hf => ⟨hs.tables.managed f (hne f hf), hs.tables.ne_zero (hne f hf)⟩)
  obtain ⟨s, hs'⟩ : ∃ s, giveBack w.vm.pmm fs = s := ⟨_, rfl⟩
  rw [hs'] at hstep hv hset htot ⊢
  cases hstep
  have hhas : ∀ as', as' = w.vmm.kernelAddr ∨ as' ∈ w.spaces.filter (· ≠ as) → w.Has as' ∧
    as' ≠ as := by
    rintro as' (rfl | hin)
    · refine ⟨Or.inl rfl, fun heq => ?_⟩
      obtain ⟨b, hb, heq'⟩ := hs.blocks as has
      have hbase :=
        (hs.laid.arranged.bounds (List.mem_append_left _ (List.mem_append_right _ hb))).1
      have := hs.kernelAddr.2
      omega
    · rw [List.mem_filter, decide_eq_true_eq] at hin
      exact ⟨Or.inr hin.1, hin.2⟩
  let use' : ℕ → Use := fun f => if ∃ path, g.use f = .node as path then .idle else g.use f
  have hgone : ∀ f path, g.use f = .node as path → use' f = .idle := fun f path hf =>
    if_pos ⟨path, hf⟩
  have hkeep : ∀ f, (∀ path, g.use f ≠ .node as path) → use' f = g.use f :=
    fun f hf => if_neg (fun h => h.elim hf)
  have hstay : ∀ f t path, t ≠ as → g.use f = .node t path → use' f = .node t path := by
    intro f t path hta hf
    rw [hkeep f, hf]
    intro path' hp
    exact hta (Use.node.inj (hf.symm.trans hp)).1
  have ht := hs.tables.pruneSpace (hs.not_lt (Or.inr has))
    hgone hkeep hv htot (fun f hf => by
      rw [hset, Finset.mem_union, List.mem_toFinset] at hf
      refine hf.imp id (fun hin => ?_)
      obtain ⟨path, hpath, _⟩ := (hmem f).mp hin
      exact ⟨path, hpath⟩)
  refine ⟨use', ⟨ht, laid_setVm hs.laid _ _, hs.window, ?_, ?_, ?_, hs.kernelAddr, ?_, ?_⟩,
    ⟨rfl, ?_, fun _ _ _ _ _ _ _ _ _ => rfl, fun as' _ _ _ has' hno => absurd (hhas as' has').1 hno⟩,
    rfl, hset⟩
  · intro as' has'
    obtain ⟨hold, hne'⟩ := hhas as' has'
    obtain ⟨r', hr', hdesc, hslot⟩ := hs.roots as' hold
    refine ⟨r', hstay r' as' [] hne' hr', ?_, hslot⟩
    exact (aspaceAt_congr rfl rfl (fun _ => ⟨rfl, rfl⟩)).trans hdesc
  · intro f t path hf
    have hnot : ∀ path, g.use f ≠ .node as path := fun path' hp =>
      Use.noConfusion ((hgone f path' hp).symm.trans hf)
    have hold : g.use f = .node t path := (hkeep f hnot).symm.trans hf
    refine (hs.names f t path hold).imp id (fun ht => ht.imp id (fun hin => ?_))
    rw [List.mem_filter, decide_eq_true_eq]
    exact ⟨hin, fun heq => hnot path (heq ▸ hold)⟩
  · exact fun as' has' => hs.blocks as' (List.mem_of_mem_filter has')
  · refine ⟨hs.current.1.imp id (fun hin => ?_), ?_⟩
    · rw [List.mem_filter, decide_eq_true_eq]
      exact ⟨hin, hcur.symm⟩
    · exact hs.current.2.trans (rootOf_setVm w.vmm _ _).symm
  · intro hp f
    rw [← hs.spare hp f]
    change use' f = .spare ↔ _
    by_cases hex : ∃ path, g.use f = .node as path
    · obtain ⟨path, hpath⟩ := hex
      rw [hpath, hgone f path hpath]
      exact iff_of_false Use.noConfusion Use.noConfusion
    · rw [hkeep f (fun path h => hex ⟨path, h⟩)]
  · exact fun as' r' _ has' hr' => hstay r' as' [] (hhas as' has').2 hr'

end Life

end TraitOS.Tvmm
