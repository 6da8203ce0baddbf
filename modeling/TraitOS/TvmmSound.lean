import TraitOS.TvmmWorld

/-!
# What every call preserves

One lemma for each call on address spaces: the invariant holds afterwards, and the
kernel half of every PML4 is as it was, but for the entry that a mapping of a
missing slot wires.
-/
namespace TraitOS.Tvmm
open ByteMemory PageTable FreeList Tpmm Tmalloc

variable {use' : ℕ → Use} {w' : World}

/-- Spaces that stay keep their root, and its kernel half but for the given
entries. -/
structure Steady (wires : ℕ → ℕ → Prop) (w w' : World) (g g' : Ghost) : Prop where
  kernel : w'.vmm.kernelAddr = w.vmm.kernelAddr
  root : ∀ as r, w.Has as → w'.Has as → g.use r = .node as [] → g'.use r = .node as []
  slots : ∀ as r i, w.Has as → w'.Has as → g.use r = .node as [] → i < entries →
    kernelSlot i = true → ¬ wires r i →
    entry w'.vm.mem (r * frameBytes) i = entry w.vm.mem (r * frameBytes) i
  fresh : ∀ as r k i, w'.Has as → ¬ w.Has as → g'.use r = .node as [] →
    g'.use k = .node w.vmm.kernelAddr [] → i < entries → kernelSlot i = true →
    entry w'.vm.mem (r * frameBytes) i = entry w'.vm.mem (k * frameBytes) i

lemma laid_setVm {h : Heap} {live held free : List Block} {chunks : List Chunk}
    (hl : Laid h live held free chunks) (p : Paging) (current : ℕ) :
    Laid { h with vm := p, current := current } live held free chunks :=
  ⟨hl.stored.frame rfl (fun _ _ _ _ _ => rfl), hl.arranged, hl.count, hl.used⟩

section Update
variable {lay : Layout} {w : World} {g : Ghost}

/-- Calls that leave the descriptors, the heap and the set of spaces alone. -/
theorem Sound.update (hs : Sound lay w g) {p' : Paging} {spare' : Finset ℕ} {wires : ℕ → ℕ → Prop}
    (ht : Tables lay p' use')
    (hroots : ∀ r t, g.use r = .node t [] → ¬ t < pmmMaxFrames → use' r = .node t [])
    (hslots : ∀ r t i, g.use r = .node t [] → ¬ t < pmmMaxFrames → i < entries →
      kernelSlot i = true → ¬ wires r i → entry p'.mem (r * frameBytes) i =
        entry w.vm.mem (r * frameBytes) i)
    (hwires : ∀ r i, wires r i → present (entry w.vm.mem (r * frameBytes) i) = false)
    (hnames : ∀ f t path, use' f = .node t path → t < pmmMaxFrames ∨ w.Has t)
    (hspare : lay.pages → ∀ f, use' f = .spare ↔ f ∈ spare') :
    Sound lay { w.setVm p' with spare := spare' } { g with use := use' } ∧
      Steady wires w { w.setVm p' with spare := spare' } g { g with use := use' } := by
  have hslot : ∀ r t, g.use r = .node t [] → ¬ t < pmmMaxFrames → HasSlot w.vm r →
    HasSlot p' r := by
    intro r t hr hu hold
    unfold HasSlot at hold ⊢
    rw [hslots r t 511 hr hu (by decide) (by decide) (fun hw => ?_)]
    · exact hold
    · exact Bool.false_ne_true ((hwires r 511 hw).symm.trans hold)
  refine ⟨⟨ht, laid_setVm hs.laid p' _, hs.window, ?_, hnames, hs.blocks, hs.kernelAddr, hs.current,
    hspare⟩, rfl, ?_, ?_, ?_⟩
  · intro as has
    obtain ⟨r, hr, hat, hold⟩ := hs.roots as has
    exact ⟨r, hroots r as hr (hs.not_lt has), hat, hslot r as hr (hs.not_lt has) hold⟩
  · exact fun as r has _ hr => hroots r as hr (hs.not_lt has)
  · exact fun as r i has _ hr => hslots r as i hr (hs.not_lt has)
  · exact fun as _ _ _ has' hno => absurd has' hno

lemma Sound.extend_names (hs : Sound lay w g) {fx : Effect} {p' : Paging}
    (hext : Extends fx w.vm p' g.use use') (hgrows : ∀ t, fx.grows t → t < pmmMaxFrames ∨ w.Has t)
    (f t : ℕ) (path : List ℕ) (hf : use' f = .node t path) : t < pmmMaxFrames ∨ w.Has t := by
  by_cases hidle : g.use f = .idle
  · obtain ⟨_, t', path', hg, _, hf'⟩ := hext.fresh f hidle (ne_idle_of_node hf)
    rw [hf'] at hf
    exact (Use.node.inj hf).1 ▸ hgrows t' hg
  · exact hs.names f t path ((hext.keep f hidle).symm.trans hf)

/-- Growing tables of the kernel or of existing spaces. -/
theorem Sound.extend (hs : Sound lay w g) {fx : Effect} {p' : Paging} (ht : Tables lay p' use')
    (hext : Extends fx w.vm p' g.use use') (hgrows : ∀ t, fx.grows t → t < pmmMaxFrames ∨ w.Has t)
    (hwires : ∀ r i, fx.wires r i → present (entry w.vm.mem (r * frameBytes) i) = false) :
    Sound lay (w.setVm p') { g with use := use' } ∧
      Steady fx.wires w (w.setVm p') g { g with use := use' } := by
  refine hs.update ht (fun r t hr _ => (hext.keep r (ne_idle_of_node hr)).trans hr)
    hext.roots hwires
    (hs.extend_names hext hgrows) (fun hpages f => ?_)
  rw [← hs.spare hpages f]
  by_cases hidle : g.use f = .idle
  · refine iff_of_false (fun hs' => ?_) (fun hs' => Use.noConfusion (hidle.symm.trans hs'))
    obtain ⟨_, t, path, _, _, hf⟩ := hext.fresh f hidle (by rw [hs']; exact Use.noConfusion)
    exact Use.noConfusion (hf.symm.trans hs')
  · rw [hext.keep f hidle]

/-! ## Calls on the kernel half -/

/-- The PD entry of an address is a large leaf. -/
def underLeaf (m : Memory) (root virt : ℕ) : Bool :=
  (tableLookup m root (pml4Index virt)).elim false fun pdpt =>
    (tableLookup m pdpt (pdptIndex virt)).elim false fun pd =>
      present (entry m pd (pdIndex virt)) && large (entry m pd (pdIndex virt))

lemma uncovered_of_not_underLeaf {p : Paging} {use : ℕ → Use} (ht : Tables lay p use)
    {r tree virt : ℕ} (hr : use r = .node tree []) (hu : ¬ tree < pmmMaxFrames)
    (hk : kernelSlot (pml4Index virt) = true)
    (hleaf : underLeaf p.mem (r * frameBytes) virt = false) : Uncovered lay p.mem r virt := by
  intro hp hcov
  have hroot := ht.slots r tree _ hr hu (pml4Index_lt virt) hk hp
  obtain ⟨f, hf, hpf, hl⟩ := ht.leaves _ _ _ hcov (pdIndex_lt virt)
  obtain ⟨f', hf', _, _, hp', hk'⟩ := ht.owned.up f _ [] _ hf
  have heq := ht.owned.unique _ [] f' _ hf' hroot
  rw [heq] at hp' hk'
  unfold underLeaf at hleaf
  rw [tableLookup_of_present hp, target_eq_frameNo, Option.elim_some, tableLookup_of_present hp',
    target_eq_frameNo, hk', Option.elim_some, hpf, hl] at hleaf
  exact Bool.false_ne_true hleaf.symm

lemma not_userSlot_of_kernel {virt : ℕ} (hk : kernelSlot (pml4Index virt) = true) :
    ¬ (0 < pml4Index virt ∧ pml4Index virt < kernelPml4Start) := by
  unfold kernelSlot at hk
  simp only [decide_eq_true_eq] at hk
  omega

lemma userSlot_of_not_kernel {virt : ℕ} (hk : kernelSlot (pml4Index virt) = false) :
    0 < pml4Index virt ∧ pml4Index virt < kernelPml4Start := by
  unfold kernelSlot at hk
  simp only [decide_eq_false_iff_not] at hk
  omega

/-- The kernel-half calls are no-ops on user slots and meet no large leaf. -/
def KernelSafe (w : World) (virt : ℕ) : Prop :=
  kernelSlot (pml4Index virt) = true → underLeaf w.vm.mem w.vmm.heap.current virt = false

instance (w : World) (virt : ℕ) : Decidable (KernelSafe w virt) :=
  inferInstanceAs (Decidable (_ → _))

/-- The entry a mapping may wire: the slot of the address in the current PML4, if it
was missing. -/
def wiredSlot (w : World) (virt r i : ℕ) : Prop :=
  r * frameBytes = w.vmm.heap.current ∧ i = pml4Index virt ∧
    present (entry w.vm.mem (r * frameBytes) i) = false

theorem Sound.mapPage (hs : Sound lay w g) {virt flags : ℕ} (phys : ℕ) (hflags : flags < 2 ^ 64)
    (hsafe : KernelSafe w virt) :
    ∃ use', Sound lay (w.setVm (vmmMapPage w.vm w.vmm.heap.current virt phys flags).1)
        { g with use := use' } ∧
      Steady (wiredSlot w virt) w (w.setVm (vmmMapPage w.vm w.vmm.heap.current virt phys flags).1) g
        { g with use := use' } := by
  cases hk : kernelSlot (pml4Index virt) with
  | false =>
    have hsame : vmmMapPage w.vm w.vmm.heap.current virt phys flags = (w.vm, false) :=
      if_pos (userSlot_of_not_kernel hk)
    rw [hsame]
    exact ⟨g.use, hs.extend hs.tables
      (Extends.refl hs.tables ⟨fun _ => False, wiredSlot w virt, fun _ => False⟩)
      (fun _ => False.elim) (fun _ _ h => h.2.2)⟩
  | true =>
    obtain ⟨r, hr, hroot, _⟩ := hs.root hs.current.1
    have hu := hs.not_lt hs.current.1
    have hcur : w.vmm.heap.current = r * frameBytes := hs.current.2.trans hroot
    have hcov : Uncovered lay w.vm.mem r virt :=
      uncovered_of_not_underLeaf hs.tables hr hu hk (hcur ▸ hsafe hk)
    have hmap : vmmMapPage w.vm w.vmm.heap.current virt phys flags =
        Tvmm.mapPage w.vm (r * frameBytes) virt phys flags :=
      hcur ▸ if_neg (not_userSlot_of_kernel hk)
    have hwide : ∀ {moves : ℕ → Prop} {p' : Paging} {use' : ℕ → Use},
        Extends (kernelEffect w.vm.mem r virt moves) w.vm p' g.use use' →
        Extends ⟨fun t => t < pmmMaxFrames, wiredSlot w virt, moves⟩ w.vm p' g.use use' := by
      intro moves p' use' h
      refine h.mono (fun _ ht => ht) ?_ (fun _ hm => hm)
      rintro r' i ⟨rfl, rfl, habs⟩
      exact ⟨hcur.symm, rfl, habs⟩
    rw [hmap]
    obtain ⟨p', use', ht', ⟨heq, _, hext⟩ | ⟨heq, _, hext⟩⟩ :=
      mapKernel_spec hs.tables phys hr hu hk hflags hcov
    · rw [heq]
      exact ⟨use', hs.extend ht' (hwide hext) (fun _ => Or.inl) (fun _ _ h => h.2.2)⟩
    · rw [heq]
      exact ⟨use', hs.extend ht' (hwide hext) (fun _ => Or.inl) (fun _ _ h => h.2.2)⟩

theorem Sound.unmapPage (hs : Sound lay w g) {virt : ℕ} (hsafe : KernelSafe w virt) :
    Sound lay (w.setVm (vmmUnmapPage w.vm w.vmm.heap.current virt)) g ∧
      Steady (fun _ _ => False) w (w.setVm (vmmUnmapPage w.vm w.vmm.heap.current virt)) g g := by
  cases hk : kernelSlot (pml4Index virt) with
  | false =>
    have hsame : vmmUnmapPage w.vm w.vmm.heap.current virt = w.vm :=
      if_pos (userSlot_of_not_kernel hk)
    rw [hsame]
    exact hs.extend hs.tables
      (Extends.refl hs.tables ⟨fun _ => False, fun _ _ => False, fun _ => False⟩)
      (fun _ => False.elim) (fun _ _ => False.elim)
  | true =>
    obtain ⟨r, hr, hroot, _⟩ := hs.root hs.current.1
    have hu := hs.not_lt hs.current.1
    have hcur : w.vmm.heap.current = r * frameBytes := hs.current.2.trans hroot
    have hcov : Uncovered lay w.vm.mem r virt :=
      uncovered_of_not_underLeaf hs.tables hr hu hk (hcur ▸ hsafe hk)
    have hunmap : vmmUnmapPage w.vm w.vmm.heap.current virt =
        Tvmm.unmapPage w.vm (r * frameBytes) virt := hcur ▸ if_neg (not_userSlot_of_kernel hk)
    rw [hunmap]
    obtain ⟨ht', _, hext⟩ := unmapKernel_spec hs.tables hr hu hk hcov
    exact hs.extend ht' hext (fun _ => False.elim) (fun _ _ => False.elim)

/-! ## Switching, and the pool -/

lemma aspaceAt_congr {s s' : Vmm} {as : ℕ} (hk : s'.kernelAddr = s.kernelAddr)
    (ha : s'.kernelAspace = s.kernelAspace)
    (hc : as ≠ s.kernelAddr → load64 s'.heap.cells as = load64 s.heap.cells as ∧
      load64 s'.heap.cells (as + 8) = load64 s.heap.cells (as + 8)) :
    aspaceAt s' as = aspaceAt s as := by
  unfold aspaceAt
  rw [hk, ha]
  by_cases h : as = s.kernelAddr
  · rw [if_pos h, if_pos h]
  · rw [if_neg h, if_neg h, (hc h).1, (hc h).2]

lemma rootOf_congr {s s' : Vmm} {as : ℕ} (h : aspaceAt s' as = aspaceAt s as) :
    rootOf s' as = rootOf s as := by
  unfold rootOf
  rw [h]

theorem Sound.enter (hs : Sound lay w g) {as root : ℕ} (cr3 : ℕ) (has : w.Has as)
    (hroot : rootOf w.vmm as = root) : let w' : World := { w with vmm := { w.vmm with
      heap := { w.vmm.heap with current := root }, current := as, cr3 := cr3 } }
    Sound lay w' g ∧ Steady (fun _ _ => False) w w' g g := by
  intro w'
  have hat : ∀ as', aspaceAt w'.vmm as' = aspaceAt w.vmm as' :=
    fun as' => aspaceAt_congr rfl rfl (fun _ => ⟨rfl, rfl⟩)
  refine ⟨⟨hs.tables, laid_setVm hs.laid w.vm root, hs.window, ?_, hs.names, hs.blocks,
    hs.kernelAddr, ?_, hs.spare⟩, rfl, fun _ _ _ _ hr => hr, fun _ _ _ _ _ _ _ _ _ => rfl,
    fun _ _ _ _ has' hno => absurd has' hno⟩
  · intro as' has'
    obtain ⟨r, hr, hdesc, hslot⟩ := hs.roots as' has'
    refine ⟨r, hr, ?_, hslot⟩
    rw [hat as', hdesc]
  · refine ⟨has, ?_⟩
    rw [rootOf_congr (hat as), hroot]

theorem Sound.switch (hs : Sound lay w g) {as : ℕ} (has : w.Has as) :
    Sound lay { w with vmm := vmmAspaceSwitch w.vmm as } g ∧
      Steady (fun _ _ => False) w { w with vmm := vmmAspaceSwitch w.vmm as } g g :=
  hs.enter (aspaceAt w.vmm as).pml4Phys has rfl

/-- Frames that are no tables change hands between the pool and their holders. -/
theorem Sound.pool (hs : Sound lay w g) {s : Pmm} {spare' : Finset ℕ} (hv : Valid s)
    (huse : ∀ f t path, use' f = .node t path ↔ g.use f = .node t path)
    (hheld : ∀ f, use' f ≠ .idle → f ∉ freeSet s ∧ f ≠ 0 ∧ f < s.totalFrames)
    (hspare : lay.pages → ∀ f, use' f = .spare ↔ f ∈ spare') :
    Sound lay { w.setVm { w.vm with pmm := s } with spare := spare' } { g with use := use' } ∧
      Steady (fun _ _ => False) w { w.setVm { w.vm with pmm := s } with spare := spare' } g
        { g with use := use' } :=
  hs.update (hs.tables.congr (fun _ _ _ _ _ _ => rfl) huse hv hheld)
    (fun r t hr _ => (huse r t []).mpr hr) (fun _ _ _ _ _ _ _ _ => rfl) (fun _ _ => False.elim)
    (fun f t path hf => hs.names f t path ((huse f t path).mp hf)) hspare

theorem Sound.alloc (hs : Sound lay w g) (a : Allocator) (hstep : step w (.alloc a) = some w') :
    ∃ use', Sound lay w' { g with use := use' } ∧
      Steady (fun _ _ => False) w w' g { g with use := use' } ∧
      ∀ t f, Around t w'.vm use' f ↔ Around t w.vm g.use f := by
  have hspec := a.run_spec hs.tables.valid
  have hv := hspec.valid hs.tables.valid
  cases hstep
  by_cases h0 : (a.run w.vm.pmm).2 = 0
  · rw [if_pos h0, hspec.refused hs.tables.valid h0]
    obtain ⟨hs', hst⟩ := hs.pool hs.tables.valid (fun _ _ _ => Iff.rfl)
      (fun f hf => ⟨hs.tables.held f hf, hs.tables.ne_zero hf, hs.tables.managed f hf⟩) hs.spare
    exact ⟨g.use, hs', hst, fun _ _ => Iff.rfl⟩
  · obtain ⟨_, _, hsub, hset⟩ := hspec.granted hs.tables.valid h0
    have hidle : ∀ f ∈ grantFrames (a.run w.vm.pmm).2 a.pages, g.use f = .idle :=
      fun f hf => hs.tables.idle_of_free (hsub hf)
    rw [if_neg h0]
    have huse : ∀ f t path, (if f ∈ grantFrames (a.run w.vm.pmm).2 a.pages then .spare
        else g.use f) = .node t path ↔ g.use f = .node t path := by
      intro f t path
      by_cases hf : f ∈ grantFrames (a.run w.vm.pmm).2 a.pages
      · rw [if_pos hf]
        exact iff_of_false Use.noConfusion (fun h => ne_idle_of_node h (hidle f hf))
      · rw [if_neg hf]
    refine ⟨fun f => if f ∈ grantFrames (a.run w.vm.pmm).2 a.pages then .spare else g.use f,
      and_assoc.mp ⟨hs.pool hv huse ?_ ?_, fun t f => ?_⟩⟩
    · intro f hf
      rw [hset, Finset.mem_sdiff]
      by_cases hmem : f ∈ grantFrames (a.run w.vm.pmm).2 a.pages
      · have hfree := hsub hmem
        exact ⟨fun h => h.2 hmem, fun hz => hs.tables.valid.zero_used (hz ▸ hfree),
          hspec.totalFrames.symm ▸ ((mem_freeSet _ _).mp hfree).1⟩
      · rw [if_neg hmem] at hf
        exact ⟨fun h => hs.tables.held f hf h.1, hs.tables.ne_zero hf,
          hspec.totalFrames.symm ▸ hs.tables.managed f hf⟩
    · intro hpages f
      rw [Finset.mem_union, ← hs.spare hpages f]
      split_ifs with hf
      · exact iff_of_true rfl (Or.inr hf)
      · exact ⟨Or.inl, fun h => h.resolve_right hf⟩
    · unfold Around
      change f ∈ freeSet (a.run w.vm.pmm).1 ∨ _ ↔ _
      rw [hset, Finset.mem_sdiff]
      simp only [huse]
      by_cases hf : f ∈ grantFrames (a.run w.vm.pmm).2 a.pages
      · rw [if_pos hf]
        exact iff_of_true (Or.inr (Or.inl rfl)) (Or.inl (hsub hf))
      · rw [if_neg hf, and_iff_left hf]

/-- The offset in a frame does not matter to the pool. -/
lemma tpmmFree_frame (s : Pmm) (phys : ℕ) :
    tpmmFree s phys = tpmmFree s (phys / frameBytes * frameBytes) := by
  have hframe : frameOf (phys / frameBytes * frameBytes) = frameOf phys := by
    unfold frameOf pageSize frameBytes
    omega
  unfold tpmmFree
  rw [hframe]

/-- Giving a frame somebody holds back to the pool. -/
theorem Sound.giveFrame (hs : Sound lay w g) {c : ℕ} (hc : g.use c = .spare) :
    freeSet (tpmmFree w.vm.pmm (c * frameBytes)) = insert c (freeSet w.vm.pmm) ∧
      Sound lay { w.setVm { w.vm with pmm := tpmmFree w.vm.pmm (c * frameBytes) } with
        spare := w.spare.erase c } { g with use := Function.update g.use c .idle } ∧
      Steady (fun _ _ => False) w
        { w.setVm { w.vm with pmm := tpmmFree w.vm.pmm (c * frameBytes) } with
          spare := w.spare.erase c } g { g with use := Function.update g.use c .idle } ∧
      ∀ t f, Around t { w.vm with pmm := tpmmFree w.vm.pmm (c * frameBytes) }
        (Function.update g.use c .idle) f ↔ Around t w.vm g.use f := by
  have hne : g.use c ≠ .idle := by
    rw [hc]
    exact Use.noConfusion
  have hlt := hs.tables.small c hne
  have hframe : frameOf (c * frameBytes) = c := by
    unfold frameOf pageSize frameBytes
    unfold pmmMaxFrames pmmMaxAddr pageSize at hlt
    omega
  obtain ⟨hv, hset, htot⟩ := tpmmFree_spec hs.tables.valid (hframe.symm ▸ hs.tables.managed c hne)
    (hframe.symm ▸ hs.tables.ne_zero hne)
  rw [hframe] at hset
  have huse : ∀ f t path, Function.update g.use c .idle f = .node t path ↔
    g.use f = .node t path := by
    intro f t path
    by_cases heq : f = c
    · rw [heq, Function.update_self, hc]
      exact iff_of_false Use.noConfusion Use.noConfusion
    · rw [Function.update_of_ne heq]
  refine ⟨hset, and_assoc.mp ⟨hs.pool hv huse ?_ ?_, fun t f => ?_⟩⟩
  · intro f hf
    have heq : f ≠ c := by
      rintro rfl
      exact hf (Function.update_self ..)
    rw [Function.update_of_ne heq] at hf
    rw [hset, Finset.mem_insert]
    exact ⟨fun h => h.elim heq (hs.tables.held f hf), hs.tables.ne_zero hf,
      htot.symm ▸ hs.tables.managed f hf⟩
  · intro hpages f
    rw [Finset.mem_erase, ← hs.spare hpages f]
    by_cases heq : f = c
    · rw [heq, Function.update_self]
      exact iff_of_false Use.noConfusion (fun h => h.1 rfl)
    · rw [Function.update_of_ne heq]
      exact ⟨fun h => ⟨heq, h⟩, fun h => h.2⟩
  · unfold Around
    dsimp only
    rw [hset, Finset.mem_insert]
    simp only [huse]
    by_cases heq : f = c
    · rw [heq]
      exact iff_of_true (Or.inl (Or.inl rfl)) (Or.inr (Or.inl hc))
    · rw [Function.update_of_ne heq, or_iff_right heq]

theorem Sound.free (hs : Sound lay w g) (hpages : lay.pages) {phys : ℕ}
    (hstep : step w (.free phys) = some w') : ∃ use', Sound lay w' { g with use := use' } ∧
      Steady (fun _ _ => False) w w' g { g with use := use' } ∧
      ∀ t f, Around t w'.vm use' f ↔ Around t w.vm g.use f := by
  simp only [step] at hstep
  by_cases hmem : phys / frameBytes ∈ w.spare
  · rw [if_pos hmem, tpmmFree_frame] at hstep
    cases hstep
    exact ⟨_, (hs.giveFrame ((hs.spare hpages _).mpr hmem)).2⟩
  · rw [if_neg hmem] at hstep
    exact nomatch hstep

/-! ## Calls on the user half -/

lemma tableLookup_frame {m : Memory} {table i x : ℕ} (h : tableLookup m table i = some x) :
    ∃ f, x = f * frameBytes := by
  unfold tableLookup at h
  by_cases hp : present (entry m table i) = true
  · rw [if_pos hp] at h
    exact ⟨_, (Option.some.inj h).symm.trans (target_eq_frameNo _)⟩
  · rw [if_neg hp] at h
    exact nomatch h

lemma physOf_frame {m : Memory} {root virt x : ℕ} (h : physOf m root virt = some x) :
    ∃ f, x = f * frameBytes := by
  unfold physOf at h
  obtain ⟨pdpt, _, h⟩ := Option.bind_eq_some_iff.mp h
  obtain ⟨pd, _, h⟩ := Option.bind_eq_some_iff.mp h
  by_cases hl : large (entry m pd (pdIndex virt)) = true
  · rw [if_pos hl] at h
    exact ⟨_, (Option.some.inj h).symm.trans (target_eq_frameNo _)⟩
  · rw [if_neg hl] at h
    obtain ⟨pt, _, h⟩ := Option.bind_eq_some_iff.mp h
    exact tableLookup_frame h

lemma mem_pageBehind {as virt : ℕ} (hk : kernelSlot (pml4Index virt) = false) (f : ℕ) :
    f ∈ w.pageBehind as virt ↔ physOf w.vm.mem (rootOf w.vmm as) virt = some (f * frameBytes) := by
  have hphys : vmmAspacePhys w.vmm as virt = physOf w.vm.mem (rootOf w.vmm as) virt :=
    if_neg (by rw [hk]; exact Bool.false_ne_true)
  unfold World.pageBehind
  rw [hphys]
  cases h : physOf w.vm.mem (rootOf w.vmm as) virt with
  | none => simp
  | some x =>
    obtain ⟨f', rfl⟩ := physOf_frame h
    rw [Option.elim_some, Finset.mem_singleton, Option.some.injEq]
    unfold frameBytes
    omega

lemma rootOf_setVm (s : Vmm) (p : Paging) (as : ℕ) : rootOf (setVm s p) as = rootOf s as :=
  rootOf_congr (aspaceAt_congr rfl rfl (fun _ => ⟨rfl, rfl⟩))

/-- Lookups of all spaces keep their results, away from the given pages. -/
def SameView (w w' : World) (moves : ℕ → ℕ → Prop) : Prop :=
  ∀ as v, w.Has as → ¬ moves as v →
    physOf w'.vm.mem (rootOf w'.vmm as) v = physOf w.vm.mem (rootOf w.vmm as) v

lemma Sound.sameView (hs : Sound lay w g) {p' : Paging} {moves : ℕ → ℕ → Prop} (spare' : Finset ℕ)
    (h : SameLookups w.vm p' g.use moves) :
    SameView w { w.setVm p' with spare := spare' } moves := by
  intro as v has hoff
  obtain ⟨r, hr, hroot, _⟩ := hs.root has
  change physOf p'.mem (rootOf (Tvmm.setVm w.vmm p') as) v = _
  rw [rootOf_setVm, hroot]
  exact h r as v hr (hs.not_lt has) hoff

lemma Sound.handover (hs : Sound lay w g) {p' : Paging} {as : ℕ} (spare' : Finset ℕ)
    (has : w.Has as) (ht : Tables lay p' use') (hover : Handover as w.vm p' g.use use')
    (hspare : lay.pages → ∀ f, use' f = .spare ↔ f ∈ spare') :
    Sound lay { w.setVm p' with spare := spare' } { g with use := use' } ∧
      Steady (fun _ _ => False) w { w.setVm p' with spare := spare' } g { g with use := use' } := by
  refine hs.update ht (fun r t hr _ => hover.keep r t [] (Or.inl (by decide)) hr)
    (fun r t i hr hu hi hk _ => hover.roots r t i hr hu hi hk) (fun _ _ => False.elim) ?_ hspare
  intro f t path hf
  rcases hover.names f t path hf with rfl | hold
  · exact Or.inr has
  · exact hs.names f t path hold

/-- Mapping a page of a space to a frame its caller holds. -/
theorem Sound.map (hs : Sound lay w g) (hpages : lay.pages) {as virt phys flags : ℕ}
    (hpure : target flags = 0) (hheld : frameNo phys ∈ w.spare)
    (hstep : step w (.map as virt phys flags) = some w') :
    ∃ use', Sound lay w' { g with use := use' } ∧
      Steady (fun _ _ => False) w w' g { g with use := use' } ∧
      (∀ f, Around as w'.vm use' f ↔ Around as w.vm g.use f) ∧
      ((vmmAspaceMap w.vmm as virt phys flags).2 = true →
        vmmAspacePhys w'.vmm as virt = some (target phys)) ∧
      SameView w w' fun as' v => (vmmAspaceMap w.vmm as virt phys flags).2 = true ∧
        as' = as ∧ pageOf v = pageOf virt := by
  simp only [step] at hstep
  by_cases hen : w.Has as ∧ flags < 2 ^ 64
  swap
  · rw [if_neg hen] at hstep
    exact nomatch hstep
  obtain ⟨has, hflags⟩ := hen
  rw [if_pos ⟨has, hflags⟩] at hstep
  cases hk : kernelSlot (pml4Index virt) with
  | true =>
    rw [show vmmAspaceMap w.vmm as virt phys flags = (w.vmm, false) from if_pos hk] at hstep ⊢
    cases hstep
    exact ⟨g.use, hs, ⟨rfl, fun _ _ _ _ hr => hr, fun _ _ _ _ _ _ _ _ _ => rfl,
      fun _ _ _ _ h hno => absurd h hno⟩, fun _ => Iff.rfl,
      fun h => absurd h Bool.false_ne_true, fun _ _ _ _ => rfl⟩
  | false =>
    obtain ⟨r, hr, hroot, _⟩ := hs.root has
    have hu := hs.not_lt has
    have hspare := (hs.spare hpages (frameNo phys)).mpr hheld
    obtain ⟨p', use', ht', hover, hres⟩ :=
      mapUser_spec hs.tables hpages hr hu hk hflags hpure hspare rfl
    have hmap : ∀ b, Tvmm.mapPage w.vm (r * frameBytes) virt phys flags = (p', b) →
        vmmAspaceMap w.vmm as virt phys flags = (Tvmm.setVm w.vmm p', b) := by
      intro b heq
      unfold vmmAspaceMap
      rw [hk, if_neg Bool.false_ne_true, hroot, heq]
    rcases hres with ⟨heq, _, hsp, hlook⟩ | ⟨heq, hphys, hsp, hlook⟩
    · rw [hmap false heq] at hstep ⊢
      cases hstep
      obtain ⟨hs', hst⟩ := hs.handover w.spare has ht' hover
        (fun _ f => (hsp f).trans (hs.spare hpages f))
      refine ⟨use', hs', hst, hover.around, fun h => absurd h Bool.false_ne_true, ?_⟩
      exact fun as' v has' _ => hs.sameView w.spare hlook as' v has' id
    · rw [hmap true heq] at hstep ⊢
      cases hstep
      obtain ⟨hs', hst⟩ := hs.handover ((w.spare ∪ w.pageBehind as virt).erase (frameNo phys))
        has ht' hover (fun _ f => by
          rw [hsp, Finset.mem_erase, Finset.mem_union, ← hs.spare hpages f, mem_pageBehind hk,
            hroot])
      refine ⟨use', hs', hst, hover.around, fun _ => ?_, ?_⟩
      · unfold vmmAspacePhys
        rw [hk, if_neg Bool.false_ne_true, rootOf_setVm, hroot]
        exact hphys
      · exact fun as' v has' hoff => hs.sameView _ hlook as' v has' (fun h => hoff ⟨rfl, h⟩)

/-- Unmapping a page of a space: a page that was there is its caller's again. -/
theorem Sound.unmap (hs : Sound lay w g) (hpages : lay.pages) {as virt : ℕ}
    (hstep : step w (.unmap as virt) = some w') : ∃ use', Sound lay w' { g with use := use' } ∧
      Steady (fun _ _ => False) w w' g { g with use := use' } ∧
      (∀ f, Around as w'.vm use' f ↔ Around as w.vm g.use f) ∧
      vmmAspacePhys w'.vmm as virt = none ∧
      SameView w w' fun as' v => as' = as ∧ pageOf v = pageOf virt := by
  simp only [step] at hstep
  by_cases has : w.Has as
  swap
  · rw [if_neg has] at hstep
    exact nomatch hstep
  rw [if_pos has] at hstep
  cases hk : kernelSlot (pml4Index virt) with
  | true =>
    have hphys : vmmAspacePhys w.vmm as virt = none := if_pos hk
    have hnone : w.pageBehind as virt = ∅ := by
      unfold World.pageBehind
      rw [hphys, Option.elim_none]
    rw [show vmmAspaceUnmap w.vmm as virt = w.vmm from if_pos hk, hnone,
      Finset.union_empty] at hstep
    cases hstep
    exact ⟨g.use, hs, ⟨rfl, fun _ _ _ _ hr => hr, fun _ _ _ _ _ _ _ _ _ => rfl,
      fun _ _ _ _ h hno => absurd h hno⟩, fun _ => Iff.rfl, hphys, fun _ _ _ _ => rfl⟩
  | false =>
    obtain ⟨r, hr, hroot, _⟩ := hs.root has
    obtain ⟨use', ht', hover, hphys, hsp, hlook⟩ :=
      unmapUser_spec hs.tables hpages hr (hs.not_lt has) hk
    have hunmap : vmmAspaceUnmap w.vmm as virt =
        Tvmm.setVm w.vmm (Tvmm.unmapPage w.vm (r * frameBytes) virt) := by
      unfold vmmAspaceUnmap
      rw [hk, if_neg Bool.false_ne_true, hroot]
    obtain ⟨p', hp'⟩ : ∃ p', Tvmm.unmapPage w.vm (r * frameBytes) virt = p' := ⟨_, rfl⟩
    rw [hp'] at ht' hover hphys hlook hunmap
    rw [hunmap] at hstep
    cases hstep
    obtain ⟨hs', hst⟩ := hs.handover (w.spare ∪ w.pageBehind as virt) has ht' hover (fun _ f => by
      rw [hsp, Finset.mem_union, ← hs.spare hpages f, mem_pageBehind hk, hroot])
    refine ⟨use', hs', hst, hover.around, ?_, hs.sameView _ hlook⟩
    unfold vmmAspacePhys
    rw [hk, if_neg Bool.false_ne_true, rootOf_setVm, hroot]
    exact hphys

/-- The same two calls when nobody keeps track of pages: any frame, any flags. -/
theorem Sound.map_loose (hs : Sound lay w g) (hpages : ¬ lay.pages) {as virt phys flags : ℕ}
    (hstep : step w (.map as virt phys flags) = some w') :
    ∃ use', Sound lay w' { g with use := use' } ∧
      Steady (fun _ _ => False) w w' g { g with use := use' } := by
  simp only [step] at hstep
  by_cases hen : w.Has as ∧ flags < 2 ^ 64
  swap
  · rw [if_neg hen] at hstep
    exact nomatch hstep
  rw [if_pos hen] at hstep
  have has := hen.1
  cases hk : kernelSlot (pml4Index virt) with
  | true =>
    rw [show vmmAspaceMap w.vmm as virt phys flags = (w.vmm, false) from if_pos hk] at hstep
    cases hstep
    exact ⟨g.use, hs, ⟨rfl, fun _ _ _ _ hr => hr, fun _ _ _ _ _ _ _ _ _ => rfl,
      fun _ _ _ _ h hno => absurd h hno⟩⟩
  | false =>
    obtain ⟨r, hr, hroot, _⟩ := hs.root has
    obtain ⟨use', ht', hext, _⟩ := mapUser_loose hs.tables hpages phys hr (hs.not_lt has) hk hen.2
    have hmap : vmmAspaceMap w.vmm as virt phys flags =
        (Tvmm.setVm w.vmm (Tvmm.mapPage w.vm (r * frameBytes) virt phys flags).1,
          (Tvmm.mapPage w.vm (r * frameBytes) virt phys flags).2) := by
      unfold vmmAspaceMap
      rw [hk, if_neg Bool.false_ne_true, hroot]
    obtain ⟨res, hres⟩ : ∃ res, Tvmm.mapPage w.vm (r * frameBytes) virt phys flags = res := ⟨_, rfl⟩
    rw [hres] at ht' hext hmap
    rw [hmap] at hstep
    cases hstep
    exact ⟨use', hs.update ht' (fun r' t hr' _ => (hext.keep r' (ne_idle_of_node hr')).trans hr')
      hext.roots (fun _ _ => False.elim) (hs.extend_names hext (fun t ht => Or.inr (ht ▸ has)))
      (fun h => absurd h hpages)⟩

theorem Sound.unmap_loose (hs : Sound lay w g) (hpages : ¬ lay.pages) {as virt : ℕ}
    (hstep : step w (.unmap as virt) = some w') :
    Sound lay w' g ∧ Steady (fun _ _ => False) w w' g g := by
  simp only [step] at hstep
  by_cases has : w.Has as
  swap
  · rw [if_neg has] at hstep
    exact nomatch hstep
  rw [if_pos has] at hstep
  cases hk : kernelSlot (pml4Index virt) with
  | true =>
    rw [show vmmAspaceUnmap w.vmm as virt = w.vmm from if_pos hk] at hstep
    cases hstep
    exact hs.update hs.tables (fun _ _ hr _ => hr) (fun _ _ _ _ _ _ _ _ => rfl)
      (fun _ _ => False.elim) hs.names (fun h => absurd h hpages)
  | false =>
    obtain ⟨r, hr, hroot, _⟩ := hs.root has
    obtain ⟨ht', hext⟩ := unmapUser_loose hs.tables hpages hr (hs.not_lt has) hk
    have hunmap : vmmAspaceUnmap w.vmm as virt =
        Tvmm.setVm w.vmm (Tvmm.unmapPage w.vm (r * frameBytes) virt) := by
      unfold vmmAspaceUnmap
      rw [hk, if_neg Bool.false_ne_true, hroot]
    obtain ⟨p', hp'⟩ : ∃ p', Tvmm.unmapPage w.vm (r * frameBytes) virt = p' := ⟨_, rfl⟩
    rw [hp'] at ht' hext hunmap
    rw [hunmap] at hstep
    cases hstep
    exact hs.update ht' (fun _ _ hr' _ => hr') hext.roots (fun _ _ => False.elim) hs.names
      (fun h => absurd h hpages)

end Update

end TraitOS.Tvmm
