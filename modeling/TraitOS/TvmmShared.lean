import TraitOS.TmallocCapacity
import TraitOS.TvmmLaw

/-!
# The kernel view of all address spaces

A space copies the kernel half of the kernel's PML4 when it is created. From then on
both lead to the same tables, until a mapping has to wire a top-level entry: that
entry is written to the current PML4 only.
-/
namespace TraitOS.Tvmm
open ByteMemory PageTable FreeList Tpmm Tmalloc Runs

/-- The physical address the processor finds for a virtual one. -/
def translate (m : Memory) (root virt : ℕ) : Option ℕ :=
  (tableLookup m root (pml4Index virt)).bind fun pdpt =>
    (tableLookup m pdpt (pdptIndex virt)).bind fun pd =>
      (tableLookup m pd (pdIndex virt)).bind fun next =>
        if large (entry m pd (pdIndex virt)) then some (next / 2 ^ 21 * 2 ^ 21 + virt % 2 ^ 21)
        else (tableLookup m next (ptIndex virt)).map fun page => page + virt % 4096

lemma translate_congr {m : Memory} {root root' virt : ℕ}
    (h : entry m root' (pml4Index virt) = entry m root (pml4Index virt)) :
    translate m root' virt = translate m root virt := by
  unfold translate
  rw [show tableLookup m root' (pml4Index virt) = tableLookup m root (pml4Index virt) by
    unfold tableLookup
    rw [h]]

/-- No table marks an absent entry as a large leaf. -/
lemma present_of_large {lay : Layout} {p : Paging} {use : ℕ → Use} (ht : Tables lay p use)
    {d t i : ℕ} {q : List ℕ} (hd : use d = .node t q) (hlen : q.length + 2 = levels t)
    (hi : i < entries) (hl : large (entry p.mem (d * frameBytes) i) = true) :
    present (entry p.mem (d * frameBytes) i) = true := by
  by_cases hu : t < pmmMaxFrames
  · have h3 := levels_of_kernel hu
    obtain ⟨b, rfl⟩ := List.length_eq_one_iff.mp (show q.length = 1 by omega)
    by_cases hleaf : lay.leaf t b i
    · obtain ⟨f, hf, hp, _⟩ := ht.leaves t b i hleaf hi
      exact (ht.owned.unique t [b] f d hf hd) ▸ hp
    · have hplain := ht.owned.plain d t [b] i hd (by simp [depth]) hi (spaceScope_kernel hu hleaf)
      exact absurd (hplain.symm.trans hl) Bool.false_ne_true
  · have h4 := levels_of_space hu
    unfold depth at h4
    have hin : spaceScope lay t q i := spaceScope_inner hu (fun h => by simp [h] at hlen; omega)
      (by unfold depth; omega)
    have hplain := ht.owned.plain d t q i hd (by unfold depth; omega) hi hin
    exact absurd (hplain.symm.trans hl) Bool.false_ne_true

/-- The frame of a page directory on the way of an address. -/
lemma directory_node {lay : Layout} {p : Paging} {use : ℕ → Use} (ht : Tables lay p use)
    {r tree virt pdpt pd : ℕ} (hr : use r = .node tree []) (hu : ¬ tree < pmmMaxFrames)
    (h1 : tableLookup p.mem (r * frameBytes) (pml4Index virt) = some pdpt)
    (h2 : tableLookup p.mem pdpt (pdptIndex virt) = some pd) :
    ∃ d t q, pd = d * frameBytes ∧ use d = .node t q ∧ q.length + 2 = levels t := by
  obtain ⟨hp1, rfl⟩ := tableLookup_eq_some h1
  obtain ⟨hp2, rfl⟩ := tableLookup_eq_some h2
  cases hk : kernelSlot (pml4Index virt) with
  | true =>
    have hpdpt := ht.slots r tree _ hr hu (pml4Index_lt virt) hk hp1
    generalize frameNo (entry p.mem (r * frameBytes) (pml4Index virt)) = k at *
    have hsmall : k < pmmMaxFrames := ht.small k (ne_idle_of_node hpdpt)
    have hin : spaceScope lay k [] (pdptIndex virt) := by
      unfold spaceScope
      rw [if_pos hsmall]
      trivial
    have hpd := ht.owned.down k k [] _ hpdpt (by decide) (pdptIndex_lt virt) hin hp2
    exact ⟨_, k, _, rfl, hpd, (levels_of_kernel hsmall).symm⟩
  | false =>
    have hpdpt := ht.owned.down r tree [] _ hr (by decide) (pml4Index_lt virt)
      (spaceScope_root hu hk) hp1
    generalize frameNo (entry p.mem (r * frameBytes) (pml4Index virt)) = k at *
    have hpd := ht.owned.down k tree _ _ hpdpt (by simp [depth]) (pdptIndex_lt virt)
      (spaceScope_inner hu (by simp) (by simp [depth])) hp2
    exact ⟨_, tree, _, rfl, hpd, (levels_of_space hu).symm⟩

/-- What the lookups of the source miss is the offset. -/
theorem translate_eq {lay : Layout} {p : Paging} {use : ℕ → Use} (ht : Tables lay p use)
    {r tree : ℕ} (virt : ℕ) (hr : use r = .node tree []) (hu : ¬ tree < pmmMaxFrames) :
    translate p.mem (r * frameBytes) virt = (physOf p.mem (r * frameBytes) virt).map fun frame =>
      if underLeaf p.mem (r * frameBytes) virt then frame / 2 ^ 21 * 2 ^ 21 + virt % 2 ^ 21
      else frame + virt % 4096 := by
  unfold translate physOf underLeaf
  cases h1 : tableLookup p.mem (r * frameBytes) (pml4Index virt) with
  | none => rfl
  | some pdpt =>
    rw [Option.bind_some, Option.bind_some, Option.elim_some]
    cases h2 : tableLookup p.mem pdpt (pdptIndex virt) with
    | none => rfl
    | some pd =>
      rw [Option.bind_some, Option.bind_some, Option.elim_some]
      obtain ⟨d, t, q, rfl, hd, hlen⟩ := directory_node ht hr hu h1 h2
      cases hl : large (entry p.mem (d * frameBytes) (pdIndex virt)) with
      | true =>
        have hp := present_of_large ht hd hlen (pdIndex_lt virt) hl
        rw [tableLookup_of_present hp, hp]
        rfl
      | false =>
        simp only [Bool.false_eq_true, if_false, Bool.and_false, Option.map_bind]
        rfl

/-- Calls that keep the view shared: no top-level entry is wired while there are spaces
that would not get it. Spaces are not destroyed in these runs. -/
def KeepsView (w : World) : Op → Prop
  | .mapPage virt _ _ => KernelSafe w virt ∧ ¬ InPhysmap virt ∧
      (kernelSlot (pml4Index virt) = true → w.spaces = [] ∨
        present (entry w.vm.mem w.vmm.heap.current (pml4Index virt)) = true)
  | .unmapPage virt => KernelSafe w virt ∧ ¬ InPhysmap virt
  | .destroy _ => False
  | .free _ => False
  | _ => True

instance (w : World) : (op : Op) → Decidable (KeepsView w op)
  | .mapPage .. => inferInstanceAs (Decidable (_ ∧ _ ∧ (_ → _)))
  | .unmapPage _ => inferInstanceAs (Decidable (_ ∧ _))
  | .destroy _ | .free _ => inferInstanceAs (Decidable False)
  | .create | .map .. | .unmap .. | .switch _ | .alloc _ => inferInstanceAs (Decidable True)

/-- All roots have the kernel half of the kernel's. -/
def SharedView (w : World) (g : Ghost) : Prop :=
  ∀ as r k i, w.Has as → g.use r = .node as [] → g.use k = .node w.vmm.kernelAddr [] → i < entries →
    kernelSlot i = true → entry w.vm.mem (r * frameBytes) i = entry w.vm.mem (k * frameBytes) i

section Shared
variable {lay : Layout} {w w' : World} {g g' : Ghost}

/-- Calls that wire nothing keep the view. -/
theorem SharedView.steady (hv : SharedView w g) (hs : Sound lay w g) (hs' : Sound lay w' g')
    (hst : Steady (fun _ _ => False) w w' g g') (hhas : ∀ as, w.Has as → w'.Has as) :
    SharedView w' g' := by
  intro as r k i has' hr hk hi hks
  have hkernel := hst.kernel
  rw [hkernel] at hk
  obtain ⟨k₀, hk₀, _⟩ := hs.root (Or.inl rfl)
  have hkept : ∀ as r₀, w.Has as → g.use r₀ = .node as [] →
      entry w'.vm.mem (r₀ * frameBytes) i = entry w.vm.mem (r₀ * frameBytes) i :=
    fun as r₀ has hr₀ => hst.slots as r₀ i has (hhas as has) hr₀ hi hks (fun h => h)
  have hk₀' := hst.root _ k₀ (Or.inl rfl) (hhas _ (Or.inl rfl)) hk₀
  obtain rfl := hs'.tables.owned.root k₀ k _ hk₀' hk
  by_cases has : w.Has as
  · obtain ⟨r₀, hr₀, _⟩ := hs.root has
    obtain rfl := hs'.tables.owned.root r₀ r as (hst.root as r₀ has has' hr₀) hr
    rw [hkept as r₀ has hr₀, hkept _ k₀ (Or.inl rfl) hk₀]
    exact hv as r₀ k₀ i has hr₀ hk₀ hi hks
  · exact hst.fresh as r k₀ i has' has hr hk hi hks

lemma Steady.narrow {wires : ℕ → ℕ → Prop} (hst : Steady wires w w' g g')
    (hno : ∀ r i, kernelSlot i = true → ¬ wires r i) : Steady (fun _ _ => False) w w' g g' :=
  ⟨hst.kernel, hst.root, fun as r i has has' hr hi hk _ =>
    hst.slots as r i has has' hr hi hk (hno r i hk), hst.fresh⟩

/-- With no other space there is nothing to share. -/
lemma SharedView.alone (hs : Sound lay w g) (hnil : w.spaces = []) : SharedView w g := by
  intro as r k i has hr hk _ _
  have hkernel : as = w.vmm.kernelAddr := by
    rcases has with h | h
    · exact h
    · rw [hnil] at h
      exact nomatch h
  rw [hkernel] at hr
  rw [hs.tables.owned.root r k _ hr hk]

theorem SharedView.step (hpages : ¬ lay.pages) (hs : Sound lay w g) (hv : SharedView w g) {op : Op}
    (hroom : HasRoom w.vmm.heap 16) (hd : KeepsView w op) (hstep : Tvmm.step w op = some w') :
    ∃ g', Sound lay w' g' ∧ SharedView w' g' := by
  have hhas : ∀ {g' : Ghost} {wires : ℕ → ℕ → Prop}, Steady wires w w' g g' → w'.spaces = w.spaces →
      ∀ as, w.Has as → w'.Has as := by
    intro g' wires hst hsp as has
    unfold World.Has
    rw [hst.kernel, hsp]
    exact has
  cases op with
  | create =>
    obtain ⟨w₁, g₁, heq, hs₁, hst, _, _, hres⟩ := hs.create hroom
    cases heq.symm.trans hstep
    refine ⟨g₁, hs₁, hv.steady hs hs₁ hst (fun as has => ?_)⟩
    rcases hres with hsp | ⟨as', c, hc⟩
    · exact hhas hst hsp as has
    · refine has.imp (fun h => h.trans hst.kernel.symm) (fun h => ?_)
      rw [hc.spaces]
      exact List.mem_cons_of_mem _ h
  | switch as =>
    have hsp := spaces_of_step hstep (by simp) (by simp)
    by_cases has : w.Has as
    · simp only [Tvmm.step, if_pos has] at hstep
      cases hstep
      obtain ⟨hs', hst⟩ := hs.switch has
      exact ⟨g, hs', hv.steady hs hs' hst (hhas hst hsp)⟩
    · simp only [Tvmm.step, if_neg has] at hstep
      cases hstep
  | map as virt phys flags =>
    obtain ⟨use', hs', hst⟩ := hs.map_loose hpages hstep
    exact ⟨_, hs', hv.steady hs hs' hst (hhas hst (spaces_of_step hstep (by simp) (by simp)))⟩
  | unmap as virt =>
    obtain ⟨hs', hst⟩ := hs.unmap_loose hpages hstep
    exact ⟨_, hs', hv.steady hs hs' hst (hhas hst (spaces_of_step hstep (by simp) (by simp)))⟩
  | mapPage virt phys flags =>
    have hsp := spaces_of_step hstep (by simp) (by simp)
    obtain ⟨hsafe, _, hslot⟩ := hd
    by_cases hflags : flags < 2 ^ 64
    · simp only [Tvmm.step, if_pos hflags] at hstep
      obtain ⟨use', hs', hst⟩ := hs.mapPage phys hflags hsafe
      rw [Option.some.inj hstep] at hs' hst
      refine ⟨_, hs', ?_⟩
      by_cases hnil : w.spaces = []
      · exact SharedView.alone hs' (hsp.trans hnil)
      · refine hv.steady hs hs' (hst.narrow ?_) (hhas hst hsp)
        -- only a missing slot of the current PML4 would be wired
        rintro r i hk ⟨hcur, rfl, habs⟩
        have hp := (hslot hk).resolve_left hnil
        rw [← hcur, habs] at hp
        exact Bool.false_ne_true hp
    · simp only [Tvmm.step, if_neg hflags] at hstep
      cases hstep
  | unmapPage virt =>
    have hsp := spaces_of_step hstep (by simp) (by simp)
    obtain ⟨hs', hst⟩ := hs.unmapPage hd.1
    rw [Option.some.inj hstep] at hs' hst
    exact ⟨g, hs', hv.steady hs hs' hst (hhas hst hsp)⟩
  | alloc a =>
    obtain ⟨use', hs', hst, _⟩ := hs.alloc a hstep
    exact ⟨_, hs', hv.steady hs hs' hst (hhas hst (spaces_of_step hstep (by simp) (by simp)))⟩
  | destroy | free => exact hd.elim

end Shared

/-! ## Room for the descriptors

No descriptor is given back in these runs, so the heap grows only when its last chunk is full of
them. Each space has a root in the first 1 GiB, which bounds their number. -/

/-- Beyond what is left of its last chunk, the heap has grown by 64 bytes a descriptor at most. -/
structure Packed (h : Heap) (n : ℕ) : Prop where
  region : h.bumpEnd ≤ h.bump + 65536
  grown : h.heapVirt ≤ heapVirtBase + 64 * n + 2 * (h.bumpEnd - h.bump)

section Room
variable {lay : Layout} {w w' : World} {g : Ghost} {h h' : Heap} {n p : ℕ} {op : Op}
  {live held free : List Block} {chunks : List Chunk}

lemma Packed.same (hp : Packed h n) (hs : SameFrontier h h') {n' : ℕ} (hle : n ≤
    n') : Packed h' n' := by
  obtain ⟨hregion, hgrown⟩ := hp
  refine ⟨by rw [hs.bump, hs.bumpEnd]; exact hregion, ?_⟩
  rw [hs.bump, hs.bumpEnd, hs.heapVirt]
  omega

/-- The chunk that was full may lose what is too little for a descriptor. -/
lemma Packed.newChunk (hp : Packed h n) (hfull : h.bumpEnd < h.bump + 32)
    (hc : NewChunk h h' 65536) : Packed h' n := by
  obtain ⟨_, hgrown⟩ := hp
  obtain ⟨_, hbump, hend, hvirt, _⟩ := hc
  unfold headerBytes at hbump
  constructor <;> omega

lemma Packed.carve (hp : Packed h n) (hfit : h.bump + headerBytes + 16 ≤ h.bumpEnd)
    (hlt : h.bumpEnd < 2 ^ 64) : Packed (carve h 16).1 (n + 1) := by
  have hbump : (Tmalloc.carve h 16).1.bump = h.bump + headerBytes + 16 :=
    Nat.mod_eq_of_lt (by omega)
  have hend : (Tmalloc.carve h 16).1.bumpEnd = h.bumpEnd := rfl
  have hvirt : (Tmalloc.carve h 16).1.heapVirt = h.heapVirt := rfl
  obtain ⟨hregion, hgrown⟩ := hp
  unfold headerBytes at hbump hfit
  constructor <;> omega

lemma Packed.tmalloc (hp : Packed h n) (hl : Laid h live held free chunks) (hn : NoWrap h 16)
    (hres : tmalloc h 16 = some (h', p)) : Packed h' (if p = 0 then n else n + 1) := by
  have hmono : n ≤ if p = 0 then n else n + 1 := by split_ifs <;> omega
  have hfull : ∀ {x : Heap}, bumpFull x (wanted 16) = true → x.bumpEnd < x.bump + 32 := fun h =>
    lt_of_lt_of_le (decide_eq_true_eq.mp h) (Nat.mod_le _ _)
  have hnew : Grows h 16 → firstFit h (wanted 16) = some none → NewChunk h (refill h 16) 65536 :=
    fun hg hseek => refill_of_grows hg hn hseek
  obtain ⟨h₁, p₁, hres₁, hout⟩ := tmalloc_outcome hl hn
  cases hres₁.symm.trans hres
  cases hout with
  | refused hseek hfull' _ =>
    refine hp.same (refill_of_not_grows fun hg => ?_) hmono
    -- a new chunk has room for a descriptor
    obtain ⟨_, hbump, hend, _, _⟩ := hnew hg hseek
    have := hfull hfull'
    unfold headerBytes at hbump
    omega
  | fitted front _ _ _ _ _ _ _ hres' =>
    have hs := takeFit_frontier h (lastLink .head front) (wanted 16)
    rw [hres'] at hs
    exact hp.same hs hmono
  | carved hseek hfit hne _ =>
    rw [if_neg hne]
    have hpacked : Packed (refill h 16) n := by
      by_cases hg : Grows h 16
      · exact hp.newChunk (hfull hg.1) (hnew hg hseek)
      · exact hp.same (refill_of_not_grows hg) le_rfl
    have harr := (refill_laid hl hn hseek).1.arranged
    exact hpacked.carve hfit (lt_of_le_of_lt harr.bumpEnd_le harr.virt_lt)

/-- Each space has a root of its own in the first 1 GiB. -/
lemma Sound.length_spaces (hs : Sound lay w g) (hnodup : w.spaces.Nodup) :
    w.spaces.length ≤ lowFrames := by
  have hroot : ∀ as ∈ w.spaces.toFinset, g.use (rootOf w.vmm as / frameBytes) = .node as [] := by
    intro as has
    obtain ⟨r, hr, heq, _⟩ := hs.root (Or.inr (List.mem_toFinset.mp has))
    rwa [heq, Nat.mul_div_cancel _ (by decide)]
  have hlow : ∀ as ∈ w.spaces.toFinset, rootOf w.vmm as / frameBytes < lowFrames :=
    fun as has => hs.tables.low _ _ _ (hroot as has) (by decide)
  -- the numeral stays folded, no list of that many frames is built
  generalize lowFrames = bound at hlow ⊢
  rw [← List.toFinset_card_of_nodup hnodup, ← Finset.card_range bound]
  refine Finset.card_le_card_of_injOn (fun as => rootOf w.vmm as / frameBytes) (fun as has => ?_) ?_
  · exact Finset.mem_coe.mpr (Finset.mem_range.mpr (hlow as has))
  · intro as has as' has' heq
    have hnode := hroot as has
    rw [show rootOf w.vmm as / frameBytes = rootOf w.vmm as' / frameBytes from heq] at hnode
    exact (Use.node.inj (hnode.symm.trans (hroot as' has'))).1

lemma Sound.hasRoom (hs : Sound lay w g) (hnodup : w.spaces.Nodup)
    (hp : Packed w.vmm.heap w.spaces.length) : HasRoom w.vmm.heap 16 := by
  refine hasRoom_of_grown hs.laid ?_
  have hlen := hs.length_spaces hnodup
  obtain ⟨hregion, hgrown⟩ := hp
  unfold Heap.grown
  unfold lowFrames at hlen
  omega

lemma frontier_setVm (h : Heap) (vm : Paging) (current : ℕ) :
    SameFrontier h { h with vm := vm, current := current } := ⟨rfl, rfl, rfl, rfl⟩

lemma vmmAspaceCreate_frontier {s s' : Vmm} {as : ℕ} (hcreate : vmmAspaceCreate s = some (s', as)) :
    (∃ vm, s' = setVm s vm ∧ as = 0) ∨
      ∃ vm h, tmalloc { s.heap with vm := vm } 16 = some (h, as) ∧ SameFrontier h s'.heap := by
  unfold vmmAspaceCreate at hcreate
  dsimp only at hcreate
  by_cases h0 : (tpmmAllocLow s.heap.vm.pmm).2 = 0
  · rw [if_pos h0] at hcreate
    cases hcreate
    exact Or.inl ⟨_, rfl, rfl⟩
  · rw [if_neg h0] at hcreate
    obtain ⟨⟨h, ptr⟩, hres, heq⟩ := Option.map_eq_some_iff.mp hcreate
    dsimp only at heq
    by_cases hptr : ptr = 0
    · rw [if_pos hptr] at heq
      cases heq
      exact Or.inr ⟨_, h, hptr ▸ hres, frontier_setVm ..⟩
    · rw [if_neg hptr] at heq
      cases heq
      exact Or.inr ⟨_, h, hres, ⟨rfl, rfl, rfl, rfl⟩⟩

lemma packed_step (hs : Sound lay w g) (hroom : HasRoom w.vmm.heap 16) (hnodup : w.spaces.Nodup)
    (hp : Packed w.vmm.heap w.spaces.length) (hd : KeepsView w op) (hstep : step w op = some w') :
    w'.spaces.Nodup ∧ Packed w'.vmm.heap w'.spaces.length := by
  by_cases hop : op = .create
  · subst hop
    constructor
    · obtain ⟨w₁, g₁, heq, _, _, _, _, hres⟩ := hs.create hroom
      cases heq.symm.trans hstep
      rcases hres with hsp | ⟨as, c, hc⟩
      · rwa [hsp]
      · rw [hc.spaces]
        exact List.nodup_cons.mpr ⟨fun h => hc.new (Or.inr h), hnodup⟩
    · obtain ⟨⟨s, as⟩, hcreate, rfl⟩ := Option.map_eq_some_iff.mp hstep
      rcases vmmAspaceCreate_frontier hcreate with ⟨vm, rfl, rfl⟩ | ⟨vm, h, hres, hsame⟩
      · exact hp.same (frontier_setVm ..) le_rfl
      · have hl := laid_setVm hs.laid vm w.vmm.heap.current
        have hp' := (hp.same (frontier_setVm _ vm _) le_rfl).tmalloc hl
          (hroom.noWrap hl (by decide)) hres
        refine hp'.same hsame (le_of_eq ?_)
        dsimp only
        split_ifs <;> rfl
  · obtain ⟨hsp, vm, current, heq⟩ := kept_of_step hstep hop (by rintro as rfl; exact hd)
    rw [hsp, heq]
    exact ⟨hnodup, hp.same (frontier_setVm ..) le_rfl⟩

end Room

/-- In every state of a run that wires no top-level entry behind the back of a space, all
spaces translate the kernel half alike. -/
theorem kernel_view_shared (b : BootFrames) (w₀ w : World) (hb : Booted b w₀) (ops : List Op)
    (hrun : exec (guarded step KeepsView) w₀ ops = some w) (as virt : ℕ) (has : w.Has as)
    (hk : kernelSlot (pml4Index virt) = true) :
    translate w.vm.mem (rootOf w.vmm as) virt =
      translate w.vm.mem (rootOf w.vmm w.vmm.kernelAddr) virt := by
  have hinv : ∃ g, Sound (bootLayout b False) w g ∧ SharedView w g ∧ w.spaces.Nodup ∧
      Packed w.vmm.heap w.spaces.length := by
    refine exec_invariant (I := fun w => ∃ g, Sound (bootLayout b False) w g ∧ SharedView w g ∧
      w.spaces.Nodup ∧ Packed w.vmm.heap w.spaces.length) ?_ ops
      ⟨_, hb.sound False, SharedView.alone (hb.sound False) hb.spaces, ?_, ?_⟩ hrun
    · rintro s op t ⟨g, hs, hv, hnodup, hp⟩ hstep
      obtain ⟨hd, hstep⟩ := (guarded_eq_some ..).mp hstep
      have hroom := hs.hasRoom hnodup hp
      obtain ⟨g', hs', hv'⟩ := hv.step not_false hs hroom hd hstep
      exact ⟨g', hs', hv', packed_step hs hroom hnodup hp hd hstep⟩
    · rw [hb.spaces]
      exact List.nodup_nil
    · rw [hb.init]
      exact ⟨Nat.zero_le _, Nat.le_add_right_of_le (Nat.le_add_right _ _)⟩
  obtain ⟨g, hs, hv, _⟩ := hinv
  obtain ⟨r, hr, hroot, _⟩ := hs.root has
  obtain ⟨k, hkr, hkroot, _⟩ := hs.root (Or.inl rfl)
  rw [hroot, hkroot]
  exact translate_congr (hv as r k _ has hr hkr (pml4Index_lt virt) hk)

/-- A space of the small machine sees the kernel's identity map. -/
theorem kernel_view_shared_bootMachine :
    ∃ w, exec (guarded step KeepsView) bootMachine [.alloc .single, .create] = some w ∧
      w.Has firstBlock ∧ translate w.vm.mem (rootOf w.vmm firstBlock) 0x200000 =
        translate w.vm.mem (rootOf w.vmm w.vmm.kernelAddr) 0x200000 := by
  obtain ⟨w₁, w, g, c, halloc, _, hcreate, _, hnew, _⟩ := bootMachine_create False
  have hrun : exec (guarded step KeepsView) bootMachine [.alloc .single, .create] = some w := by
    refine (exec_cons_eq_some ..).mpr ⟨w₁, (guarded_eq_some ..).mpr ⟨trivial, halloc⟩, ?_⟩
    exact (exec_cons_eq_some ..).mpr ⟨w, (guarded_eq_some ..).mpr ⟨trivial, hcreate⟩, rfl⟩
  have has : w.Has firstBlock := Or.inr (hnew.spaces ▸ List.mem_cons_self)
  exact ⟨w, hrun, has, kernel_view_shared _ _ w bootMachine_booted _ hrun firstBlock _ has
    (by decide)⟩

/-- A page mapped in a slot that no PML4 has yet: only the current space gets it. -/
theorem wired_slot_not_shared :
    ∃ w w', exec step bootMachine [.alloc .single, .create] = some w ∧
      step w (.mapPage 0xFFFF800000000000 0x110000 3) = some w' ∧ w'.Has firstBlock ∧
      translate w'.vm.mem (rootOf w'.vmm w'.vmm.kernelAddr) 0xFFFF800000000000 ≠
        translate w'.vm.mem (rootOf w'.vmm firstBlock) 0xFFFF800000000000 := by
  obtain ⟨w₁, w, g, c, halloc, _, hcreate, hs, hnew, hspare, hcur, hst, hsup⟩ :=
    bootMachine_create False
  have hrun : exec step bootMachine [.alloc .single, .create] = some w := by
    refine (exec_cons_eq_some ..).mpr ⟨w₁, halloc, ?_⟩
    exact (exec_cons_eq_some ..).mpr ⟨w, hcreate, rfl⟩
  have hk : kernelSlot (pml4Index 0xFFFF800000000000) = true := by decide
  have hslot : pml4Index 0xFFFF800000000000 = 256 := by decide
  have has : w.Has firstBlock := Or.inr (hnew.spaces ▸ List.mem_cons_self)
  -- no root has the slot
  have hroot : g.use 256 = .node w.vmm.kernelAddr [] := by
    rw [hst.kernel]
    exact hst.root _ 256 (Or.inl rfl) (Or.inl hst.kernel.symm) rfl
  have habs : entry w.vm.mem (256 * frameBytes) 256 = 0 :=
    (hst.slots _ 256 256 (Or.inl rfl) (Or.inl hst.kernel.symm) rfl (by decide) (by decide)
      (fun h => h)).trans
      (bootMachine_booted.tree.empty 256 (by decide) (by decide) (by decide))
  have habs' : entry w.vm.mem (c * frameBytes) 256 = 0 :=
    (hst.fresh firstBlock c 256 256 has (by decide) hnew.root (by rw [← hst.kernel]; exact hroot)
      (by decide) (by decide)).trans habs
  have hcurrent : w.vmm.heap.current = 256 * frameBytes := by
    rw [hs.current.2, hcur, ← hst.kernel]
    exact (hs.root_eq (Or.inl rfl) hroot).1
  have hsafe : KernelSafe w 0xFFFF800000000000 := by
    intro _
    unfold underLeaf
    rw [hcurrent, hslot, tableLookup_of_absent (by rw [habs]; decide)]
    rfl
  have hu : ¬ w.vmm.kernelAddr < pmmMaxFrames := hs.not_lt (Or.inl rfl)
  obtain ⟨p', hmap, _⟩ := mapPage_supply (p := w.vm) (k := 5) (256 * frameBytes) 0xFFFF800000000000
    0x110000 3 hsup
  have hfun : vmmMapPage w.vm w.vmm.heap.current 0xFFFF800000000000 0x110000 3 = (p', true) := by
    rw [hcurrent, ← hmap]
    exact if_neg (not_userSlot_of_kernel hk)
  obtain ⟨p₁, use₁, _, ⟨heq, _⟩ | ⟨heq, ⟨hphys, _⟩, _⟩⟩ :=
    mapKernel_spec hs.tables 0x110000 hroot hu hk
    (show 3 < 2 ^ 64 by decide) (uncovered_of_not_underLeaf hs.tables hroot hu hk (hcurrent ▸
      hsafe hk))
  · exact absurd (congrArg Prod.snd (hmap.symm.trans heq)) (by simp)
  obtain rfl : p' = p₁ := congrArg Prod.fst (hmap.symm.trans heq)
  obtain ⟨use', hs', hst'⟩ := hs.mapPage 0x110000 (show 3 < 2 ^ 64 by decide) hsafe
  rw [hfun] at hs' hst'
  have has' : (w.setVm p').Has firstBlock := has
  have hc' := hst'.root firstBlock c has has' hnew.root
  have hr' := hst'.root _ 256 (Or.inl rfl) (Or.inl rfl) hroot
  refine ⟨w, w.setVm p', hrun, ?_, has', fun hsame => ?_⟩
  · simp only [step, hfun]
    rfl
  have hne : ¬ wiredSlot w 0xFFFF800000000000 c 256 := by
    rintro ⟨hcc, _⟩
    rw [hcurrent] at hcc
    obtain rfl : c = 256 := Nat.eq_of_mul_eq_mul_right (by decide) hcc
    rw [hnew.root] at hroot
    have hkernel : firstBlock = w.vmm.kernelAddr := (Use.node.inj hroot).1
    rw [hst.kernel] at hkernel
    exact absurd hkernel (by decide)
  have hkept := hst'.slots firstBlock c 256 has has' hnew.root (by decide) (by decide) hne
  rw [(hs'.root_eq (Or.inl rfl) hr').1, (hs'.root_eq has' hc').1] at hsame
  have hnone : translate (w.setVm p').vm.mem (c * frameBytes) 0xFFFF800000000000 = none := by
    unfold translate
    rw [hslot, tableLookup_of_absent (by rw [hkept, habs']; decide)]
    rfl
  rw [hnone, translate_eq hs'.tables _ hr' hu] at hsame
  exact absurd ((Option.map_eq_none_iff.mp hsame).symm.trans hphys) (by simp)

end TraitOS.Tvmm
