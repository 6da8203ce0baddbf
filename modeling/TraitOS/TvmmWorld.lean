import TraitOS.Runs
import TraitOS.TvmmTeardown

/-!
# Runs over address spaces

The state of a run is the virtual memory manager with the list of existing spaces
and the set of frames that callers hold: frames they took from the pool and have
neither mapped nor given back. A frame that is mapped in the user half belongs to
the space, and comes back to its caller when the page is unmapped or mapped to
something else.
-/
namespace TraitOS.Tvmm
open PageTable FreeList Tpmm Tmalloc

/-- The ways to take frames from the pool. -/
inductive Allocator where
  | single
  | low
  | contig (pages : ℕ)
  | lowContig (pages : ℕ)
  deriving DecidableEq, Repr

def Allocator.run (s : Pmm) : Allocator → Pmm × ℕ
  | .single => tpmmAlloc s
  | .low => tpmmAllocLow s
  | .contig pages => tpmmAllocContig s pages
  | .lowContig pages => tpmmAllocLowContig s pages

def Allocator.pages : Allocator → ℕ
  | .single | .low => 1
  | .contig pages | .lowContig pages => pages

lemma Allocator.run_spec {s : Pmm} (hv : Valid s) (a : Allocator) : AllocSpec s (a.run s) a.pages :=
  by
  cases a with
  | single => exact tpmmAlloc_spec hv
  | low => exact (tpmmAllocLow_spec hv).1
  | contig pages => exact tpmmAllocContig_spec hv pages
  | lowContig pages => exact (tpmmAllocLowContig_spec hv pages).1

structure World where
  vmm : Vmm
  spaces : List ℕ
  spare : Finset ℕ

namespace World

/-- The kernel's space or one that was created. -/
def Has (w : World) (as : ℕ) : Prop := as = w.vmm.kernelAddr ∨ as ∈ w.spaces

instance (w : World) (as : ℕ) : Decidable (w.Has as) := inferInstanceAs (Decidable (_ ∨ _))

abbrev vm (w : World) : Paging := w.vmm.heap.vm

def setVm (w : World) (p : Paging) : World := { w with vmm := Tvmm.setVm w.vmm p }

/-- The page behind an address of the user half. -/
def pageBehind (w : World) (as virt : ℕ) : Finset ℕ :=
  (vmmAspacePhys w.vmm as virt).elim ∅ fun phys => {phys / frameBytes}

end World

inductive Op where
  | create
  | destroy (as : ℕ)
  | switch (as : ℕ)
  | map (as virt phys flags : ℕ)
  | unmap (as virt : ℕ)
  | mapPage (virt phys flags : ℕ)
  | unmapPage (virt : ℕ)
  | alloc (a : Allocator)
  | free (phys : ℕ)
  deriving DecidableEq, Repr

/-- One call. Calls on spaces that do not exist and frees of frames the caller does
not hold are not part of a run. -/
def step (w : World) : Op → Option World
  | .create => (vmmAspaceCreate w.vmm).map fun r =>
      { w with vmm := r.1, spaces := if r.2 = 0 then w.spaces else r.2 :: w.spaces }
  | .destroy as =>
    if as ∈ w.spaces then
      some { w with
        vmm := vmmAspaceDestroy w.vmm as
        spaces := if as = w.vmm.current then w.spaces else w.spaces.filter (· ≠ as) }
    else none
  | .switch as => if w.Has as then some { w with vmm := vmmAspaceSwitch w.vmm as } else none
  | .map as virt phys flags =>
    if w.Has as ∧ flags < 2 ^ 64 then
      let r := vmmAspaceMap w.vmm as virt phys flags
      some { w with
        vmm := r.1
        spare := if r.2 then (w.spare ∪ w.pageBehind as virt).erase (frameNo phys) else w.spare }
    else none
  | .unmap as virt =>
    if w.Has as then
      some { w with
        vmm := vmmAspaceUnmap w.vmm as virt
        spare := w.spare ∪ w.pageBehind as virt }
    else none
  | .mapPage virt phys flags =>
    if flags < 2 ^ 64 then
      some (w.setVm (vmmMapPage w.vm w.vmm.heap.current virt phys flags).1)
    else none
  | .unmapPage virt => some (w.setVm (vmmUnmapPage w.vm w.vmm.heap.current virt))
  | .alloc a =>
    let r := a.run w.vm.pmm
    some { w.setVm { w.vm with pmm := r.1 } with
      spare := if r.2 = 0 then w.spare else w.spare ∪ grantFrames r.2 a.pages }
  | .free phys =>
    if phys / frameBytes ∈ w.spare then
      some { w.setVm { w.vm with pmm := tpmmFree w.vm.pmm phys } with
        spare := w.spare.erase (phys / frameBytes) }
    else none

/-- What a state means: who uses which frame, and how the heap is laid out. -/
structure Ghost where
  use : ℕ → Use
  live : List Block
  held : List Block
  free : List Block
  chunks : List Chunk

/-- The descriptor of a space whose PML4 is in frame `r`. -/
def rootAspace (r : ℕ) : Aspace := ⟨r * frameBytes, physToVirt (r * frameBytes)⟩

structure Sound (lay : Layout) (w : World) (g : Ghost) : Prop where
  tables : Tables lay w.vm g.use
  laid : Laid w.vmm.heap g.live g.held g.free g.chunks
  window : WindowFree lay
  roots : ∀ as, w.Has as → ∃ r, g.use r = .node as [] ∧ aspaceAt w.vmm as = rootAspace r ∧
    HasSlot w.vm r
  names : ∀ f tree path, g.use f = .node tree path → tree < pmmMaxFrames ∨ w.Has tree
  blocks : ∀ as ∈ w.spaces, ∃ b ∈ g.held, b.addr = as
  kernelAddr : pmmMaxFrames ≤ w.vmm.kernelAddr ∧ w.vmm.kernelAddr < heapVirtBase
  current : w.Has w.vmm.current ∧ w.vmm.heap.current = rootOf w.vmm w.vmm.current
  spare : lay.pages → ∀ f, g.use f = .spare ↔ f ∈ w.spare

/-! ## Spaces and their roots -/

lemma physBehind_physToVirt {r : ℕ} (hr : r < lowFrames) :
    physBehind (physToVirt (r * frameBytes)) = r * frameBytes := by
  unfold physBehind physToVirt virtBase frameBytes
  unfold lowFrames at hr
  omega

section Sound
variable {lay : Layout} {w : World} {g : Ghost}

lemma Sound.not_lt (hs : Sound lay w g) {as : ℕ} (has : w.Has as) : ¬ as < pmmMaxFrames := by
  rcases has with rfl | hmem
  · exact Nat.not_lt.mpr hs.kernelAddr.1
  · obtain ⟨b, hb, rfl⟩ := hs.blocks as hmem
    have hlow := (hs.laid.arranged.bounds (List.mem_append_left _ (List.mem_append_right _ hb))).1
    have hmax : pmmMaxFrames ≤ heapVirtBase := by decide
    omega

/-- The root of a space, as the functions of the source find it. -/
theorem Sound.root (hs : Sound lay w g) {as : ℕ} (has : w.Has as) :
    ∃ r, g.use r = .node as [] ∧ rootOf w.vmm as = r * frameBytes ∧ HasSlot w.vm r := by
  obtain ⟨r, hr, hat, hslot⟩ := hs.roots as has
  refine ⟨r, hr, ?_, hslot⟩
  unfold rootOf
  rw [hat]
  exact physBehind_physToVirt (hs.tables.low r as [] hr (by decide))

lemma Sound.root_eq (hs : Sound lay w g) {as r : ℕ} (has : w.Has as) (hr : g.use r = .node as []) :
    rootOf w.vmm as = r * frameBytes ∧ HasSlot w.vm r := by
  obtain ⟨r', hr', heq, hslot⟩ := hs.root has
  obtain rfl := hs.tables.owned.root r' r as hr' hr
  exact ⟨heq, hslot⟩

end Sound

end TraitOS.Tvmm
