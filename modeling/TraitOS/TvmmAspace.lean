import TraitOS.Tmalloc

/-!
# Address spaces

An address space is a PML4 of its own with a descriptor on the kernel heap. The
kernel's space has a static descriptor, and its PML4 is the one every new space
copies the kernel half from.
-/
namespace TraitOS.Tvmm
open ByteMemory PageTable Tpmm Tmalloc Tstring

/-- The fields of a `vmm_aspace_t`: the physical address of the PML4 and its alias
in the window of the first 1 GiB. -/
structure Aspace where
  pml4Phys : ℕ
  pml4 : ℕ
  deriving DecidableEq, Repr

/-- The module's statics over the heap, and CR3. `heap.current` is the PML4 that
`current` leads to. -/
structure Vmm where
  heap : Heap
  kernelAddr : ℕ
  kernelAspace : Aspace
  current : ℕ
  cr3 : ℕ

def physToVirt (phys : ℕ) : ℕ := (phys + virtBase) % 2 ^ 64

/-- The physical address behind an alias. -/
@[irreducible] def physBehind (virt : ℕ) : ℕ := (virt + 2 ^ 64 - virtBase) % 2 ^ 64

def aspaceAt (s : Vmm) (as : ℕ) : Aspace :=
  if as = s.kernelAddr then s.kernelAspace
  else ⟨load64 s.heap.cells as, load64 s.heap.cells (as + 8)⟩

/-- The PML4 of an address space. -/
def rootOf (s : Vmm) (as : ℕ) : ℕ := physBehind (aspaceAt s as).pml4

def setVm (s : Vmm) (p : Paging) : Vmm := { s with heap := { s.heap with vm := p } }

/-- The loop that shares the kernel view with a new PML4. -/
def copyKernelSlots (m : Memory) (pml4 kernelPml4 : ℕ) : ℕ → Memory
  | 0 => m
  | i + 1 =>
    let m := copyKernelSlots m pml4 kernelPml4 i
    if kernelSlot i then setEntry m pml4 i (entry m kernelPml4 i) else m

/-- The new space's descriptor, `0` on failure; no result if the heap's walk does
not end. -/
def vmmAspaceCreate (s : Vmm) : Option (Vmm × ℕ) :=
  let r := tpmmAllocLow s.heap.vm.pmm
  if r.2 = 0 then some (setVm s { s.heap.vm with pmm := r.1 }, 0)
  else
    let pml4 := target r.2
    let m := tmemset s.heap.vm.mem pml4 0 4096
    let m := copyKernelSlots m pml4 (rootOf s s.kernelAddr) 512
    (tmalloc { s.heap with vm := ⟨m, r.1⟩ } 16).map fun (h, as) =>
      if as = 0 then
        ({ s with heap := { h with vm := { h.vm with pmm := tpmmFree h.vm.pmm r.2 } } }, 0)
      else
        ({ s with heap := { h with
            cells := store64 (store64 h.cells as r.2) (as + 8) (physToVirt pml4) } }, as)

/-- Give back the children of one entry, then the frame it points to. -/
def freeEntry (children : ℕ → Pmm → Pmm) (e : ℕ) (s : Pmm) : Pmm :=
  if present e then tpmmFree (children e s) (target e) else s

/-- Free what the entries of a table point to; the table itself is left to the
caller. -/
def freeTable (m : Memory) : ℕ → ℕ → Pmm → Pmm
  | 0, table, s =>
    (List.range entries).foldl (fun s i => freeEntry (fun _ s => s) (entry m table i) s) s
  | level + 1, table, s =>
    (List.range entries).foldl (fun s i =>
      freeEntry (fun e s => if large e then s else freeTable m level (target e) s)
        (entry m table i) s) s

/-- The loop of the teardown over the user slots. -/
def freeSlots (m : Memory) (pml4 : ℕ) (s : Pmm) : Pmm :=
  (List.range' 1 (kernelPml4Start - 1)).foldl (fun s i =>
    if present (entry m pml4 i) then freeTable m 2 (target (entry m pml4 i)) s else s) s

def vmmAspaceDestroy (s : Vmm) (as : ℕ) : Vmm :=
  if as = 0 ∨ as = s.current then s
  else
    let pmm := freeSlots s.heap.vm.mem (rootOf s as) s.heap.vm.pmm
    let pmm := tpmmFree pmm (aspaceAt s as).pml4Phys
    { s with heap := tfree { s.heap with vm := { s.heap.vm with pmm := pmm } } as }

def vmmAspaceSwitch (s : Vmm) (as : ℕ) : Vmm :=
  { s with
    heap := { s.heap with current := rootOf s as }
    current := as
    cr3 := (aspaceAt s as).pml4Phys }

def vmmAspaceMap (s : Vmm) (as virt phys flags : ℕ) : Vmm × Bool :=
  if kernelSlot (pml4Index virt) then (s, false)
  else
    let r := mapPage s.heap.vm (rootOf s as) virt phys flags
    (setVm s r.1, r.2)

def vmmAspaceUnmap (s : Vmm) (as virt : ℕ) : Vmm :=
  if kernelSlot (pml4Index virt) then s
  else setVm s (unmapPage s.heap.vm (rootOf s as) virt)

def vmmAspacePhys (s : Vmm) (as virt : ℕ) : Option ℕ :=
  if kernelSlot (pml4Index virt) then none
  else physOf s.heap.vm.mem (rootOf s as) virt

end TraitOS.Tvmm
