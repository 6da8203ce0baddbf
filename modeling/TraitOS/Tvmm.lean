import TraitOS.PageTable
import TraitOS.TpmmPool
import TraitOS.Tstring

/-!
# The virtual memory manager

Four-level page tables in physical memory, with table frames taken from the
frame manager on demand. Tables are named by their physical address: the source
reaches them through the higher-half alias of the first 1 GiB, which is where all
table frames come from. The functions for address spaces and for the shared
kernel half walk in the same way from different roots, so the walks are shared.
-/
namespace TraitOS.Tvmm
open ByteMemory PageTable Tpmm Tstring

def pagePresent : ℕ := 1
def pageWrite : ℕ := 2
def pageUser : ℕ := 4
def pageNx : ℕ := 1 <<< 63

def virtBase : ℕ := 0xFFFFFFFF80000000
def userBase : ℕ := 0x0000008000000000
def userEnd : ℕ := 0x0000010000000000
def kernelPml4Start : ℕ := 256

def pml4Index (virt : ℕ) : ℕ := index 39 virt
def pdptIndex (virt : ℕ) : ℕ := index 30 virt
def pdIndex (virt : ℕ) : ℕ := index 21 virt
def ptIndex (virt : ℕ) : ℕ := index 12 virt

/-- Physical memory and its frame manager. -/
structure Paging where
  mem : Memory
  pmm : Pmm

/-- Child table of an entry, wiring a fresh frame if the entry is empty. -/
def tableEnsure (p : Paging) (table idx flags : ℕ) : Paging × Option ℕ :=
  let e := entry p.mem table idx
  if present e then (p, some (target e))
  else
    let r := tpmmAllocLow p.pmm
    if r.2 = 0 then ({ p with pmm := r.1 }, none)
    else
      let next := target r.2
      let m := tmemset p.mem next 0 4096
      (⟨setEntry m table idx (r.2 ||| pagePresent ||| pageWrite ||| (flags &&& pageUser)), r.1⟩,
        some next)

def tableLookup (m : Memory) (table idx : ℕ) : Option ℕ :=
  if present (entry m table idx) then some (target (entry m table idx)) else none

/-- Go on with the table a step has found; without one, stop with the state the
step left. -/
def withTable {β : Type*} (r : Paging × Option ℕ) (failed : β) (next : Paging → ℕ → Paging × β) :
    Paging × β :=
  match r with
  | (p, none) => (p, failed)
  | (p, some table) => next p table

/-- Down to the page table of an address, creating what is missing. -/
def ensureTables (p : Paging) (root virt flags : ℕ) : Paging × Option ℕ :=
  withTable (tableEnsure p root (pml4Index virt) flags) none fun p pdpt =>
    withTable (tableEnsure p pdpt (pdptIndex virt) flags) none fun p pd =>
      tableEnsure p pd (pdIndex virt) flags

/-- The common body of both mapping functions; the result says whether it
returned `0`. -/
def mapPage (p : Paging) (root virt phys flags : ℕ) : Paging × Bool :=
  withTable (ensureTables p root virt flags) false fun p pt =>
    ({ p with mem := setEntry p.mem pt (ptIndex virt) (target phys ||| flags ||| pagePresent) },
      true)

def lookupTables (m : Memory) (root virt : ℕ) : Option ℕ :=
  (tableLookup m root (pml4Index virt)).bind fun pdpt =>
    (tableLookup m pdpt (pdptIndex virt)).bind fun pd =>
      tableLookup m pd (pdIndex virt)

/-- The common body of both unmapping functions. -/
def unmapPage (p : Paging) (root virt : ℕ) : Paging :=
  (lookupTables p.mem root virt).elim p fun pt =>
    { p with mem := setEntry p.mem pt (ptIndex virt) 0 }

/-- The common body of both lookups: the frame an address is mapped to. -/
def physOf (m : Memory) (root virt : ℕ) : Option ℕ :=
  (tableLookup m root (pml4Index virt)).bind fun pdpt =>
    (tableLookup m pdpt (pdptIndex virt)).bind fun pd =>
      if large (entry m pd (pdIndex virt)) then some (target (entry m pd (pdIndex virt)))
      else (tableLookup m pd (pdIndex virt)).bind fun pt => tableLookup m pt (ptIndex virt)

/-- Slots that form the view shared by all address spaces. -/
def kernelSlot (idx : ℕ) : Bool := idx = 0 ∨ kernelPml4Start ≤ idx

def vmmMapPage (p : Paging) (current virt phys flags : ℕ) : Paging × Bool :=
  if 0 < pml4Index virt ∧ pml4Index virt < kernelPml4Start then (p, false)
  else mapPage p current virt phys flags

def vmmUnmapPage (p : Paging) (current virt : ℕ) : Paging :=
  if 0 < pml4Index virt ∧ pml4Index virt < kernelPml4Start then p
  else unmapPage p current virt

def vmmKernelPhys (m : Memory) (current virt : ℕ) : Option ℕ :=
  if 0 < pml4Index virt ∧ pml4Index virt < kernelPml4Start then none
  else physOf m current virt

end TraitOS.Tvmm
