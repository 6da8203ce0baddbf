import TraitOS.FreeList
import TraitOS.Tvmm

/-!
# The kernel heap

First fit over an intrusive free list, a bump region, and growth by chunks of
whole pages mapped at the end of the heap's virtual window. Block headers live in
the heap's own memory: `cells` are the bytes at the heap's virtual addresses,
which page mapping only makes reachable. All pointer and size arithmetic is
64-bit. The walk over the free list is a loop of the source that need not end on
a corrupted list; `none` stands for that.
-/
namespace TraitOS.Tmalloc
open ByteMemory FreeList MachineWord Tpmm Tvmm

def mallocMagic : ℕ := 0x54474C41
def heapVirtBase : ℕ := 0xFFFFFFFFC0000000

/-- The allocator's statics, with the memory it works on. -/
structure Heap where
  vm : Paging
  /-- Root table of the address space `current` points to. -/
  current : ℕ
  cells : Memory
  freeList : ℕ
  bump : ℕ
  bumpEnd : ℕ
  heapVirt : ℕ
  totalBytes : ℕ
  usedBytes : ℕ
  blockCount : ℕ

/-- The statics before the first call. -/
def emptyHeap (vm : Paging) (current : ℕ) (cells : Memory) : Heap :=
  ⟨vm, current, cells, 0, 0, 0, heapVirtBase, 0, 0, 0⟩

def blockSize (h : Heap) (b : ℕ) : ℕ := load64 h.cells b
def blockMeta (h : Heap) (b : ℕ) : ℕ := load64 h.cells (b + 8)

def setSize (h : Heap) (b v : ℕ) : Heap := { h with cells := store64 h.cells b v }
def setMeta (h : Heap) (b v : ℕ) : Heap := { h with cells := store64 h.cells (b + 8) v }

/-- `*pp` for a pointer to the list head or to a block's link. -/
def readLink (h : Heap) : Link → ℕ
  | .head => h.freeList
  | .node b => blockMeta h b

def writeLink (h : Heap) (pp : Link) (v : ℕ) : Heap :=
  match pp with
  | .head => { h with freeList := v }
  | .node b => setMeta h b v

def links (h : Heap) : Links := ⟨readLink h, blockSize h⟩

/-- The mapping loop over pages `i, i + 1, …`; on failure, the page it failed at. -/
def mapPages (p : Paging) (current virt base i : ℕ) : ℕ → Paging × Option ℕ
  | 0 => (p, none)
  | n + 1 =>
    let r := vmmMapPage p current ((virt + i * 4096) % 2 ^ 64) (base + i * 4096)
      (pageWrite ||| pageNx)
    if r.2 then mapPages r.1 current virt base (i + 1) n else (r.1, some i)

def unmapPages (p : Paging) (current virt : ℕ) : ℕ → Paging
  | 0 => p
  | j + 1 => vmmUnmapPage (unmapPages p current virt j) current ((virt + j * 4096) % 2 ^ 64)

def freePages (s : Pmm) (base : ℕ) : ℕ → Pmm
  | 0 => s
  | j + 1 => tpmmFree (freePages s base j) (base + j * 4096)

/-- Undo a growth that failed at page `i`. -/
def unwind (p : Paging) (current virt base i pages : ℕ) : Paging :=
  let p := unmapPages p current virt i
  { p with pmm := freePages p.pmm base pages }

/-- Pages of a growth by `need` bytes, at least 64 KiB. -/
def growPages (need : ℕ) : ℕ :=
  ((if 65536 < need then need else 65536) + 4095) % 2 ^ 64 / 4096

def growHeap (h : Heap) (need : ℕ) : Heap :=
  let pages := growPages need
  let r := tpmmAllocContig h.vm.pmm pages
  if r.2 = 0 then { h with vm := { h.vm with pmm := r.1 } }
  else
    match mapPages { h.vm with pmm := r.1 } h.current h.heapVirt r.2 0 pages with
    | (p, some i) => { h with vm := unwind p h.current h.heapVirt r.2 i pages }
    | (p, none) =>
      let newEnd := (h.heapVirt + pages * 4096) % 2 ^ 64
      { h with
        vm := p
        bump := (h.heapVirt + headerBytes) % 2 ^ 64
        bumpEnd := newEnd
        heapVirt := newEnd
        totalBytes := (h.totalBytes + pages * 4096) % 2 ^ 64 }

def align16 (x : ℕ) : ℕ := (x + 15) % 2 ^ 64 / 16 * 16

/-- Payload size of a request. -/
def wanted (size : ℕ) : ℕ := if align16 size < 16 then 16 else align16 size

/-- The free-list loop: the link of the first block that is large enough. A
64-bit machine has fewer than `2 ^ 64` blocks, so a longer walk never ends. -/
def firstFit (h : Heap) (want : ℕ) : Option (Option Link) :=
  seek (links h) (fun size => want ≤ size) (2 ^ 64) .head

/-- Put what a fitting block has too much back on the list, if it makes a block. -/
def splitBlock (h : Heap) (pp : Link) (b want : ℕ) : Heap :=
  if (want + headerBytes + 16) % 2 ^ 64 ≤ blockSize h b then
    let rest := (b + headerBytes + want) % 2 ^ 64
    let h := setSize h rest ((blockSize h b + 2 ^ 64 - want - headerBytes) % 2 ^ 64)
    let h := setMeta h rest (readLink h pp)
    writeLink h pp rest
  else h

/-- Header and counters of a block handed out. -/
def markLive (h : Heap) (b want : ℕ) : Heap :=
  { setMeta (setSize h b want) b mallocMagic with
    usedBytes := (h.usedBytes + want) % 2 ^ 64
    blockCount := incr32 h.blockCount }

/-- Hand out the block behind a link. -/
def takeFit (h : Heap) (pp : Link) (want : ℕ) : Heap × ℕ :=
  let b := readLink h pp
  let h := writeLink h pp (blockMeta h b)
  let h := splitBlock h pp b want
  (markLive h b want, b)

/-- No room for a block of `want` bytes in the bump region. -/
def bumpFull (h : Heap) (want : ℕ) : Bool := h.bumpEnd < (h.bump + want + headerBytes) % 2 ^ 64

def carve (h : Heap) (want : ℕ) : Heap × ℕ :=
  let b := h.bump
  ({ markLive h b want with bump := (h.bump + headerBytes + want) % 2 ^ 64 }, b)

def tmalloc (h : Heap) (size : ℕ) : Option (Heap × ℕ) :=
  let want := wanted size
  match firstFit h want with
  | none => none
  | some (some pp) => some (takeFit h pp want)
  | some none =>
    let h := if bumpFull h want then growHeap h ((want + headerBytes) % 2 ^ 64) else h
    if bumpFull h want then some (h, 0) else some (carve h want)

def tfree (h : Heap) (ptr : ℕ) : Heap :=
  if ptr = 0 then h
  else if blockMeta h ptr ≠ mallocMagic then h
  else
    { setMeta h ptr h.freeList with
      usedBytes := (h.usedBytes + 2 ^ 64 - blockSize h ptr) % 2 ^ 64
      blockCount := decr32 h.blockCount
      freeList := ptr }

end TraitOS.Tmalloc
