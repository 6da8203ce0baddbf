import TraitOS.BitmapScan
import TraitOS.MachineWord

/-!
# The physical frame manager

One bit per 4 KiB frame up to 4 GiB, a set bit meaning used, with a frame count,
a free counter and a search hint kept beside the bitmap. Frame numbers and
counters are 32-bit in the source; only the free counter is ever decremented
past what a caller controls, so it alone carries its wrap-around. Every
allocator reports its result as a physical address, zero meaning failure.
-/
namespace TraitOS.Tpmm
open BitmapScan MachineWord

def pageSize : ℕ := 4096
def pmmMaxAddr : ℕ := 0x100000000
def pmmMaxFrames : ℕ := pmmMaxAddr / pageSize

/-- Frame `0x40000` is physical address 1 GiB. -/
def lowFrames : ℕ := 0x40000

structure Pmm where
  bitmap : Bitmap
  totalFrames : ℕ
  freeFrames : ℕ
  firstFreeHint : ℕ

def bitSet (b : Bitmap) (frame : ℕ) : Bitmap :=
  if frame < pmmMaxFrames then BitmapScan.set b frame else b

def bitClear (b : Bitmap) (frame : ℕ) : Bitmap :=
  if frame < pmmMaxFrames then BitmapScan.clear b frame else b

def bitTest (b : Bitmap) (frame : ℕ) : Bool := BitmapScan.test b frame

/-- Frame number of an address, in the 32 bits the source keeps it in. -/
def frameOf (phys : ℕ) : ℕ := phys / pageSize % 2 ^ 32

def reserveFrame (s : Pmm) (phys : ℕ) : Pmm :=
  let frame := frameOf phys
  if s.totalFrames ≤ frame then s
  else { s with
    freeFrames := if bitTest s.bitmap frame then s.freeFrames else decr32 s.freeFrames
    bitmap := bitSet s.bitmap frame }

/-- Page addresses a range loop visits: from the page of `base` while below
`base + size`, in 64-bit arithmetic. -/
def regionPages (base size : ℕ) : List ℕ :=
  let first := base / pageSize * pageSize
  let limit := (base + size) % 2 ^ 64
  (List.range ((limit - first + (pageSize - 1)) / pageSize)).map (fun i => first + i * pageSize)

def reserveRegion (s : Pmm) (base size : ℕ) : Pmm :=
  (regionPages base size).foldl reserveFrame s

/-- Mark `n` frames from `start` used, counting each one down. -/
def markFrames (s : Pmm) (start : ℕ) : ℕ → Pmm
  | 0 => s
  | n + 1 =>
    let s := markFrames s start n
    { s with bitmap := bitSet s.bitmap (start + n), freeFrames := decr32 s.freeFrames }

/-- The common tail of all four allocators: mark the frames, move the hint
behind them. The single-frame allocators are the case of one frame. -/
def takeFrames (s : Pmm) (start n : ℕ) : Pmm :=
  { markFrames s start n with firstFreeHint := start + n }

def isFree (s : Pmm) (frame : ℕ) : Bool := !bitTest s.bitmap frame

/-- First free frame of `[from, to)`. -/
def scanFree (s : Pmm) (first last : ℕ) : Option ℕ :=
  firstFrom (isFree s) first (last - first)

def tpmmAlloc (s : Pmm) : Pmm × ℕ :=
  match scanFree s s.firstFreeHint s.totalFrames with
  | some f => (takeFrames s f 1, f * pageSize)
  | none =>
    match scanFree s 0 (min s.firstFreeHint s.totalFrames) with
    | some f => (takeFrames s f 1, f * pageSize)
    | none => (s, 0)

def tpmmAllocLow (s : Pmm) : Pmm × ℕ :=
  match scanFree s s.firstFreeHint (min lowFrames s.totalFrames) with
  | some f => (takeFrames s f 1, f * pageSize)
  | none =>
    match scanFree s 0 (min s.firstFreeHint lowFrames) with
    | some f => (takeFrames s f 1, f * pageSize)
    | none => (s, 0)

/-- Two scans of one contiguous allocation, up to `cap`: from the hint, then
from frame zero with whatever run the first scan left open. -/
def scanContig (s : Pmm) (pages cap stop : ℕ) : Option ℕ :=
  match scanRun (isFree s) pages s.firstFreeHint (cap - s.firstFreeHint) 0 0 with
  | .found start => some start
  | .carry run start =>
    match scanRun (isFree s) pages 0 stop run start with
    | .found start => some start
    | .carry _ _ => none

def tpmmAllocContig (s : Pmm) (pages : ℕ) : Pmm × ℕ :=
  match scanContig s pages s.totalFrames s.firstFreeHint with
  | some start => (takeFrames s start pages, start * pageSize)
  | none => (s, 0)

def tpmmAllocLowContig (s : Pmm) (pages : ℕ) : Pmm × ℕ :=
  let cap := min lowFrames s.totalFrames
  if pages = 0 ∨ cap < pages then (s, 0)
  else
    match scanContig s pages cap (min s.firstFreeHint cap) with
    | some start => (takeFrames s start pages, start * pageSize)
    | none => (s, 0)

/-- Give one frame back if it is used, moving the hint down to it. -/
def giveFrame (s : Pmm) (frame : ℕ) : Pmm :=
  if bitTest s.bitmap frame then { s with
    bitmap := bitClear s.bitmap frame
    freeFrames := incr32 s.freeFrames
    firstFreeHint := if frame < s.firstFreeHint then frame else s.firstFreeHint }
  else s

def tpmmFree (s : Pmm) (phys : ℕ) : Pmm :=
  if s.totalFrames ≤ frameOf phys then s else giveFrame s (frameOf phys)

def tpmmFrameUsed (s : Pmm) (phys : ℕ) : Bool := bitTest s.bitmap (frameOf phys)

def tpmmReserveRange (s : Pmm) (base size : ℕ) : Pmm := reserveRegion s base size

/-- The release loop stops at the first page past the managed frames. -/
def releasePages (s : Pmm) : List ℕ → Pmm
  | [] => s
  | a :: as =>
    if s.totalFrames ≤ frameOf a then s else releasePages (giveFrame s (frameOf a)) as

def tpmmReleaseRange (s : Pmm) (base size : ℕ) : Pmm :=
  releasePages s (regionPages base size)

end TraitOS.Tpmm
