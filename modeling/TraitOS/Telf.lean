import TraitOS.ByteMemory
import Mathlib.Data.Nat.Bitwise

/-!
# Parsing an executable

`telf_parse` reads an ELF64 header and up to four program headers and writes a load plan.
The range checks are made on the 64-bit fields of the program header; the plan holds the
offset and the sizes as 32-bit numbers. Offsets into the file wrap at 2^64, as pointers
do, so a read may leave the file.
-/
namespace TraitOS.Telf
open ByteMemory

/-- The `TELF_E_` results. -/
inductive TelfError where
  | badMagic
  | badClass
  | badData
  | badType
  | badMachine
  | badVersion
  | trunc
  | noLoad
  | tooMany
  | range
  | badAlign
  | phdr
deriving DecidableEq, Repr

def telfMaxSegments : ℕ := 4

structure TelfSegment where
  vaddr : ℕ
  offset : ℕ
  filesz : ℕ
  memsz : ℕ
  prot : ℕ
deriving DecidableEq, Repr

structure TelfPlan where
  entry : ℕ
  segs : List TelfSegment
deriving DecidableEq, Repr

/-- `telf_rd16`, `telf_rd32` and `telf_rd64`. -/
def telfRd (blob : Memory) (off n : ℕ) : ℕ := loadLE (fun i => blob (i % 2 ^ 64)) off n

/-- The fields of a program header that the parser reads. -/
structure ProgramHeader where
  type : ℕ
  flags : ℕ
  offset : ℕ
  vaddr : ℕ
  filesz : ℕ
  memsz : ℕ
  align : ℕ
deriving DecidableEq, Repr

def programHeader (blob : Memory) (off : ℕ) : ProgramHeader where
  type := telfRd blob off 4
  flags := telfRd blob (off + 4) 4
  offset := telfRd blob (off + 8) 8
  vaddr := telfRd blob (off + 16) 8
  filesz := telfRd blob (off + 32) 8
  memsz := telfRd blob (off + 40) 8
  align := telfRd blob (off + 48) 8

def ehdrEntry (blob : Memory) : ℕ := telfRd blob 24 8
def ehdrPhoff (blob : Memory) : ℕ := telfRd blob 32 8
def ehdrPhentsz (blob : Memory) : ℕ := telfRd blob 54 2
def ehdrPhnum (blob : Memory) : ℕ := telfRd blob 56 2

/-- The offset of the `i`-th program header. -/
def headerOffset (blob : Memory) (i : ℕ) : ℕ := (ehdrPhoff blob + i * ehdrPhentsz blob) % 2 ^ 64

/-- Stop with an error if a check fails. -/
def rejectIf (bad : Prop) [Decidable bad] (e : TelfError) : Except TelfError Unit :=
  if bad then .error e else .ok ()

def checkHeader (size : ℕ) (h : ProgramHeader) : Except TelfError Unit := do
  rejectIf (size < h.offset ∨ size - h.offset < h.filesz) .trunc
  rejectIf (h.memsz < h.filesz) .range
  rejectIf (2 ^ 64 - 1 - h.memsz < h.vaddr) .range
  rejectIf (h.align ≠ 0 ∧ h.align &&& (h.align - 1) ≠ 0) .badAlign
  rejectIf (1 < h.align ∧ h.vaddr % h.align ≠ h.offset % h.align) .badAlign

/-- The segment the plan holds for a program header. -/
def segmentOf (h : ProgramHeader) : TelfSegment where
  vaddr := h.vaddr
  offset := h.offset % 2 ^ 32
  filesz := h.filesz % 2 ^ 32
  memsz := h.memsz % 2 ^ 32
  prot := (if h.flags / 4 % 2 = 1 then 1 else 0) + (if h.flags / 2 % 2 = 1 then 2 else 0) +
    (if h.flags % 2 = 1 then 4 else 0)

/-- The loop over the program headers, from the `i`-th on. -/
def parseSegments (blob : Memory) (size : ℕ) : ℕ → ℕ → List TelfSegment →
    Except TelfError (List TelfSegment)
  | 0, _, segs => .ok segs
  | left + 1, i, segs => do
    rejectIf (size < (headerOffset blob i + 56) % 2 ^ 64) .trunc
    let h := programHeader blob (headerOffset blob i)
    if h.type ≠ 1 then parseSegments blob size left (i + 1) segs
    else
      rejectIf (segs.length = telfMaxSegments) .tooMany
      checkHeader size h
      parseSegments blob size left (i + 1) (segs ++ [segmentOf h])

/-- The page ranges of two segments overlap. -/
def Overlap (s t : TelfSegment) : Prop :=
  s.vaddr / 4096 * 4096 < (t.vaddr + t.memsz) % 2 ^ 64 ∧
    t.vaddr / 4096 * 4096 < (s.vaddr + s.memsz) % 2 ^ 64

instance (s t : TelfSegment) : Decidable (Overlap s t) :=
  inferInstanceAs (Decidable (_ ∧ _))

def telfParse (blob : Memory) (size : ℕ) : Except TelfError TelfPlan := do
  rejectIf (size < 64) .trunc
  rejectIf (blob 0 ≠ 0x7F ∨ blob 1 ≠ 0x45 ∨ blob 2 ≠ 0x4C ∨ blob 3 ≠ 0x46) .badMagic
  rejectIf (blob 4 ≠ 2) .badClass
  rejectIf (blob 5 ≠ 1) .badData
  rejectIf (blob 6 ≠ 1) .badVersion
  rejectIf (telfRd blob 16 2 ≠ 2) .badType
  rejectIf (telfRd blob 18 2 ≠ 62) .badMachine
  rejectIf (telfRd blob 20 4 ≠ 1) .badVersion
  rejectIf (ehdrPhentsz blob < 56) .phdr
  rejectIf (ehdrPhnum blob = 0) .noLoad
  rejectIf (telfMaxSegments < ehdrPhnum blob) .tooMany
  let segs ← parseSegments blob size (ehdrPhnum blob) 0 []
  rejectIf (segs = []) .noLoad
  rejectIf (¬ segs.Pairwise fun s t => ¬ Overlap s t) .range
  return ⟨ehdrEntry blob, segs⟩

/-! ## What an accepted file satisfies -/

@[simp] lemma rejectIf_bind_eq_ok {β : Type} {bad : Prop} [Decidable bad] {e : TelfError}
    {f : Unit → Except TelfError β} {b : β} : (rejectIf bad e >>= f) = .ok b ↔ ¬ bad ∧
      f () = .ok b := by
  unfold rejectIf
  by_cases h : bad
  · rw [if_pos h]
    exact ⟨fun h' => (nomatch h'), fun h' => absurd h h'.1⟩
  · rw [if_neg h]
    exact ⟨fun h' => ⟨h, h'⟩, fun h' => h'.2⟩

@[simp] lemma rejectIf_eq_ok {bad : Prop} [Decidable bad] {e : TelfError} {u : Unit} :
    rejectIf bad e = .ok u ↔ ¬ bad := by
  unfold rejectIf
  split_ifs with h <;> simp [h]

lemma bind_eq_ok {α β : Type} {x : Except TelfError α} {f : α → Except TelfError β} {b : β} :
    (x >>= f) = .ok b ↔ ∃ a, x = .ok a ∧ f a = .ok b := by
  cases x with
  | error e => exact ⟨fun h => (nomatch h), fun ⟨_, h, _⟩ => (nomatch h)⟩
  | ok a => exact ⟨fun h => ⟨a, rfl, h⟩, fun ⟨_, h, h'⟩ => Except.ok.inj h ▸ h'⟩

/-- The bounds that `checkHeader` establishes, on the 64-bit fields. -/
structure InBounds (size : ℕ) (h : ProgramHeader) : Prop where
  file : h.offset + h.filesz ≤ size
  sizes : h.filesz ≤ h.memsz
  space : h.vaddr + h.memsz < 2 ^ 64

lemma checkHeader_inBounds {size : ℕ} {blob : Memory} {off : ℕ}
    (h : checkHeader size (programHeader blob off) = .ok ()) :
    InBounds size (programHeader blob off) := by
  have hmem : (programHeader blob off).memsz < 256 ^ 8 := loadLE_lt _ _ _
  simp only [checkHeader, rejectIf_bind_eq_ok] at h
  obtain ⟨hfile, hsizes, hspace, -⟩ := h
  exact ⟨by omega, by omega, by omega⟩

/-- The offsets of the headers of type `PT_LOAD`, from the `i`-th header on. -/
def loadHeaders (blob : Memory) : ℕ → ℕ → List ℕ
  | 0, _ => []
  | left + 1, i =>
    if (programHeader blob (headerOffset blob i)).type ≠ 1 then loadHeaders blob left (i + 1)
    else headerOffset blob i :: loadHeaders blob left (i + 1)

/-- A segment is taken from a header that passed the checks. -/
def Taken (blob : Memory) (size off : ℕ) (s : TelfSegment) : Prop :=
  InBounds size (programHeader blob off) ∧ s = segmentOf (programHeader blob off)

lemma parseSegments_taken {blob : Memory} {size : ℕ} : ∀ (left i : ℕ) (segs out : List TelfSegment),
    parseSegments blob size left i segs = .ok out →
    ∃ new, out = segs ++ new ∧ List.Forall₂ (Taken blob size) (loadHeaders blob left i) new := by
  intro left
  induction left with
  | zero =>
    intro i segs out h
    exact ⟨[], by rw [List.append_nil, Except.ok.inj h], .nil⟩
  | succ left ih =>
    intro i segs out h
    obtain ⟨-, h⟩ := rejectIf_bind_eq_ok.mp h
    by_cases hload : (programHeader blob (headerOffset blob i)).type ≠ 1
    · rw [if_pos hload] at h
      rw [loadHeaders, if_pos hload]
      exact ih _ _ _ h
    · rw [if_neg hload, rejectIf_bind_eq_ok, bind_eq_ok] at h
      obtain ⟨-, _, hcheck, h⟩ := h
      obtain ⟨new, hout, htaken⟩ := ih _ _ _ h
      rw [loadHeaders, if_neg hload]
      exact ⟨_, by rw [hout, List.append_assoc]; rfl, .cons ⟨checkHeader_inBounds hcheck,
        rfl⟩ htaken⟩

lemma telfParse_taken {blob : Memory} {size : ℕ} {plan : TelfPlan}
    (h : telfParse blob size = .ok plan) :
    List.Forall₂ (Taken blob size) (loadHeaders blob (ehdrPhnum blob) 0) plan.segs := by
  simp only [telfParse, rejectIf_bind_eq_ok] at h
  obtain ⟨-, -, -, -, -, -, -, -, -, -, -, h⟩ := h
  obtain ⟨segs, hsegs, h⟩ := bind_eq_ok.mp h
  simp only [rejectIf_bind_eq_ok] at h
  obtain ⟨-, -, hplan⟩ := h
  obtain ⟨new, hnew, htaken⟩ := parseSegments_taken _ _ _ _ hsegs
  rw [List.nil_append] at hnew
  obtain rfl := Except.ok.inj hplan
  exact hnew ▸ htaken

/-! ## Soundness of the plan -/

/-- The first page of a segment. -/
def firstPage (s : TelfSegment) : ℕ := s.vaddr / 4096 * 4096

/-- The number of pages `telf_load` allocates for a segment, as it computes it. -/
def segmentPages (s : TelfSegment) : ℕ :=
  let last := (s.vaddr + s.memsz + (2 ^ 64 - 1)) % 2 ^ 64 / 4096 * 4096
  (last + (2 ^ 64 - firstPage s)) % 2 ^ 64 / 4096 + 1

/-- A segment of the plan agrees with its header, its bounds hold, and the bytes copied for
it fit into its pages. -/
structure SegmentSound (blob : Memory) (size off : ℕ) (s : TelfSegment) : Prop where
  sizes : s.filesz ≤ s.memsz
  file : s.offset + s.filesz ≤ size
  space : s.vaddr + s.memsz < 2 ^ 64
  vaddr_eq : s.vaddr = (programHeader blob off).vaddr
  offset_eq : s.offset = (programHeader blob off).offset
  filesz_eq : s.filesz = (programHeader blob off).filesz
  memsz_eq : s.memsz = (programHeader blob off).memsz
  fits : s.filesz ≤ segmentPages s * 4096

lemma memsz_le_pages {s : TelfSegment} (h : s.vaddr + s.memsz < 2 ^ 64) : s.memsz ≤
    segmentPages s * 4096 := by
  unfold segmentPages firstPage
  rcases Nat.eq_zero_or_pos s.memsz with h0 | hpos
  · omega
  · have hlast : (s.vaddr + s.memsz + (2 ^ 64 - 1)) % 2 ^ 64 = s.vaddr + s.memsz - 1 := by omega
    simp only [hlast]
    omega

/-- The offset and the sizes of a header fit into the fields of the plan. -/
structure Narrow (h : ProgramHeader) : Prop where
  offset : h.offset < 2 ^ 32
  filesz : h.filesz < 2 ^ 32
  memsz : h.memsz < 2 ^ 32

lemma segmentSound_iff {blob : Memory} {size off : ℕ} {s : TelfSegment}
    (h : Taken blob size off s) :
    SegmentSound blob size off s ↔ Narrow (programHeader blob off) := by
  obtain ⟨hb, rfl⟩ := h
  have hmod (n : ℕ) : n % 2 ^ 32 < 2 ^ 32 := Nat.mod_lt _ (by decide)
  constructor
  · intro hs
    exact ⟨hs.offset_eq ▸ hmod _, hs.filesz_eq ▸ hmod _, hs.memsz_eq ▸ hmod _⟩
  · intro hn
    have hoff : (segmentOf (programHeader blob off)).offset = _ := Nat.mod_eq_of_lt hn.offset
    have hfile : (segmentOf (programHeader blob off)).filesz = _ := Nat.mod_eq_of_lt hn.filesz
    have hmem : (segmentOf (programHeader blob off)).memsz = _ := Nat.mod_eq_of_lt hn.memsz
    have hsizes : (segmentOf (programHeader blob off)).filesz ≤
      (segmentOf (programHeader blob off)).memsz := by
      rw [hfile, hmem]
      exact hb.sizes
    have hspace : (segmentOf (programHeader blob off)).vaddr +
      (segmentOf (programHeader blob off)).memsz < 2 ^ 64 := by
      rw [hmem]
      exact hb.space
    exact ⟨hsizes, by rw [hoff, hfile]; exact hb.file, hspace, rfl, hoff, hfile, hmem,
      hsizes.trans (memsz_le_pages hspace)⟩

/-- The plan of an accepted file is sound exactly when every loaded header has its offset
and its sizes below 4 GiB. -/
theorem telfParse_sound_iff (blob : Memory) (size : ℕ) (plan : TelfPlan)
    (h : telfParse blob size = .ok plan) :
    List.Forall₂ (SegmentSound blob size) (loadHeaders blob (ehdrPhnum blob) 0) plan.segs ↔
      ∀ off ∈ loadHeaders blob (ehdrPhnum blob) 0, Narrow (programHeader blob off) := by
  have htaken := telfParse_taken h
  generalize loadHeaders blob (ehdrPhnum blob) 0 = offs at htaken
  generalize plan.segs = segs at htaken
  induction htaken with
  | nil => simp
  | cons hs _ ih =>
    rw [List.forall₂_cons, List.forall_mem_cons]
    exact and_congr (segmentSound_iff hs) ih

/-- A file with one program header, which starts at 64; `file` and `mem` are its sizes. -/
def oneSegment (vaddr file mem : ℕ) : Memory :=
  let b := storeLE (fun _ => 0) 0 8 0x10102464C457F
  let b := storeLE (storeLE (storeLE b 16 2 2) 18 2 62) 20 4 1
  let b := storeLE (storeLE (storeLE (storeLE b 24 8 vaddr) 32 8 64) 54 2 56) 56 2 1
  let b := storeLE (storeLE (storeLE b 64 4 1) 68 4 5) 72 8 120
  storeLE (storeLE (storeLE b 80 8 vaddr) 96 8 file) 104 8 mem

theorem telfParse_sound_small :
    ∃ plan, telfParse (oneSegment 0x8000000000 16 32) 136 = .ok plan ∧
      List.Forall₂ (SegmentSound (oneSegment 0x8000000000 16 32) 136)
        (loadHeaders (oneSegment 0x8000000000 16 32) (ehdrPhnum (oneSegment 0x8000000000 16 32)) 0)
          plan.segs := by
  have hparse : telfParse (oneSegment 0x8000000000 16 32) 136 =
      .ok ⟨0x8000000000, [⟨0x8000000000, 120, 16, 32, 5⟩]⟩ := by decide +kernel
  have hheaders : loadHeaders (oneSegment 0x8000000000 16 32)
      (ehdrPhnum (oneSegment 0x8000000000 16 32)) 0 = [64] := by decide +kernel
  refine ⟨_, hparse, (telfParse_sound_iff _ 136 _ hparse).mpr fun off hoff => ?_⟩
  rw [hheaders] at hoff
  obtain rfl := List.mem_singleton.mp hoff
  exact ⟨by decide +kernel, by decide +kernel, by decide +kernel⟩

/-- The memory size 2^32 + 1 is kept as 1: the plan asks for one page, and for two pages of
file bytes. -/
theorem plan_exceeds_its_pages :
    ∃ s, telfParse (oneSegment 0x8000000000 8192 (2 ^ 32 + 1)) 8312 = .ok ⟨0x8000000000, [s]⟩ ∧
      s.memsz < s.filesz ∧ segmentPages s * 4096 < s.filesz ∧
      ¬ List.Forall₂ (SegmentSound (oneSegment 0x8000000000 8192 (2 ^ 32 + 1)) 8312)
        (loadHeaders (oneSegment 0x8000000000 8192 (2 ^ 32 + 1))
          (ehdrPhnum (oneSegment 0x8000000000 8192 (2 ^ 32 + 1))) 0) [s] := by
  refine ⟨⟨0x8000000000, 120, 8192, 1, 5⟩, by decide +kernel, by decide, by decide, fun h => ?_⟩
  obtain ⟨_, _, hs, -⟩ := List.forall₂_cons_right_iff.mp h
  exact absurd hs.sizes (by decide)

end TraitOS.Telf
