import TraitOS.TsecWindow
import TraitOS.TsecTables
import TraitOS.TvmmBoot
import TraitOS.TpmmContract

/-!
# Hardening the kernel's view

`sec_harden` sets NX on the leaves of both boot mappings, replaces the first leaf of the window
by the small pages of the image, and leaves a hole below the boot stack in the low mapping. Both
of the last two steps put a page table behind the first entry of a directory, or do nothing if no
frame is left for it.
-/
namespace TraitOS.Tsec
open ByteMemory PageTable Tstring Tpmm Tvmm

variable {p : Paging}

/-! ## The image -/

def alignUp (n : ℕ) : ℕ := (n + 4095) / 4096 * 4096

/-- The sizes of the parts of the image in the order of the linker script: what is linked at its
load address, then code, constants, data and the zeroed rest, each from a page boundary on. -/
structure SectionSizes where
  boot : ℕ
  text : ℕ
  rodata : ℕ
  data : ℕ
  bss : ℕ

namespace SectionSizes

def bootPhysEnd (z : SectionSizes) : ℕ := alignUp (kernelPhysStart + z.boot)
def etext (z : SectionSizes) : ℕ := z.bootPhysEnd + alignUp z.text
def erodata (z : SectionSizes) : ℕ := z.etext + alignUp z.rodata
def edata (z : SectionSizes) : ℕ := z.erodata + alignUp z.data

/-- `_kernel_phys_end`, which is not rounded. -/
def physEnd (z : SectionSizes) : ℕ := z.edata + z.bss

/-- `_kernel_virtual_end` less the base of the window. -/
def virtualEnd (z : SectionSizes) : ℕ := alignUp z.physEnd

end SectionSizes

/-- An image that ends within the first 2 MiB. -/
structure ImageLayout extends SectionSizes where
  fits : toSectionSizes.virtualEnd ≤ windowSize

structure Bounds where
  textLo : ℕ
  textHi : ℕ
  rodataHi : ℕ
  imageEnd : ℕ

def tsecRegionBounds (vbase physBase imageLocal kvstart etext erodata kvend : ℕ) : Bounds :=
  let offset (v : ℕ) := (imageLocal + (v + (2 ^ 64 - vbase)) + (2 ^ 64 - physBase)) % 2 ^ 64
  ⟨offset kvstart, offset etext, offset erodata, offset kvend⟩

/-- `IMAGE_LOCAL`, the offset of the image into the window. -/
def imageLocal : ℕ := 0x100000

namespace ImageLayout

/-- The bounds, from the symbols of the linker script. -/
def bounds (l : ImageLayout) : Bounds :=
  tsecRegionBounds virtBase kernelPhysStart imageLocal (virtBase + l.bootPhysEnd)
    (virtBase + l.etext)
    (virtBase + l.erodata) (virtBase + l.virtualEnd)

lemma ordered (l : ImageLayout) :
    imageLocal ≤ l.bootPhysEnd ∧ l.bootPhysEnd ≤ l.etext ∧ l.etext ≤ l.erodata ∧
      l.erodata ≤ l.virtualEnd ∧
      l.physEnd ≤ l.virtualEnd ∧ l.virtualEnd < l.physEnd + 4096 ∧ kernelPhysStart ≤ l.physEnd := by
  unfold SectionSizes.virtualEnd SectionSizes.physEnd SectionSizes.edata SectionSizes.erodata
    SectionSizes.etext
    SectionSizes.bootPhysEnd alignUp imageLocal kernelPhysStart
  omega

/-- The sections as the window has them. -/
def sections (l : ImageLayout) : Sections where
  imageLocal := imageLocal
  textLo := l.bootPhysEnd
  textHi := l.etext
  rodataHi := l.erodata
  imageEnd := l.virtualEnd
  image_le := l.ordered.1
  text_le := l.ordered.2.1
  rodata_le := l.ordered.2.2.1
  end_le := l.ordered.2.2.2.1
  window := l.fits
  aligned := by
    unfold SectionSizes.virtualEnd SectionSizes.erodata SectionSizes.etext SectionSizes.bootPhysEnd
      alignUp imageLocal
    omega

/-- The arithmetic of the bounds comes to the sections. -/
theorem bounds_eq (l : ImageLayout) :
    l.bounds = ⟨l.sections.textLo, l.sections.textHi, l.sections.rodataHi, l.sections.imageEnd⟩ :=
      by
  obtain ⟨h₁, h₂, h₃, h₄, -⟩ := l.ordered
  have hfits := l.fits
  have hoffset (v : ℕ) (hv : v ≤ windowSize) :
      (imageLocal + (virtBase + v + (2 ^ 64 - virtBase)) + (2 ^ 64 - kernelPhysStart)) % 2 ^ 64 =
        v := by
    unfold windowSize at hv
    unfold imageLocal virtBase kernelPhysStart
    omega
  unfold bounds tsecRegionBounds sections
  dsimp only
  rw [hoffset _ (by omega), hoffset _ (by omega), hoffset _ (by omega), hoffset _ hfits]

/-- `image_size` of the source. -/
def imageSize (l : ImageLayout) : ℕ := l.physEnd - kernelPhysStart

/-- A frame of the image is reserved by the size of the source, which is not rounded. -/
lemma mem_rangeFrames (l : ImageLayout) {base off : ℕ} (hal : base % 4096 = 0)
    (hlo : imageLocal ≤ off) (hhi : off < l.virtualEnd) :
    (base + (off - imageLocal)) / pageSize ∈ rangeFrames base l.imageSize := by
  obtain ⟨-, -, -, -, hle, -, hstart⟩ := l.ordered
  have hend : l.virtualEnd = alignUp l.physEnd := rfl
  unfold rangeFrames imageSize pageSize
  rw [Finset.mem_Ico]
  unfold alignUp at hend
  unfold imageLocal at hlo ⊢
  unfold kernelPhysStart at *
  omega

end ImageLayout

/-! ## The source -/

def eferNxe : ℕ := 1 <<< 11

def secEnableNxe (efer : ℕ) : ℕ := if efer &&& eferNxe = 0 then efer ||| eferNxe else efer

/-- The loops that set the NX bit, after `n` entries from `first` on. -/
def setNx (m : Memory) (table first : ℕ) : ℕ → Memory
  | 0 => m
  | n + 1 =>
    setEntry (setNx m table first n) table (first + n)
      (entry (setNx m table first n) table (first + n) ||| pageNx)

/-- The result says whether a frame for the page table was left. -/
def secSplitWindow (p : Paging) (pd : ℕ) (l : ImageLayout) (relocBase : ℕ) : Paging × Bool :=
  let r := tpmmAllocLow p.pmm
  if r.2 = 0 then (⟨p.mem, r.1⟩, false)
  else
    let m := tmemset p.mem (target r.2) 0 4096
    let b := l.bounds
    let m := tsecFillWindow m (target r.2) relocBase imageLocal b.textLo b.textHi b.rodataHi
      b.imageEnd 512
    (⟨setEntry m pd 0 (r.2 ||| pagePresent ||| pageWrite), r.1⟩, true)

/-- The entry of a page that `tsec_fill_guard_pt` writes. -/
def guardPte (guard phys : ℕ) : ℕ :=
  if guard ≠ 0 ∧ guard ≤ phys ∧ phys < guard + 4096 then 0
    else phys ||| pagePresent ||| pageWrite ||| pageNx

/-- The loop of `tsec_fill_guard_pt`, after `n` entries. -/
def tsecFillGuardPt (m : Memory) (pt guard : ℕ) : ℕ → Memory
  | 0 => m
  | n + 1 => setEntry (tsecFillGuardPt m pt guard n) pt n (guardPte guard (n * 4096))

/-- The page below the boot stack. -/
def guardPage (stackBottom : ℕ) : ℕ := (stackBottom + (2 ^ 64 - 4096)) % 2 ^ 64

/-- The result is `stack_guard_set`. -/
def secGuardStack (p : Paging) (cr3 stackBottom : ℕ) : Paging × Bool :=
  let guard := guardPage stackBottom
  if guard % 4096 ≠ 0 ∨ windowSize ≤ guard then (p, false)
  else
    let p2Lo := target (entry p.mem (target (entry p.mem (target cr3) 0)) 0)
    let r := tpmmAllocLow p.pmm
    if r.2 = 0 then (⟨p.mem, r.1⟩, false)
    else
      let m := tsecFillGuardPt (tmemset p.mem (target r.2) 0 4096) (target r.2) guard 512
      (⟨setEntry m p2Lo 0 (r.2 ||| pagePresent ||| pageWrite), r.1⟩, true)

/-- What `sec_harden` leaves. It runs on the original image: after a relocation the kernel goes on
with the copy made before, whose frame bitmap and `stack_guard_set` are the old ones. -/
structure Hardened where
  paging : Paging
  efer : ℕ
  /-- Whether the window was split; the source drops this result. -/
  split : Bool
  /-- Whether `sec_guard_stack` got the frame for its table. -/
  stackGuardSet : Bool

def secHarden (p : Paging) (efer cr3 : ℕ) (l : ImageLayout) (kaslrBase stackBottom : ℕ) :
    Hardened :=
  let p2Lo := target (entry p.mem (target (entry p.mem (target cr3) 0)) 0)
  let m := setNx p.mem p2Lo 0 512
  let pd := target (entry m (target (entry m (target cr3) 511)) 510)
  let w := secSplitWindow ⟨setNx m pd 1 511, p.pmm⟩ pd l kaslrBase
  let g := secGuardStack w.1 cr3 stackBottom
  ⟨g.1, secEnableNxe efer, w.2, g.2⟩

/-! ## What the loops write -/

lemma setNx_of_frame (m : Memory) {g first n x : ℕ} (hn : first + n ≤ entries)
    (hx : x / frameBytes ≠ g) : setNx m (g * frameBytes) first n x = m x := by
  induction n with
  | zero => rfl
  | succ n ih =>
    rw [setNx, setEntry_of_frame _ _ (by omega) hx]
    exact ih (by omega)

lemma entry_setNx (m : Memory) {g first n i : ℕ} (hi : i < entries) (hn : first + n ≤ entries) :
    entry (setNx m (g * frameBytes) first n) (g * frameBytes) i =
      if first ≤ i ∧ i < first + n then entry m (g * frameBytes) i ||| pageNx
        else entry m (g * frameBytes) i := by
  induction n with
  | zero =>
    rw [if_neg (by omega)]
    rfl
  | succ n ih =>
    have hlt := Nat.or_lt_two_pow (entry_lt m (g * frameBytes) i) (show pageNx < 2 ^ 64 by decide)
    unfold setNx
    by_cases hself : i = first + n
    · subst hself
      rw [ih (by omega), if_neg (by omega), if_pos (by omega), entry_setEntry_self _ _ _ hlt]
    · rw [entry_setEntry_of_ne _ _ hi (by omega) (Or.inr hself), ih (by omega)]
      exact if_congr (by omega) rfl rfl

lemma Sections.fill_of_frame (w : Sections) (base : ℕ) (m : Memory) {g n x : ℕ} (hn : n ≤ entries)
    (hx : x / frameBytes ≠ g) : w.fill base m (g * frameBytes) n x = m x := by
  induction n with
  | zero => rfl
  | succ n ih =>
    refine (setEntry_of_frame _ _ (by omega) hx).trans ?_
    exact ih (by omega)

lemma tsecFillGuardPt_of_frame (m : Memory) (guard : ℕ) {g n x : ℕ} (hn : n ≤ entries)
    (hx : x / frameBytes ≠ g) : tsecFillGuardPt m (g * frameBytes) guard n x = m x := by
  induction n with
  | zero => rfl
  | succ n ih =>
    rw [tsecFillGuardPt, setEntry_of_frame _ _ (by omega) hx]
    exact ih (by omega)

lemma guardPte_lt (guard : ℕ) {phys : ℕ} (h : phys < windowSize) : guardPte guard phys <
    2 ^ 64 := by
  unfold guardPte
  split_ifs
  · decide
  · have hphys : phys < 2 ^ 64 := h.trans (by decide)
    exact Nat.or_lt_two_pow (Nat.or_lt_two_pow (Nat.or_lt_two_pow hphys (by decide)) (by decide))
      (by decide)

lemma entry_tsecFillGuardPt (m : Memory) (guard g : ℕ) {n i : ℕ} (hn : n ≤ entries) (hi : i < n) :
    entry (tsecFillGuardPt m (g * frameBytes) guard n) (g * frameBytes) i =
      guardPte guard (i * 4096) := by
  induction n with
  | zero => omega
  | succ n ih =>
    have hentries : entries = 512 := rfl
    rw [tsecFillGuardPt]
    by_cases hself : i = n
    · subst hself
      exact entry_setEntry_self _ _ _ (guardPte_lt guard (by unfold windowSize; omega))
    · rw [entry_setEntry_of_ne _ _ (by omega) (by omega) (Or.inr hself)]
      exact ih (by omega) (by omega)

/-! ## The steps -/

/-- A change of memory and pool that takes a frame out of the pool and writes to it and to one
table. -/
structure Takes (p p' : Paging) (table : ℕ) (pt : Option ℕ) : Prop where
  valid : Valid p'.pmm
  total : p'.pmm.totalFrames = p.pmm.totalFrames
  free : ∀ f, pt = some f → f ∈ freeSet p.pmm ∧ f ∉ freeSet p'.pmm ∧ f < lowFrames
  subset : freeSet p'.pmm ⊆ freeSet p.pmm
  kept : ∀ x, x / frameBytes ∉ freeSet p.pmm → x / frameBytes ≠ table → p'.mem x = p.mem x

lemma Takes.refl (hv : Valid p.pmm) (table : ℕ) : Takes p p table none :=
  ⟨hv, rfl, by simp, subset_rfl, fun _ _ _ => rfl⟩

/-- What a successful `tpmm_alloc_low` gives. -/
lemma tpmmAllocLow_frame {s : Pmm} (hv : Valid s) (h0 : (tpmmAllocLow s).2 ≠ 0) :
    ∃ c < lowFrames, (tpmmAllocLow s).2 = c * frameBytes ∧ target (c * frameBytes) =
      c * frameBytes ∧ c ∈ freeSet s ∧ freeSet (tpmmAllocLow s).1 = (freeSet s).erase c := by
  obtain ⟨hspec, hbelow⟩ := tpmmAllocLow_spec hv
  obtain ⟨c, hc, hfree, -, hset⟩ := granted_one hv hspec h0
  have hlow : c < lowFrames := by
    have hle := hbelow.resolve_left h0
    rw [hc] at hle
    unfold frameBytes pageSize at hle
    omega
  exact ⟨c, hlow, hc, target_frame (hlow.trans (by decide)), hfree, hset⟩

lemma Takes.alloc {p p' : Paging} (hv : Valid p.pmm) {c table : ℕ} (hc : c ∈ freeSet p.pmm)
    (hlow : c < lowFrames) (hset : freeSet (tpmmAllocLow p.pmm).1 = (freeSet p.pmm).erase c)
    (hpmm : p'.pmm = (tpmmAllocLow p.pmm).1)
    (hkept : ∀ x, x / frameBytes ≠ c → x / frameBytes ≠ table → p'.mem x = p.mem x) :
    Takes p p' table (some c) := by
  have hspec := (tpmmAllocLow_spec hv).1
  refine ⟨hpmm ▸ hspec.valid hv, hpmm ▸ hspec.totalFrames, fun f hf => ?_, ?_, fun x hx => ?_⟩
  · cases hf
    rw [hpmm, hset]
    exact ⟨hc, Finset.notMem_erase _ _, hlow⟩
  · rw [hpmm, hset]
    exact Finset.erase_subset _ _
  · exact hkept x fun h => hx (h ▸ hc)

/-- A frame of the pool as an entry. -/
lemma pointer_lt {pt : ℕ} (h : pt < lowFrames) : pt * frameBytes ||| pagePresent ||| pageWrite <
    2 ^ 64 := by
  unfold lowFrames at h
  exact Nat.or_lt_two_pow (Nat.or_lt_two_pow (by unfold frameBytes; omega) (by decide)) (by decide)

/-- A page table is put behind the first entry of a directory, or nothing happens. -/
structure Grafted (table : ℕ) (content : ℕ →
    ℕ) (p p' : Paging) (pt : Option ℕ) : Prop extends Takes p p' table pt where
  unset : pt = none → p'.mem = p.mem
  page : ∀ c, pt = some c → entry p'.mem (table * frameBytes) 0 =
    c * frameBytes ||| pagePresent ||| pageWrite ∧
    (∀ i < entries, i ≠ 0 → entry p'.mem (table * frameBytes) i =
      entry p.mem (table * frameBytes) i) ∧
    ∀ i < entries, entry p'.mem (c * frameBytes) i = content i

lemma Grafted.refl (hv : Valid p.pmm) (table : ℕ) (content : ℕ →
    ℕ) : Grafted table content p p none :=
  ⟨.refl hv table, fun _ => rfl, by simp⟩

lemma Grafted.alloc (hv : Valid p.pmm) {c table : ℕ} {content : ℕ → ℕ} {m : Memory}
    (hc : c ∈ freeSet p.pmm) (hlow : c < lowFrames) (htable : table ∉ freeSet p.pmm)
    (hset : freeSet (tpmmAllocLow p.pmm).1 = (freeSet p.pmm).erase c)
    (hkept : ∀ x, x / frameBytes ≠ c → m x = p.mem x)
    (hpage : ∀ i < entries, entry m (c * frameBytes) i = content i) :
    Grafted table content p
      ⟨setEntry m (table * frameBytes) 0 (c * frameBytes ||| pagePresent ||| pageWrite),
        (tpmmAllocLow p.pmm).1⟩
      (some c) := by
  have hne : c ≠ table := fun h => htable (h ▸ hc)
  refine ⟨.alloc hv hc hlow hset rfl fun x hx hx' => ?_, by simp, fun f hf => ?_⟩
  · exact (setEntry_of_frame _ _ (by decide) hx').trans (hkept x hx)
  · cases hf
    refine ⟨entry_setEntry_self _ _ _ (pointer_lt hlow), fun i hi hi0 => ?_, fun i hi => ?_⟩
    · rw [entry_setEntry_of_ne _ _ hi (by decide) (Or.inr hi0)]
      exact entry_congr_frame hi fun x hx => hkept x (hx ▸ hne.symm)
    · rw [entry_setEntry_of_ne _ _ hi (by decide) (Or.inl hne), hpage i hi]

/-- The pages of the window. -/
def windowPage (l : ImageLayout) (base i : ℕ) : ℕ := l.sections.pte base (i * 4096)

lemma secSplitWindow_grafted (hv : Valid p.pmm) {pd base : ℕ} (l : ImageLayout)
    (hbase : RelocBase base) (hpd : pd ∉ freeSet p.pmm) :
    ∃ pt, (secSplitWindow p (pd * frameBytes) l base).2 = pt.isSome ∧
      Grafted pd (windowPage l base) p (secSplitWindow p (pd * frameBytes) l base).1 pt := by
  by_cases h0 : (tpmmAllocLow p.pmm).2 = 0
  · have hstep : secSplitWindow p (pd * frameBytes) l base =
      (⟨p.mem, (tpmmAllocLow p.pmm).1⟩, false) := by
      unfold secSplitWindow
      rw [if_pos h0]
    rw [hstep, (tpmmAllocLow_spec hv).1.refused hv h0]
    exact ⟨none, rfl, .refl hv pd _⟩
  obtain ⟨pt, hlow, hc, htarget, hfree, htaken⟩ := tpmmAllocLow_frame hv h0
  obtain ⟨m, hm⟩ : ∃ m, m = l.sections.fill base (fill p.mem (pt * frameBytes) 4096 0)
    (pt * frameBytes) 512 := ⟨_, rfl⟩
  have hstep : secSplitWindow p (pd * frameBytes) l base =
      (⟨setEntry m (pd * frameBytes) 0 (pt * frameBytes ||| pagePresent ||| pageWrite),
        (tpmmAllocLow p.pmm).1⟩, true) := by
    unfold secSplitWindow
    rw [if_neg h0, hc, htarget, tmemset_eq_fill, l.bounds_eq, hm]
    rfl
  rw [hstep]
  refine ⟨some pt, rfl, .alloc hv hfree hlow hpd htaken (fun x hx => ?_) fun i hi => ?_⟩
  · rw [hm, l.sections.fill_of_frame base _ (show 512 ≤ entries from le_rfl) hx]
    exact fill_of_frame p.mem 0 hx
  · rw [hm]
    exact l.sections.entry_fill hbase _ _ le_rfl hi

/-- The pages of the low mapping under the first entry of its directory. -/
def lowPage (guard i : ℕ) : ℕ := guardPte guard (i * 4096)

lemma secGuardStack_grafted (hv : Valid p.pmm) {cr3 p2 : ℕ} (stackBottom : ℕ)
    (hused : p2 ∉ freeSet p.pmm)
    (hp2 : target (entry p.mem (target (entry p.mem (target cr3) 0)) 0) = p2 * frameBytes) :
    ∃ pt, (secGuardStack p cr3 stackBottom).2 = pt.isSome ∧
      (pt.isSome = true → guardPage stackBottom % 4096 = 0 ∧ guardPage stackBottom < windowSize) ∧
      Grafted p2 (lowPage (guardPage stackBottom)) p (secGuardStack p cr3 stackBottom).1 pt := by
  by_cases hguard : guardPage stackBottom % 4096 ≠ 0 ∨ windowSize ≤ guardPage stackBottom
  · have hstep : secGuardStack p cr3 stackBottom = (p, false) := by
      unfold secGuardStack
      rw [if_pos hguard]
    rw [hstep]
    exact ⟨none, rfl, by simp, .refl hv p2 _⟩
  by_cases h0 : (tpmmAllocLow p.pmm).2 = 0
  · have hstep : secGuardStack p cr3 stackBottom = (⟨p.mem, (tpmmAllocLow p.pmm).1⟩, false) := by
      unfold secGuardStack
      rw [if_neg hguard, if_pos h0]
    rw [hstep, (tpmmAllocLow_spec hv).1.refused hv h0]
    exact ⟨none, rfl, by simp, .refl hv p2 _⟩
  obtain ⟨c, hlow, hc, htarget, hfree, htaken⟩ := tpmmAllocLow_frame hv h0
  obtain ⟨m, hm⟩ : ∃ m, m = tsecFillGuardPt (fill p.mem (c * frameBytes) 4096 0) (c * frameBytes)
      (guardPage stackBottom) 512 := ⟨_, rfl⟩
  have hstep : secGuardStack p cr3 stackBottom =
      (⟨setEntry m (p2 * frameBytes) 0 (c * frameBytes ||| pagePresent ||| pageWrite),
        (tpmmAllocLow p.pmm).1⟩, true) := by
    unfold secGuardStack
    rw [if_neg hguard, if_neg h0, hp2, hc, htarget, tmemset_eq_fill, hm]
  rw [hstep]
  refine ⟨some c, rfl, fun _ => by
    omega, .alloc hv hfree hlow hused htaken (fun x hx => ?_) fun i hi => ?_⟩
  · rw [hm, tsecFillGuardPt_of_frame _ _ (show 512 ≤ entries from le_rfl) hx]
    exact fill_of_frame p.mem 0 hx
  · rw [hm]
    exact entry_tsecFillGuardPt _ _ c le_rfl hi

/-! ## The two mappings -/

/-- The tables on the way to the two mappings of the first 1 GiB. -/
structure PathFrames where
  p4 : ℕ
  p3 : ℕ
  p2 : ℕ
  p3High : ℕ
  p2High : ℕ

def PathFrames.frames (t : PathFrames) : List ℕ := [t.p4, t.p3, t.p2, t.p3High, t.p2High]

/-- An entry that leads to a table, for writing. -/
def PointsTo (e f : ℕ) : Prop := present e = true ∧ large e = false ∧ writable e = true ∧
    target e = f * frameBytes

/-- A leaf of 2 MiB that maps to itself, with every access. -/
def IdentityLeaf (e i : ℕ) : Prop :=
  present e = true ∧ large e = true ∧ writable e = true ∧ executable e = true ∧
    target e = i * 2 ^ 21

/-- Where a mapping of 1 GiB stands in the tree: the entries that lead to its directory. -/
structure Path where
  p4 : ℕ
  i4 : ℕ
  p3 : ℕ
  i3 : ℕ
  p2 : ℕ

def PathFrames.low (t : PathFrames) : Path := ⟨t.p4, 0, t.p3, 0, t.p2⟩

def PathFrames.high (t : PathFrames) : Path := ⟨t.p4, 511, t.p3High, 510, t.p2High⟩

/-- The mapping of the boot code: 1 GiB to itself with 2 MiB leaves. -/
structure BootMap (m : Memory) (d : Path) : Prop where
  top : PointsTo (entry m (d.p4 * frameBytes) d.i4) d.p3
  mid : PointsTo (entry m (d.p3 * frameBytes) d.i3) d.p2
  leaf : ∀ i < entries, IdentityLeaf (entry m (d.p2 * frameBytes) i) i

/-- Both mappings, with no table of them in the pool. -/
structure WindowTables (m : Memory) (s : Pmm) (cr3 : ℕ) (t : PathFrames) : Prop where
  root : target cr3 = t.p4 * frameBytes
  low : BootMap m t.low
  high : BootMap m t.high
  nodup : t.frames.Nodup
  held : ∀ f ∈ t.frames, f ∉ freeSet s

/-- What the hardening leaves of a mapping; `first` is what it does to the first leaf if it cannot
split it. -/
structure HardenedMap (m m' : Memory) (d : Path) (first : ℕ → ℕ) (content : ℕ →
    ℕ) (pt : Option ℕ) : Prop where
  top : entry m' (d.p4 * frameBytes) d.i4 = entry m (d.p4 * frameBytes) d.i4
  mid : entry m' (d.p3 * frameBytes) d.i3 = entry m (d.p3 * frameBytes) d.i3
  tail : ∀ i < entries, i ≠ 0 → entry m' (d.p2 * frameBytes) i =
    entry m (d.p2 * frameBytes) i ||| pageNx
  unset : pt = none → entry m' (d.p2 * frameBytes) 0 = first (entry m (d.p2 * frameBytes) 0)
  page : ∀ c, pt = some c → c < lowFrames ∧
    entry m' (d.p2 * frameBytes) 0 = c * frameBytes ||| pagePresent ||| pageWrite ∧
    ∀ i < entries, entry m' (c * frameBytes) i = content i

lemma Takes.entry_eq {p p' : Paging} {table : ℕ} {pt : Option ℕ} (h : Takes p p' table pt) {f i : ℕ}
    (hi : i < entries) (hf : f ∉ freeSet p.pmm) (hne : f ≠ table) :
    entry p'.mem (f * frameBytes) i = entry p.mem (f * frameBytes) i :=
  entry_congr_frame hi fun x hx => h.kept x (hx ▸ hf) (hx ▸ hne)

/-- The page table of the window and that of the low mapping. -/
structure HardenSpec (p : Paging) (h : Hardened) (l : ImageLayout) (base guard : ℕ) (t : PathFrames)
    (pt c : Option ℕ) : Prop where
  split : h.split = pt.isSome
  guardSet : h.stackGuardSet = c.isSome
  aligned : c.isSome = true → guard % 4096 = 0 ∧ guard < windowSize
  window : HardenedMap p.mem h.paging.mem t.high id (windowPage l base) pt
  low : HardenedMap p.mem h.paging.mem t.low (· ||| pageNx) (lowPage guard) c
  valid : Valid h.paging.pmm
  total : h.paging.pmm.totalFrames = p.pmm.totalFrames
  subset : freeSet h.paging.pmm ⊆ freeSet p.pmm

lemma secHarden_spec (hv : Valid p.pmm) {cr3 base : ℕ} {t : PathFrames}
    (ht : WindowTables p.mem p.pmm cr3 t) (l : ImageLayout) (hbase : RelocBase base)
    (efer stackBottom : ℕ) :
    ∃ pt c, HardenSpec p (secHarden p efer cr3 l base stackBottom) l base (guardPage stackBottom)
      t pt c := by
  obtain ⟨p4, p3, p2, p3h, p2h⟩ := t
  obtain ⟨hroot, hlow, hhigh, hnodup, hheld⟩ := ht
  have htop := hlow.top.2.2.2
  have hmid := hlow.mid.2.2.2
  have htopHigh := hhigh.top.2.2.2
  have hmidHigh := hhigh.mid.2.2.2
  dsimp only [PathFrames.frames, PathFrames.low, PathFrames.high] at *
  simp only [List.nodup_cons, List.mem_cons, List.not_mem_nil, or_false, not_or, List.nodup_nil,
    and_true, not_false_eq_true] at hnodup
  simp only [List.mem_cons, List.not_mem_nil, or_false, forall_eq_or_imp, forall_eq] at hheld
  obtain ⟨h4, h3, h2, h3h, h2h⟩ := hheld
  obtain ⟨⟨-, h42, -, h42h⟩, ⟨h32, -, h32h⟩, ⟨h23h, h22h⟩, h3h2h⟩ := hnodup
  obtain ⟨m₁, hm₁⟩ : ∃ m, m = setNx p.mem (p2 * frameBytes) 0 512 := ⟨_, rfl⟩
  obtain ⟨m₂, hm₂⟩ : ∃ m, m = setNx m₁ (p2h * frameBytes) 1 511 := ⟨_, rfl⟩
  have hfirst {f i : ℕ} (hi : i < entries) (hf : f ≠ p2) :
      entry m₁ (f * frameBytes) i = entry p.mem (f * frameBytes) i := by
    refine entry_congr_frame hi fun x hx => ?_
    rw [hm₁, setNx_of_frame _ (show 0 + 512 ≤ entries by decide) (hx ▸ hf)]
  have hsecond {f i : ℕ} (hi : i < entries) (hf : f ≠ p2h) :
      entry m₂ (f * frameBytes) i = entry m₁ (f * frameBytes) i := by
    refine entry_congr_frame hi fun x hx => ?_
    rw [hm₂, setNx_of_frame _ (show 1 + 511 ≤ entries by decide) (hx ▸ hf)]
  obtain ⟨r, hr⟩ : ∃ r, r = secSplitWindow ⟨m₂, p.pmm⟩ (p2h * frameBytes) l base := ⟨_, rfl⟩
  obtain ⟨g, hguard⟩ : ∃ g, g = secGuardStack r.1 cr3 stackBottom := ⟨_, rfl⟩
  have hstep : secHarden p efer cr3 l base stackBottom = ⟨g.1, secEnableNxe efer, r.2, g.2⟩ := by
    unfold secHarden
    dsimp only
    rw [hroot, htop, hmid, ← hm₁, hfirst (by decide) h42, htopHigh, hfirst (by decide)
      (Ne.symm h23h), hmidHigh, ← hm₂, ← hr, ← hguard]
  rw [hstep]
  have hspec := @secSplitWindow_grafted ⟨m₂, p.pmm⟩ hv p2h base l hbase h2h
  rw [← hr] at hspec
  obtain ⟨pt, hsplit, hs⟩ := hspec
  obtain ⟨q, done⟩ := r
  dsimp only at hs hguard hsplit ⊢
  have hout {f : ℕ} (hf : f ∉ freeSet p.pmm) : f ∉ freeSet q.pmm := fun h => hf (hs.subset h)
  -- what is not a directory is read as before at every later point
  have hpast {f i : ℕ} (hi : i < entries) (hf : f ∉ freeSet p.pmm) (hf2 : f ≠ p2) (hf2h : f ≠ p2h) :
      entry q.mem (f * frameBytes) i = entry p.mem (f * frameBytes) i := by
    rw [hs.entry_eq hi hf hf2h, hsecond hi hf2h, hfirst hi hf2]
  have hpath : target (entry q.mem (target (entry q.mem (target cr3) 0)) 0) = p2 * frameBytes := by
    rw [hroot, hpast (by decide) h4 h42 h42h, htop, hpast (by decide) h3 h32 h32h, hmid]
  obtain ⟨c, hset, haligned, hg⟩ := secGuardStack_grafted hs.valid stackBottom (hout h2) hpath
  rw [← hguard] at hset hg
  have hlast {f i : ℕ} (hi : i < entries) (hf : f ∉ freeSet p.pmm) (hf2 : f ≠ p2) :
      entry g.1.mem (f * frameBytes) i = entry q.mem (f * frameBytes) i :=
        hg.entry_eq hi (hout hf) hf2
  have hlowDir {i : ℕ} (hi : i < entries) :
      entry q.mem (p2 * frameBytes) i = entry p.mem (p2 * frameBytes) i ||| pageNx := by
    rw [hs.entry_eq hi h2 h22h, hsecond hi h22h, hm₁, entry_setNx _ hi (show 0 + 512 ≤
      entries by decide), if_pos ⟨by omega, by unfold entries at hi; omega⟩]
  have hhighDir {i : ℕ} (hi : i < entries) (hi0 : i ≠ 0) :
      entry m₂ (p2h * frameBytes) i = entry p.mem (p2h * frameBytes) i ||| pageNx := by
    rw [hm₂, entry_setNx _ hi (show 1 + 511 ≤ entries by decide),
      if_pos ⟨by omega, by unfold entries at hi; omega⟩, hfirst hi (Ne.symm h22h)]
  have hhighHead : entry m₂ (p2h * frameBytes) 0 = entry p.mem (p2h * frameBytes) 0 := by
    rw [hm₂, entry_setNx _ (by decide) (show 1 + 511 ≤ entries by decide), if_neg (by omega),
      hfirst (by decide) (Ne.symm h22h)]
  refine ⟨pt, c, hsplit, hset, haligned, ⟨?_, ?_, fun i hi hi0 => ?_, fun hpt => ?_,
    fun f hf => ?_⟩,
    ⟨?_, ?_, fun i hi hi0 => ?_, fun hc => ?_, fun f hf => ?_⟩, hg.valid, hg.total.trans hs.total,
    hg.subset.trans hs.subset⟩ <;> dsimp only [PathFrames.high, PathFrames.low]
  · exact (hlast (by decide) h4 h42).trans (hpast (by decide) h4 h42 h42h)
  · exact (hlast (by decide) h3h (Ne.symm h23h)).trans (hpast (by decide) h3h (Ne.symm h23h) h3h2h)
  · refine (hlast hi h2h (Ne.symm h22h)).trans ?_
    cases pt with
    | none => rw [hs.unset rfl, hhighDir hi hi0]
    | some f => rw [(hs.page f rfl).2.1 i hi hi0, hhighDir hi hi0]
  · rw [hlast (by decide) h2h (Ne.symm h22h), hs.unset hpt, hhighHead, id]
  · obtain ⟨hhead, -, hpage⟩ := hs.page f hf
    obtain ⟨hfree, hused, hbelow⟩ := hs.free f hf
    refine ⟨hbelow, (hlast (by decide) h2h (Ne.symm h22h)).trans hhead, fun i hi => ?_⟩
    rw [hg.entry_eq hi hused fun h => h2 (h ▸ hfree), hpage i hi]
  · exact (hlast (by decide) h4 h42).trans (hpast (by decide) h4 h42 h42h)
  · exact (hlast (by decide) h3 h32).trans (hpast (by decide) h3 h32 h32h)
  · cases c with
    | none => rw [hg.unset rfl, hlowDir hi]
    | some f => rw [(hg.page f rfl).2.1 i hi hi0, hlowDir hi]
  · rw [hg.unset hc, hlowDir (by decide)]
  · obtain ⟨hhead, -, hpage⟩ := hg.page f hf
    exact ⟨(hg.free f hf).2.2, hhead, hpage⟩

/-! ## Where the tables come from -/

lemma pointsTo_boot {f : ℕ} (hf : f < 2 ^ 20) : PointsTo (f * frameBytes ||| 0x3) f := by
  obtain ⟨-, hpresent, hlarge, hframe⟩ := pointer_spec hf
  refine ⟨hpresent, hlarge, ?_, ?_⟩
  · unfold writable
    rw [Nat.testBit_or, show Nat.testBit 0x3 1 = true by decide, Bool.or_true]
  · rw [target_eq_frameNo, hframe]

lemma identityLeaf_boot {i : ℕ} (hi : i < entries) : IdentityLeaf ((i <<< 21) ||| 0x83) i := by
  obtain ⟨hpresent, hlarge, htarget⟩ := leaf_spec hi
  have hwritable : writable ((i <<< 21) ||| 0x83) = true := by
    unfold writable
    rw [Nat.testBit_or, show Nat.testBit 0x83 1 = true by decide, Bool.or_true]
  have hexecutable : executable ((i <<< 21) ||| 0x83) = true := by
    have hlt : (i <<< 21) ||| 0x83 < 2 ^ 63 := by
      rw [Nat.shiftLeft_eq]
      unfold entries at hi
      exact Nat.or_lt_two_pow (by omega) (by decide)
    rw [executable, Nat.testBit_lt_two_pow hlt]
    rfl
  exact ⟨hpresent, hlarge, hwritable, hexecutable, htarget⟩

/-- The tables of the boot code. -/
lemma setupPaging_windowTables (m : Memory) {P : ℕ} (hP : P + 5 ≤ 2 ^ 20) {s : Pmm}
    (hheld : ∀ j < 5, P + j ∉ freeSet s) :
    WindowTables (setupPaging m (P * frameBytes)) s (P * frameBytes) ⟨P, P + 1, P + 2, P + 3,
      P + 4⟩ := by
  have h := content_setupPaging m hP
  have hroot (i : ℕ) (hi : i < entries) := h 0 (by decide) i hi
  rw [Nat.add_zero] at hroot
  refine ⟨target_frame (by omega), ⟨?_, ?_, fun i hi => ?_⟩, ⟨?_, ?_, fun i hi => ?_⟩, ?_, ?_⟩
  · rw [PathFrames.low, hroot 0 (by decide)]
    exact pointsTo_boot (show P + 1 < 2 ^ 20 by omega)
  · rw [PathFrames.low, h 1 (by decide) 0 (by decide)]
    exact pointsTo_boot (show P + 2 < 2 ^ 20 by omega)
  · rw [PathFrames.low, h 2 (by decide) i hi]
    exact identityLeaf_boot hi
  · rw [PathFrames.high, hroot 511 (by decide)]
    exact pointsTo_boot (show P + 3 < 2 ^ 20 by omega)
  · rw [PathFrames.high, h 3 (by decide) 510 (by decide)]
    exact pointsTo_boot (show P + 4 < 2 ^ 20 by omega)
  · rw [PathFrames.high, h 4 (by decide) i hi]
    exact identityLeaf_boot hi
  · simp [PathFrames.frames]
  · simp only [PathFrames.frames, List.mem_cons, List.not_mem_nil, or_false, forall_eq_or_imp,
      forall_eq]
    exact ⟨hheld 0 (by decide), hheld 1 (by decide), hheld 2 (by decide), hheld 3 (by decide),
      hheld 4 (by decide)⟩

end TraitOS.Tsec
