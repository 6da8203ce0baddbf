import TraitOS.TsecHarden

/-!
# The kernel's view after the hardening

Translations through the two mappings that `sec_harden` leaves. The window is how the kernel
reaches every frame it is given, so a frame the pool can hand out has to stay mapped there to
itself, and no page of the image may lead to such a frame. In the low mapping every address but
those of the guard page stays where it was, and `sec_wx_enforced` and `sec_nx_enforced` read back
from the tables what the hardening did.
-/
namespace TraitOS.Tsec
open ByteMemory PageTable Tpmm Tvmm Runs

variable {m : Memory}

/-! ## Mappings -/

namespace Mapping

/-- A page is writable if every entry on the way to it is. -/
def writable (r : Mapping) : Bool := r.flags.all Tsec.writable && Tsec.writable r.leaf

def executable (r : Mapping) : Bool := r.flags.all Tsec.executable && Tsec.executable r.leaf

def physical (r : Mapping) (virt : ℕ) : ℕ :=
  target r.leaf / 2 ^ r.shift * 2 ^ r.shift + virt % 2 ^ r.shift

@[simp] lemma under_leaf (flags : ℕ) (r : Mapping) : (r.under flags).leaf = r.leaf := rfl

@[simp] lemma under_shift (flags : ℕ) (r : Mapping) : (r.under flags).shift = r.shift := rfl

@[simp] lemma under_writable (flags : ℕ) (r : Mapping) :
    (r.under flags).writable = (Tsec.writable flags && r.writable) := by
  simp [writable, under, Bool.and_assoc]

@[simp] lemma writable_mk (leaf shift : ℕ) : (⟨[], leaf, shift⟩ : Mapping).writable =
    Tsec.writable leaf := by
  simp [writable]

lemma not_executable {r : Mapping} (h : Tsec.executable r.leaf = false) : r.executable = false := by
  rw [executable, h, Bool.and_false]

end Mapping

@[simp] lemma writable_flags (e : ℕ) : writable (e &&& flagMask) = writable e := by
  unfold writable
  rw [Nat.testBit_and, show flagMask.testBit 1 = true by decide, Bool.and_true]

@[simp] lemma writable_or (a b : ℕ) : writable (a ||| b) = (writable a || writable b) :=
  Nat.testBit_or a b 1

@[simp] lemma executable_or (a b : ℕ) : executable (a ||| b) = (executable a && executable b) := by
  simp [executable, Nat.testBit_or]

lemma window_index {off : ℕ} (h : off < 2 ^ 30) :
    index 39 (virtBase + off) = 511 ∧ index 30 (virtBase + off) = 510 ∧ index 21 (virtBase + off) =
      off / 2 ^ 21 ∧ index 12 (virtBase + off) = off / 4096 % 512 := by
  simp only [index_eq]
  unfold virtBase
  omega

lemma low_index {virt : ℕ} (h : virt < 2 ^ 30) :
    index 39 virt = 0 ∧ index 30 virt = 0 ∧ index 21 virt = virt / 2 ^ 21 ∧
      index 12 virt = virt / 4096 % 512 := by
  simp only [index_eq]
  omega

lemma PointsTo.descend {e f shift : ℕ} {rest : List ℕ} (h : PointsTo e f) (hrest : rest ≠ [])
    (below : ℕ → Option Mapping) :
    descend shift rest below e = (below (f * frameBytes)).map (Mapping.under (e &&& flagMask)) := by
  obtain ⟨hpresent, hlarge, -, htarget⟩ := h
  have hleaf : isLeaf shift rest e = false := by
    simp [isLeaf, hlarge, hrest]
  simp [Tsec.descend, hpresent, hleaf, htarget]

lemma pointsTo_table {pt : ℕ} (hpt : pt < lowFrames) : PointsTo (pt * frameBytes ||| pagePresent |||
    pageWrite) pt := by
  have htarget : target (pt * frameBytes ||| pagePresent ||| pageWrite) = pt * frameBytes := by
    rw [target_or, target_or, show target pagePresent = 0 by decide, show target pageWrite =
      0 by decide, Nat.or_zero, Nat.or_zero, target_frame (hpt.trans (by decide))]
  refine ⟨?_, ?_, ?_, htarget⟩
  · rw [present_or, present_or, show present pagePresent = true by decide, Bool.or_true,
      Bool.true_or]
  · rw [large_or, large_or, large_frame]
    decide
  · rw [writable_or, show writable pageWrite = true by decide, Bool.or_true]

/-! ## Translation through a hardened mapping -/

section Walk
variable {m m' : Memory} {cr3 virt : ℕ} {d : Path} {first content : ℕ → ℕ} {pt : Option ℕ}

/-- The address belongs to the mapping. -/
def Path.Covers (d : Path) (cr3 virt : ℕ) : Prop :=
  target cr3 = d.p4 * frameBytes ∧ index 39 virt = d.i4 ∧ index 30 virt = d.i3

/-- The walk down to the directory. -/
lemma HardenedMap.translation_eq (h : HardenedMap m m' d first content pt) (hm : BootMap m d)
    (hd : d.Covers cr3 virt) :
    translation m' cr3 virt = (lookup m' virt [21, 12] (d.p2 * frameBytes)).map fun r =>
      (r.under (entry m (d.p3 * frameBytes) d.i3 &&& flagMask)).under
        (entry m (d.p4 * frameBytes) d.i4 &&& flagMask) := by
  obtain ⟨hroot, h39, h30⟩ := hd
  unfold translation levelShifts
  rw [hroot, lookup, h39, h.top, hm.top.descend (by simp), lookup, h30, h.mid,
    hm.mid.descend (by simp)]
  simp [Option.map_map, Function.comp_def]

/-- An entry of the directory that is a leaf. -/
lemma HardenedMap.large_page (h : HardenedMap m m' d first content pt) (hm : BootMap m d)
    (hd : d.Covers cr3 virt) {i e : ℕ} (hi : index 21 virt = i)
    (he : entry m' (d.p2 * frameBytes) i = e) (hpresent : present e = true)
    (hlarge : large e = true) :
    ∃ r, translation m' cr3 virt = some r ∧ r.leaf = e ∧ r.shift = 21 ∧
      r.writable = writable e := by
  have hlookup : lookup m' virt [21, 12] (d.p2 * frameBytes) = some ⟨[], e, 21⟩ := by
    rw [lookup, hi, he]
    simp [Tsec.descend, isLeaf, hpresent, hlarge]
  rw [h.translation_eq hm hd, hlookup]
  exact ⟨_, rfl, by simp, by simp, by simp [hm.top.2.2.1, hm.mid.2.2.1]⟩

/-- A leaf that only lost its execution. -/
lemma HardenedMap.nx_page (h : HardenedMap m m' d first content pt) (hm : BootMap m d)
    (hd : d.Covers cr3 virt) {i : ℕ} (hi : index 21 virt = i) (hlt : i < entries)
    (he : entry m' (d.p2 * frameBytes) i = entry m (d.p2 * frameBytes) i ||| pageNx) :
    ∃ r, translation m' cr3 virt = some r ∧ r.physical virt = i * 2 ^ 21 + virt % 2 ^ 21 ∧
      r.shift = 21 ∧ r.writable = true ∧ executable r.leaf = false := by
  obtain ⟨hpresent, hlarge, hwritable, -, htarget⟩ := hm.leaf i hlt
  have hpresent' : present (entry m (d.p2 * frameBytes) i ||| pageNx) = true := by
    rw [present_or, hpresent, Bool.true_or]
  have hlarge' : large (entry m (d.p2 * frameBytes) i ||| pageNx) = true := by
    rw [large_or, hlarge, Bool.true_or]
  obtain ⟨r, hr, hleaf, hshift, hw⟩ := h.large_page hm hd hi he hpresent' hlarge'
  refine ⟨r, hr, ?_, hshift, by simp [hw, hwritable], ?_⟩
  · have hnx : target pageNx = 0 := by decide
    rw [Mapping.physical, hleaf, hshift, target_or, hnx, Nat.or_zero, htarget,
      Nat.mul_div_cancel i (by decide)]
  · rw [hleaf, executable_or, show executable pageNx = false by decide, Bool.and_false]

/-- In the first 2 MiB every page has its own entry, once the leaf is split. -/
lemma HardenedMap.first_page {c : ℕ} (h : HardenedMap m m' d first content (some c))
    (hm : BootMap m d) (hd : d.Covers cr3 virt) (hi : index 21 virt = 0) {i e : ℕ}
    (h12 : index 12 virt = i) (hlt : i < entries) (he : content i = e) :
    (present e = true → ∃ r, translation m' cr3 virt = some r ∧ r.leaf = e ∧ r.shift = 12 ∧
      r.writable = writable e) ∧ (present e = false → translation m' cr3 virt = none) := by
  obtain ⟨hlow, hhead, hpage⟩ := h.page c rfl
  have htable := pointsTo_table hlow
  have hlookup : lookup m' virt [21, 12] (d.p2 * frameBytes) =
    (Tsec.descend 12 [] (lookup m' virt []) e).map
      (Mapping.under ((c * frameBytes ||| pagePresent ||| pageWrite) &&& flagMask)) := by
    rw [lookup, hi, hhead, htable.descend (by simp), lookup, h12, hpage i hlt, he]
  rw [h.translation_eq hm hd, hlookup]
  refine ⟨fun hpresent => ?_, fun hpresent => by simp [Tsec.descend, hpresent]⟩
  have hleaf : Tsec.descend 12 [] (lookup m' virt []) e = some ⟨[], e, 12⟩ := by
    simp [Tsec.descend, isLeaf, hpresent]
  rw [hleaf]
  exact ⟨_, rfl, by simp, by simp, by simp [hm.top.2.2.1, hm.mid.2.2.1, htable.2.2.1, -writable_or]⟩

end Walk

/-! ## The window -/

/-- The parts of an entry of the window. -/
lemma Sections.pte_spec (w : Sections) {base off : ℕ} (hbase : RelocBase base)
    (hal : off % 4096 = 0) (hoff : off < windowSize) :
    present (w.pte base off) = true ∧ writable (w.pte base off) = (w.flags off).testBit 1 ∧
      executable (w.pte base off) = !(w.flags off).testBit 63 ∧ target (w.pte base off) =
        w.frame base off := by
  obtain ⟨hwhole, hlt⟩ := w.frame_spec hbase hal hoff
  have hbit (j : ℕ) (hj : j = 1 ∨ j = 63) : (w.pte base off).testBit j =
    (w.flags off).testBit j := by
    have hone : pagePresent.testBit j = false := by rcases hj with rfl | rfl <;> decide
    simp [w.pte_eq hbase hoff, Nat.testBit_or, hone, testBit_frame hwhole hlt (by omega : j < 12 ∨
      52 ≤ j)]
  refine ⟨?_, hbit 1 (Or.inl rfl), by simp [executable, hbit 63 (Or.inr rfl)], ?_⟩
  · have hone : present pagePresent = true := by decide
    simp [w.pte_eq hbase hoff, present_or, hone]
  · have hone : target pagePresent = 0 := by decide
    obtain ⟨f, hf⟩ : ∃ f, w.frame base off = f * frameBytes :=
      ⟨w.frame base off / 4096, by unfold frameBytes; omega⟩
    have hlow : f < 2 ^ 40 := by
      rw [hf] at hlt
      unfold frameBytes at hlt
      omega
    simp [w.pte_eq hbase hoff, target_or, hone, (w.flags_spec off).2.1, hf, target_frame hlow]

section Window
variable {p : Paging} {g : Hardened} {l : ImageLayout} {base guard cr3 off virt c : ℕ}
  {t : PathFrames}
  {pt low : Option ℕ}

lemma WindowTables.high_covers {s : Pmm} (ht : WindowTables m s cr3 t) (hoff : off < 2 ^ 30) :
    t.high.Covers cr3 (virtBase + off) :=
  ⟨ht.root, (window_index hoff).1, (window_index hoff).2.1⟩

lemma WindowTables.low_covers {s : Pmm} (ht : WindowTables m s cr3 t) (hvirt : virt < 2 ^ 30) :
    t.low.Covers cr3 virt :=
  ⟨ht.root, (low_index hvirt).1, (low_index hvirt).2.1⟩

/-- Above the first 2 MiB the window maps to itself. -/
lemma HardenSpec.window_tail (h : HardenSpec p g l base guard t pt low)
    (ht : WindowTables p.mem p.pmm cr3 t) (hoff : off < 2 ^ 30) (hhigh : 2 ^ 21 ≤ off) :
    ∃ r, translation g.paging.mem cr3 (virtBase + off) = some r ∧ r.physical (virtBase + off) =
      off ∧ r.writable = true ∧ executable r.leaf = false := by
  obtain ⟨-, -, h21, -⟩ := window_index hoff
  have hi : off / 2 ^ 21 < entries := by
    unfold entries
    omega
  obtain ⟨r, hr, hphysical, -, hw, hx⟩ := h.window.nx_page ht.high (ht.high_covers hoff) h21
    hi (h.window.tail _ hi (by omega))
  refine ⟨r, hr, ?_, hw, hx⟩
  rw [hphysical]
  unfold virtBase
  omega

/-- In the first 2 MiB it maps the pages of the image to its frames. -/
lemma HardenSpec.window_page (h : HardenSpec p g l base guard t (some c) low)
    (ht : WindowTables p.mem p.pmm cr3 t) (hbase : RelocBase base) (hoff : off < windowSize) :
    ∃ r, translation g.paging.mem cr3 (virtBase + off) = some r ∧
      r.physical (virtBase + off) = l.sections.frame base (off / 4096 * 4096) + off % 4096 ∧
      r.writable = (l.sections.flags (off / 4096 * 4096)).testBit 1 ∧
      writable r.leaf = (l.sections.flags (off / 4096 * 4096)).testBit 1 ∧
      executable r.leaf = !(l.sections.flags (off / 4096 * 4096)).testBit 63 := by
  have hlow : off < 2 ^ 30 := hoff.trans (by decide)
  obtain ⟨-, -, h21, h12⟩ := window_index hlow
  have hpage : off / 4096 < entries := by
    unfold entries
    unfold windowSize at hoff
    omega
  rw [show off / 2 ^ 21 = 0 by unfold windowSize at hoff; omega] at h21
  rw [Nat.mod_eq_of_lt (show off / 4096 < 512 from hpage)] at h12
  have hal := Nat.mul_mod_left (off / 4096) 4096
  obtain ⟨hpresent, hwritable, hexecutable, htarget⟩ := l.sections.pte_spec hbase hal (by omega)
  obtain ⟨r, hr, hleaf, hshift, hw⟩ :=
    (h.window.first_page ht.high (ht.high_covers hlow) h21 h12 hpage rfl).1 hpresent
  refine ⟨r, hr, ?_, hw.trans hwritable, hleaf ▸ hwritable, hleaf ▸ hexecutable⟩
  have hframe := (l.sections.frame_spec hbase hal (by omega)).1
  rw [Mapping.physical, hleaf, hshift]
  change target (l.sections.pte base (off / 4096 * 4096)) / 2 ^ 12 * 2 ^ 12 +
    (virtBase + off) % 2 ^ 12 = _
  rw [htarget]
  unfold virtBase
  omega

end Window

/-! ## A machine -/

/-- An image of 32 frames. -/
def imageOf32 : ImageLayout := ⟨⟨0x8000, 0x8000, 0x8000, 0x4000, 0x4000⟩, by decide⟩

/-- The pool with this image, its copy at 32 MiB and the five tables that were moved taken. -/
def reservedPool : Pmm := takeFrames (takeFrames slotMachine.pmm 256 32) 8192 37

lemma reservedPool_spec : Valid reservedPool ∧ freeSet reservedPool = Finset.Ico 8229 8704 := by
  have hfirst : Finset.Ico 256 (256 + 32) ⊆ freeSet slotMachine.pmm := by
    rw [slotMachine_freeSet]
    exact Finset.subset_union_left
  have hvalid := takeFrames_valid slotMachine_valid (by decide) hfirst
  have hset := takeFrames_freeSet slotMachine_valid (by decide) hfirst
  have hrest : freeSet (takeFrames slotMachine.pmm 256 32) = Finset.Ico 8192 8704 := by
    rw [hset, slotMachine_freeSet]
    ext f
    simp only [Finset.mem_sdiff, Finset.mem_union, Finset.mem_Ico]
    omega
  have hsecond : Finset.Ico 8192 (8192 + 37) ⊆ freeSet (takeFrames slotMachine.pmm 256 32) := by
    rw [hrest]
    exact Finset.Ico_subset_Ico le_rfl (by decide)
  refine ⟨takeFrames_valid hvalid (by decide) hsecond, ?_⟩
  unfold reservedPool
  rw [takeFrames_freeSet hvalid (by decide) hsecond, hrest]
  ext f
  simp only [Finset.mem_sdiff, Finset.mem_Ico]
  omega

lemma reservedPool_windowTables :
    WindowTables (setupPaging (fun _ => 0) (8224 * frameBytes)) reservedPool (8224 * frameBytes)
      ⟨8224, 8224 + 1, 8224 + 2, 8224 + 3, 8224 + 4⟩ := by
  refine setupPaging_windowTables _ (by decide) fun j hj => ?_
  rw [reservedPool_spec.2, Finset.mem_Ico]
  omega

lemma slotBase_reloc : RelocBase (slotBase 0) := Or.inr ⟨by decide, by decide, by decide⟩

/-- The relocated image hardened, with the boot stack 16 KiB into it. -/
def hardenedPool : Hardened :=
  secHarden ⟨setupPaging (fun _ => 0) (8224 * frameBytes), reservedPool⟩ 0 (8224 * frameBytes)
    imageOf32 (slotBase 0)
    0x104000

lemma hardenedPool_spec :
    ∃ c low, HardenSpec ⟨setupPaging (fun _ => 0) (8224 * frameBytes), reservedPool⟩ hardenedPool
    imageOf32 (slotBase 0) (guardPage 0x104000) ⟨8224, 8224 + 1, 8224 + 2, 8224 + 3, 8224 + 4⟩
      (some c) low := by
  have hsplit : hardenedPool.split = true := by decide +kernel
  obtain ⟨pt, low, hspec⟩ := @secHarden_spec ⟨setupPaging (fun _ => 0) (8224 * frameBytes),
    reservedPool⟩
    reservedPool_spec.1 _ _ _ reservedPool_windowTables imageOf32 slotBase_reloc 0 0x104000
  have hpt := hspec.split.symm.trans hsplit
  obtain ⟨c, rfl⟩ := Option.isSome_iff_exists.mp hpt
  exact ⟨c, low, hspec⟩

/-! ## The low mapping -/

lemma guardPte_hole {guard i : ℕ} (hal : guard % 4096 = 0) :
    (guard ≠ 0 ∧ i = guard / 4096 → guardPte guard (i * 4096) = 0) ∧
      (¬ (guard ≠ 0 ∧ i = guard / 4096) → guardPte guard (i * 4096) =
        i * frameBytes ||| 0x8000000000000003) := by
  have hflags : pagePresent ||| pageWrite ||| pageNx = 0x8000000000000003 := by decide
  refine ⟨fun h => if_pos (by omega), fun h => ?_⟩
  rw [guardPte, if_neg (by omega), Nat.or_assoc, Nat.or_assoc, ← Nat.or_assoc pagePresent, hflags]
  rfl

lemma guardPte_spec {i : ℕ} (hi : i < entries) :
    present (i * frameBytes ||| 0x8000000000000003) = true ∧
      writable (i * frameBytes ||| 0x8000000000000003) = true ∧
      executable (i * frameBytes ||| 0x8000000000000003) = false ∧
      target (i * frameBytes ||| 0x8000000000000003) = i * frameBytes := by
  refine ⟨?_, ?_, ?_, ?_⟩
  · rw [present_or, show present 0x8000000000000003 = true by decide, Bool.or_true]
  · rw [writable_or, show writable 0x8000000000000003 = true by decide, Bool.or_true]
  · rw [executable_or, show executable 0x8000000000000003 = false by decide, Bool.and_false]
  · rw [target_or, show target 0x8000000000000003 =
      0 by decide, Nat.or_zero, target_frame (hi.trans (by decide))]

/-- The hole in the low mapping: the page below the stack, if there was a frame to make it. -/
def Hardened.Guards (g : Hardened) (stackBottom virt : ℕ) : Prop :=
  g.stackGuardSet = true ∧ guardPage stackBottom ≠ 0 ∧ virt / 4096 = guardPage stackBottom / 4096

instance (g : Hardened) (stackBottom virt : ℕ) : Decidable (g.Guards stackBottom virt) :=
  inferInstanceAs (Decidable (_ ∧ _ ∧ _))

lemma HardenSpec.low_page {p : Paging} {g : Hardened} {l : ImageLayout}
    {base cr3 stackBottom virt : ℕ} {t : PathFrames} {pt c : Option ℕ}
    (hspec : HardenSpec p g l base (guardPage stackBottom) t pt c)
    (ht : WindowTables p.mem p.pmm cr3 t) (hvirt : virt < 2 ^ 30) :
    (g.Guards stackBottom virt → translation g.paging.mem cr3 virt = none) ∧
      (¬ g.Guards stackBottom virt → ∃ r, translation g.paging.mem cr3 virt = some r ∧
        r.physical virt = virt ∧ r.writable = true ∧ r.executable = false) := by
  obtain ⟨-, -, h21, h12⟩ := low_index hvirt
  have hd := ht.low_covers hvirt
  have hentries : entries = 512 := rfl
  -- the leaves behind the first one
  by_cases hhigh : 2 ^ 21 ≤ virt
  · have hnot : ¬ g.Guards stackBottom virt := by
      rintro ⟨hset, -, hpage⟩
      obtain ⟨-, hlt⟩ := hspec.aligned (hspec.guardSet ▸ hset)
      unfold windowSize at hlt
      omega
    obtain ⟨r, hr, hphysical, -, hw, hx⟩ := hspec.low.nx_page ht.low hd h21 (by omega)
      (hspec.low.tail _ (by omega) (by omega))
    refine ⟨fun h => absurd h hnot, fun _ => ⟨r, hr, ?_, hw, Mapping.not_executable hx⟩⟩
    rw [hphysical]
    omega
  rw [show virt / 2 ^ 21 = 0 by omega] at h21
  rw [Nat.mod_eq_of_lt (by omega)] at h12
  cases c with
  | none =>
    have hnot : ¬ g.Guards stackBottom virt := fun hguard =>
      Bool.false_ne_true (hspec.guardSet.symm.trans hguard.1)
    obtain ⟨r, hr, hphysical, -, hw, hx⟩ := hspec.low.nx_page ht.low hd h21 (by decide)
      (hspec.low.unset rfl)
    refine ⟨fun h => absurd h hnot, fun _ => ⟨r, hr, ?_, hw, Mapping.not_executable hx⟩⟩
    rw [hphysical]
    omega
  | some f =>
    obtain ⟨hal, -⟩ := hspec.aligned rfl
    obtain ⟨hhole, hpage⟩ := @guardPte_hole (guardPage stackBottom) (virt / 4096) hal
    have hfirst {e : ℕ} :=
      @HardenedMap.first_page _ _ cr3 virt _ _ _ f hspec.low ht.low hd h21 _ e h12 (by omega)
    refine ⟨fun hguard => (hfirst (hhole hguard.2)).2 (by decide), fun hguard => ?_⟩
    have hnot : ¬ (guardPage stackBottom ≠ 0 ∧ virt / 4096 = guardPage stackBottom / 4096) :=
      fun h =>
      hguard ⟨hspec.guardSet, h⟩
    obtain ⟨hpresent, hwritable, hexecutable, htarget⟩ := @guardPte_spec (virt / 4096) (by omega)
    obtain ⟨r, hr, hleaf, hshift, hw⟩ := (hfirst (hpage hnot)).1 hpresent
    refine ⟨r, hr, ?_, hw.trans hwritable, Mapping.not_executable (hleaf ▸ hexecutable)⟩
    rw [Mapping.physical, hleaf, hshift, htarget]
    unfold frameBytes
    omega

/-- After the hardening every address of the first 1 GiB is mapped to itself, writable and not
executable, but for the guard page, which is not mapped. -/
theorem identity_after_harden (l : ImageLayout) (base : ℕ) (hbase : RelocBase base) (p : Paging)
    (hv : Valid p.pmm) (efer cr3 stackBottom : ℕ) (t : PathFrames)
    (ht : WindowTables p.mem p.pmm cr3 t) (virt : ℕ) (hvirt : virt < 2 ^ 30) :
    ((secHarden p efer cr3 l base stackBottom).Guards stackBottom virt →
      translation (secHarden p efer cr3 l base stackBottom).paging.mem cr3 virt = none) ∧
    (¬ (secHarden p efer cr3 l base stackBottom).Guards stackBottom virt →
      ∃ r, translation (secHarden p efer cr3 l base stackBottom).paging.mem cr3 virt = some r ∧
        r.physical virt = virt ∧ r.writable = true ∧ r.executable = false) := by
  have hspec := secHarden_spec hv ht l hbase efer stackBottom
  generalize secHarden p efer cr3 l base stackBottom = g at hspec ⊢
  obtain ⟨pt, c, hspec⟩ := hspec
  exact hspec.low_page ht hvirt

/-- The page below the stack of the sample and the last one of the mapping. -/
theorem identity_hardenedPool :
    translation hardenedPool.paging.mem (8224 * frameBytes) 0x103fff = none ∧
      ∃ r, translation hardenedPool.paging.mem (8224 * frameBytes) 0x3fffffff = some r ∧
        r.physical 0x3fffffff = 0x3fffffff ∧ r.writable = true ∧ r.executable = false := by
  have hguard : hardenedPool.Guards 0x104000 0x103fff := ⟨by decide +kernel, by decide, by decide⟩
  have hfar : ¬ hardenedPool.Guards 0x104000 0x3fffffff := fun h => absurd h.2.2 (by decide)
  have hmapped := identity_after_harden imageOf32 (slotBase 0) slotBase_reloc
    ⟨setupPaging (fun _ => 0) (8224 * frameBytes),
      reservedPool⟩ reservedPool_spec.1 0 (8224 * frameBytes) 0x104000
    ⟨8224, 8224 + 1, 8224 + 2, 8224 + 3, 8224 + 4⟩ reservedPool_windowTables
  have hhole := hmapped 0x103fff (by decide)
  have hlast := hmapped 0x3fffffff (by decide)
  unfold hardenedPool at hguard hfar ⊢
  exact ⟨hhole.1 hguard, hlast.2 hfar⟩

/-! ## The checks -/

/-- The flags of the leaf of an address, 0 if there is none. -/
def secLeafFlags (m : Memory) (cr3 vaddr : ℕ) : ℕ :=
  let p3 := target (entry m (target cr3) (index 39 vaddr))
  let e3 := entry m p3 (index 30 vaddr)
  if present e3 = false then 0
  else if large e3 then e3
  else
    let e2 := entry m (target e3) (index 21 vaddr)
    if present e2 = false then 0
    else if large e2 then e2
    else entry m (target e2) (index 12 vaddr)

def secWxEnforced (m : Memory) (cr3 : ℕ) : Bool :=
  (List.range (windowSize / 4096)).all fun i =>
    let flags := secLeafFlags m cr3 (virtBase + i * 4096)
    !(writable flags && executable flags)

def secNxEnforced (m : Memory) (cr3 : ℕ) : Bool :=
  (List.range' 1 511).all fun i =>
    let flags := secLeafFlags m cr3 (virtBase + i * (2 * 1024 * 1024))
    !(flags != 0 && executable flags)

lemma descend_eq_some {shift : ℕ} {rest : List ℕ} {below : ℕ → Option Mapping} {e : ℕ} {r : Mapping}
    (h : descend shift rest below e = some r) :
    present e = true ∧ (isLeaf shift rest e = true ∧ r = ⟨[], e, shift⟩ ∨
      isLeaf shift rest e = false ∧ ∃ r', below (target e) = some r' ∧
        r = r'.under (e &&& flagMask)) := by
  unfold descend at h
  split_ifs at h with hp hl
  · exact ⟨by simpa using hp, Or.inl ⟨hl, (Option.some.inj h).symm⟩⟩
  · obtain ⟨r', hr', rfl⟩ := Option.map_eq_some_iff.mp h
    exact ⟨by simpa using hp, Or.inr ⟨by simpa using hl, r', hr', rfl⟩⟩

/-- The walk of the source finds the leaf of the processor's. -/
lemma secLeafFlags_eq {cr3 virt : ℕ} {r : Mapping} (h : translation m cr3 virt = some r) :
    secLeafFlags m cr3 virt = r.leaf ∧ present r.leaf = true := by
  unfold translation levelShifts at h
  obtain ⟨-, ⟨hl, -⟩ | ⟨-, r₁, h₁, rfl⟩⟩ := descend_eq_some h
  · simp [isLeaf] at hl
  unfold secLeafFlags
  obtain ⟨hp, ⟨hl, rfl⟩ | ⟨hl, r₂, h₂, rfl⟩⟩ := descend_eq_some h₁
  · simp_all [isLeaf]
  obtain ⟨hp', ⟨hl', rfl⟩ | ⟨hl', r₃, h₃, rfl⟩⟩ := descend_eq_some h₂
  · simp_all [isLeaf]
  obtain ⟨hp'', ⟨-, rfl⟩ | ⟨hl'', -⟩⟩ := descend_eq_some h₃
  · simp_all [isLeaf]
  · simp [isLeaf] at hl''

lemma lookup_shift {virt table : ℕ} {levels : List ℕ} {r : Mapping}
    (h : lookup m virt levels table = some r) : r.shift ∈ levels := by
  induction levels generalizing table r with
  | nil => simp [lookup] at h
  | cons shift rest ih =>
    obtain ⟨-, ⟨-, rfl⟩ | ⟨-, r', hr', rfl⟩⟩ := descend_eq_some h
    · exact List.mem_cons_self
    · exact List.mem_cons_of_mem _ (@ih _ r' hr')

lemma index_of_page {a b s shift : ℕ} (h : a / 2 ^ s = b / 2 ^ s) (hle : s ≤ shift) :
    index shift a = index shift b := by
  have hsplit (v : ℕ) : v / 2 ^ shift = v / 2 ^ s / 2 ^ (shift - s) := by
    rw [Nat.div_div_eq_div_mul, ← pow_add, Nat.add_sub_of_le hle]
  rw [index_eq, index_eq, hsplit, hsplit, h]

lemma lookup_page {a b table : ℕ} {levels : List ℕ} {r : Mapping}
    (hsorted : levels.Pairwise (· > ·)) (h : lookup m a levels table = some r)
    (hpage : a / 2 ^ r.shift = b / 2 ^ r.shift) : lookup m b levels table = some r := by
  induction levels generalizing table r with
  | nil => simp [lookup] at h
  | cons shift rest ih =>
    obtain ⟨hgt, hrest⟩ := List.pairwise_cons.mp hsorted
    obtain ⟨hpresent, ⟨hleaf, rfl⟩ | ⟨hleaf, r', hr', rfl⟩⟩ := descend_eq_some h
    · rw [lookup, ← index_of_page hpage le_rfl]
      simp [descend, hpresent, hleaf]
    · have hindex := index_of_page hpage (hgt _ (lookup_shift hr')).le
      rw [lookup, ← hindex]
      simp [descend, hpresent, hleaf, ih hrest hr' hpage]

/-- The addresses of a page have one translation. -/
lemma translation_page {cr3 a b : ℕ} {r : Mapping} (h : translation m cr3 a = some r)
    (hpage : a / 2 ^ r.shift = b / 2 ^ r.shift) : translation m cr3 b = some r :=
  lookup_page (by decide) h hpage

lemma shift_ge {cr3 virt : ℕ} {r : Mapping} (h : translation m cr3 virt = some r) : 12 ≤
    r.shift := by
  have hmem := lookup_shift h
  simp only [levelShifts, List.mem_cons, List.not_mem_nil, or_false] at hmem
  omega

/-- The checks say no more than is true, of any tables: if `sec_wx_enforced` returns 1 no page of
the first 2 MiB of the window can be written and executed, and if `sec_nx_enforced` returns 1 no
page of 2 MiB above them can be executed. -/
theorem checks_sound (m : Memory) (cr3 off : ℕ) (r : Mapping)
    (hr : translation m cr3 (virtBase + off) = some r) :
    (secWxEnforced m cr3 = true → off < windowSize → ¬ (r.writable = true ∧ r.executable = true)) ∧
    (secNxEnforced m cr3 = true → windowSize ≤ off → off < 2 ^ 30 → r.shift = 21 →
      r.executable = false) := by
  refine ⟨fun hcheck hoff hwx => ?_, fun hcheck hlo hhi hshift => ?_⟩
  · have hsame : (virtBase + off) / 2 ^ r.shift = (virtBase + off / 4096 * 4096) / 2 ^ r.shift := by
      obtain ⟨k, hk⟩ := Nat.exists_eq_add_of_le (shift_ge hr)
      rw [hk, pow_add, ← Nat.div_div_eq_div_mul, ← Nat.div_div_eq_div_mul]
      have hbase : (virtBase + off) / 2 ^ 12 = (virtBase + off / 4096 * 4096) / 2 ^ 12 := by
        unfold virtBase
        omega
      rw [hbase]
    have hi : off / 4096 ∈ List.range (windowSize / 4096) := by
      rw [List.mem_range]
      unfold windowSize at hoff ⊢
      omega
    have hflags := List.all_eq_true.mp hcheck _ hi
    -- no access without the leaf
    simp only [(secLeafFlags_eq (translation_page hr hsame)).1, (Bool.and_eq_true_iff.mp hwx.1).2,
      (Bool.and_eq_true_iff.mp hwx.2).2] at hflags
    exact absurd hflags (by decide)
  · have hsame : (virtBase + off) / 2 ^ r.shift =
      (virtBase + off / 2 ^ 21 * (2 * 1024 * 1024)) / 2 ^ r.shift := by
      rw [hshift]
      unfold virtBase
      omega
    have hi : off / 2 ^ 21 ∈ List.range' 1 511 := by
      rw [List.mem_range'_1]
      unfold windowSize at hlo
      omega
    obtain ⟨hleaf, hpresent⟩ := secLeafFlags_eq (translation_page hr hsame)
    have hflags := List.all_eq_true.mp hcheck _ hi
    simp only [hleaf] at hflags
    refine Mapping.not_executable ?_
    simpa [ne_zero_of_present hpresent] using hflags

section Checks
variable {p : Paging} {g : Hardened} {l : ImageLayout} {base guard cr3 : ℕ} {t : PathFrames}
  {pt low : Option ℕ}

lemma HardenSpec.nxEnforced (h : HardenSpec p g l base guard t pt low)
    (ht : WindowTables p.mem p.pmm cr3 t) : secNxEnforced g.paging.mem cr3 = true := by
  rw [secNxEnforced, List.all_eq_true]
  intro i hi
  have hi' := List.mem_range'_1.mp hi
  obtain ⟨r, hr, -, -, hx⟩ := h.window_tail ht (show i * (2 * 1024 * 1024) < 2 ^ 30 by omega)
    (by omega)
  simp only [(secLeafFlags_eq hr).1, hx, Bool.and_false, Bool.not_false]

/-- The first leaf of the boot code has every access. -/
lemma HardenSpec.not_wxEnforced (h : HardenSpec p g l base guard t none low)
    (ht : WindowTables p.mem p.pmm cr3 t) : secWxEnforced g.paging.mem cr3 = false := by
  obtain ⟨hpresent, hlarge, hwritable, hexecutable, -⟩ := ht.high.leaf 0 (by decide)
  have hhead := h.window.unset rfl
  rw [id_eq] at hhead
  have hoff : 0 * 4096 < 2 ^ 30 := by decide
  have hindex : index 21 (virtBase + 0 * 4096) = 0 := (window_index hoff).2.2.1
  obtain ⟨r, hr, hleaf, -⟩ :=
    h.window.large_page ht.high (ht.high_covers hoff) hindex hhead hpresent hlarge
  rw [secWxEnforced, List.all_eq_false]
  refine ⟨0, List.mem_range.mpr (by decide), ?_⟩
  simp only [(secLeafFlags_eq hr).1, hleaf, hwritable, hexecutable]
  decide

lemma HardenSpec.wxEnforced {c : ℕ} (h : HardenSpec p g l base guard t (some c) low)
    (ht : WindowTables p.mem p.pmm cr3 t) (hbase : RelocBase base) :
    secWxEnforced g.paging.mem cr3 = true := by
  rw [secWxEnforced, List.all_eq_true]
  intro i hi
  have hlt : i * 4096 < windowSize := by
    have hi' := List.mem_range.mp hi
    unfold windowSize at hi' ⊢
    omega
  obtain ⟨r, hr, -, -, hw, hx⟩ := h.window_page ht hbase hlt
  have hnot := (l.sections.flags_spec (i * 4096 / 4096 * 4096)).2.2.2.2
  simp only [(secLeafFlags_eq hr).1, hw, hx]
  simpa [imp_iff_not_or] using hnot

end Checks

/-- What the checks return after the hardening: `sec_nx_enforced` 1, and `sec_wx_enforced` 1 exactly
if a frame was left to split the first leaf of the window. -/
theorem checks_after_harden (l : ImageLayout) (base : ℕ) (hbase : RelocBase base) (p : Paging)
    (hv : Valid p.pmm) (efer cr3 stackBottom : ℕ) (t : PathFrames)
    (ht : WindowTables p.mem p.pmm cr3 t) :
    secNxEnforced (secHarden p efer cr3 l base stackBottom).paging.mem cr3 = true ∧
      secWxEnforced (secHarden p efer cr3 l base stackBottom).paging.mem cr3 =
        (secHarden p efer cr3 l base stackBottom).split := by
  have hspec := secHarden_spec hv ht l hbase efer stackBottom
  generalize secHarden p efer cr3 l base stackBottom = g at hspec ⊢
  obtain ⟨pt, c, hspec⟩ := hspec
  rw [hspec.split]
  cases pt with
  | none => exact ⟨hspec.nxEnforced ht, hspec.not_wxEnforced ht⟩
  | some f => exact ⟨hspec.nxEnforced ht, hspec.wxEnforced ht hbase⟩

/-- In the sample a frame was left. -/
theorem checks_hardenedPool :
    secNxEnforced hardenedPool.paging.mem (8224 * frameBytes) = true ∧
      secWxEnforced hardenedPool.paging.mem (8224 * frameBytes) = true := by
  have hsplit : hardenedPool.split = true := by decide +kernel
  have hchecks := checks_after_harden imageOf32 (slotBase 0) slotBase_reloc
    ⟨setupPaging (fun _ => 0) (8224 * frameBytes),
      reservedPool⟩ reservedPool_spec.1 0 (8224 * frameBytes) 0x104000
    ⟨8224, 8224 + 1, 8224 + 2, 8224 + 3, 8224 + 4⟩ reservedPool_windowTables
  exact ⟨hchecks.1, hchecks.2.trans hsplit⟩

/-- The first page of the code of the sample, and the last page of its window. -/
theorem checks_sound_hardenedPool :
    (∃ r, translation hardenedPool.paging.mem (8224 * frameBytes) (virtBase + 0x108000) = some r ∧
      ¬ (r.writable = true ∧ r.executable = true)) ∧
    ∃ r, translation hardenedPool.paging.mem (8224 * frameBytes) (virtBase + 0x3fffffff) = some r ∧
      r.executable = false := by
  obtain ⟨c, low, hspec⟩ := hardenedPool_spec
  have ht := reservedPool_windowTables
  have hwx := hspec.wxEnforced ht slotBase_reloc
  have hnx := hspec.nxEnforced ht
  obtain ⟨r, hr, -⟩ := hspec.window_page ht slotBase_reloc (show 0x108000 < windowSize by decide)
  obtain ⟨-, -, h21, -⟩ := window_index (show 0x3fffffff < 2 ^ 30 by decide)
  have hi : 0x3fffffff / 2 ^ 21 < entries := by decide
  obtain ⟨r', hr', -, hshift, -⟩ := hspec.window.nx_page ht.high
    (ht.high_covers (show 0x3fffffff < 2 ^ 30 by decide))
      h21 hi (hspec.window.tail _ hi (by decide))
  exact ⟨⟨r, hr, (checks_sound _ _ _ r hr).1 hwx (by decide)⟩,
    ⟨r', hr', (checks_sound _ _ _ r' hr').2 hnx (by decide) (by decide) hshift⟩⟩

/-! ## The frames of the pool -/

/-- The frames of the image, of its copy, and frame 0, which is used from boot on. -/
def reservedFrames (l : ImageLayout) (base : ℕ) : Finset ℕ :=
  insert 0 (rangeFrames kernelPhysStart l.imageSize ∪ if base = 0 then ∅
    else rangeFrames base l.imageSize)

/-- The base of a slot, or none. -/
def KaslrBase (base : ℕ) : Prop := base = 0 ∨ ∃ slot < slots, base = slotBase slot

lemma KaslrBase.relocBase {base : ℕ} (h : KaslrBase base) : RelocBase base := by
  rcases h with rfl | ⟨slot, hslot, rfl⟩
  · exact Or.inl rfl
  · unfold slots kaslrWinHi kaslrWinLo kaslrSlot at hslot
    unfold RelocBase slotBase windowSize kaslrWinLo kaslrSlot
    omega

section Pool
variable {l : ImageLayout} {base off : ℕ}

/-- The frame of every page of the image is reserved. -/
lemma frame_mem_reserved (hbase : RelocBase base) (himage : l.sections.InImage off) :
    l.sections.frame base off / pageSize ∈ reservedFrames l base := by
  unfold reservedFrames Sections.frame
  by_cases h0 : base = 0
  · have hmem := @ImageLayout.mem_rangeFrames l kernelPhysStart off (by decide) himage.1 himage.2
    have hoff : kernelPhysStart + (off - imageLocal) = off := Nat.add_sub_of_le himage.1
    rw [hoff] at hmem
    simp [h0, hmem]
  · have hal : base % 4096 = 0 := by
      unfold RelocBase windowSize at hbase
      omega
    have hmem := @ImageLayout.mem_rangeFrames l base off hal himage.1 himage.2
    rw [if_neg h0, if_pos ⟨h0, himage⟩]
    exact Finset.mem_insert_of_mem (Finset.mem_union_right _ hmem)

lemma image_mem_reserved (himage : l.sections.InImage off) : off / pageSize ∈
    reservedFrames l base := by
  have hmem := @ImageLayout.mem_rangeFrames l kernelPhysStart off (by decide) himage.1 himage.2
  have hoff : kernelPhysStart + (off - imageLocal) = off := Nat.add_sub_of_le himage.1
  rw [hoff] at hmem
  exact Finset.mem_insert_of_mem (Finset.mem_union_left _ hmem)

/-- A page that is not of the image is for data. -/
lemma flags_outside (himage : ¬ l.sections.InImage off) :
    (l.sections.flags off).testBit 1 = true ∧ (l.sections.flags off).testBit 63 = true := by
  obtain ⟨-, -, hexec, hwrite, -⟩ := l.sections.flags_spec off
  have hlo := l.sections.image_le
  have htext := l.sections.text_le
  have hrodata := l.sections.rodata_le
  have hend := l.sections.end_le
  unfold Sections.InImage at himage
  refine ⟨?_, ?_⟩
  · rw [← Bool.not_eq_false, hwrite]
    omega
  · rw [← Bool.not_eq_false, hexec]
    omega

end Pool

/-- Whatever the frame manager goes on with, if the image and its copy are reserved: after the
hardening every frame below 1 GiB that is handed out in some run is mapped by the window to itself,
writable and not executable, and no page of the image is mapped to such a frame. -/
theorem physmap_after_harden (l : ImageLayout) (base : ℕ) (hbase : KaslrBase base) (p : Paging)
    (hv : Valid p.pmm) (efer cr3 stackBottom : ℕ) (t : PathFrames)
    (ht : WindowTables p.mem p.pmm cr3 t)
    (hsplit : (secHarden p efer cr3 l base stackBottom).split = true) (k k' : Client)
    (hk : ClientInv (reservedFrames l base) k) (calls : List PmmCall)
    (hrun : exec clientStep k calls = some k') :
    (∀ f < lowFrames, k'.Holds f →
      ∃ r, translation (secHarden p efer cr3 l base stackBottom).paging.mem cr3
          (physToVirt (f * pageSize)) = some r ∧
        r.physical (physToVirt (f * pageSize)) = f * pageSize ∧ r.writable = true ∧
          r.executable = false) ∧
    ∀ off, imageLocal ≤ off → off < l.virtualEnd →
      ∃ r, translation (secHarden p efer cr3 l base stackBottom).paging.mem cr3 (virtBase + off) =
          some r ∧ ¬ k'.Holds (r.physical (virtBase + off) / pageSize) := by
  have hreloc := hbase.relocBase
  obtain ⟨pt, c, hspec⟩ := @secHarden_spec p hv cr3 base t ht l hreloc efer stackBottom
  rw [hspec.split] at hsplit
  obtain ⟨f₀, rfl⟩ := Option.isSome_iff_exists.mp hsplit
  have hinv := exec_invariant (clientStep_inv (Finset.mem_insert_self 0 _)) calls hk hrun
  refine ⟨fun f hf hheld => ?_, fun off hlo hhi => ?_⟩
  · have hvirt : physToVirt (f * pageSize) = virtBase + f * pageSize := by
      unfold physToVirt virtBase pageSize
      unfold lowFrames at hf
      omega
    have hoff : f * pageSize < 2 ^ 30 := by
      unfold lowFrames at hf
      unfold pageSize
      omega
    rw [hvirt]
    by_cases hhigh : 2 ^ 21 ≤ f * pageSize
    · obtain ⟨r, hr, hphysical, hw, hx⟩ := hspec.window_tail ht hoff hhigh
      exact ⟨r, hr, hphysical, hw, Mapping.not_executable hx⟩
    · have himage : ¬ l.sections.InImage (f * pageSize) := by
        intro himage
        have hmem := @image_mem_reserved l base (f * pageSize) himage
        rw [Nat.mul_div_cancel f (by decide)] at hmem
        exact (hinv.kept f hmem).2 hheld
      obtain ⟨r, hr, hphysical, hw, -, hx⟩ := hspec.window_page ht hreloc
        (show f * pageSize < windowSize from Nat.lt_of_not_le hhigh)
      have hpage : f * pageSize / 4096 * 4096 = f * pageSize :=
        Nat.div_mul_cancel ⟨f, Nat.mul_comm f 4096⟩
      have hrest : f * pageSize % 4096 = 0 := Nat.mul_mod_left f 4096
      obtain ⟨hw1, hx63⟩ := flags_outside himage
      rw [hpage] at hphysical hw hx
      refine ⟨r, hr, ?_, hw.trans hw1, Mapping.not_executable (by rw [hx, hx63, Bool.not_true])⟩
      rw [hphysical, Sections.frame, if_neg fun h => himage h.2, hrest, Nat.add_zero]
  · have hfits := l.fits
    obtain ⟨r, hr, hphysical, -⟩ := hspec.window_page ht hreloc (lt_of_lt_of_le hhi hfits)
    have himage : l.sections.InImage (off / 4096 * 4096) := by
      have hal := l.sections.aligned.1
      have hstart : l.sections.imageLocal = imageLocal := rfl
      have hend : l.sections.imageEnd = l.virtualEnd := rfl
      unfold Sections.InImage
      omega
    have hwhole := (l.sections.frame_spec hreloc (Nat.mul_mod_left (off / 4096) 4096) (by omega)).1
    have hframe : r.physical (virtBase + off) / pageSize =
      l.sections.frame base (off / 4096 * 4096) / pageSize := by
      rw [hphysical]
      unfold pageSize
      omega
    refine ⟨r, hr, ?_⟩
    rw [hframe]
    exact (hinv.kept _ (frame_mem_reserved hreloc himage)).2

lemma reservedPool_client : ClientInv (reservedFrames imageOf32 (slotBase 0)) ⟨reservedPool, []⟩ :=
  by
  have himage : rangeFrames kernelPhysStart imageOf32.imageSize = Finset.Ico 256 288 := by decide
  have hcopy : rangeFrames (slotBase 0) imageOf32.imageSize = Finset.Ico 8192 8224 := by decide
  refine clientInv_initial reservedPool_spec.1 fun f hf => ?_
  rw [reservedPool_spec.2, Finset.mem_Ico]
  unfold reservedFrames at hf
  rw [if_neg (by decide), himage, hcopy, Finset.mem_insert, Finset.mem_union, Finset.mem_Ico,
    Finset.mem_Ico] at hf
  omega

/-- The next frame that the pool hands out, from the state in which the image was copied. -/
theorem physmap_hardenedPool :
    ∃ k', exec clientStep ⟨reservedPool, []⟩ [.allocLow] = some k' ∧ k'.Holds 8229 ∧
      ∃ r, translation hardenedPool.paging.mem (8224 * frameBytes) (physToVirt (8229 * pageSize)) =
          some r ∧
        r.physical (physToVirt (8229 * pageSize)) = 8229 * pageSize ∧ r.writable = true ∧
          r.executable = false := by
  have hheld : (Client.grant ⟨reservedPool, []⟩ (tpmmAllocLow reservedPool) 1 true).Holds 8229 := by
    decide +kernel
  have hmapped := physmap_after_harden imageOf32 (slotBase 0) (Or.inr ⟨0, by decide, rfl⟩)
    ⟨setupPaging (fun _ => 0) (8224 * frameBytes), reservedPool⟩ reservedPool_spec.1 0
    (8224 * frameBytes) 0x104000 _ reservedPool_windowTables (by decide +kernel) ⟨reservedPool, []⟩
    _ reservedPool_client [.allocLow] rfl
  exact ⟨_, rfl, hheld, hmapped.1 8229 (by decide) hheld⟩

end TraitOS.Tsec
