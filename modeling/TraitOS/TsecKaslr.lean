import TraitOS.TpmmContract
import TraitOS.Tvmm

/-!
# Moving the kernel image

`sec_kaslr_relocate` looks for a 2 MiB slot whose frames are all free and that touches neither
the image nor the boot module, reserves the frames of the copy, and moves the five boot page
tables to fresh frames before it copies the image. If a table frame is missing everything is
given back. The entropy of the boot is an argument here.
-/
namespace TraitOS.Tsec
open ByteMemory PageTable Tstring Tpmm Tvmm

variable {image imageSize : ℕ} {module : Option (ℕ × ℕ)}

/-! ## The page tables -/

/-- `n` calls of `tpmm_alloc_low`, with their results in order. -/
def allocTables (s : Pmm) : ℕ → Pmm × List ℕ
  | 0 => (s, [])
  | n + 1 =>
    let r := allocTables s n
    ((tpmmAllocLow r.1).1, r.2 ++ [(tpmmAllocLow r.1).2])

/-- Give back the tables that were granted. -/
def freeTables (s : Pmm) (tables : List ℕ) : Pmm :=
  tables.foldl (fun s phys => if phys = 0 then s else tpmmFree s phys) s

/-- The bits of an entry outside its address. -/
def flagMask : ℕ := 0xFFF0000000000FFF

/-- Point an entry at another table, with its flags. -/
def relink (m : Memory) (table idx next : ℕ) : Memory :=
  setEntry m table idx (next ||| (entry m table idx &&& flagMask))

/-- Copy the five tables of the boot tree and link the copies to each other. -/
def copyTables (m : Memory) (p4 n4 n3 n2 n3h n2h : ℕ) : Memory :=
  let m := tmemmove m n4 p4 4096
  let m := tmemmove m n3 (target (entry m p4 0)) 4096
  let m := tmemmove m n2
    (target (if entry m p4 0 ≠ 0 then entry m (target (entry m p4 0)) 0 else 0)) 4096
  let m := tmemmove m n3h (target (entry m p4 511)) 4096
  let m := tmemmove m n2h
    (target (if entry m p4 511 ≠ 0 then entry m (target (entry m p4 511)) 510 else 0)) 4096
  relink (relink (relink (relink m n4 0 n3) n4 511 n3h) n3 0 n2) n3h 510 n2h

/-- The new value of CR3, unless a frame was missing. -/
def relocatePageTables (p : Paging) (cr3 : ℕ) : Paging × Option ℕ :=
  let r := allocTables p.pmm 5
  if 0 ∈ r.2 then (⟨p.mem, freeTables r.1 r.2⟩, none)
  else
    (⟨copyTables p.mem (target cr3) (r.2.getD 0 0) (r.2.getD 1 0) (r.2.getD 2 0) (r.2.getD 3 0)
      (r.2.getD 4 0), r.1⟩, some (r.2.getD 0 0))

/-! ## The slot -/

def kaslrWinLo : ℕ := 0x02000000
def kaslrWinHi : ℕ := 0x08000000
def kaslrSlot : ℕ := 2 * 1024 * 1024
def slots : ℕ := (kaslrWinHi - kaslrWinLo) / kaslrSlot

def slotBase (slot : ℕ) : ℕ := kaslrWinLo + slot * kaslrSlot

/-- The slot at `base` overlaps a range. -/
def overlaps (base start stop : ℕ) : Bool := base < stop ∧ start < base + kaslrSlot

/-- The three tests of a slot. -/
def slotFits (s : Pmm) (image imageSize : ℕ) (module : Option (ℕ × ℕ)) (base : ℕ) : Bool :=
  !(module.any fun r => overlaps base r.1 r.2) && !overlaps base image (image + imageSize) &&
    (List.range (kaslrSlot / 4096)).all fun i => !tpmmFrameUsed s (base + i * 4096)

/-- The loop over the slots, from the one the entropy picks. -/
def pickSlot (s : Pmm) (image imageSize : ℕ) (module : Option (ℕ × ℕ)) (entropy : ℕ) : Option ℕ :=
  ((List.range slots).map fun n => slotBase ((entropy % slots + n) % slots)).find?
    (slotFits s image imageSize module)

structure Relocated where
  paging : Paging
  cr3 : ℕ
  /-- `kaslr_base`; the result of the function is whether this is set. -/
  base : Option ℕ

def secKaslrRelocate (p : Paging) (cr3 image imageSize : ℕ) (module : Option (ℕ × ℕ))
    (entropy : ℕ) : Relocated :=
  match pickSlot p.pmm image imageSize module entropy with
  | none => ⟨p, cr3, none⟩
  | some base =>
    match relocatePageTables ⟨p.mem, tpmmReserveRange p.pmm base imageSize⟩ cr3 with
    | (p, none) => ⟨⟨p.mem, tpmmReleaseRange p.pmm base imageSize⟩, cr3, none⟩
    | (p, some cr3) => ⟨⟨tmemmove p.mem base image imageSize, p.pmm⟩, cr3, some base⟩

/-! ## Frames -/

/-- The frames of the tables that were granted. -/
def tableFrames (tables : List ℕ) : Finset ℕ :=
  ((tables.filter (· ≠ 0)).map (· / pageSize)).toFinset

lemma mem_tableFrames {tables : List ℕ} {f : ℕ} : f ∈ tableFrames tables ↔ ∃ a ∈ tables, a ≠ 0 ∧
    a / pageSize = f := by
  simp [tableFrames, and_assoc]

/-- What some calls of `tpmm_alloc_low` leave. -/
structure Granted (s : Pmm) (r : Pmm × List ℕ) : Prop where
  valid : Valid r.1
  total : r.1.totalFrames = s.totalFrames
  whole : ∀ a ∈ r.2, a % pageSize = 0 ∧ a < 2 ^ 30
  free : tableFrames r.2 ⊆ freeSet s
  taken : freeSet r.1 = freeSet s \ tableFrames r.2
  distinct : ((r.2.filter (· ≠ 0)).map (· / pageSize)).Nodup

lemma Granted.step {s s' : Pmm} {r : Pmm × List ℕ} {phys : ℕ} (ih : Granted s r)
    (hspec : AllocSpec r.1 (s', phys) 1) (hlow : BelowGiB (s', phys) 1) :
    Granted s (s', r.2 ++ [phys]) := by
  have hvalid := hspec.valid ih.valid
  have htotal := hspec.totalFrames.trans ih.total
  by_cases h0 : phys = 0
  · have hsame := hspec.refused ih.valid h0
    dsimp only at hsame h0
    subst hsame h0
    have hframes : tableFrames (r.2 ++ [0]) = tableFrames r.2 := by simp [tableFrames]
    refine ⟨hvalid, htotal, fun a ha => ?_, hframes ▸ ih.free, hframes ▸ ih.taken, ?_⟩
    · rcases List.mem_append.mp ha with ha | ha
      · exact ih.whole a ha
      · rw [List.mem_singleton.mp ha]
        exact ⟨rfl, by decide⟩
    · simpa using ih.distinct
  · obtain ⟨hal, -, hfree, htaken⟩ := hspec.granted ih.valid h0
    have hgrant : grantFrames phys 1 = {phys / pageSize} := by
      unfold grantFrames
      rw [Nat.Ico_succ_singleton]
    dsimp only at hfree htaken
    rw [hgrant] at hfree htaken
    have hnew : phys / pageSize ∈ freeSet s \ tableFrames r.2 :=
      ih.taken ▸ Finset.singleton_subset_iff.mp hfree
    have hframes : tableFrames (r.2 ++ [phys]) = insert (phys / pageSize) (tableFrames r.2) := by
      ext f
      simp only [mem_tableFrames, Finset.mem_insert, List.mem_append, List.mem_singleton]
      constructor
      · rintro ⟨a, ha | rfl, hne, rfl⟩
        · exact Or.inr ⟨a, ha, hne, rfl⟩
        · exact Or.inl rfl
      · rintro (rfl | ⟨a, ha, hne, rfl⟩)
        · exact ⟨phys, Or.inr rfl, h0, rfl⟩
        · exact ⟨a, Or.inl ha, hne, rfl⟩
    refine ⟨hvalid, htotal, fun a ha => ?_, ?_, ?_, ?_⟩
    · rcases List.mem_append.mp ha with ha | ha
      · exact ih.whole a ha
      · rw [List.mem_singleton.mp ha]
        have hbelow := hlow.resolve_left h0
        dsimp only at hbelow
        unfold lowFrames pageSize at hbelow
        exact ⟨hal, by omega⟩
    · rw [hframes]
      exact Finset.insert_subset (Finset.mem_sdiff.mp hnew).1 ih.free
    · rw [hframes, htaken, ih.taken]
      ext f
      simp only [Finset.mem_sdiff, Finset.mem_insert, Finset.mem_singleton]
      tauto
    · rw [List.filter_append, List.map_append, List.nodup_append]
      refine ⟨ih.distinct, by simp [h0], fun f hf g hg => ?_⟩
      have hg' : g = phys / pageSize := by simpa [h0] using hg
      rintro rfl
      rw [hg'] at hf
      exact (Finset.mem_sdiff.mp hnew).2 (List.mem_toFinset.mpr hf)

lemma allocTables_granted {s : Pmm} (hv : Valid s) (n : ℕ) : Granted s (allocTables s n) := by
  induction n with
  | zero =>
    exact ⟨hv, rfl, fun _ h => absurd h List.not_mem_nil, Finset.empty_subset _,
      Finset.sdiff_empty.symm, List.nodup_nil⟩
  | succ n ih =>
    obtain ⟨hspec, hlow⟩ := tpmmAllocLow_spec ih.valid
    exact ih.step hspec hlow

lemma allocTables_length (s : Pmm) (n : ℕ) : (allocTables s n).2.length = n := by
  induction n with
  | zero => rfl
  | succ n ih =>
    unfold allocTables
    rw [List.length_append, ih, List.length_singleton]

lemma frameOf_low {a : ℕ} (h : a < 2 ^ 30) : frameOf a = a / pageSize := by
  unfold frameOf pageSize
  omega

lemma freeTables_spec (tables : List ℕ) {s : Pmm} (hv : Valid s)
    (hwhole : ∀ a ∈ tables, a % pageSize = 0 ∧ a < 2 ^ 30)
    (hin : ∀ f ∈ tableFrames tables, f < s.totalFrames) :
    Valid (freeTables s tables) ∧ freeSet (freeTables s tables) = freeSet s ∪ tableFrames tables ∧
      (freeTables s tables).totalFrames = s.totalFrames := by
  induction tables generalizing s with
  | nil => exact ⟨hv, (Finset.union_empty _).symm, rfl⟩
  | cons a tables ih =>
    obtain ⟨⟨hal, hlow⟩, hwhole⟩ := List.forall_mem_cons.mp hwhole
    by_cases h0 : a = 0
    · have hframes : tableFrames (a :: tables) = tableFrames tables := by simp [tableFrames, h0]
      rw [hframes] at hin ⊢
      rw [show freeTables s (a :: tables) = freeTables (if a = 0 then s
        else tpmmFree s a) tables from rfl, if_pos h0]
      exact ih hv hwhole hin
    · have hframes : tableFrames (a :: tables) = insert (a / pageSize) (tableFrames tables) := by
        simp [tableFrames, h0]
      rw [hframes] at hin ⊢
      have hne : frameOf a ≠ 0 := by
        rw [frameOf_low hlow]
        unfold pageSize at hal ⊢
        omega
      have hlt : frameOf a < s.totalFrames := by
        rw [frameOf_low hlow]
        exact hin _ (Finset.mem_insert_self _ _)
      obtain ⟨hv₁, hset, htotal⟩ := tpmmFree_spec hv hlt hne
      rw [show freeTables s (a :: tables) = freeTables (if a = 0 then s
        else tpmmFree s a) tables from rfl, if_neg h0]
      obtain ⟨hv₂, hset₂, htotal₂⟩ := ih hv₁ hwhole fun f hf =>
        htotal ▸ hin f (Finset.mem_insert_of_mem hf)
      refine ⟨hv₂, ?_, htotal₂.trans htotal⟩
      rw [hset₂, hset, frameOf_low hlow, Finset.insert_union, Finset.union_insert]

/-- A failed move of the tables gives every frame back. -/
lemma relocatePageTables_failed {p p' : Paging} {cr3 : ℕ} (hv : Valid p.pmm)
    (h : relocatePageTables p cr3 = (p', none)) :
    Valid p'.pmm ∧ freeSet p'.pmm = freeSet p.pmm ∧ p'.pmm.totalFrames = p.pmm.totalFrames := by
  have hg := allocTables_granted hv 5
  unfold relocatePageTables at h
  generalize allocTables p.pmm 5 = r at h hg
  dsimp only at h
  split_ifs at h with h0
  · obtain ⟨rfl, -⟩ := Prod.mk.inj h
    have hin : ∀ f ∈ tableFrames r.2, f < r.1.totalFrames := fun f hf => by
      rw [hg.total]
      exact ((mem_freeSet _ _).mp (hg.free hf)).1
    obtain ⟨hv', hset, htotal⟩ := freeTables_spec r.2 hg.valid hg.whole hin
    refine ⟨hv', ?_, htotal.trans hg.total⟩
    change freeSet (freeTables r.1 r.2) = _
    rw [hset, hg.taken, Finset.sdiff_union_of_subset hg.free]
  · exact nomatch (Prod.mk.inj h).2

/-- The five new tables. -/
lemma relocatePageTables_moved {p p' : Paging} {cr3 cr3' : ℕ} (hv : Valid p.pmm)
    (h : relocatePageTables p cr3 = (p', some cr3')) :
    ∃ tables, tables.length = 5 ∧ 0 ∉ tables ∧ Granted p.pmm (p'.pmm, tables) ∧
      cr3' = tables.getD 0 0 ∧
      p'.mem = copyTables p.mem (target cr3) (tables.getD 0 0) (tables.getD 1 0) (tables.getD 2 0)
        (tables.getD 3 0)
        (tables.getD 4 0) := by
  have hg := allocTables_granted hv 5
  have hlength := allocTables_length p.pmm 5
  unfold relocatePageTables at h
  generalize allocTables p.pmm 5 = r at h hg hlength
  dsimp only at h
  split_ifs at h with h0
  · exact nomatch (Prod.mk.inj h).2
  · obtain ⟨rfl, hcr3⟩ := Prod.mk.inj h
    exact ⟨r.2, hlength, h0, hg, (Option.some.inj hcr3).symm, rfl⟩

/-! ## The slot that is picked -/

lemma overlaps_false {base start stop : ℕ} (h : overlaps base start stop = false) :
    stop ≤ base ∨ base + kaslrSlot ≤ start := by
  have h' : ¬ (base < stop ∧ start < base + kaslrSlot) := of_decide_eq_false h
  omega

structure Fits (s : Pmm) (image imageSize : ℕ) (module : Option (ℕ × ℕ)) (base : ℕ) : Prop where
  aligned : base % kaslrSlot = 0
  lower : kaslrWinLo ≤ base
  upper : base < kaslrWinHi
  image : image + imageSize ≤ base ∨ base + kaslrSlot ≤ image
  module : ∀ r ∈ module, r.2 ≤ base ∨ base + kaslrSlot ≤ r.1
  free : rangeFrames base kaslrSlot ⊆ freeSet s

/-- The slot is away from the image and the module. -/
lemma pickSlot_away {s : Pmm} {entropy base : ℕ}
    (h : pickSlot s image imageSize module entropy = some base) :
    (image + imageSize ≤ base ∨ base + kaslrSlot ≤ image) ∧ ∀ r ∈ module, r.2 ≤ base ∨
      base + kaslrSlot ≤ r.1 := by
  have hfits := List.find?_some h
  unfold slotFits at hfits
  rw [Bool.and_eq_true, Bool.and_eq_true, Bool.not_eq_true', Bool.not_eq_true'] at hfits
  obtain ⟨⟨hmodule, himage⟩, -⟩ := hfits
  refine ⟨overlaps_false himage, fun r hr => ?_⟩
  rw [Option.mem_def] at hr
  rw [hr, Option.any_some] at hmodule
  exact overlaps_false hmodule

lemma pickSlot_fits {s : Pmm} (hv : Valid s) {entropy base : ℕ}
    (h : pickSlot s image imageSize module entropy = some base) :
    Fits s image imageSize module base := by
  have hfits := List.find?_some h
  obtain ⟨n, -, hbase⟩ := List.mem_map.mp (List.mem_of_find?_eq_some h)
  have hslot : (entropy % slots + n) % slots < slots := Nat.mod_lt _ (by decide)
  generalize (entropy % slots + n) % slots = slot at hbase hslot
  unfold slotFits at hfits
  rw [Bool.and_eq_true] at hfits
  have hfree := hfits.2
  obtain ⟨himage, hmodule⟩ := pickSlot_away h
  have hslots : slots = 48 := by decide
  rw [hslots] at hslot
  unfold slotBase kaslrWinLo kaslrSlot at hbase
  have hbounds : base % kaslrSlot = 0 ∧ kaslrWinLo ≤ base ∧ base < kaslrWinHi := by
    unfold kaslrWinLo kaslrWinHi kaslrSlot
    omega
  refine ⟨hbounds.1, hbounds.2.1, hbounds.2.2, himage, hmodule, fun f hf => ?_⟩
  obtain ⟨i, hi, rfl⟩ : ∃ i < 512, f = base / pageSize + i := by
    unfold rangeFrames pageSize kaslrSlot at hf
    rw [Finset.mem_Ico] at hf
    unfold pageSize
    exact ⟨f - base / 4096, by omega, by omega⟩
  have hunused := List.all_eq_true.mp hfree i (List.mem_range.mpr hi)
  have hframe : frameOf (base + i * 4096) = base / pageSize + i := by
    unfold frameOf pageSize
    omega
  unfold tpmmFrameUsed at hunused
  rw [Bool.not_eq_true', hframe] at hunused
  refine (mem_freeSet _ _).mpr ⟨?_, hunused⟩
  by_contra hout
  have hused := hv.above_used (base / pageSize + i) (not_lt.mp hout)
    (by unfold pmmMaxFrames pmmMaxAddr pageSize; omega)
  rw [hunused] at hused
  exact Bool.false_ne_true hused

lemma Fits.reserved {s : Pmm} (hv : Valid s) {base : ℕ} (h : Fits s image imageSize module base)
    (hsize : imageSize ≤ kaslrSlot) :
    rangeFrames base imageSize ⊆ freeSet s ∧ regionFrames base imageSize =
      rangeFrames base imageSize := by
  have hsub : rangeFrames base imageSize ⊆ freeSet s := by
    refine Finset.Subset.trans (Finset.Ico_subset_Ico_right ?_) h.free
    exact Nat.div_le_div_right (by omega)
  have hlt : base < 2 ^ 64 := h.upper.trans (by decide)
  exact ⟨hsub, regionFrames_eq_rangeFrames hv.toCounted hlt fun f hf =>
    ((mem_freeSet _ _).mp (hsub hf)).1⟩

lemma tpmmReserveRange_fits {s : Pmm} (hv : Valid s) {base : ℕ}
    (h : Fits s image imageSize module base) (hsize : imageSize ≤ kaslrSlot) :
    Valid (tpmmReserveRange s base imageSize) ∧
      freeSet (tpmmReserveRange s base imageSize) = freeSet s \ rangeFrames base imageSize ∧
      (tpmmReserveRange s base imageSize).totalFrames = s.totalFrames := by
  obtain ⟨hc, hset, htotal⟩ := reserveRegion_spec hv.toCounted base imageSize
  rw [(h.reserved hv hsize).2] at hset
  refine ⟨⟨hc, fun h0 => hv.zero_used ?_⟩, hset, htotal⟩
  change 0 ∈ freeSet (reserveRegion s base imageSize) at h0
  rw [hset] at h0
  exact (Finset.mem_sdiff.mp h0).1

/-- A relocation picks a free slot away from the image and the module, and takes exactly the
frames of the copy and five frames for tables, outside of copy and image; one that fails
leaves the pool as it was. -/
theorem secKaslrRelocate_atomic (p : Paging) (cr3 image imageSize : ℕ) (module : Option (ℕ × ℕ))
    (entropy : ℕ) (hv : Valid p.pmm) (hsize : imageSize ≤ kaslrSlot)
    (himage : ∀ f ∈ rangeFrames image imageSize, f ∉ freeSet p.pmm) :
    (∀ base, (secKaslrRelocate p cr3 image imageSize module entropy).base = some base →
      Fits p.pmm image imageSize module base ∧
      ∃ tables : List ℕ, (secKaslrRelocate p cr3 image imageSize module entropy).cr3 =
        tables.getD 0 0 ∧
        tables.length = 5 ∧ (tableFrames tables).card = 5 ∧ tableFrames tables ⊆ freeSet p.pmm ∧
        Disjoint (tableFrames tables) (rangeFrames base imageSize) ∧
        Disjoint (tableFrames tables) (rangeFrames image imageSize) ∧
          rangeFrames base imageSize ⊆ freeSet p.pmm ∧
        freeSet (secKaslrRelocate p cr3 image imageSize module entropy).paging.pmm =
          freeSet p.pmm \ (rangeFrames base imageSize ∪ tableFrames tables)) ∧
    ((secKaslrRelocate p cr3 image imageSize module entropy).base = none →
      freeSet (secKaslrRelocate p cr3 image imageSize module entropy).paging.pmm = freeSet p.pmm ∧
      (secKaslrRelocate p cr3 image imageSize module entropy).paging.pmm.freeFrames =
        p.pmm.freeFrames ∧
      (secKaslrRelocate p cr3 image imageSize module entropy).paging.pmm.totalFrames =
        p.pmm.totalFrames) := by
  unfold secKaslrRelocate
  cases hpick : pickSlot p.pmm image imageSize module entropy with
  | none => exact ⟨fun _ h => (nomatch h), fun _ => ⟨rfl, rfl, rfl⟩⟩
  | some base =>
    have hfits := pickSlot_fits hv hpick
    obtain ⟨hcover, hregion⟩ := hfits.reserved hv hsize
    obtain ⟨hv₁, hset₁, htotal₁⟩ := tpmmReserveRange_fits hv hfits hsize
    dsimp only
    rcases hmove : relocatePageTables ⟨p.mem, tpmmReserveRange p.pmm base imageSize⟩ cr3 with ⟨p₂,
      _ | cr3'⟩
    · obtain ⟨hv₂, hset₂, htotal₂⟩ := relocatePageTables_failed hv₁ hmove
      dsimp only at hset₂ htotal₂
      refine ⟨fun _ h => (nomatch h), fun _ => ?_⟩
      have hin : ∀ f ∈ regionFrames base imageSize, f < p₂.pmm.totalFrames := fun f hf => by
        rw [htotal₂, htotal₁]
        exact ((mem_freeSet _ _).mp (hcover (hregion ▸ hf))).1
      obtain ⟨hc₃, hset₃, htotal₃⟩ := tpmmReleaseRange_spec hv₂.toCounted hin
      have hback : freeSet (tpmmReleaseRange p₂.pmm base imageSize) = freeSet p.pmm := by
        rw [hset₃, hset₂, hset₁, hregion, Finset.sdiff_union_of_subset hcover]
      refine ⟨hback, ?_, htotal₃.trans (htotal₂.trans htotal₁)⟩
      change (tpmmReleaseRange p₂.pmm base imageSize).freeFrames = _
      rw [hc₃.free_eq, hback, hv.free_eq]
    · obtain ⟨tables, hlength, h0, hg, hcr3, -⟩ := relocatePageTables_moved hv₁ hmove
      refine ⟨fun base' hbase => ?_, fun h => nomatch h⟩
      cases hbase
      have hfree := hg.free
      dsimp only at hfree
      rw [hset₁] at hfree
      have hcard : (tableFrames tables).card = 5 := by
        have hall : tables.filter (· ≠ 0) = tables :=
          List.filter_eq_self.mpr fun a ha => decide_eq_true fun h => h0 (h ▸ ha)
        have hnodup := hg.distinct
        dsimp only at hnodup
        rw [tableFrames, List.toFinset_card_of_nodup hnodup, List.length_map, hall, hlength]
      refine ⟨hfits, tables, hcr3, hlength, hcard, fun f hf => (Finset.mem_sdiff.mp (hfree hf)).1,
        ?_, ?_, hcover, ?_⟩
      · exact Finset.disjoint_left.mpr fun f hf => (Finset.mem_sdiff.mp (hfree hf)).2
      · exact Finset.disjoint_left.mpr fun f hf hin =>
          himage f hin (Finset.mem_sdiff.mp (hfree hf)).1
      · have htaken := hg.taken
        dsimp only at htaken
        rw [htaken, hset₁, sdiff_sdiff_left]
        rfl

/-- A pool with one free slot, at 32 MiB, and 32 free frames at 1 MiB. -/
def slotMachine : Paging :=
  ⟨fun _ => 0, ⟨fun i => if i = 8 ∨ 256 ≤ i ∧ i < 272 then 0#32
    else BitVec.allOnes 32, 8704, 544, 256⟩⟩

lemma slotMachine_bitTest (f : ℕ) :
    bitTest slotMachine.pmm.bitmap f = false ↔ f / 32 = 8 ∨ 256 ≤ f / 32 ∧ f / 32 < 272 := by
  have hbit : f % 32 < 32 := Nat.mod_lt _ (by decide)
  unfold bitTest
  rw [BitmapScan.test_eq_getLsbD]
  dsimp only [slotMachine]
  split_ifs with h
  · exact iff_of_true BitVec.getLsbD_zero h
  · refine iff_of_false ?_ h
    rw [BitVec.getLsbD_allOnes, decide_eq_true hbit]
    exact Bool.false_ne_true.symm

lemma slotMachine_freeSet : freeSet slotMachine.pmm =
    Finset.Ico 256 288 ∪ Finset.Ico 8192 8704 := by
  ext f
  have htotal : slotMachine.pmm.totalFrames = 8704 := rfl
  rw [mem_freeSet, slotMachine_bitTest, htotal, Finset.mem_union, Finset.mem_Ico, Finset.mem_Ico]
  omega

lemma slotMachine_valid : Valid slotMachine.pmm := by
  refine ⟨⟨by decide, by decide, fun f hf _ => ?_, ?_⟩, ?_⟩
  · have hout : ¬ (f / 32 = 8 ∨ 256 ≤ f / 32 ∧ f / 32 < 272) := by
      change 8704 ≤ f at hf
      omega
    rw [← slotMachine_bitTest, Bool.not_eq_false] at hout
    exact hout
  · have hdisj : Disjoint (Finset.Ico 256 288) (Finset.Ico 8192 8704) :=
      Finset.disjoint_left.mpr fun f hf hg => by
        rw [Finset.mem_Ico] at hf hg
        omega
    rw [slotMachine_freeSet, Finset.card_union_of_disjoint hdisj, Nat.card_Ico, Nat.card_Ico]
    rfl
  · rw [slotMachine_freeSet]
    simp

/-- An image whose frames are reserved, at 2 MiB. -/
theorem secKaslrRelocate_slotMachine :
    ∃ base, (secKaslrRelocate slotMachine 0x3000 0x200000 4096 none 7).base = some base ∧
      Fits slotMachine.pmm 0x200000 4096 none base := by
  have hbase : (secKaslrRelocate slotMachine 0x3000 0x200000 4096 none 7).base =
    some 0x2000000 := by decide +kernel
  refine ⟨_, hbase,
    ((secKaslrRelocate_atomic slotMachine 0x3000 0x200000 4096 none 7 slotMachine_valid (by decide)
    fun f hf => ?_).1 _ hbase).1⟩
  have hframe : f = 512 := by
    have hIco : rangeFrames 0x200000 4096 = Finset.Ico 512 513 := by decide
    rw [hIco, Finset.mem_Ico] at hf
    omega
  rw [slotMachine_freeSet, hframe, Finset.mem_union, Finset.mem_Ico, Finset.mem_Ico]
  omega

/-- An image at 1 MiB whose frames were never reserved: its first frame becomes the new PML4. -/
theorem unreserved_image_becomes_table :
    Valid slotMachine.pmm ∧ (secKaslrRelocate slotMachine 0x3000 0x100000 4096 none 0).base =
      some 0x2000000 ∧
      (secKaslrRelocate slotMachine 0x3000 0x100000 4096 none 0).cr3 / pageSize ∈
        rangeFrames 0x100000 4096 := by
  have hcr3 : (secKaslrRelocate slotMachine 0x3000 0x100000 4096 none 0).cr3 = 0x100000 := by
    decide +kernel
  refine ⟨slotMachine_valid, by decide +kernel, ?_⟩
  rw [hcr3]
  decide

end TraitOS.Tsec
