import TraitOS.Tstring

/-!
# The global descriptor table

`gdt_init` fills an array of six 16-byte elements, one for each selector, and loads it
as the processor's table. The processor does not know about elements: a selector is a
byte offset into the table, where it reads an 8-byte descriptor, or a 16-byte one for a
system segment.
-/
namespace TraitOS.Gdt
open ByteMemory Tstring

/-- `gdt_entry_t`, packed. -/
structure GdtEntry where
  limitLow : ℕ
  baseLow : ℕ
  baseMid : ℕ
  access : ℕ
  granularity : ℕ
  baseHigh : ℕ
  baseUpper : ℕ
  reserved : ℕ
deriving DecidableEq, Repr

def gdtEntrySize : ℕ := 16
def gdtLength : ℕ := 6

def kcode : ℕ := 0x08
def kdata : ℕ := 0x10
def ucode : ℕ := 0x18
def udata : ℕ := 0x20
def tss : ℕ := 0x28

def accessCode : ℕ := 0x9A
def accessData : ℕ := 0x92
def accessTss : ℕ := 0x89
def dpl3 : ℕ := 0x60
def granLong : ℕ := 0x20

/-- The stores to the fields of the element at an address. -/
def putEntry (m : Memory) (a : ℕ) (e : GdtEntry) : Memory :=
  let m := storeLE m a 2 e.limitLow
  let m := storeLE m (a + 2) 2 e.baseLow
  let m := storeLE m (a + 4) 1 e.baseMid
  let m := storeLE m (a + 5) 1 e.access
  let m := storeLE m (a + 6) 1 e.granularity
  let m := storeLE m (a + 7) 1 e.baseHigh
  let m := storeLE m (a + 8) 4 e.baseUpper
  storeLE m (a + 12) 4 e.reserved

/-- `&gdt[selector >> 3]` -/
def element (gdt selector : ℕ) : ℕ := gdt + (selector >>> 3) * gdtEntrySize

def segmentEntry (access gran : ℕ) : GdtEntry := ⟨0, 0, 0, access, gran, 0, 0, 0⟩

def setSegment (m : Memory) (gdt selector access gran : ℕ) : Memory :=
  putEntry m (element gdt selector) (segmentEntry access gran)

def tssEntry (base limit : ℕ) : GdtEntry where
  limitLow := limit % 2 ^ 16
  baseLow := base % 2 ^ 16
  baseMid := base / 2 ^ 16 % 2 ^ 8
  access := accessTss
  granularity := limit / 2 ^ 16 % 2 ^ 4
  baseHigh := base / 2 ^ 24 % 2 ^ 8
  baseUpper := base / 2 ^ 32 % 2 ^ 32
  reserved := 0

def setTssDescriptor (m : Memory) (gdt selector base limit : ℕ) : Memory :=
  putEntry m (element gdt selector) (tssEntry base limit)

/-- The table at `gdt` as `gdt_init` leaves it, for a TSS of the given base and limit. -/
def gdtInit (m : Memory) (gdt base limit : ℕ) : Memory :=
  let m := tmemset m gdt 0 (gdtLength * gdtEntrySize)
  let m := setSegment m gdt kcode accessCode granLong
  let m := setSegment m gdt kdata accessData 0
  let m := setSegment m gdt ucode (accessCode ||| dpl3) granLong
  let m := setSegment m gdt udata (accessData ||| dpl3) 0
  setTssDescriptor m gdt tss base limit

/-! ## What the processor reads -/

/-- A segment descriptor as the processor decodes it. -/
structure Descriptor where
  base : ℕ
  limit : ℕ
  access : ℕ
  flags : ℕ
deriving DecidableEq, Repr

def Descriptor.present (d : Descriptor) : Bool := d.access / 2 ^ 7 % 2 = 1
def Descriptor.dpl (d : Descriptor) : ℕ := d.access / 2 ^ 5 % 4
def Descriptor.codeOrData (d : Descriptor) : Bool := d.access / 2 ^ 4 % 2 = 1
def Descriptor.executable (d : Descriptor) : Bool := d.access / 2 ^ 3 % 2 = 1
/-- Readable code, writable data. -/
def Descriptor.readWrite (d : Descriptor) : Bool := d.access / 2 % 2 = 1
def Descriptor.long (d : Descriptor) : Bool := d.flags / 2 % 2 = 1

/-- The 8-byte descriptor at an address. -/
def descriptorAt (m : Memory) (a : ℕ) : Descriptor where
  base := loadLE m (a + 2) 2 + loadLE m (a + 4) 1 * 2 ^ 16 + loadLE m (a + 7) 1 * 2 ^ 24
  limit := loadLE m a 2 + loadLE m (a + 6) 1 % 2 ^ 4 * 2 ^ 16
  access := loadLE m (a + 5) 1
  flags := loadLE m (a + 6) 1 / 2 ^ 4

/-- The 16-byte descriptor of a system segment. -/
def systemAt (m : Memory) (a : ℕ) : Descriptor :=
  { descriptorAt m a with base := (descriptorAt m a).base + loadLE m (a + 8) 4 * 2 ^ 32 }

lemma present_systemAt (m : Memory) (a : ℕ) :
    (systemAt m a).present = (descriptorAt m a).present := by
  have haccess : (systemAt m a).access = (descriptorAt m a).access := rfl
  unfold Descriptor.present
  rw [haccess]

/-- A 64-bit code segment of a privilege level. -/
def Descriptor.IsCode (d : Descriptor) (level : ℕ) : Prop :=
  d.present = true ∧ d.codeOrData = true ∧ d.executable = true ∧ d.readWrite = true ∧
    d.dpl = level ∧ d.long = true

def Descriptor.IsData (d : Descriptor) (level : ℕ) : Prop :=
  d.present = true ∧ d.codeOrData = true ∧ d.executable = false ∧ d.readWrite = true ∧
    d.dpl = level ∧ d.long = false

/-- An available 64-bit TSS: type 9, byte granularity. -/
def Descriptor.IsTss (d : Descriptor) (base limit : ℕ) : Prop :=
  d.present = true ∧ d.codeOrData = false ∧ d.access % 2 ^ 4 = 9 ∧ d.dpl = 0 ∧ d.flags = 0 ∧
    d.base = base ∧ d.limit = limit

instance (d : Descriptor) (level : ℕ) : Decidable (d.IsCode level) :=
  inferInstanceAs (Decidable (_ ∧ _))
instance (d : Descriptor) (level : ℕ) : Decidable (d.IsData level) :=
  inferInstanceAs (Decidable (_ ∧ _))
instance (d : Descriptor) (base limit : ℕ) : Decidable (d.IsTss base limit) :=
  inferInstanceAs (Decidable (_ ∧ _))

/-! ## The elements of the table -/

def readEntry (m : Memory) (a : ℕ) : GdtEntry where
  limitLow := loadLE m a 2
  baseLow := loadLE m (a + 2) 2
  baseMid := loadLE m (a + 4) 1
  access := loadLE m (a + 5) 1
  granularity := loadLE m (a + 6) 1
  baseHigh := loadLE m (a + 7) 1
  baseUpper := loadLE m (a + 8) 4
  reserved := loadLE m (a + 12) 4

/-- Every field fits its type. -/
structure GdtEntry.Fits (e : GdtEntry) : Prop where
  limitLow : e.limitLow < 2 ^ 16
  baseLow : e.baseLow < 2 ^ 16
  baseMid : e.baseMid < 2 ^ 8
  access : e.access < 2 ^ 8
  granularity : e.granularity < 2 ^ 8
  baseHigh : e.baseHigh < 2 ^ 8
  baseUpper : e.baseUpper < 2 ^ 32
  reserved : e.reserved < 2 ^ 32

theorem readEntry_putEntry (m : Memory) (a : ℕ) {e : GdtEntry} (h : e.Fits) :
    readEntry (putEntry m a e) a = e := by
  obtain ⟨h1, h2, h3, h4, h5, h6, h7, h8⟩ := h
  simp (disch := omega) [readEntry, putEntry, loadLE_storeLE_of_disjoint, loadLE_storeLE_self,
    Nat.mod_eq_of_lt, *]

theorem readEntry_putEntry_of_disjoint (m : Memory) {a b : ℕ} (e : GdtEntry)
    (h : b + 16 ≤ a ∨ a + 16 ≤ b) : readEntry (putEntry m a e) b = readEntry m b := by
  simp (disch := omega) [readEntry, putEntry, loadLE_storeLE_of_disjoint]

lemma fits_segment {access gran : ℕ} (ha : access < 2 ^ 8) (hg : gran < 2 ^ 8) :
    (segmentEntry access gran).Fits := by
  constructor <;> simp_all [segmentEntry]

lemma fits_tss (base limit : ℕ) : (tssEntry base limit).Fits := by
  constructor <;> simp [tssEntry, accessTss] <;> omega

/-- The elements in the order of the array. -/
def gdtTable (base limit : ℕ) : ℕ → GdtEntry
  | 1 => segmentEntry accessCode granLong
  | 2 => segmentEntry accessData 0
  | 3 => segmentEntry (accessCode ||| dpl3) granLong
  | 4 => segmentEntry (accessData ||| dpl3) 0
  | 5 => tssEntry base limit
  | _ => segmentEntry 0 0

lemma readEntry_setSegment (m : Memory) (gdt i j access gran : ℕ) (ha : access < 2 ^ 8)
    (hg : gran < 2 ^ 8) : readEntry (setSegment m gdt (8 * j) access gran) (gdt + 16 * i) =
      if i = j then segmentEntry access gran else readEntry m (gdt + 16 * i) := by
  have hel : element gdt (8 * j) = gdt + 16 * j := by
    simp [element, gdtEntrySize, Nat.shiftRight_eq_div_pow, Nat.mul_comm]
  unfold setSegment
  rw [hel]
  by_cases h : i = j
  · rw [if_pos h, h, readEntry_putEntry _ _ (fits_segment ha hg)]
  · rw [if_neg h, readEntry_putEntry_of_disjoint _ _ (by omega)]

/-- What `gdt_init` leaves in the elements of the array. -/
theorem readEntry_gdtInit (m : Memory) (gdt base limit : ℕ) {i : ℕ} (hi : i < gdtLength) :
    readEntry (gdtInit m gdt base limit) (gdt + 16 * i) = gdtTable base limit i := by
  have hzero : readEntry (tmemset m gdt 0 (gdtLength * gdtEntrySize)) (gdt + 16 * i) =
      segmentEntry 0 0 := by
    unfold gdtLength at hi
    rw [tmemset_eq_fill, show gdtLength * gdtEntrySize = 96 by rfl]
    simp (disch := omega) [readEntry, segmentEntry, loadLE_fill_zero]
  have htss : ∀ m, readEntry (setTssDescriptor m gdt tss base limit) (gdt + 16 * i) =
      if i = 5 then tssEntry base limit else readEntry m (gdt + 16 * i) := by
    intro m
    have hel : element gdt tss = gdt + 16 * 5 := by simp [element, gdtEntrySize, tss]
    unfold setTssDescriptor
    rw [hel]
    by_cases h : i = 5
    · rw [if_pos h, h, readEntry_putEntry _ _ (fits_tss base limit)]
    · rw [if_neg h, readEntry_putEntry_of_disjoint _ _ (by omega)]
  simp only [gdtInit]
  rw [htss, show udata = 8 * 4 by rfl, readEntry_setSegment _ _ _ _ _ _ (by decide) (by decide),
    show ucode = 8 * 3 by rfl, readEntry_setSegment _ _ _ _ _ _ (by decide) (by decide),
    show kdata = 8 * 2 by rfl, readEntry_setSegment _ _ _ _ _ _ (by decide) (by decide),
    show kcode = 8 * 1 by rfl, readEntry_setSegment _ _ _ _ _ _ (by decide) (by decide), hzero]
  unfold gdtLength at hi
  interval_cases i <;> rfl

/-! ## The descriptors at byte offsets -/

/-- The descriptor in the first half of an element. -/
def GdtEntry.descriptor (e : GdtEntry) : Descriptor where
  base := e.baseLow + e.baseMid * 2 ^ 16 + e.baseHigh * 2 ^ 24
  limit := e.limitLow + e.granularity % 2 ^ 4 * 2 ^ 16
  access := e.access
  flags := e.granularity / 2 ^ 4

lemma descriptorAt_eq (m : Memory) (a : ℕ) : descriptorAt m a = (readEntry m a).descriptor := rfl

/-- The second half of an element with a zero `reserved` is no descriptor. -/
lemma access_second_half {m : Memory} {a : ℕ} (h : (readEntry m a).reserved = 0) :
    (descriptorAt m (a + 8)).access = 0 := by
  have hbyte : m (a + 12 + 1) = 0 := eq_zero_of_loadLE h 1 (by decide)
  simp [descriptorAt, loadLE, Nat.add_assoc] at hbyte ⊢
  exact congrArg UInt8.toNat hbyte

lemma gdtTable_reserved (base limit i : ℕ) : (gdtTable base limit i).reserved = 0 := by
  unfold gdtTable
  split <;> rfl

/-- The 16-byte descriptor in an element. -/
def GdtEntry.system (e : GdtEntry) : Descriptor :=
  { e.descriptor with base := e.descriptor.base + e.baseUpper * 2 ^ 32 }

lemma systemAt_eq (m : Memory) (a : ℕ) : systemAt m a = (readEntry m a).system := rfl

/-- The five descriptors are in the elements with their selectors' numbers. -/
lemma gdtTable_descriptor {base limit i : ℕ} (hbase : base < 2 ^ 64) (hlimit : limit < 2 ^ 20)
    (hi : i < 6) :
    ((gdtTable base limit i).descriptor.IsCode 0 ↔ 8 * (2 * i) = 2 * kcode) ∧
      ((gdtTable base limit i).descriptor.IsData 0 ↔ 8 * (2 * i) = 2 * kdata) ∧
      ((gdtTable base limit i).descriptor.IsCode 3 ↔ 8 * (2 * i) = 2 * ucode) ∧
      ((gdtTable base limit i).descriptor.IsData 3 ↔ 8 * (2 * i) = 2 * udata) ∧
      ((gdtTable base limit i).system.IsTss base limit ↔ 8 * (2 * i) = 2 * tss) := by
  by_cases h : i = 5
  · subst h
    simp [gdtTable, tssEntry, GdtEntry.descriptor, GdtEntry.system, Descriptor.IsCode,
      Descriptor.IsData,
      Descriptor.IsTss, Descriptor.present, Descriptor.codeOrData, Descriptor.dpl, accessTss,
      kcode, kdata, ucode, udata, tss]
    omega
  · interval_cases i <;>
    simp [gdtTable, segmentEntry, GdtEntry.descriptor, GdtEntry.system, Descriptor.IsCode,
      Descriptor.IsData,
      Descriptor.IsTss, Descriptor.present, Descriptor.codeOrData, Descriptor.dpl,
        Descriptor.executable,
      Descriptor.readWrite, Descriptor.long, accessCode, accessData, dpl3, granLong, kcode, kdata,
        ucode,
      udata, tss] at h ⊢

/-- Each descriptor is found at twice the byte offset its selector means, and nowhere
else in the table. -/
theorem gdt_descriptor_iff (m : Memory) (gdt base limit j : ℕ) (hbase : base < 2 ^ 64)
    (hlimit : limit < 2 ^ 20) (hj : 8 * j < gdtLength * gdtEntrySize) :
    let m' := gdtInit m gdt base limit
    ((descriptorAt m' (gdt + 8 * j)).IsCode 0 ↔ 8 * j = 2 * kcode) ∧
      ((descriptorAt m' (gdt + 8 * j)).IsData 0 ↔ 8 * j = 2 * kdata) ∧
      ((descriptorAt m' (gdt + 8 * j)).IsCode 3 ↔ 8 * j = 2 * ucode) ∧
      ((descriptorAt m' (gdt + 8 * j)).IsData 3 ↔ 8 * j = 2 * udata) ∧
      ((systemAt m' (gdt + 8 * j)).IsTss base limit ↔ 8 * j = 2 * tss) := by
  intro m'
  have hread : ∀ i < gdtLength, readEntry m' (gdt + 16 * i) = gdtTable base limit i :=
    fun i hi => readEntry_gdtInit m gdt base limit hi
  clear_value m'
  have hodd : ∀ d : Descriptor, d.access = 0 → d.present = false := by
    intro d h
    simp [Descriptor.present, h]
  obtain ⟨i, rfl | rfl⟩ : ∃ i, j = 2 * i ∨ j = 2 * i + 1 := ⟨j / 2, by omega⟩
  · have hi : i < gdtLength := by
      unfold gdtLength gdtEntrySize at *
      omega
    have hat : gdt + 8 * (2 * i) = gdt + 16 * i := by omega
    rw [hat, systemAt_eq, descriptorAt_eq, hread i hi]
    unfold gdtLength at hi
    exact gdtTable_descriptor hbase hlimit hi
  · have hi : i < gdtLength := by
      unfold gdtLength gdtEntrySize at *
      omega
    have habsent : (descriptorAt m' (gdt + 8 * (2 * i + 1))).present = false := by
      apply hodd
      rw [show gdt + 8 * (2 * i + 1) = gdt + 16 * i + 8 by omega]
      apply access_second_half
      rw [hread i hi, gdtTable_reserved]
    have hcode : ∀ level, ¬ (descriptorAt m' (gdt + 8 * (2 * i + 1))).IsCode level :=
      fun _ h => Bool.false_ne_true (habsent.symm.trans h.1)
    have hdata : ∀ level, ¬ (descriptorAt m' (gdt + 8 * (2 * i + 1))).IsData level :=
      fun _ h => Bool.false_ne_true (habsent.symm.trans h.1)
    have htss : ¬ (systemAt m' (gdt + 8 * (2 * i + 1))).IsTss base limit :=
      fun h => Bool.false_ne_true (habsent.symm.trans ((present_systemAt _ _).symm.trans h.1))
    have hne : ∀ selector, selector % 8 = 0 → 8 * (2 * i + 1) ≠ 2 * selector := by omega
    exact ⟨iff_of_false (hcode 0) (hne kcode (by decide)), iff_of_false (hdata 0)
      (hne kdata (by decide)),
      iff_of_false (hcode 3) (hne ucode (by decide)), iff_of_false (hdata 3)
        (hne udata (by decide)),
      iff_of_false htss (hne tss (by decide))⟩

/-- The table of the small machine at offset 0x50, where no selector of the kernel points. -/
theorem gdt_descriptor_at_0x50 :
    (systemAt (gdtInit (fun _ => 0) 0x1000 0x2000 103) (0x1000 + 8 * 10)).IsTss 0x2000 103 :=
  (gdt_descriptor_iff (fun _ => 0) 0x1000 0x2000 103 10 (by decide) (by decide)
    (by decide)).2.2.2.2.mpr rfl

/-- What the processor reads at the five selectors: nothing, kernel code instead of data,
nothing, kernel data instead of user data, nothing. -/
theorem selectors_miss_descriptors : let m := gdtInit (fun _ => 0) 0x1000 0x2000 103
    ¬ (descriptorAt m (0x1000 + kcode)).IsCode 0 ∧ ¬ (descriptorAt m (0x1000 + kdata)).IsData 0 ∧
      ¬ (descriptorAt m (0x1000 + ucode)).IsCode 3 ∧ ¬ (descriptorAt m (0x1000 + udata)).IsData 3 ∧
      ¬ (systemAt m (0x1000 + tss)).IsTss 0x2000 103 := by
  decide +kernel

end TraitOS.Gdt
