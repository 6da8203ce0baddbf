import TraitOS.TsecKaslr
import TraitOS.TpmmBootData
import TraitOS.TtarfsInitrd

/-!
# The module that is not overwritten

Two walks over the information block look for the archive: one before a slot for the image is
chosen, so that the slot misses it, and one later when it is unpacked. The first asks for a
tag of at least 24 bytes. A module tag is 16 bytes and its command line, so one with a short
command line is seen by the second walk only.
-/
namespace TraitOS.Tsec
open ByteMemory Multiboot Tpmm Tvmm Ttarfs

def isLongModule (m : Memory) (p : ℕ) : Bool := tagType m p = 3 ∧ 24 ≤ tagSize m p

/-- The range `module_range` reports, if it returns; `some none` when it reports no module. -/
def moduleRange (m : Memory) (mbi : ℕ) : Option (Option (ℕ × ℕ)) :=
  (findTag m mbi (isLongModule m)).map (Option.map (tagRange m))

/-- If there is a module tag, the first one of at least 24 bytes has the range of the first one. -/
def SameModule (m : Memory) (mbi : ℕ) : Prop :=
  ∀ p, FirstTag m mbi (isModule m) p → ∃ q, FirstTag m mbi (isLongModule m) q ∧
    tagRange m q = tagRange m p

/-- The two walks agree, also on not coming to an end, if and only if the first long module tag
is as good as the first one. -/
lemma moduleRange_eq_iff (m : Memory) (mbi : ℕ) : moduleRange m mbi = initrdRange m mbi ↔
    SameModule m mbi := by
  constructor
  · intro h p hp
    exact findTag_range_iff.mp (h.trans (findTag_range_iff.mpr ⟨p, hp, rfl⟩))
  · intro h
    by_cases hex : ∃ p, FirstTag m mbi (isModule m) p
    · obtain ⟨p, hp⟩ := hex
      exact (findTag_range_iff.mpr (h p hp)).trans (findTag_range_iff.mpr ⟨p, hp, rfl⟩).symm
    · -- without a module tag both walks pass over every tag
      have hnone {p : ℕ} (hp : IsTag m mbi p) : isModule m p ≠ true := fun hacc =>
        hex (exists_firstTag hp hacc)
      unfold moduleRange initrdRange
      rw [findTag_congr fun p hp => ?_]
      rw [Bool.eq_false_iff.mpr (hnone hp)]
      exact decide_eq_false fun hlong => hnone hp (decide_eq_true hlong.1)

lemma secKaslrRelocate_base {p : Paging} {cr3 image imageSize entropy base : ℕ}
    {module : Option (ℕ × ℕ)}
    (h : (secKaslrRelocate p cr3 image imageSize module entropy).base = some base) :
    pickSlot p.pmm image imageSize module entropy = some base := by
  unfold secKaslrRelocate at h
  cases hpick : pickSlot p.pmm image imageSize module entropy with
  | none =>
    rw [hpick] at h
    exact nomatch h
  | some slot =>
    rw [hpick] at h
    dsimp only at h
    rcases hmove : relocatePageTables ⟨p.mem, tpmmReserveRange p.pmm slot imageSize⟩ cr3 with ⟨q,
      _ | cr3'⟩ <;>
      rw [hmove] at h
    · exact nomatch h
    · exact h

/-- The range the KASLR code goes by. -/
def knownModule (m : Memory) (mbi : ℕ) : Option (ℕ × ℕ) := (moduleRange m mbi).join

/-- The walks agree if and only if the first long module tag is as good as the first one, and
then the slot misses the archive. -/
theorem moduleRange_agrees_iff (m : Memory) (mbi : ℕ) :
    (moduleRange m mbi = initrdRange m mbi ↔ SameModule m mbi) ∧
    (SameModule m mbi → ∀ (p : Paging) (cr3 image imageSize entropy base start stop : ℕ),
      (secKaslrRelocate p cr3 image imageSize (knownModule m mbi) entropy).base = some base →
      initrdRange m mbi = some (some (start, stop)) → stop ≤ base ∨ base + kaslrSlot ≤ start) := by
  refine ⟨moduleRange_eq_iff m mbi,
    fun hsame p cr3 image imageSize entropy base start stop hbase hrange => ?_⟩
  have hknown : knownModule m mbi = some (start, stop) := by
    unfold knownModule
    rw [(moduleRange_eq_iff m mbi).mpr hsame, hrange]
    rfl
  exact (pickSlot_away (secKaslrRelocate_base hbase)).2 (start, stop) hknown

/-- A block at `0x8000` with a module of one page at 32 MiB, with an empty command line: the tag
has 17 bytes. -/
def bareModule : Memory :=
  let m := storeLE (fun _ => 0) 0x8000 4 40
  let m := storeLE (storeLE m 0x8008 4 3) 0x800C 4 17
  let m := storeLE (storeLE m 0x8010 4 0x2000000) 0x8014 4 0x2001000
  storeLE m 0x8024 4 8

/-- The image is copied over the archive. -/
theorem slot_overwrites_archive :
    WellFormed bareModule 0x8000 ∧ moduleRange bareModule 0x8000 = some none ∧
      initrdRange bareModule 0x8000 = some (some (0x2000000, 0x2001000)) ∧
      (secKaslrRelocate slotMachine 0x3000 0x200000 4096 (knownModule bareModule 0x8000) 7).base =
        some 0x2000000 := by
  have htags : infoTags bareModule 0x8000 = some [0x8008] := by decide
  exact ⟨wellFormed_of_tags htags (by decide) (by decide), by decide, by decide, by decide +kernel⟩

end TraitOS.Tsec
