import TraitOS.Tvmm

/-!
# The kernel window

`sec_split_window` replaces the 2 MiB leaf over the kernel image by 512 small pages. The entry
of a page joins its permissions, which depend on the section the page is in, with its frame,
which lies in the relocated copy if the page belongs to the image.
-/
namespace TraitOS.Tsec
open ByteMemory PageTable Tvmm

def tsecPteForOff (off relocBase imageLocal imageEnd textLo textHi rodataHi : ℕ) : ℕ :=
  let flags :=
    if textLo ≤ off ∧ off < textHi then 0
    else if textHi ≤ off ∧ off < rodataHi then pageNx
    else pageWrite ||| pageNx
  let phys :=
    if relocBase ≠ 0 ∧ imageLocal ≤ off ∧ off < imageEnd then (relocBase +
      (off - imageLocal)) % 2 ^ 64
    else off
  phys ||| pagePresent ||| flags

/-- The loop of `tsec_fill_window`, after `n` entries. -/
def tsecFillWindow (m : Memory) (pt relocBase imageLocal textLo textHi rodataHi imageEnd : ℕ) : ℕ →
    Memory
  | 0 => m
  | n + 1 =>
    setEntry (tsecFillWindow m pt relocBase imageLocal textLo textHi rodataHi imageEnd n) pt n
      (tsecPteForOff (n * 4096) relocBase imageLocal imageEnd textLo textHi rodataHi)

/-! ## The sections of the window -/

def windowSize : ℕ := 2 ^ 21

/-- The bounds of the sections, as offsets into the window. -/
structure Sections where
  imageLocal : ℕ
  textLo : ℕ
  textHi : ℕ
  rodataHi : ℕ
  imageEnd : ℕ
  image_le : imageLocal ≤ textLo
  text_le : textLo ≤ textHi
  rodata_le : textHi ≤ rodataHi
  end_le : rodataHi ≤ imageEnd
  window : imageEnd ≤ windowSize
  aligned : imageLocal % 4096 = 0 ∧ textLo % 4096 = 0 ∧ textHi % 4096 = 0 ∧ rodataHi % 4096 = 0 ∧
    imageEnd % 4096 = 0

/-- Where the copy of the image may be; 0 means that there is none. -/
def RelocBase (base : ℕ) : Prop := base = 0 ∨ windowSize ≤ base ∧ base % windowSize = 0 ∧
    base < 2 ^ 52

def writable (e : ℕ) : Bool := e.testBit 1
def executable (e : ℕ) : Bool := !e.testBit 63

namespace Sections

def pte (w : Sections) (base off : ℕ) : ℕ :=
  tsecPteForOff off base w.imageLocal w.imageEnd w.textLo w.textHi w.rodataHi

def fill (w : Sections) (base : ℕ) (m : Memory) (pt n : ℕ) : Memory :=
  tsecFillWindow m pt base w.imageLocal w.textLo w.textHi w.rodataHi w.imageEnd n

def InImage (w : Sections) (off : ℕ) : Prop := w.imageLocal ≤ off ∧ off < w.imageEnd

instance (w : Sections) (off : ℕ) : Decidable (w.InImage off) := inferInstanceAs (Decidable (_ ∧ _))

/-- The frame a page of the window is mapped to. -/
def frame (w : Sections) (base off : ℕ) : ℕ :=
  if base ≠ 0 ∧ w.InImage off then base + (off - w.imageLocal) else off

/-- Frames are whole, and below 2^52. -/
lemma frame_spec (w : Sections) {base off : ℕ} (hbase : RelocBase base) (hal : off % 4096 = 0)
    (hoff : off < windowSize) : w.frame base off % 4096 = 0 ∧ w.frame base off < 2 ^ 52 := by
  have himage := w.aligned.1
  unfold frame InImage
  unfold RelocBase windowSize at *
  split_ifs with h
  · omega
  · omega

/-- The copy lies above the window, so no frame is mapped twice. -/
lemma frame_injective (w : Sections) {base off off' : ℕ} (hbase : RelocBase base)
    (hoff : off < windowSize) (hoff' : off' < windowSize)
    (h : w.frame base off = w.frame base off') : off = off' := by
  unfold frame InImage at h
  unfold RelocBase windowSize at *
  split_ifs at h with h₁ h₂ h₂
  · omega
  · omega
  · omega
  · exact h

/-- The permissions of a page. -/
def flags (w : Sections) (off : ℕ) : ℕ :=
  if w.textLo ≤ off ∧ off < w.textHi then 0
  else if w.textHi ≤ off ∧ off < w.rodataHi then pageNx
  else pageWrite ||| pageNx

lemma pte_eq (w : Sections) {base off : ℕ} (hbase : RelocBase base) (hoff : off < windowSize) :
    w.pte base off = w.frame base off ||| pagePresent ||| w.flags off := by
  have hmod : (base + (off - w.imageLocal)) % 2 ^ 64 = base + (off - w.imageLocal) := by
    unfold RelocBase windowSize at *
    omega
  unfold pte tsecPteForOff frame InImage flags
  rw [hmod]
  rfl

/-- A whole frame has no flag bits. -/
lemma testBit_frame {phys i : ℕ} (hal : phys % 4096 = 0) (hlt : phys < 2 ^ 52)
    (hi : i < 12 ∨ 52 ≤ i) : phys.testBit i = false := by
  rcases hi with hi | hi
  · obtain ⟨f, rfl⟩ : ∃ f, phys = f <<< 12 := ⟨phys / 4096, by rw [Nat.shiftLeft_eq]; omega⟩
    rw [Nat.testBit_shiftLeft, decide_eq_false (by omega), Bool.false_and]
  · exact Nat.testBit_lt_two_pow (hlt.trans_le (Nat.pow_le_pow_right (by decide) hi))

lemma flags_spec (w : Sections) (off : ℕ) :
    w.flags off < 2 ^ 64 ∧ target (w.flags off) = 0 ∧
      ((w.flags off).testBit 63 = false ↔ w.textLo ≤ off ∧ off < w.textHi) ∧
      ((w.flags off).testBit 1 = false ↔ w.textLo ≤ off ∧ off < w.rodataHi) ∧
      ¬ ((w.flags off).testBit 1 = true ∧ (w.flags off).testBit 63 = false) := by
  have htext := w.text_le
  have hrodata := w.rodata_le
  unfold flags
  split_ifs with h₁ h₂
  · exact ⟨by decide, by decide, iff_of_true (by decide) h₁, iff_of_true (by decide) ⟨h₁.1,
      by omega⟩, by decide⟩
  · exact ⟨by decide, by decide, iff_of_false (by decide) h₁, iff_of_true (by decide) ⟨by omega,
      h₂.2⟩, by decide⟩
  · exact ⟨by decide, by decide, iff_of_false (by decide) h₁, iff_of_false (by decide) (by omega),
      by decide⟩

lemma pte_lt (w : Sections) {base off : ℕ} (hbase : RelocBase base) (hal : off % 4096 = 0)
    (hoff : off < windowSize) : w.pte base off < 2 ^ 64 := by
  have hframe := (w.frame_spec hbase hal hoff).2
  rw [w.pte_eq hbase hoff]
  exact Nat.or_lt_two_pow (Nat.or_lt_two_pow (hframe.trans (by decide)) (by decide))
    (w.flags_spec off).1

/-- An entry as it was written. -/
lemma entry_fill (w : Sections) {base : ℕ} (hbase : RelocBase base) (m : Memory) (pt : ℕ) {n i : ℕ}
    (hn : n ≤ 512) (hi : i < n) : entry (w.fill base m pt n) pt i = w.pte base (i * 4096) := by
  induction n with
  | zero => exact absurd hi (Nat.not_lt_zero i)
  | succ n ih =>
    change entry (setEntry (w.fill base m pt n) pt n (w.pte base (n * 4096))) pt i = _
    rcases Nat.lt_succ_iff_lt_or_eq.mp hi with hlt | rfl
    · refine Eq.trans (load64_store64_of_disjoint _ _ ?_) (ih (by omega) hlt)
      omega
    · refine entry_setEntry_self _ _ _ (w.pte_lt hbase (Nat.mul_mod_left _ _) ?_)
      unfold windowSize
      omega

end Sections

/-- Every page of the window is mapped, with the permissions of its section and never for
writing and execution both; each has a frame of its own, in the copy if it is a page of the
image. -/
theorem fillWindow_spec (w : Sections) (base : ℕ) (hbase : RelocBase base) (m : Memory) (pt : ℕ) :
    (∀ i < 512, present (entry (w.fill base m pt 512) pt i) = true ∧
      (executable (entry (w.fill base m pt 512) pt i) = true ↔ w.textLo ≤ i * 4096 ∧
        i * 4096 < w.textHi) ∧
      (writable (entry (w.fill base m pt 512) pt i) = false ↔ w.textLo ≤ i * 4096 ∧
        i * 4096 < w.rodataHi) ∧
      ¬ (writable (entry (w.fill base m pt 512) pt i) = true ∧
        executable (entry (w.fill base m pt 512) pt i) = true) ∧
      target (entry (w.fill base m pt 512) pt i) =
        if base ≠ 0 ∧ w.InImage (i * 4096) then base + (i * 4096 - w.imageLocal) else i * 4096) ∧
    ∀ i < 512, ∀ j < 512,
      target (entry (w.fill base m pt 512) pt i) = target (entry (w.fill base m pt 512) pt j) →
        i = j := by
  have hpage (i : ℕ) (hi : i < 512) : i * 4096 < windowSize := by
    unfold windowSize
    omega
  have hframe (i : ℕ) (hi : i < 512) := w.frame_spec hbase (Nat.mul_mod_left i 4096) (hpage i hi)
  have hentry (i : ℕ) (hi : i < 512) : entry (w.fill base m pt 512) pt i =
      w.frame base (i * 4096) ||| pagePresent ||| w.flags (i * 4096) := by
    rw [w.entry_fill hbase m pt le_rfl hi, w.pte_eq hbase (hpage i hi)]
  have hbit (i k : ℕ) (hi : i < 512) (hk : k = 1 ∨ k = 63) :
      (entry (w.fill base m pt 512) pt i).testBit k = (w.flags (i * 4096)).testBit k := by
    have hone : pagePresent.testBit k = false := by rcases hk with rfl | rfl <;> decide
    rw [hentry i hi, Nat.testBit_or, Nat.testBit_or, hone,
      Sections.testBit_frame (hframe i hi).1 (hframe i hi).2 (by omega), Bool.or_false,
        Bool.false_or]
  have htarget (i : ℕ) (hi : i < 512) : target (entry (w.fill base m pt 512) pt i) =
    w.frame base (i * 4096) := by
    have hone : target pagePresent = 0 := by decide
    obtain ⟨f, hf⟩ : ∃ f, w.frame base (i * 4096) = f * frameBytes :=
      ⟨w.frame base (i * 4096) / 4096, by have := (hframe i hi).1; unfold frameBytes; omega⟩
    have hlt := (hframe i hi).2
    rw [hentry i hi, target_or, target_or, hone, (w.flags_spec _).2.1, Nat.or_zero, Nat.or_zero, hf,
      target_frame]
    rw [hf] at hlt
    unfold frameBytes at hlt
    omega
  refine ⟨fun i hi => ?_, fun i hi j hj h => ?_⟩
  · obtain ⟨-, -, hexec, hwrite, hnot⟩ := w.flags_spec (i * 4096)
    refine ⟨?_, ?_, ?_, ?_, htarget i hi⟩
    · rw [hentry i hi, present_or, present_or, show present pagePresent =
        true by decide, Bool.or_true, Bool.true_or]
    · unfold executable
      rw [hbit i 63 hi (Or.inr rfl), Bool.not_eq_true']
      exact hexec
    · unfold writable
      rw [hbit i 1 hi (Or.inl rfl)]
      exact hwrite
    · unfold writable executable
      rw [hbit i 1 hi (Or.inl rfl), hbit i 63 hi (Or.inr rfl), Bool.not_eq_true']
      exact hnot
  · rw [htarget i hi, htarget j hj] at h
    have heq := w.frame_injective hbase (hpage i hi) (hpage j hj) h
    omega

lemma megabyte_le : 0x100000 ≤ 0x101000 := by decide

/-- An image at 1 MiB; below it is relocated to 32 MiB. -/
def smallSections : Sections :=
  ⟨0x100000, 0x101000, 0x110000, 0x118000, 0x130000, megabyte_le, by decide, by decide, by decide,
    by decide, by decide⟩

theorem fillWindow_small :
    target (entry (smallSections.fill 0x2000000 (fun _ => 0) 0x5000 512) 0x5000 257) = 0x2001000 ∧
      executable (entry (smallSections.fill 0x2000000 (fun _ => 0) 0x5000 512) 0x5000 257) =
        true := by
  obtain ⟨-, hexec, -, -, htarget⟩ :=
    (fillWindow_spec smallSections 0x2000000 (Or.inr (by decide))
      (fun _ => 0) 0x5000).1 257 (by decide)
  exact ⟨htarget.trans (by decide), hexec.mpr (by decide)⟩

end TraitOS.Tsec
