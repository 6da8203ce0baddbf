import TraitOS.TpmmImport

/-!
# When a contiguous request finds a run

The two scans of a contiguous request are cut at the hint: a run that begins below the hint and
ends above it is seen by neither. What they can put together instead are the top and the bottom
of memory, if frame zero is free. The conditions below say which requests succeed, in any state
of the manager.
-/
namespace TraitOS.Tpmm
open BitmapScan ByteMemory Runs

/-- `n` consecutive free frames lie in `[first, last)`. -/
def HasRun (s : Pmm) (first last n : ℕ) : Prop :=
  ∃ a, first ≤ a ∧ a + n ≤ last ∧ Block (isFree s) a n

/-- The last frames below the cap and the first frames of memory, `n` together, are free. -/
def WrapsRound (s : Pmm) (cap stop n : ℕ) : Prop :=
  ∃ k, 0 < k ∧ k < n ∧ s.firstFreeHint + k ≤ cap ∧ n ≤ k + stop ∧ Block (isFree s) (cap - k) k ∧
    Block (isFree s) 0 (n - k)

/-- The frames the two scans can put together, other than a run that starts at frame zero: its
address is the failure value. -/
def WithinReach (s : Pmm) (cap stop n : ℕ) : Prop :=
  (HasRun s s.firstFreeHint cap n ∧ ¬ (s.firstFreeHint = 0 ∧ Block (isFree s) 0 n)) ∨
    WrapsRound s cap stop n ∨ (HasRun s 0 stop n ∧ ¬ Block (isFree s) 0 n)

lemma hasRun_of_found {s : Pmm} {cap n start : ℕ} (hn : 0 < n)
    (h : scanRun (isFree s) n s.firstFreeHint (cap - s.firstFreeHint) 0 0 = .found start) :
    HasRun s s.firstFreeHint cap n ∧ (start = 0 ↔ s.firstFreeHint = 0 ∧ Block (isFree s) 0 n) := by
  obtain ⟨⟨hlen, hblock⟩, hs⟩ | ⟨hnot, hs, hlast, hblock⟩ := scanRun_found_cases hn h
  · rw [runStart, if_pos rfl] at hs
    refine ⟨⟨_, le_rfl, by omega, hblock⟩, ?_⟩
    rw [hs]
    exact ⟨fun h0 => ⟨h0, h0 ▸ hblock⟩, And.left⟩
  · refine ⟨⟨start, by omega, by omega, hblock⟩, fun h0 => by omega, ?_⟩
    rintro ⟨h0, hzero⟩
    exact absurd ⟨by omega, hzero.mono (by omega) (by omega)⟩ hnot

/-- After a first scan that failed with `run` frames open, the second one. -/
lemma second_scan {s : Pmm} {cap stop n run start : ℕ} (hn : 0 < n) (hstop : stop ≤ s.firstFreeHint)
    (h : scanRun (isFree s) n s.firstFreeHint (cap - s.firstFreeHint) 0 0 = .carry run start) :
    (∃ f, scanRun (isFree s) n 0 stop run start = .found f ∧ f ≠ 0) ↔ WithinReach s cap stop n := by
  obtain ⟨hrun, hfirst, hnone⟩ := scanRun_carry hn h
  obtain ⟨hend, hlong, htail, hmax⟩ := scanRun_tail (Or.inl rfl) h
  have habove : ¬ HasRun s s.firstFreeHint cap n := by
    intro ⟨a, ha, hlast, hblock⟩
    by_cases hhint : a = s.firstFreeHint
    · exact hfirst ⟨by omega, hhint ▸ hblock⟩
    · exact hnone a (by omega) (by omega) hblock
  have hwrap : WrapsRound s cap stop n → Completes (isFree s) n 0 stop run ∧ 0 < run := by
    intro ⟨k, hk, hkn, hcap, hlen, htop, hbottom⟩
    have hle := hmax k (by omega) (htop.mono (by omega) (by omega))
    exact ⟨⟨by omega, hbottom.mono le_rfl (by omega)⟩, by omega⟩
  constructor
  · intro ⟨f, hf, h0⟩
    obtain ⟨⟨hlen, hbottom⟩, hs⟩ | ⟨hnot, hs, hlast, hblock⟩ := scanRun_found_cases hrun hf
    · unfold runStart at hs
      split_ifs at hs with hzero
      · exact absurd hs h0
      · exact Or.inr (Or.inl ⟨run, by omega, hrun, by omega, hlen,
          htail.mono (by omega) (by omega), hbottom⟩)
    · exact Or.inr (Or.inr ⟨⟨f, by omega, by omega, hblock⟩, fun hzero =>
        hnot ⟨by omega, hzero.mono le_rfl (by omega)⟩⟩)
  · intro hreach
    cases hf : scanRun (isFree s) n 0 stop run start with
    | found f =>
      refine ⟨f, rfl, ?_⟩
      obtain ⟨⟨hlen, hbottom⟩, hs⟩ | ⟨_, hs, _⟩ := scanRun_found_cases hrun hf
      · rw [hs, runStart]
        split_ifs with hzero
        · obtain ⟨hrun, _⟩ | hwraps | ⟨_, hnot⟩ := hreach
          · exact absurd hrun habove
          · exact absurd (hwrap hwraps).2 (by omega)
          · exact absurd (hbottom.mono le_rfl (by omega)) hnot
        · omega
      · omega
    | carry run' start' =>
      obtain ⟨_, hcomplete, hinside⟩ := scanRun_carry hrun hf
      obtain ⟨hrun, _⟩ | hwraps | ⟨⟨a, _, hlast, hblock⟩, hnot⟩ := hreach
      · exact absurd hrun habove
      · exact absurd (hwrap hwraps).1 hcomplete
      · have ha : a ≠ 0 := fun ha => hnot (ha ▸ hblock)
        exact absurd hblock (hinside a (by omega) (by omega))

/-- The scans report a frame other than frame zero exactly when one is within reach. -/
theorem scanContig_iff {s : Pmm} {cap stop n : ℕ} (hn : 0 < n) (hstop : stop ≤ s.firstFreeHint) :
    (∃ f, scanContig s n cap stop = some f ∧ f ≠ 0) ↔ WithinReach s cap stop n := by
  unfold scanContig
  cases h : scanRun (isFree s) n s.firstFreeHint (cap - s.firstFreeHint) 0 0 with
  | found start =>
    obtain ⟨hrun, hzero⟩ := hasRun_of_found hn h
    simp only [Option.some.injEq, exists_eq_left', ne_eq, hzero]
    refine ⟨fun hnot => Or.inl ⟨hrun, hnot⟩, fun hreach ⟨h0, hblock⟩ => ?_⟩
    obtain ⟨_, hnot⟩ | ⟨k, _, hk, _, hlen, _⟩ | ⟨_, hnot⟩ := hreach
    · exact hnot ⟨h0, hblock⟩
    · omega
    · exact hnot hblock
  | carry run start =>
    rw [← second_scan hn hstop h]
    dsimp only
    cases scanRun (isFree s) n 0 stop run start <;> simp

lemma address_ne_zero_iff (s : Pmm) (n : ℕ) (o : Option ℕ) :
    (match o with
      | some start => (takeFrames s start n, start * pageSize)
      | none => (s, 0)).2 ≠ 0 ↔ ∃ f, o = some f ∧ f ≠ 0 := by
  cases o <;> simp [pageSize]

theorem tpmmAllocContig_ne_zero_iff (s : Pmm) {n : ℕ} (hn : 0 < n) :
    (tpmmAllocContig s n).2 ≠ 0 ↔ WithinReach s s.totalFrames s.firstFreeHint n :=
  (address_ne_zero_iff s n _).trans (scanContig_iff hn le_rfl)

theorem tpmmAllocLowContig_ne_zero_iff (s : Pmm) {n : ℕ} (hn : 0 < n)
    (hcap : n ≤ min lowFrames s.totalFrames) :
    (tpmmAllocLowContig s n).2 ≠ 0 ↔
      WithinReach s (min lowFrames s.totalFrames)
        (min s.firstFreeHint (min lowFrames s.totalFrames)) n := by
  unfold tpmmAllocLowContig
  dsimp only
  rw [if_neg (by omega)]
  exact (address_ne_zero_iff s n _).trans (scanContig_iff hn (min_le_left _ _))

/-- While frame zero is used, what lies within reach is a run on one side of the hint. -/
theorem withinReach_iff {s : Pmm} {cap stop n : ℕ} (h0 : isFree s 0 = false) (hn : 0 < n) :
    WithinReach s cap stop n ↔ HasRun s s.firstFreeHint cap n ∨ HasRun s 0 stop n := by
  have hnot (k : ℕ) (hk : 0 < k) : ¬ Block (isFree s) 0 k := fun h =>
    absurd (h 0 le_rfl (by omega)) (by simp [h0])
  have hwrap : ¬ WrapsRound s cap stop n := fun ⟨k, _, hk, _, _, _, hbottom⟩ =>
    hnot _ (by omega) hbottom
  simp [WithinReach, hwrap, hnot n hn]

/-- A contiguous request fails only for want of a run exactly when some run, if there is one,
lies within reach of the scans. -/
theorem contig_complete_iff (s : Pmm) (n : ℕ) (hn : 0 < n) :
    (((tpmmAllocContig s n).2 = 0 → ¬ HasRun s 0 s.totalFrames n) ↔
      (HasRun s 0 s.totalFrames n → WithinReach s s.totalFrames s.firstFreeHint n)) ∧
    (((tpmmAllocLowContig s n).2 = 0 → ¬ HasRun s 0 (min lowFrames s.totalFrames) n) ↔
      (HasRun s 0 (min lowFrames s.totalFrames) n →
        WithinReach s (min lowFrames s.totalFrames)
          (min s.firstFreeHint (min lowFrames s.totalFrames)) n)) := by
  rw [← tpmmAllocContig_ne_zero_iff s hn]
  refine ⟨by tauto, ?_⟩
  by_cases hcap : n ≤ min lowFrames s.totalFrames
  · rw [← tpmmAllocLowContig_ne_zero_iff s hn hcap]
    tauto
  · have hnone : ¬ HasRun s 0 (min lowFrames s.totalFrames) n := fun ⟨a, _, hlast, _⟩ => by omega
    simp [hnone]

/-- Four frames of which frame zero is used, the hint in the middle. -/
def smallPmm : Pmm := ⟨fun _ => 1#32, 4, 3, 2⟩

theorem contig_complete_small :
    ((tpmmAllocContig smallPmm 2).2 = 0 → ¬ HasRun smallPmm 0 4 2) ∧
      ((tpmmAllocLowContig smallPmm 2).2 = 0 → ¬ HasRun smallPmm 0 4 2) := by
  have hrun : HasRun smallPmm 2 4 2 := by
    refine ⟨2, le_rfl, le_rfl, fun i hi hi4 => ?_⟩
    obtain rfl | rfl : i = 2 ∨ i = 3 := by omega
    · decide
    · decide
  have hreach (stop : ℕ) : WithinReach smallPmm 4 stop 2 :=
    Or.inl ⟨hrun, fun h => absurd h.1 (by decide)⟩
  exact (contig_complete_iff smallPmm 2 (by decide)).imp (fun h => h.mpr fun _ => hreach _)
    (fun h => h.mpr fun _ => hreach _)

/-- The four frames behind an image of one frame are available. -/
def stripMemory : Memory := mapMemory 0x101000 0x4000

def stripImage : KernelImage := ⟨0x101000, by decide, by decide⟩

/-- Two frames are given back one by one, with a request for two frames in between that moves the
hint over the first: they are neighbours, and a request for two frames fails. -/
theorem straddling_run_missed :
    ∃ s c, tpmmInit stripMemory 0x8000 stripImage = some s ∧
      exec clientStep ⟨s, []⟩ [.alloc, .alloc, .free 0x101000, .allocContig 2, .free 0x102000] =
        some c ∧
      HasRun c.pmm 0 c.pmm.totalFrames 2 ∧ (tpmmAllocContig c.pmm 2).2 = 0 ∧
      HasRun c.pmm 0 (min lowFrames c.pmm.totalFrames) 2 ∧ (tpmmAllocLowContig c.pmm 2).2 = 0 := by
  have hrun : ((tpmmInit stripMemory 0x8000 stripImage).bind fun s => (exec clientStep ⟨s, []⟩
      [.alloc, .alloc, .free 0x101000, .allocContig 2, .free 0x102000]).map fun c =>
        ((tpmmAllocContig c.pmm 2).2, (tpmmAllocLowContig c.pmm 2).2, isFree c.pmm 257,
          isFree c.pmm 258, c.pmm.totalFrames)) = some (0, 0, true, true, 261) := by
    decide +kernel
  obtain ⟨s, hs, hc⟩ := Option.bind_eq_some_iff.mp hrun
  obtain ⟨c, hc, hres⟩ := Option.map_eq_some_iff.mp hc
  simp only [Prod.mk.injEq] at hres
  obtain ⟨hcontig, hlow, hfirst, hsecond, htotal⟩ := hres
  have hblock : Block (isFree c.pmm) 257 2 := by
    intro i hi hlt
    obtain rfl | rfl : i = 257 ∨ i = 258 := by omega
    · exact hfirst
    · exact hsecond
  refine ⟨s, c, hs, hc, ?_⟩
  rw [htotal]
  exact ⟨⟨257, by decide, by decide, hblock⟩, hcontig, ⟨257, by decide, by decide, hblock⟩, hlow⟩

end TraitOS.Tpmm
