import TraitOS.TpmmInit
import TraitOS.Runs

/-!
# Runs of the frame manager and its clients

The clients are summarised by the list of frame sets handed out to them and not
given back. A run interleaves any calls; the only discipline is that ranges are
reserved when all their frames are free and that frames are given back by
whoever holds them. Frames outside the pool that no client holds stay that way
in every run; the low region, the image and whatever else was used at boot are
instances of this.
-/
namespace TraitOS.Tpmm
open ByteMemory Runs

variable {R : Finset ℕ}

inductive PmmCall where
  | alloc
  | allocLow
  | allocContig (pages : ℕ)
  | allocLowContig (pages : ℕ)
  | free (phys : ℕ)
  | reserveRange (base size : ℕ)
  | releaseRange (base size : ℕ)
  deriving DecidableEq, Repr

/-- One set of frames handed out together, and whether a low allocator did. -/
structure Grant where
  frames : Finset ℕ
  low : Bool

structure Client where
  pmm : Pmm
  grants : List Grant

namespace Client

def Holds (c : Client) (f : ℕ) : Prop := ∃ g ∈ c.grants, f ∈ g.frames

instance (c : Client) (f : ℕ) : Decidable (c.Holds f) :=
  inferInstanceAs (Decidable (∃ g ∈ c.grants, f ∈ g.frames))

/-- Record the result of an allocation of `n` frames. -/
def grant (c : Client) (r : Pmm × ℕ) (n : ℕ) (low : Bool) : Client where
  pmm := r.1
  grants := if r.2 = 0 then c.grants else ⟨grantFrames r.2 n, low⟩ :: c.grants

/-- Forget frames that were given back. -/
def drop (c : Client) (pmm : Pmm) (F : Finset ℕ) : Client where
  pmm := pmm
  grants := c.grants.map (fun g => { g with frames := g.frames \ F })

end Client

/-- The frames of a byte range: from the one of its first byte to its end. -/
def rangeFrames (base size : ℕ) : Finset ℕ :=
  Finset.Ico (base / pageSize) ((base + size + (pageSize - 1)) / pageSize)

/-- One call, with the discipline of its caller. -/
def clientStep (c : Client) : PmmCall → Option Client
  | .alloc => some (c.grant (tpmmAlloc c.pmm) 1 false)
  | .allocLow => some (c.grant (tpmmAllocLow c.pmm) 1 true)
  | .allocContig pages => some (c.grant (tpmmAllocContig c.pmm pages) pages false)
  | .allocLowContig pages => some (c.grant (tpmmAllocLowContig c.pmm pages) pages true)
  | .free phys =>
    if c.Holds (phys / pageSize) then some (c.drop (tpmmFree c.pmm phys) {phys / pageSize})
    else none
  | .reserveRange base size =>
    if base < 2 ^ 64 ∧ rangeFrames base size ⊆ freeSet c.pmm then
      some ⟨tpmmReserveRange c.pmm base size, ⟨rangeFrames base size, false⟩ :: c.grants⟩
    else none
  | .releaseRange base size =>
    if base < 2 ^ 64 ∧ ∀ f ∈ rangeFrames base size, c.Holds f then
      some (c.drop (tpmmReleaseRange c.pmm base size) (rangeFrames base size))
    else none

/-- What holds in every state of a run: a valid manager, handed-out frames that
are used and pairwise separate, and a set `R` of used frames that no client
holds. -/
structure ClientInv (R : Finset ℕ) (c : Client) : Prop where
  valid : Valid c.pmm
  managed : ∀ f, c.Holds f → f < c.pmm.totalFrames ∧ f ∉ freeSet c.pmm
  disjoint : c.grants.Pairwise (fun g h => Disjoint g.frames h.frames)
  low : ∀ g ∈ c.grants, g.low = true → ∀ f ∈ g.frames, f < lowFrames
  kept : ∀ f ∈ R, f ∉ freeSet c.pmm ∧ ¬ c.Holds f

lemma holds_drop (c : Client) (pmm : Pmm) (F : Finset ℕ) (f : ℕ) :
    (c.drop pmm F).Holds f ↔ c.Holds f ∧ f ∉ F := by
  simp only [Client.Holds, Client.drop, List.mem_map, exists_exists_and_eq_and, Finset.mem_sdiff]
  constructor
  · rintro ⟨g, hg, hf, hF⟩
    exact ⟨⟨g, hg, hf⟩, hF⟩
  · rintro ⟨⟨g, hg, hf⟩, hF⟩
    exact ⟨g, hg, hf, hF⟩

/-- Handing out free frames keeps the invariant. Both successful allocations and
reservations go through this. -/
lemma inv_handOut {R F : Finset ℕ} {c : Client} {pmm : Pmm} {low : Bool} (hi : ClientInv R c)
    (hv : Valid pmm) (htotal : pmm.totalFrames = c.pmm.totalFrames) (hfree : F ⊆ freeSet c.pmm)
    (hset : freeSet pmm = freeSet c.pmm \ F) (hlow : low = true → ∀ f ∈ F, f < lowFrames) :
    ClientInv R ⟨pmm, ⟨F, low⟩ :: c.grants⟩ := by
  have hcons (f : ℕ) : (⟨pmm, ⟨F, low⟩ :: c.grants⟩ : Client).Holds f ↔ f ∈ F ∨ c.Holds f := by
    simp [Client.Holds]
  refine ⟨hv, ?_, ?_, ?_, ?_⟩
  · intro f hf
    dsimp only
    rw [htotal, hset, Finset.mem_sdiff]
    rcases (hcons f).mp hf with hF | hold
    · exact ⟨((mem_freeSet _ f).mp (hfree hF)).1, fun h => h.2 hF⟩
    · exact ⟨(hi.managed f hold).1, fun h => (hi.managed f hold).2 h.1⟩
  · refine List.pairwise_cons.mpr ⟨?_, hi.disjoint⟩
    intro g hg
    rw [Finset.disjoint_left]
    intro f hF hfg
    exact (hi.managed f ⟨g, hg, hfg⟩).2 (hfree hF)
  · intro g hg hglow f hf
    rcases List.mem_cons.mp hg with rfl | hg
    · exact hlow hglow f hf
    · exact hi.low g hg hglow f hf
  · intro f hf
    obtain ⟨hnot, hno⟩ := hi.kept f hf
    refine ⟨fun h => hnot ?_, fun h => ?_⟩
    · dsimp only at h
      rw [hset] at h
      exact (Finset.mem_sdiff.mp h).1
    · rcases (hcons f).mp h with hF | hold
      · exact hnot (hfree hF)
      · exact hno hold

lemma inv_grant {c : Client} {r : Pmm × ℕ} {n : ℕ} {low : Bool} (hi : ClientInv R c)
    (h : AllocSpec c.pmm r n) (hlow : low = true → BelowGiB r n) :
    ClientInv R (c.grant r n low) := by
  unfold Client.grant
  by_cases h0 : r.2 = 0
  · rw [if_pos h0, h.refused hi.valid h0]
    exact hi
  · rw [if_neg h0]
    obtain ⟨halign, hn, hfree, hset⟩ := h.granted hi.valid h0
    apply inv_handOut hi (h.valid hi.valid) h.totalFrames hfree hset
    intro hl f hf
    have hb := (hlow hl).resolve_left h0
    have hf2 := (Finset.mem_Ico.mp hf).2
    unfold pageSize at *
    omega

/-- Giving back held frames keeps the invariant. -/
lemma inv_giveBack {R F : Finset ℕ} {c : Client} {pmm : Pmm} (hi : ClientInv R c) (hv : Valid pmm)
    (htotal : pmm.totalFrames = c.pmm.totalFrames) (hheld : ∀ f ∈ F, c.Holds f)
    (hset : freeSet pmm = freeSet c.pmm ∪ F) : ClientInv R (c.drop pmm F) := by
  refine ⟨hv, ?_, ?_, ?_, ?_⟩
  · intro f hf
    obtain ⟨hold, hF⟩ := (holds_drop c pmm F f).mp hf
    change f < pmm.totalFrames ∧ f ∉ freeSet pmm
    rw [htotal, hset, Finset.mem_union, not_or]
    exact ⟨(hi.managed f hold).1, (hi.managed f hold).2, hF⟩
  · refine List.Pairwise.map _ ?_ hi.disjoint
    intro g h hgh
    exact Finset.disjoint_of_subset_left Finset.sdiff_subset
      (Finset.disjoint_of_subset_right Finset.sdiff_subset hgh)
  · intro g hg hglow f hf
    obtain ⟨g', hg', rfl⟩ := List.mem_map.mp hg
    exact hi.low g' hg' hglow f (Finset.mem_sdiff.mp hf).1
  · intro f hf
    obtain ⟨hnot, hno⟩ := hi.kept f hf
    refine ⟨?_, fun h => hno ((holds_drop c pmm F f).mp h).1⟩
    change f ∉ freeSet pmm
    rw [hset, Finset.mem_union, not_or]
    exact ⟨hnot, fun hF => hno (hheld f hF)⟩

/-- On ranges made of managed frames the loop of the source visits exactly the
frames of the range. -/
lemma regionFrames_eq_rangeFrames {s : Pmm} (hc : Counted s) {base size : ℕ} (hbase : base < 2 ^ 64)
    (hin : ∀ f ∈ rangeFrames base size, f < s.totalFrames) :
    regionFrames base size = rangeFrames base size := by
  have htotal := hc.total_le
  unfold pmmMaxFrames pmmMaxAddr pageSize at htotal
  by_cases hempty : (base + size + (pageSize - 1)) / pageSize ≤ base / pageSize
  · have hrange : rangeFrames base size = ∅ := Finset.Ico_eq_empty (by omega)
    have hregion : regionPages base size = [] := by
      unfold regionPages pageSize at *
      simp only [List.map_eq_nil_iff, List.range_eq_nil]
      omega
    rw [hrange, regionFrames, hregion]
    rfl
  · have hlast : (base + size + (pageSize - 1)) / pageSize - 1 ∈ rangeFrames base size :=
      Finset.mem_Ico.mpr ⟨Nat.le_sub_one_of_lt (not_le.mp hempty),
        Nat.sub_lt (Nat.zero_lt_of_lt (not_le.mp hempty)) one_pos⟩
    have hlt := hin _ hlast
    have hle : base + size ≤ pmmMaxAddr := by unfold pmmMaxAddr pageSize at *; omega
    ext f
    rw [mem_regionFrames hle, rangeFrames, Finset.mem_Ico]
    unfold pageSize
    omega

lemma zero_not_held {c : Client} (hi : ClientInv R c) (h0 : 0 ∈ R) : ¬ c.Holds 0 := (hi.kept 0 h0).2

/-- Every call preserves the invariant, provided frame zero is among the frames
no client holds. -/
theorem clientStep_inv (h0 : 0 ∈ R) (c : Client) (call : PmmCall) (c' : Client) (hi : ClientInv R c)
    (h : clientStep c call = some c') : ClientInv R c' := by
  have hv := hi.valid
  cases call with
  | alloc =>
    cases h
    exact inv_grant hi (tpmmAlloc_spec hv) (by simp)
  | allocLow =>
    cases h
    exact inv_grant hi (tpmmAllocLow_spec hv).1 (fun _ => (tpmmAllocLow_spec hv).2)
  | allocContig pages =>
    cases h
    exact inv_grant hi (tpmmAllocContig_spec hv pages) (by simp)
  | allocLowContig pages =>
    cases h
    exact inv_grant hi (tpmmAllocLowContig_spec hv pages).1
      (fun _ => (tpmmAllocLowContig_spec hv pages).2)
  | free phys =>
    simp only [clientStep] at h
    split_ifs at h with hold
    cases h
    have hlt := (hi.managed _ hold).1
    have hmax := hv.total_le
    have hframe : frameOf phys = phys / pageSize := by
      unfold frameOf
      unfold pmmMaxFrames pmmMaxAddr pageSize at *
      omega
    have hne : phys / pageSize ≠ 0 := fun he => zero_not_held hi h0 (he ▸ hold)
    obtain ⟨hv', hset, htotal⟩ := tpmmFree_spec hv (by rw [hframe]; exact hlt)
      (by rw [hframe]; exact hne)
    apply inv_giveBack hi hv' htotal
    · intro f hf
      exact Finset.mem_singleton.mp hf ▸ hold
    · rw [hset, hframe, Finset.insert_eq, Finset.union_comm]
  | reserveRange base size =>
    simp only [clientStep] at h
    split_ifs at h with hok
    cases h
    obtain ⟨hbase, hfree⟩ := hok
    have hregion := regionFrames_eq_rangeFrames hv.toCounted hbase
      (fun f hf => ((mem_freeSet _ f).mp (hfree hf)).1)
    obtain ⟨hc, hset, htotal⟩ := reserveRegion_spec hv.toCounted base size
    rw [hregion] at hset
    have hv' : Valid (reserveRegion c.pmm base size) :=
      ⟨hc, by rw [hset]; exact fun h => hv.zero_used (Finset.mem_sdiff.mp h).1⟩
    exact inv_handOut hi hv' htotal hfree hset (by simp)
  | releaseRange base size =>
    simp only [clientStep] at h
    split_ifs at h with hok
    cases h
    obtain ⟨hbase, hheld⟩ := hok
    have hin (f : ℕ) (hf : f ∈ rangeFrames base size) := (hi.managed f (hheld f hf)).1
    have hregion := regionFrames_eq_rangeFrames hv.toCounted hbase hin
    obtain ⟨hc, hset, htotal⟩ := tpmmReleaseRange_spec hv.toCounted
      (by rw [hregion]; exact hin)
    rw [hregion] at hset
    have hv' : Valid (tpmmReleaseRange c.pmm base size) := by
      refine ⟨hc, ?_⟩
      rw [hset, Finset.mem_union, not_or]
      exact ⟨hv.zero_used, fun h => zero_not_held hi h0 (hheld 0 h)⟩
    exact inv_giveBack hi hv' htotal hheld hset

lemma clientInv_initial {s : Pmm} (hv : Valid s) (hR : ∀ f ∈ R, f ∉ freeSet s) :
    ClientInv R ⟨s, []⟩ := by
  refine ⟨hv, ?_, List.Pairwise.nil, by simp, ?_⟩
  · rintro f ⟨g, hg, -⟩
    simp at hg
  · intro f hf
    exact ⟨hR f hf, by simp [Client.Holds]⟩

/-- In every run after boot, frames that were not free at boot are neither free
nor held by a client. -/
theorem run_inv {m : Memory} {mbi : ℕ} {image : KernelImage} {s : Pmm}
    (hinit : tpmmInit m mbi image = some s) (hR : ∀ f ∈ R, f ∉ freeSet s) (calls : List PmmCall)
    {c : Client} (hrun : exec clientStep ⟨s, []⟩ calls = some c) : ClientInv (insert 0 R) c := by
  have hv := (tpmmInit_spec hinit).1
  refine exec_invariant (clientStep_inv (Finset.mem_insert_self 0 R)) calls ?_ hrun
  apply clientInv_initial hv
  intro f hf
  rcases Finset.mem_insert.mp hf with rfl | hf
  · exact hv.zero_used
  · exact hR f hf

/-- The contract of the manager towards its clients, in byte addresses where the
source speaks of addresses. -/
structure Contract (image : KernelImage) (c : Client) : Prop where
  counter : c.pmm.freeFrames =
    ((Finset.range c.pmm.totalFrames).filter (fun f => bitTest c.pmm.bitmap f = false)).card
  above : ∀ f, c.pmm.totalFrames ≤ f → f < pmmMaxFrames → bitTest c.pmm.bitmap f = true
  disjoint : c.grants.Pairwise (fun g h => Disjoint g.frames h.frames)
  reserved : ∀ g ∈ c.grants, ∀ f ∈ g.frames, 0x100000 ≤ f * pageSize ∧
    ((f + 1) * pageSize ≤ kernelPhysStart ∨ image.physEnd ≤ f * pageSize)
  low : ∀ g ∈ c.grants, g.low = true → ∀ f ∈ g.frames, (f + 1) * pageSize ≤ 0x40000000

/-- The frame manager keeps its contract in every run that follows a successful
initialisation. -/
theorem tpmm_run_contract (m : Memory) (mbi : ℕ) (image : KernelImage) (s : Pmm)
    (hinit : tpmmInit m mbi image = some s) (calls : List PmmCall) (c : Client)
    (hrun : exec clientStep ⟨s, []⟩ calls = some c) : Contract image c := by
  have hi := run_inv (R := bootReserved image) hinit
    (fun f hf h => (((tpmmInit_spec hinit).2 f).mp h).2 hf) calls hrun
  refine ⟨?_, hi.valid.above_used, hi.disjoint, ?_, ?_⟩
  · exact hi.valid.free_eq
  · intro g hg f hf
    have hnot : f ∉ bootReserved image := by
      intro hmem
      exact (hi.kept f (Finset.mem_insert_of_mem hmem)).2 ⟨g, hg, hf⟩
    rw [mem_bootReserved] at hnot
    unfold kernelPhysStart pageSize at *
    omega
  · intro g hg hlow f hf
    have := hi.low g hg hlow f hf
    unfold lowFrames pageSize at *
    omega

/-- A block at `0x8000` whose only tag is a memory map with one available entry,
the three frames from 2 MiB. -/
def sampleMemory : Memory :=
  let m := storeLE (fun _ => 0) 0x8000 4 56
  let m := storeLE (storeLE (storeLE m 0x8008 4 6) 0x800C 4 40) 0x8010 4 24
  let m := storeLE (storeLE m 0x8018 8 0x200000) 0x8020 8 0x3000
  storeLE (storeLE m 0x8028 4 1) 0x8034 4 8

def sampleImage : KernelImage := ⟨0x180000, by decide, by decide⟩

theorem tpmm_run_contract_sample :
    ∃ s c, tpmmInit sampleMemory 0x8000 sampleImage = some s ∧
      exec clientStep ⟨s, []⟩ [.allocLow, .allocContig 2] = some c ∧ Contract sampleImage c := by
  have hsome : (tpmmInit sampleMemory 0x8000 sampleImage).isSome = true := by decide
  obtain ⟨s, hs⟩ := Option.isSome_iff_exists.mp hsome
  exact ⟨s, _, hs, rfl, tpmm_run_contract sampleMemory 0x8000 sampleImage s hs
    [.allocLow, .allocContig 2] _ rfl⟩

end TraitOS.Tpmm
