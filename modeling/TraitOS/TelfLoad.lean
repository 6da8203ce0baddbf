import TraitOS.Telf
import TraitOS.TvmmLeaf

/-!
# Loading an executable

`telf_load` gives each segment of the plan a run of frames below 1 GiB, maps it with the
permissions of the segment, and fills it through the window. A page that is mapped this way
belongs to a region: consecutive pages over consecutive frames, with the bytes that were
written into them.
-/
namespace TraitOS.Telf
open ByteMemory PageTable Tpmm Tstring Tvmm

variable {s s' : Vmm} {R : Region} {blob : Memory} {seg : TelfSegment}

/-! ## The loader -/

/-- The forward loop of `tmemcpy` from the file, after `n` bytes. -/
def tmemcpyFrom (m : Memory) (dst : ℕ) (blob : Memory) (src : ℕ) : ℕ → Memory
  | 0 => m
  | n + 1 => Function.update (tmemcpyFrom m dst blob src n) (dst + n) (blob (src + n))

/-- The bytes of a segment, copied to the start of its frames. -/
def fillSegment (m : Memory) (phys : ℕ) (blob : Memory) (s : TelfSegment) : Memory :=
  let m := tmemcpyFrom m phys blob s.offset s.filesz
  if s.filesz < s.memsz then tmemset m (phys + s.filesz) 0 (s.memsz - s.filesz) else m

def segmentFlags (s : TelfSegment) : ℕ :=
  pageUser ||| (if s.prot / 2 % 2 = 1 then pageWrite else 0) ||| (if s.prot / 4 % 2 = 1 then 0
    else pageNx)

/-- The loop that looks for a page that is mapped already. -/
def anyMapped (s : Vmm) (as first pages : ℕ) : Bool :=
  (List.range pages).any fun p => (vmmAspacePhys s as ((first + p * 4096) % 2 ^ 64)).isSome

/-- The loop that maps consecutive pages; it stops at the first failure. -/
def mapRange (s : Vmm) (as first phys flags : ℕ) : ℕ → Vmm × Bool
  | 0 => (s, true)
  | n + 1 =>
    let r := mapRange s as first phys flags n
    if r.2 then vmmAspaceMap r.1 as ((first + n * 4096) % 2 ^ 64) ((phys + n * 4096) % 2 ^ 64) flags
      else r

def setPmm (s : Vmm) (pmm : Pmm) : Vmm := setVm s { s.heap.vm with pmm := pmm }

def setMem (s : Vmm) (m : Memory) : Vmm := setVm s { s.heap.vm with mem := m }

/-- One turn of the loop over the segments. -/
def loadSegment (s : Vmm) (as : ℕ) (blob : Memory) (seg : TelfSegment) :
    Vmm × Except TelfError Unit :=
  if seg.vaddr < userBase ∨ userEnd < (seg.vaddr + seg.memsz) % 2 ^ 64 then (s, .error .range)
  else if anyMapped s as (firstPage seg) (segmentPages seg) then (s, .error .range)
  else
    let r := tpmmAllocLowContig s.heap.vm.pmm (segmentPages seg)
    let s := setPmm s r.1
    if r.2 = 0 then (s, .error .range)
    else
      let q := mapRange s as (firstPage seg) r.2 (segmentFlags seg) (segmentPages seg)
      if q.2 then (setMem q.1 (fillSegment q.1.heap.vm.mem r.2 blob seg), .ok ())
        else (q.1, .error .range)

def loadSegments (s : Vmm) (as : ℕ) (blob : Memory) : List TelfSegment → Vmm × Except TelfError Unit
  | [] => (s, .ok ())
  | seg :: segs =>
    match loadSegment s as blob seg with
    | (s, .ok _) => loadSegments s as blob segs
    | (s, .error e) => (s, .error e)

def telfLoad (s : Vmm) (as : ℕ) (blob : Memory) (size : ℕ) : Vmm × Except TelfError TelfPlan :=
  match telfParse blob size with
  | .error e => (s, .error e)
  | .ok plan =>
    match loadSegments s as blob plan.segs with
    | (s, .ok _) => (s, .ok plan)
    | (s, .error e) => (s, .error e)

/-! ## Runs of pages -/

/-- `mapRange` on the tables alone. -/
def mapRun (p : Paging) (root first phys flags : ℕ) : ℕ → Paging × Bool
  | 0 => (p, true)
  | n + 1 =>
    let r := mapRun p root first phys flags n
    if r.2 then mapPage r.1 root (first + n * 4096) (phys + n * 4096) flags else r

lemma kernelSlot_user {v : ℕ} (hlo : userBase ≤ v) (hhi : v < userEnd) : kernelSlot (pml4Index v) =
    false := by
  have h1 : pml4Index v = 1 := by
    unfold pml4Index
    rw [index_eq]
    unfold userBase at hlo
    unfold userEnd at hhi
    omega
  rw [h1]
  decide

lemma vmmAspaceMap_user (s : Vmm) (p : Paging) (as phys flags : ℕ) {virt : ℕ}
    (hk : kernelSlot (pml4Index virt) = false) :
    vmmAspaceMap (setVm s p) as virt phys flags =
      (setVm s (mapPage p (rootOf s as) virt phys flags).1,
        (mapPage p (rootOf s as) virt phys flags).2) := by
  unfold vmmAspaceMap
  rw [hk, if_neg Bool.false_ne_true, rootOf_setVm]
  rfl

/-- The addresses of a run of pages in the user region. -/
lemma page_in_user {first n k : ℕ} (hlo : userBase ≤ first) (hhi : first + n * 4096 ≤ userEnd)
    (hk : k < n) :
    userBase ≤ first + k * 4096 ∧ first + k * 4096 < userEnd ∧ first + k * 4096 < 2 ^ 64 := by
  have hend : userEnd ≤ 2 ^ 64 := by decide
  omega

lemma mapRun_succ {p p' : Paging} {root first phys flags n : ℕ} {done : Bool}
    (h : mapRun p root first phys flags n = (p', done)) :
    mapRun p root first phys flags (n + 1) =
      if done then mapPage p' root (first + n * 4096) (phys + n * 4096) flags else (p', done) := by
  rw [mapRun, h]

lemma mapRange_eq (s : Vmm) (p : Paging) (as flags : ℕ) {first phys : ℕ} (n : ℕ)
    (hlo : userBase ≤ first) (hhi : first + n * 4096 ≤ userEnd) (hphys : phys + n * 4096 ≤ 2 ^ 64) :
    mapRange (setVm s p) as first phys flags n =
      (setVm s (mapRun p (rootOf s as) first phys flags n).1,
        (mapRun p (rootOf s as) first phys flags n).2) := by
  induction n with
  | zero => rfl
  | succ n ih =>
    have hih := ih (by linarith) (by linarith)
    obtain ⟨h1, h2, h3⟩ := page_in_user hlo hhi n.lt_succ_self
    have h4 : phys + n * 4096 < 2 ^ 64 := by linarith
    obtain ⟨⟨p', done⟩, hrun⟩ : ∃ q, mapRun p (rootOf s as) first phys flags n = q := ⟨_, rfl⟩
    rw [hrun] at hih
    rw [mapRange, hih, mapRun_succ hrun, Nat.mod_eq_of_lt h3, Nat.mod_eq_of_lt h4]
    cases done with
    | false => rw [if_neg Bool.false_ne_true, if_neg Bool.false_ne_true]
    | true => rw [if_pos rfl, if_pos rfl, vmmAspaceMap_user s _ as _ flags (kernelSlot_user h1 h2)]

/-- The leaves of consecutive pages over consecutive frames. -/
def rangeLeaf (first phys flags n v : ℕ) : Option ℕ :=
  if first / 4096 ≤ pageOf v ∧ pageOf v < first / 4096 + n then
    some (leafEntry (phys + (pageOf v - first / 4096) * 4096) flags)
  else none

lemma pageOf_add {first n : ℕ} (hal : first % 4096 = 0) (hhi : first + n * 4096 < userEnd) :
    pageOf (first + n * 4096) = first / 4096 + n := by
  unfold pageOf
  unfold userEnd at hhi
  omega

lemma rangeLeaf_succ {first n : ℕ} (phys flags v : ℕ) (hal : first % 4096 = 0)
    (hhi : first + n * 4096 < userEnd) :
    rangeLeaf first phys flags (n + 1) v =
      (pageLeaf (first + n * 4096) (phys + n * 4096) flags v).or (rangeLeaf first phys flags n v) :=
        by
  unfold rangeLeaf pageLeaf
  rw [pageOf_add hal hhi]
  by_cases hv : pageOf v = first / 4096 + n
  · rw [if_pos hv, if_pos (by omega), Option.some_or, hv, Nat.add_sub_cancel_left]
  · rw [if_neg hv, Option.none_or]
    exact if_congr (by omega) rfl rfl

section Runs
variable {lay : Layout} {tree r : ℕ} {p : Paging} {use : ℕ → Use}

theorem mapRun_maps (ht : Tables lay p use) (hpages : ¬ lay.pages) (hr : use r = .node tree [])
    (hu : ¬ tree < pmmMaxFrames) {first flags : ℕ} (phys n : ℕ) (hal : first % 4096 = 0)
    (hlo : userBase ≤ first) (hhi : first + n * 4096 ≤ userEnd) (hflags : flags < 2 ^ 64) :
    ∃ p' use' done, Maps lay tree r (rangeLeaf first phys flags n)
      (fun p => mapRun p (r * frameBytes) first phys flags n) p p' use use' done := by
  induction n with
  | zero =>
    have hnone : rangeLeaf first phys flags 0 = fun _ => none := by
      funext v
      exact if_neg (by omega)
    rw [hnone]
    exact ⟨p, use, true, Maps.refl ht⟩
  | succ n ih =>
    obtain ⟨p₁, use₁, done, h⟩ := ih (by linarith)
    obtain ⟨h1, h2, _⟩ := page_in_user hlo hhi n.lt_succ_self
    have hsucc : rangeLeaf first phys flags (n + 1) = fun v =>
        (pageLeaf (first + n * 4096) (phys + n * 4096) flags v).or (rangeLeaf first phys flags n
          v) := by
      funext v
      exact rangeLeaf_succ phys flags v hal h2
    rw [hsucc]
    exact h.seq fun _ =>
      mapPage_maps h.tables hpages _ ((h.grown.keep r (ne_idle_of_node hr)).trans hr) hu
      (kernelSlot_user h1 h2) hflags

end Runs

/-! ## Regions -/

/-- Consecutive pages over consecutive frames, and the bytes written into the frames, by
their offset; a byte that was not written is as it was. -/
structure Region where
  first : ℕ
  phys : ℕ
  pages : ℕ
  flags : ℕ
  data : ℕ → Option UInt8

namespace Region

def frames (R : Region) : Finset ℕ := grantFrames R.phys R.pages

def leaf (R : Region) (v : ℕ) : Option ℕ := rangeLeaf R.first R.phys R.flags R.pages v

/-- The byte at an offset, over an earlier memory. -/
def byte (R : Region) (m₀ : Memory) (j : ℕ) : UInt8 := (R.data j).getD (m₀ (R.phys + j))

/-- A region of user pages that can be mapped: it lies in the user region, over frames of
the pool below 1 GiB. -/
structure Fits (R : Region) (F : Finset ℕ) : Prop where
  first_aligned : R.first % 4096 = 0
  phys_aligned : R.phys % 4096 = 0
  lower : userBase ≤ R.first
  upper : R.first + R.pages * 4096 ≤ userEnd
  nonzero : R.phys ≠ 0
  low : R.phys + R.pages * 4096 ≤ 2 ^ 30
  flags_lt : R.flags < 2 ^ 64
  flags_target : target R.flags = 0
  flags_user : hasBits (R.flags ||| pagePresent) (needBits false) = true
  taken : R.frames ⊆ F

/-- How a memory gets the bytes of a region. -/
structure Writes (R : Region) (write : Memory → Memory) : Prop where
  inside : ∀ m, ∀ j < R.pages * 4096, write m (R.phys + j) = (R.data j).getD (m (R.phys + j))
  outside : ∀ m x, x / frameBytes ∉ R.frames → write m x = m x

lemma mem_frames (R : Region) (f : ℕ) : f ∈ R.frames ↔ R.phys / 4096 ≤ f ∧
    f < R.phys / 4096 + R.pages :=
  Finset.mem_Ico

lemma frame_of_offset (hal : R.phys % 4096 = 0) {j : ℕ} (hj : j < R.pages * 4096) :
    (R.phys + j) / frameBytes ∈ R.frames := by
  rw [mem_frames]
  unfold frameBytes
  omega

end Region

/-- The tables of a space with regions mapped, the last one first: what leaves it has, and
that the regions are out of the pool `F` it all came from. -/
structure Loaded (lay : Layout) (tree r : ℕ) (F : Finset ℕ) (leaf₀ : ℕ → ℕ) (p : Paging) (use : ℕ →
    Use)
    (rs : List Region) : Prop where
  tables : Tables lay p use
  root : use r = .node tree []
  leaves : ∀ v, leafOf p.mem (r * frameBytes) v = (rs.findSome? (·.leaf v)).getD (leaf₀ v)
  fits : ∀ R ∈ rs, R.Fits F
  held : ∀ R ∈ rs, ∀ f ∈ R.frames, use f = .spare
  pool : freeSet p.pmm ⊆ F

/-- A memory holds the bytes of the regions; what is free is as it was. -/
structure Filled (s : Pmm) (rs : List Region) (m₀ m : Memory) : Prop where
  content : ∀ R ∈ rs, ∀ j < R.pages * 4096, m (R.phys + j) = R.byte m₀ j
  stale : ∀ x, x / frameBytes ∈ freeSet s → m x = m₀ x

section Loaded
variable {lay : Layout} {tree r : ℕ} {F : Finset ℕ} {leaf₀ : ℕ → ℕ} {p : Paging} {use : ℕ → Use}
  {rs : List Region}
  {write : Memory → Memory}

lemma not_isTable_spare {u : Use} (h : u = .spare) : ¬ IsTable u := by
  rintro ⟨_, _, hnode, _⟩
  exact Use.noConfusion (h.symm.trans hnode)

lemma not_isTable_idle {u : Use} (h : u = .idle) : ¬ IsTable u := by
  rintro ⟨_, _, hnode, _⟩
  exact Use.noConfusion (h.symm.trans hnode)

/-- The bytes of a further region, over frames that were free. -/
lemma Filled.add {s s' : Pmm} {m₀ m m₂ : Memory} (hf : Filled s rs m₀ m)
    (hal : ∀ R' ∈ R :: rs, R'.phys % 4096 = 0) (hw : R.Writes write) (hdata : KeepsData use m m₂)
    (hold : ∀ R' ∈ rs, ∀ f ∈ R'.frames, f ∉ R.frames ∧ ¬ IsTable (use f))
    (hnew : ∀ f ∈ R.frames, f ∈ freeSet s ∧ ¬ IsTable (use f))
    (hpool : ∀ f ∈ freeSet s', f ∈ freeSet s ∧ f ∉ R.frames ∧ ¬ IsTable (use f)) :
    Filled s' (R :: rs) m₀ (write m₂) where
  content := by
    intro R' hR' j hj
    have hframe := Region.frame_of_offset (hal R' hR') hj
    rcases List.mem_cons.mp hR' with rfl | hin
    · obtain ⟨hfree, htable⟩ := hnew _ hframe
      rw [hw.inside m₂ j hj, hdata _ htable, hf.stale _ hfree, Region.byte]
    · obtain ⟨hout, htable⟩ := hold R' hin _ hframe
      rw [hw.outside m₂ _ hout, hdata _ htable, hf.content R' hin j hj]
  stale := by
    intro x hx
    obtain ⟨hfree, hout, htable⟩ := hpool _ hx
    rw [hw.outside m₂ _ hout, hdata _ htable, hf.stale x hfree]

/-- A further region: its frames are taken from the pool, its pages mapped and its bytes
written. A twin of the state does all this in the same way. -/
theorem Loaded.add (h : Loaded lay tree r F leaf₀ p use rs) (hpages : ¬ lay.pages)
    (hu : ¬ tree < pmmMaxFrames) (hR : R.Fits F) {pmm : Pmm}
    (halloc : tpmmAllocLowContig p.pmm R.pages = (pmm, R.phys)) (h0 : R.phys ≠ 0) {p₂ : Paging}
    (hmap : mapRun ⟨p.mem, pmm⟩ (r * frameBytes) R.first R.phys R.flags R.pages = (p₂, true))
    (hw : R.Writes write) :
    ∃ use', Loaded lay tree r F leaf₀ ⟨write p₂.mem, p₂.pmm⟩ use' (R :: rs) ∧
      ∀ m, Twin use p m → ∃ m₂,
        mapRun ⟨m, pmm⟩ (r * frameBytes) R.first R.phys R.flags R.pages = (⟨m₂, p₂.pmm⟩, true) ∧
        Twin use' ⟨write p₂.mem, p₂.pmm⟩ (write m₂) ∧
        ∀ m₀, Filled p.pmm rs m₀ m → Filled p₂.pmm (R :: rs) m₀ (write m₂) := by
  have hspec := (tpmmAllocLowContig_spec h.tables.valid R.pages).1
  rw [halloc] at hspec
  obtain ⟨hsub, hset⟩ : R.frames ⊆ freeSet p.pmm ∧ freeSet pmm = freeSet p.pmm \ R.frames :=
    (hspec.granted h.tables.valid h0).2.2
  have hidle : ∀ f ∈ R.frames, use f = .idle := fun f hf => h.tables.idle_of_free (hsub hf)
  -- the frames are set aside
  obtain ⟨use₁, huse₁⟩ : ∃ use₁, setAside use R.frames = use₁ := ⟨_, rfl⟩
  have ht₁ : Tables lay ⟨p.mem, pmm⟩ use₁ := huse₁ ▸ h.tables.setAside hspec h0
  have hnode₁ : ∀ f t q, use₁ f = .node t q ↔ use f = .node t q := huse₁ ▸ setAside_node hidle
  have hin₁ : ∀ f ∈ R.frames, use₁ f = .spare := fun f hf => huse₁ ▸ if_pos hf
  have hout₁ : ∀ f ∉ R.frames, use₁ f = use f := fun f hf => huse₁ ▸ if_neg hf
  -- the pages are mapped
  obtain ⟨p₂', use₂, done, hm⟩ :=
    mapRun_maps ht₁ hpages ((hnode₁ r tree []).mpr h.root) hu R.phys R.pages
    hR.first_aligned hR.lower hR.upper hR.flags_lt
  obtain ⟨rfl, rfl⟩ := Prod.mk.inj (hm.eq.symm.trans hmap)
  have hkeep₂ : ∀ f, use₁ f = .spare → use₂ f = .spare := fun f hf => by
    rw [hm.grown.keep f (by rw [hf]; exact Use.noConfusion), hf]
  have hold : ∀ R' ∈ rs, ∀ f ∈ R'.frames, f ∉ R.frames ∧ use₂ f = .spare := by
    intro R' hR' f hf
    have hspare := h.held R' hR' f hf
    have hout : f ∉ R.frames := fun hin => Use.noConfusion ((hidle f hin).symm.trans hspare)
    exact ⟨hout, hkeep₂ f ((hout₁ f hout).trans hspare)⟩
  have hpool : ∀ f ∈ freeSet p₂'.pmm, f ∈ freeSet p.pmm ∧ f ∉ R.frames ∧ use₂ f = .idle := by
    intro f hf
    obtain ⟨hmem, hidle₂⟩ := (hm.grown.pool f).mp hf
    exact ⟨(Finset.mem_sdiff.mp (hset ▸ hmem)).1, (Finset.mem_sdiff.mp (hset ▸ hmem)).2, hidle₂⟩
  -- no table is in the region, so the bytes change no leaf
  have htwin : ∀ m m' : Memory, (∀ x, IsTable (use₂ (x / frameBytes)) → m' x = m x) →
      ∀ x, IsTable (use₂ (x / frameBytes)) → write m' x = write m x := by
    intro m m' hmm x hx
    have hout : x / frameBytes ∉ R.frames := fun hin => not_isTable_spare (hkeep₂ _ (hin₁ _ hin)) hx
    rw [hw.outside m' x hout, hw.outside m x hout, hmm x hx]
  have hself : Twin use₂ p₂' (write p₂'.mem) := by
    intro x hx
    exact hw.outside _ x fun hin => not_isTable_spare (hkeep₂ _ (hin₁ _ hin)) hx
  have hr₂ : use₂ r = .node tree [] :=
    (hm.grown.keep r (ne_idle_of_node ((hnode₁ r tree []).mpr h.root))).trans
      ((hnode₁ r tree []).mpr h.root)
  refine ⟨use₂, ⟨hself.tables hm.tables hpages, hr₂, fun v => ?_, ?_, ?_, ?_⟩, fun m hmt => ?_⟩
  · rw [hself.leafOf hm.tables hpages hr₂ hu, hm.leaves rfl, List.findSome?_cons]
    dsimp only
    rw [h.leaves v]
    change (R.leaf v).getD _ = _
    cases R.leaf v with
    | none => rw [Option.getD_none]
    | some e => rw [Option.getD_some, Option.getD_some]
  · exact List.forall_mem_cons.mpr ⟨hR, h.fits⟩
  · exact List.forall_mem_cons.mpr ⟨fun f hf => hkeep₂ f (hin₁ f hf), fun R' hR' f hf =>
      (hold R' hR' f hf).2⟩
  · exact fun f hf => h.pool (hpool f hf).1
  · have hmt₁ : Twin use₁ ⟨p.mem, pmm⟩ m := fun x ⟨t, q, hx, hlen⟩ =>
      hmt x ⟨t, q, (hnode₁ _ t q).mp hx, hlen⟩
    obtain ⟨m₂, heq, hm₂, hdata⟩ := hm.twin m hmt₁
    refine ⟨m₂, heq, htwin p₂'.mem m₂ hm₂, fun m₀ hf => hf.add ?_ hw hdata ?_ ?_ ?_⟩
    · exact List.forall_mem_cons.mpr ⟨hR.phys_aligned, fun R' hR' => (h.fits R' hR').phys_aligned⟩
    · exact fun R' hR' f hf => ⟨(hold R' hR' f hf).1, not_isTable_spare (hold R' hR' f hf).2⟩
    · exact fun f hf => ⟨hsub hf, not_isTable_spare (hkeep₂ f (hin₁ f hf))⟩
    · exact fun f hf => ⟨(hpool f hf).1, (hpool f hf).2.1, not_isTable_idle (hpool f hf).2.2⟩

end Loaded

/-! ## Segments -/

lemma tmemcpyFrom_apply (m : Memory) (dst : ℕ) (blob : Memory) (src n x : ℕ) :
    tmemcpyFrom m dst blob src n x = if dst ≤ x ∧ x < dst + n then blob (src + (x - dst))
      else m x := by
  induction n with
  | zero => rw [tmemcpyFrom, if_neg (by omega)]
  | succ n ih =>
    rw [tmemcpyFrom, Function.update_apply, ih]
    by_cases hx : x = dst + n
    · rw [if_pos hx, if_pos (by omega), hx, Nat.add_sub_cancel_left]
    · rw [if_neg hx]
      exact if_congr (by omega) rfl rfl

/-- The bytes written for a segment, by their offset. -/
def segmentByte (blob : Memory) (seg : TelfSegment) (j : ℕ) : Option UInt8 :=
  if j < seg.filesz then some (blob (seg.offset + j)) else if j < seg.memsz then some 0 else none

lemma fillSegment_apply (m : Memory) (phys : ℕ) (blob : Memory) (seg : TelfSegment) (x : ℕ) :
    fillSegment m phys blob seg x = if phys ≤ x then (segmentByte blob seg (x - phys)).getD (m x)
      else m x := by
  have hcopy : tmemcpyFrom m phys blob seg.offset seg.filesz x =
      if phys ≤ x ∧ x < phys + seg.filesz then blob (seg.offset + (x - phys)) else m x :=
    tmemcpyFrom_apply m phys blob seg.offset seg.filesz x
  have hset : fillSegment m phys blob seg x =
      if phys + seg.filesz ≤ x ∧ x < phys + seg.memsz then 0
      else tmemcpyFrom m phys blob seg.offset seg.filesz x := by
    unfold fillSegment
    by_cases hlt : seg.filesz < seg.memsz
    · rw [if_pos hlt, tmemset_eq_fill, fill]
      exact if_congr (by omega) rfl rfl
    · rw [if_neg hlt, if_neg (by omega)]
  rw [hset, hcopy]
  unfold segmentByte
  by_cases hx : phys ≤ x
  · by_cases hfile : x - phys < seg.filesz
    · rw [if_neg (by omega), if_pos (by omega), if_pos hx, if_pos hfile, Option.getD_some]
    · rw [if_neg (by omega : ¬ (phys ≤ x ∧ x < phys + seg.filesz)), if_pos hx, if_neg hfile]
      by_cases hmem : x - phys < seg.memsz
      · rw [if_pos (by omega), if_pos hmem, Option.getD_some]
      · rw [if_neg (by omega), if_neg hmem, Option.getD_none]
  · rw [if_neg (by omega), if_neg (by omega), if_neg hx]

/-- The region of a segment whose frames start at `phys`. -/
def segmentRegion (blob : Memory) (seg : TelfSegment) (phys : ℕ) : Region where
  first := firstPage seg
  phys := phys
  pages := segmentPages seg
  flags := segmentFlags seg
  data := segmentByte blob seg

/-- The bytes copied for a segment stay in its frames. -/
def StaysInside (seg : TelfSegment) : Prop := seg.filesz ≤ segmentPages seg * 4096

lemma segmentRegion_writes (blob : Memory) {phys : ℕ} (hal : phys % 4096 = 0)
    (hin : StaysInside seg) (hspace : seg.vaddr + seg.memsz < 2 ^ 64) :
    (segmentRegion blob seg phys).Writes fun m => fillSegment m phys blob seg where
  inside := by
    intro m j _
    change fillSegment m phys blob seg (phys + j) = (segmentByte blob seg j).getD (m (phys + j))
    rw [fillSegment_apply, if_pos (by omega), Nat.add_sub_cancel_left]
  outside := by
    intro m x hx
    have hmem := memsz_le_pages hspace
    unfold StaysInside at hin
    rw [Region.mem_frames] at hx
    change ¬ (phys / 4096 ≤ x / 4096 ∧ x / 4096 < phys / 4096 + segmentPages seg) at hx
    rw [fillSegment_apply]
    by_cases hlo : phys ≤ x
    · have hfar : segmentPages seg * 4096 ≤ x - phys := by omega
      rw [if_pos hlo, segmentByte, if_neg (by omega), if_neg (by omega), Option.getD_none]
    · rw [if_neg hlo]

lemma segmentFlags_spec (seg : TelfSegment) :
    segmentFlags seg < 2 ^ 64 ∧ target (segmentFlags seg) = 0 ∧
      hasBits (segmentFlags seg ||| pagePresent) (needBits false) = true := by
  unfold segmentFlags
  split_ifs <;> decide

/-- The pages of a segment that was granted frames. -/
lemma segmentPages_user (hlo : userBase ≤ seg.vaddr) (hhi : seg.vaddr + seg.memsz ≤ userEnd)
    (hlow : segmentPages seg ≤ 2 ^ 18) :
    firstPage seg % 4096 = 0 ∧ userBase ≤ firstPage seg ∧ firstPage seg + segmentPages seg * 4096 ≤
      userEnd ∧ seg.vaddr + seg.memsz ≤ firstPage seg + segmentPages seg * 4096 ∧
      (0 < seg.memsz → segmentPages seg = (seg.vaddr + seg.memsz - 1) / 4096 - seg.vaddr / 4096 +
        1) := by
  unfold segmentPages firstPage at *
  unfold userBase userEnd at *
  have hlast : (seg.vaddr + seg.memsz + (2 ^ 64 - 1)) % 2 ^ 64 = seg.vaddr + seg.memsz - 1 := by
    omega
  simp only [hlast] at *
  omega

/-- A turn of the loop that goes well, on the tables of the space. -/
structure SegmentRun (s : Vmm) (p : Paging) (as root : ℕ) (seg : TelfSegment) (pmm : Pmm) (phys : ℕ)
    (p₂ : Paging) : Prop where
  lower : userBase ≤ seg.vaddr
  upper : (seg.vaddr + seg.memsz) % 2 ^ 64 ≤ userEnd
  unmapped : anyMapped (setVm s p) as (firstPage seg) (segmentPages seg) = false
  granted : tpmmAllocLowContig p.pmm (segmentPages seg) = (pmm, phys)
  nonzero : phys ≠ 0
  mapped : mapRun ⟨p.mem, pmm⟩ root (firstPage seg) phys (segmentFlags seg) (segmentPages seg) =
    (p₂, true)

section Segment
variable {s s' : Vmm} {p p₂ : Paging} {as phys : ℕ} {blob : Memory} {seg : TelfSegment} {pmm : Pmm}

/-- What a grant below 1 GiB says about a segment. -/
lemma granted_bounds (hv : Valid p.pmm) (hlo : userBase ≤ seg.vaddr)
    (hhi : seg.vaddr + seg.memsz ≤ userEnd)
    (h : tpmmAllocLowContig p.pmm (segmentPages seg) = (pmm, phys)) (h0 : phys ≠ 0) :
    segmentPages seg ≤ 2 ^ 18 ∧ phys % 4096 = 0 ∧ phys + segmentPages seg * 4096 ≤ 2 ^ 30 ∧
      firstPage seg + segmentPages seg * 4096 ≤ userEnd ∧ userBase ≤ firstPage seg := by
  obtain ⟨hspec, hbelow⟩ := tpmmAllocLowContig_spec hv (segmentPages seg)
  rw [h] at hspec hbelow
  have hlow : phys + segmentPages seg * 4096 ≤ 2 ^ 18 * 4096 := hbelow.resolve_left h0
  have hpages : segmentPages seg ≤ 2 ^ 18 := by omega
  obtain ⟨_, hbase, hupper, _⟩ := segmentPages_user hlo hhi hpages
  exact ⟨hpages, (hspec.granted hv h0).1, by omega, hupper, hbase⟩

lemma loadSegment_run (hv : Valid p.pmm) (hspace : seg.vaddr + seg.memsz < 2 ^ 64) :
    loadSegment (setVm s p) as blob seg = (s', .ok ()) ↔
      ∃ pmm phys p₂, SegmentRun s p as (rootOf s as) seg pmm phys p₂ ∧
        s' = setVm s ⟨fillSegment p₂.mem phys blob seg, p₂.pmm⟩ := by
  unfold loadSegment
  by_cases hrange : seg.vaddr < userBase ∨ userEnd < (seg.vaddr + seg.memsz) % 2 ^ 64
  · rw [if_pos hrange]
    refine iff_of_false (fun h => nomatch (Prod.mk.inj h).2) ?_
    rintro ⟨_, _, _, hrun, _⟩
    have := hrun.lower
    have := hrun.upper
    omega
  rw [if_neg hrange]
  push Not at hrange
  by_cases hany : anyMapped (setVm s p) as (firstPage seg) (segmentPages seg) = true
  · rw [if_pos hany]
    refine iff_of_false (fun h => nomatch (Prod.mk.inj h).2) ?_
    rintro ⟨_, _, _, hrun, _⟩
    exact Bool.false_ne_true (hrun.unmapped.symm.trans hany)
  rw [if_neg hany]
  obtain ⟨⟨pmm, phys⟩, hres⟩ : ∃ q, tpmmAllocLowContig p.pmm (segmentPages seg) = q := ⟨_, rfl⟩
  have hvm : (setVm s p).heap.vm = p := rfl
  rw [hvm, hres]
  dsimp only
  by_cases h0 : phys = 0
  · rw [if_pos h0]
    refine iff_of_false (fun h => nomatch (Prod.mk.inj h).2) ?_
    rintro ⟨_, _, _, hrun, _⟩
    exact hrun.nonzero ((Prod.mk.inj (hrun.granted.symm.trans hres)).2.trans h0)
  rw [if_neg h0]
  rw [Nat.mod_eq_of_lt hspace] at hrange
  obtain ⟨_, _, hphys, hupper, hbase⟩ := granted_bounds hv hrange.1 hrange.2 hres h0
  have hset : setPmm (setVm s p) pmm = setVm s ⟨p.mem, pmm⟩ := rfl
  obtain ⟨⟨p₂, done⟩, hmap⟩ : ∃ q, mapRun ⟨p.mem, pmm⟩ (rootOf s as)
    (firstPage seg) phys (segmentFlags seg)
    (segmentPages seg) = q := ⟨_, rfl⟩
  rw [hset, mapRange_eq s ⟨p.mem, pmm⟩ as _ _ hbase hupper (hphys.trans (by decide)), hmap]
  cases done with
  | false =>
    rw [if_neg Bool.false_ne_true]
    refine iff_of_false (fun h => nomatch (Prod.mk.inj h).2) ?_
    rintro ⟨_, _, _, hrun, _⟩
    cases hrun.granted.symm.trans hres
    exact Bool.false_ne_true (Prod.mk.inj (hmap.symm.trans hrun.mapped)).2
  | true =>
    rw [if_pos rfl]
    constructor
    · intro h
      refine ⟨pmm, phys, p₂, ⟨hrange.1, ?_, by simpa using hany, hres, h0, hmap⟩,
        (Prod.mk.inj h).1.symm⟩
      rw [Nat.mod_eq_of_lt hspace]
      exact hrange.2
    · rintro ⟨_, _, _, hrun, rfl⟩
      cases hrun.granted.symm.trans hres
      obtain ⟨rfl, _⟩ := Prod.mk.inj (hrun.mapped.symm.trans hmap)
      rfl

end Segment

lemma vmmAspacePhys_setVm (s : Vmm) (p : Paging) (as virt : ℕ) :
    vmmAspacePhys (setVm s p) as virt =
      if kernelSlot (pml4Index virt) then none else physOf p.mem (rootOf s as) virt := by
  unfold vmmAspacePhys
  rw [rootOf_setVm]
  rfl

lemma Region.present_leaf {F : Finset ℕ} (hR : R.Fits F) {v e : ℕ} (h : R.leaf v = some e) :
    present e = true := by
  unfold Region.leaf rangeLeaf at h
  split_ifs at h
  exact Option.some.inj h ▸ (leafEntry_spec _ hR.flags_lt).2.1

/-- The leaf of the page of a region at an offset. -/
lemma Region.leaf_at {F : Finset ℕ} (hR : R.Fits F) {j : ℕ} (hj : j < R.pages * 4096) :
    R.leaf (R.first + j) = some (leafEntry (R.phys + j / 4096 * 4096) R.flags) := by
  have hpage : pageOf (R.first + j) = R.first / 4096 + j / 4096 := by
    have hal := hR.first_aligned
    have hupper := hR.upper
    unfold pageOf
    unfold userEnd at hupper
    omega
  unfold Region.leaf rangeLeaf
  rw [hpage, if_pos (by omega), Nat.add_sub_cancel_left]

section Loading
variable {lay : Layout} {tree r : ℕ} {F : Finset ℕ} {leaf₀ : ℕ → ℕ} {p : Paging} {use : ℕ → Use}
  {rs : List Region}

/-- A page the source finds unmapped has no leaf. -/
lemma leaf_of_unmapped (ht : Tables lay p use) (hr : use r = .node tree [])
    (hu : ¬ tree < pmmMaxFrames) {v : ℕ} (hk : kernelSlot (pml4Index v) = false)
    (h : physOf p.mem (r * frameBytes) v = none) :
    present (leafOf p.mem (r * frameBytes) v) = false := by
  have heq := translate_eq ht v hr hu
  rw [h, Option.map_none, translate_user ht hr hu hk] at heq
  by_contra hp
  rw [Bool.not_eq_false] at hp
  rw [if_pos hp] at heq
  exact nomatch heq

/-- The pages of a region that were found unmapped belong to no region so far. -/
lemma Loaded.apart (h : Loaded lay tree r F leaf₀ p use rs) (hu : ¬ tree < pmmMaxFrames) {s : Vmm}
    {as : ℕ} (hroot : rootOf s as = r * frameBytes) (hR : R.Fits F)
    (hfree : anyMapped (setVm s p) as R.first R.pages = false) {v : ℕ} (hv : R.leaf v ≠ none) :
    rs.findSome? (·.leaf v) = none := by
  have hin : R.first / 4096 ≤ pageOf v ∧ pageOf v < R.first / 4096 + R.pages := by
    by_contra hout
    exact hv (if_neg hout)
  have hal := hR.first_aligned
  obtain ⟨k, hk⟩ : ∃ k, pageOf v = R.first / 4096 + k := ⟨pageOf v - R.first / 4096, by omega⟩
  have hlt : k < R.pages := by omega
  obtain ⟨h1, h2, h3⟩ := page_in_user hR.lower hR.upper hlt
  have hpage : pageOf v = pageOf (R.first + k * 4096) := hk.trans (pageOf_add hal h2).symm
  have hphys : physOf p.mem (r * frameBytes) (R.first + k * 4096) = none := by
    have hnone := List.any_eq_false.mp hfree k (List.mem_range.mpr hlt)
    rw [Nat.mod_eq_of_lt h3, vmmAspacePhys_setVm, kernelSlot_user h1 h2, if_neg Bool.false_ne_true,
      hroot] at hnone
    simpa using hnone
  have habs := leaf_of_unmapped h.tables h.root hu (kernelSlot_user h1 h2) hphys
  rw [← leafOf_page _ _ hpage, h.leaves v] at habs
  cases hfind : rs.findSome? (·.leaf v) with
  | none => rfl
  | some e =>
    obtain ⟨R', hR', he⟩ := List.exists_of_findSome?_eq_some hfind
    rw [hfind, Option.getD_some, Region.present_leaf (h.fits R' hR') he] at habs
    exact absurd habs Bool.false_ne_true.symm

lemma anyMapped_twin {m : Memory} (h : Twin use p m) (ht : Tables lay p use) (hpages : ¬ lay.pages)
    (hr : use r = .node tree []) (hu : ¬ tree < pmmMaxFrames) {s : Vmm} {as : ℕ}
    (hroot : rootOf s as = r * frameBytes) (first pages : ℕ) :
    anyMapped (setVm s ⟨m, p.pmm⟩) as first pages = anyMapped (setVm s p) as first pages := by
  have hlook (v : ℕ) := physOf_congr ht (h.entry_eq ht hpages) v hr hu
  unfold Telf.anyMapped
  congr 1
  funext k
  rw [vmmAspacePhys_setVm, vmmAspacePhys_setVm, hroot, hlook]

/-- A segment becomes a region of its own. -/
theorem Loaded.segment (h : Loaded lay tree r F leaf₀ p use rs) (hpages : ¬ lay.pages)
    (hu : ¬ tree < pmmMaxFrames) {as : ℕ} (hroot : rootOf s as = r * frameBytes)
    (hspace : seg.vaddr + seg.memsz < 2 ^ 64) (hin : StaysInside seg)
    (hload : loadSegment (setVm s p) as blob seg = (s', .ok ())) :
    ∃ p' use' phys, s' = setVm s p' ∧
      Loaded lay tree r F leaf₀ p' use' (segmentRegion blob seg phys :: rs) ∧
      (∀ v, (segmentRegion blob seg phys).leaf v ≠ none → rs.findSome? (·.leaf v) = none) ∧
      ∀ m, Twin use p m → ∃ m',
        loadSegment (setVm s ⟨m, p.pmm⟩) as blob seg = (setVm s ⟨m', p'.pmm⟩, .ok ()) ∧
          Twin use' p' m' ∧
        ∀ m₀, Filled p.pmm rs m₀ m → Filled p'.pmm (segmentRegion blob seg phys :: rs) m₀ m' := by
  have hv := h.tables.valid
  obtain ⟨pmm, phys, p₂, hrun, rfl⟩ := (loadSegment_run hv hspace).mp hload
  have hupper := hrun.upper
  rw [Nat.mod_eq_of_lt hspace] at hupper
  obtain ⟨_, hal, hlow, hend, hbase⟩ :=
    granted_bounds hv hrun.lower hupper hrun.granted hrun.nonzero
  have hspec := (tpmmAllocLowContig_spec hv (segmentPages seg)).1
  rw [hrun.granted] at hspec
  have hfits : (segmentRegion blob seg phys).Fits F :=
    ⟨Nat.mul_mod_left _ _, hal, hbase, hend, hrun.nonzero, hlow, (segmentFlags_spec seg).1,
      (segmentFlags_spec seg).2.1,
      (segmentFlags_spec seg).2.2, (hspec.granted hv hrun.nonzero).2.2.1.trans h.pool⟩
  have hmap := hrun.mapped
  rw [hroot] at hmap
  obtain ⟨use', hloaded, htwin⟩ :=
    h.add (R := segmentRegion blob seg phys) hpages hu hfits hrun.granted hrun.nonzero
    hmap (segmentRegion_writes blob hal hin hspace)
  refine ⟨⟨fillSegment p₂.mem phys blob seg, p₂.pmm⟩, use', phys, rfl, hloaded,
    fun v hleaf => h.apart hu hroot hfits hrun.unmapped hleaf, fun m hm => ?_⟩
  obtain ⟨m₂, hmap₂, hm₂, hfilled⟩ := htwin m hm
  have hrun₂ : SegmentRun s ⟨m, p.pmm⟩ as (rootOf s as) seg pmm phys ⟨m₂, p₂.pmm⟩ := by
    refine ⟨hrun.lower, hrun.upper, ?_, hrun.granted, hrun.nonzero, ?_⟩
    · rw [anyMapped_twin hm h.tables hpages h.root hu hroot]
      exact hrun.unmapped
    · rw [hroot]
      exact hmap₂
  exact ⟨fillSegment m₂ phys blob seg,
    (loadSegment_run (p := ⟨m, p.pmm⟩) hv hspace).mpr ⟨pmm, phys, _, hrun₂, rfl⟩, hm₂, hfilled⟩

/-- No page is in two regions. -/
def Apart (rs : List Region) : Prop :=
  rs.Pairwise fun R R' => ∀ v, R.leaf v ≠ none → R'.leaf v = none

lemma Apart.find {rs : List Region} (h : Apart rs) (hR : R ∈ rs) {v e : ℕ}
    (he : R.leaf v = some e) : rs.findSome? (·.leaf v) = some e := by
  induction rs with
  | nil => exact absurd hR List.not_mem_nil
  | cons R' rs ih =>
    obtain ⟨hfirst, hrest⟩ := List.pairwise_cons.mp h
    rw [List.findSome?_cons]
    rcases List.mem_cons.mp hR with rfl | hin
    · rw [he]
    · have hnone : R'.leaf v = none := by
        by_contra hne
        exact nomatch he.symm.trans (hfirst R hin v hne)
      rw [hnone]
      exact ih hrest hin

lemma loadSegments_cons {as : ℕ} {segs : List TelfSegment}
    (h : loadSegments s as blob (seg :: segs) = (s', .ok ())) :
    ∃ s₁, loadSegment s as blob seg = (s₁, .ok ()) ∧ loadSegments s₁ as blob segs =
      (s', .ok ()) := by
  rw [loadSegments] at h
  rcases hseg : loadSegment s as blob seg with ⟨s₁, _ | _⟩
  · rw [hseg] at h
    exact nomatch (Prod.mk.inj h).2
  · rw [hseg] at h
    exact ⟨s₁, rfl, h⟩

/-- All segments of a plan. -/
theorem Loaded.segments (hpages : ¬ lay.pages) (hu : ¬ tree < pmmMaxFrames) {as : ℕ}
    (hroot : rootOf s as = r * frameBytes) (segs : List TelfSegment) :
    ∀ {p : Paging} {use : ℕ → Use} {rs : List Region}, Loaded lay tree r F leaf₀ p use rs →
      Apart rs → (∀ seg ∈ segs, seg.vaddr + seg.memsz < 2 ^ 64 ∧ StaysInside seg) →
      loadSegments (setVm s p) as blob segs = (s', .ok ()) →
      ∃ p' use' new, s' = setVm s p' ∧ Loaded lay tree r F leaf₀ p' use' (new ++ rs) ∧
        Apart (new ++ rs) ∧
        List.Forall₂ (fun seg R => ∃ phys, R = segmentRegion blob seg phys) segs new.reverse ∧
        ∀ m, Twin use p m → ∃ m',
          loadSegments (setVm s ⟨m, p.pmm⟩) as blob segs = (setVm s ⟨m', p'.pmm⟩, .ok ()) ∧
            Twin use' p' m' ∧
          ∀ m₀, Filled p.pmm rs m₀ m → Filled p'.pmm (new ++ rs) m₀ m' := by
  induction segs with
  | nil =>
    intro p use rs h hapart _ hload
    exact ⟨p, use, [], (Prod.mk.inj hload).1.symm, h, hapart, .nil,
      fun m hm => ⟨m, rfl, hm, fun _ hf => hf⟩⟩
  | cons seg segs ih =>
    intro p use rs h hapart hsegs hload
    obtain ⟨⟨hspace, hin⟩, hrest⟩ := List.forall_mem_cons.mp hsegs
    obtain ⟨s₁, hseg, hload⟩ := loadSegments_cons hload
    obtain ⟨p₁, use₁, phys, rfl, h₁, hnew, htwin₁⟩ := h.segment hpages hu hroot hspace hin hseg
    have hapart₁ : Apart (segmentRegion blob seg phys :: rs) :=
      List.pairwise_cons.mpr ⟨fun R hR v hv => List.findSome?_eq_none_iff.mp (hnew v hv) R hR,
        hapart⟩
    obtain ⟨p₂, use₂, new, rfl, h₂, hapart₂, hregions, htwin₂⟩ := ih h₁ hapart₁ hrest hload
    refine ⟨p₂, use₂, new ++ [segmentRegion blob seg phys], rfl, ?_, ?_, ?_, fun m hm => ?_⟩
    · rwa [List.append_assoc]
    · rwa [List.append_assoc]
    · rw [List.reverse_append]
      exact .cons ⟨phys, rfl⟩ hregions
    · obtain ⟨m₁, heq₁, hm₁, hfilled₁⟩ := htwin₁ m hm
      obtain ⟨m₂, heq₂, hm₂, hfilled₂⟩ := htwin₂ m₁ hm₁
      refine ⟨m₂, ?_, hm₂, fun m₀ hf => ?_⟩
      · rw [loadSegments, heq₁]
        exact heq₂
      · rw [List.append_assoc]
        exact hfilled₂ m₀ (hfilled₁ m₀ hf)

end Loading

/-! ## The whole file -/

/-- An address space as the kernel keeps it: its tables are in frames out of the pool, and
its descriptor leads to their root. -/
structure Space (lay : Layout) (s : Vmm) (as tree r : ℕ) (use : ℕ → Use) : Prop where
  loose : ¬ lay.pages
  tables : Tables lay s.heap.vm use
  root : use r = .node tree []
  user : ¬ tree < pmmMaxFrames
  rootOf_eq : rootOf s as = r * frameBytes

def IsSpace (s : Vmm) (as : ℕ) : Prop := ∃ lay tree r use, Space lay s as tree r use

lemma telfLoad_ok {as size : ℕ} {plan : TelfPlan} (h : telfLoad s as blob size = (s', .ok plan)) :
    telfParse blob size = .ok plan ∧ loadSegments s as blob plan.segs = (s', .ok ()) := by
  unfold telfLoad at h
  cases hparse : telfParse blob size with
  | error e =>
    rw [hparse] at h
    exact nomatch (Prod.mk.inj h).2
  | ok plan' =>
    rw [hparse] at h
    dsimp only at h
    rcases hsegs : loadSegments s as blob plan'.segs with ⟨s₁, _ | _⟩
    · rw [hsegs] at h
      exact nomatch (Prod.mk.inj h).2
    · rw [hsegs] at h
      obtain ⟨rfl, hplan⟩ := Prod.mk.inj h
      obtain rfl := Except.ok.inj hplan
      exact ⟨rfl, hsegs⟩

lemma telfLoad_of {as size : ℕ} {plan : TelfPlan} (hparse : telfParse blob size = .ok plan)
    (hsegs : loadSegments s as blob plan.segs = (s', .ok ())) :
    telfLoad s as blob size = (s', .ok plan) := by
  unfold telfLoad
  rw [hparse]
  dsimp only
  rw [hsegs]

/-- The offsets of the headers whose segments are loaded. -/
def loadedHeaders (blob : Memory) : List ℕ := loadHeaders blob (ehdrPhnum blob) 0

lemma segmentOf_space {size : ℕ} {h : ProgramHeader} (hb : InBounds size h) :
    (segmentOf h).vaddr + (segmentOf h).memsz < 2 ^ 64 := by
  have hspace := hb.space
  have hle := Nat.mod_le h.memsz (2 ^ 32)
  change h.vaddr + h.memsz % 2 ^ 32 < 2 ^ 64
  omega

/-- The segments of a plan are those of the loaded headers. -/
lemma plan_segs {size : ℕ} {plan : TelfPlan} (h : telfParse blob size = .ok plan) :
    plan.segs = (loadedHeaders blob).map (fun off => segmentOf (programHeader blob off)) ∧
      ∀ off ∈ loadedHeaders blob, InBounds size (programHeader blob off) := by
  have htaken := telfParse_taken h
  unfold loadedHeaders
  generalize loadHeaders blob (ehdrPhnum blob) 0 = offs at htaken
  generalize plan.segs = segs at htaken
  induction htaken with
  | nil => exact ⟨rfl, fun _ h => absurd h List.not_mem_nil⟩
  | cons hs _ ih =>
    exact ⟨by rw [List.map_cons, ← ih.1, hs.2], List.forall_mem_cons.mpr ⟨hs.1, ih.2⟩⟩

/-- The regions of a plan: one for each of its segments. -/
def Regions (blob : Memory) (segs : List TelfSegment) (rs : List Region) : Prop :=
  (∀ seg ∈ segs, ∃ phys, segmentRegion blob seg phys ∈ rs) ∧
    (∀ R ∈ rs, ∃ seg ∈ segs, R = segmentRegion blob seg R.phys) ∧ rs.length = segs.length

lemma regions_of_forall₂ {segs : List TelfSegment} {rs : List Region}
    (h : List.Forall₂ (fun seg R => ∃ phys, R = segmentRegion blob seg phys) segs rs) :
    Regions blob segs rs := by
  induction h with
  | nil => exact ⟨fun _ h => absurd h List.not_mem_nil, fun _ h => absurd h List.not_mem_nil, rfl⟩
  | cons hR _ ih =>
    obtain ⟨phys, rfl⟩ := hR
    obtain ⟨hsegs, hregions, hlength⟩ := ih
    refine ⟨List.forall_mem_cons.mpr ⟨⟨phys, List.mem_cons_self⟩, fun seg hseg => ?_⟩,
      List.forall_mem_cons.mpr ⟨⟨_, List.mem_cons_self, rfl⟩, fun R hR => ?_⟩, ?_⟩
    · obtain ⟨phys', hmem⟩ := hsegs seg hseg
      exact ⟨phys', List.mem_cons_of_mem _ hmem⟩
    · obtain ⟨seg, hmem, heq⟩ := hregions R hR
      exact ⟨seg, List.mem_cons_of_mem _ hmem, heq⟩
    · rw [List.length_cons, List.length_cons, hlength]

/-- What a file leaves that was loaded, if its bytes stay in their frames. -/
theorem Space.load {lay : Layout} {as tree r size : ℕ} {use : ℕ → Use} {plan : TelfPlan}
    (hsp : Space lay s as tree r use) (hload : telfLoad s as blob size = (s', .ok plan))
    (hin : ∀ off ∈ loadedHeaders blob, StaysInside (segmentOf (programHeader blob off))) :
    ∃ p' use' rs, s' = setVm s p' ∧
      Loaded lay tree r (freeSet s.heap.vm.pmm) (leafOf s.heap.vm.mem (r * frameBytes)) p' use' rs ∧
        Apart rs ∧
      Regions blob plan.segs rs ∧
      ∀ m, Twin use s.heap.vm m → ∃ m',
        telfLoad (setVm s ⟨m, s.heap.vm.pmm⟩) as blob size = (setVm s ⟨m', p'.pmm⟩, .ok plan) ∧
          Twin use' p' m' ∧
        ∀ m₀, (∀ x, x / frameBytes ∈ freeSet s.heap.vm.pmm → m x = m₀ x) →
          Filled p'.pmm rs m₀ m' := by
  obtain ⟨hparse, hsegs⟩ := telfLoad_ok hload
  have hstart : Loaded lay tree r (freeSet s.heap.vm.pmm) (leafOf s.heap.vm.mem (r * frameBytes))
    s.heap.vm use [] :=
    ⟨hsp.tables, hsp.root, fun v => Option.getD_none.symm, fun _ h => absurd h List.not_mem_nil,
      fun _ h => absurd h List.not_mem_nil, Finset.Subset.refl _⟩
  have hsegs' : ∀ seg ∈ plan.segs, seg.vaddr + seg.memsz < 2 ^ 64 ∧ StaysInside seg := by
    obtain ⟨hmap, hbounds⟩ := plan_segs hparse
    rw [hmap, List.forall_mem_map]
    exact fun off hoff => ⟨segmentOf_space (hbounds off hoff), hin off hoff⟩
  obtain ⟨p', use', rs, rfl, hloaded, hapart, hregions, htwin⟩ :=
    Loaded.segments (s := s) (F := freeSet s.heap.vm.pmm) hsp.loose hsp.user hsp.rootOf_eq plan.segs
      hstart
      List.Pairwise.nil hsegs' hsegs
  rw [List.append_nil] at hloaded hapart htwin
  have hboth := regions_of_forall₂ hregions
  simp only [Regions, List.mem_reverse, List.length_reverse] at hboth
  refine ⟨p', use', rs, rfl, hloaded, hapart, hboth, fun m hm => ?_⟩
  obtain ⟨m', heq, hm', hfilled⟩ := htwin m hm
  exact ⟨m', telfLoad_of hparse heq, hm',
    fun m₀ hm₀ => hfilled m₀ ⟨fun _ h => absurd h List.not_mem_nil, hm₀⟩⟩

end TraitOS.Telf
