import TraitOS.TpmmContract

/-!
# Scrubbing free memory

`sec_scrub_ram` looks at one frame after the other and clears those that are not used.
It holds no lock: between the test of a frame and the last byte of the clearing, other
tasks run, take and give back frames, and write to the frames they hold. The scrubber is
a program counter beside them, with one step for each test and each byte.
-/
namespace TraitOS.Tsec
open ByteMemory Multiboot Tpmm Runs

variable {frame : ℕ}

/-- Where the scrubber is: at the head of the loop, or behind the test of a frame with a
number of its bytes cleared. -/
inductive ScrubPc where
  | test (frame : ℕ)
  | clear (frame cleared : ℕ)
  | done
deriving DecidableEq, Repr

structure Scrub where
  client : Client
  mem : Memory
  pc : ScrubPc
  scrubbed : ℕ

inductive ScrubAction where
  | scrub
  | call (c : PmmCall)
  | store (x : ℕ) (v : UInt8)
deriving Repr

/-- The next statement of `sec_scrub_ram`; a frame is tested if it is managed and below
1 GiB. -/
def secScrubRam (s : Scrub) : Scrub :=
  match s.pc with
  | .test frame =>
    if frame < s.client.pmm.totalFrames ∧ frame * pageSize < 0x40000000 then
      if tpmmFrameUsed s.client.pmm (frame * pageSize) then { s with pc := .test (frame + 1) }
      else { s with pc := .clear frame 0 }
    else { s with pc := .done }
  | .clear frame cleared =>
    if cleared < pageSize then
      { s with
        mem := Function.update s.mem (frame * pageSize + cleared) 0
        pc := .clear frame (cleared + 1) }
    else { s with pc := .test (frame + 1), scrubbed := (s.scrubbed + 1) % 2 ^ 32 }
  | .done => s

/-- The scrubber takes a step, a task calls the frame manager, or a task writes to a frame
it holds. -/
def scrubStep (s : Scrub) : ScrubAction → Option Scrub
  | .scrub => some (secScrubRam s)
  | .call c => (clientStep s.client c).map fun client => { s with client := client }
  | .store x v =>
    if s.client.Holds (x / pageSize) then some { s with mem := Function.update s.mem x v } else none

def scrubStart (client : Client) (mem : Memory) : Scrub := ⟨client, mem, .test 0, 0⟩

/-- No call takes the frame that is being cleared. -/
def Undisturbed (s : Scrub) : ScrubAction → Prop
  | .call c => match s.pc with
    | .clear frame cleared => cleared < pageSize → ∀ client ∈ clientStep s.client c, frame ∈
      freeSet client.pmm
    | _ => True
  | _ => True

instance (s : Scrub) : (a : ScrubAction) → Decidable (Undisturbed s a)
  | .scrub | .store .. => inferInstanceAs (Decidable True)
  | .call c => by
    unfold Undisturbed
    cases s.pc with
    | clear frame cleared => exact inferInstanceAs (Decidable (_ →
      ∀ client ∈ clientStep s.client c, _))
    | test | done => exact inferInstanceAs (Decidable True)

/-! ## Under interleaving -/

lemma frameOf_mul (h : frame < pmmMaxFrames) : frameOf (frame * pageSize) = frame := by
  have hmax : frame < 2 ^ 32 := h.trans (by decide)
  rw [frameOf, Nat.mul_div_cancel _ (by decide), Nat.mod_eq_of_lt hmax]

lemma mem_freeSet_of_test {s : Pmm} (hv : Valid s) (hlt : frame < s.totalFrames)
    (hused : tpmmFrameUsed s (frame * pageSize) = false) : frame ∈ freeSet s := by
  rw [tpmmFrameUsed, frameOf_mul (hlt.trans_le hv.total_le)] at hused
  exact (mem_freeSet s frame).mpr ⟨hlt, hused⟩

lemma tpmmFrameUsed_of_free {s : Pmm} (hv : Valid s) (h : frame ∈ freeSet s) :
    tpmmFrameUsed s (frame * pageSize) = false := by
  obtain ⟨hlt, hfree⟩ := (mem_freeSet s frame).mp h
  rw [tpmmFrameUsed, frameOf_mul (hlt.trans_le hv.total_le), hfree]

/-- The frame that is being cleared is free. -/
def Clearing (s : Scrub) : Prop :=
  ∀ frame cleared, s.pc = .clear frame cleared → cleared < pageSize → frame ∈ freeSet s.client.pmm

lemma Clearing.scrub {s : Scrub} (h : Clearing s) (hv : Valid s.client.pmm) :
    Clearing (secScrubRam s) := by
  intro frame cleared hpc hlt
  unfold secScrubRam at hpc ⊢
  cases hs : s.pc with
  | done =>
    simp only [hs] at hpc
    exact nomatch hpc
  | test f =>
    simp only [hs] at hpc ⊢
    by_cases hin : f < s.client.pmm.totalFrames ∧ f * pageSize < 0x40000000
    · rw [if_pos hin] at hpc ⊢
      cases hused : tpmmFrameUsed s.client.pmm (f * pageSize) with
      | true =>
        simp only [hused, if_true] at hpc
        exact nomatch hpc
      | false =>
        simp only [hused, Bool.false_eq_true, if_false] at hpc ⊢
        obtain ⟨rfl, _⟩ := ScrubPc.clear.inj hpc
        exact mem_freeSet_of_test hv hin.1 hused
    · rw [if_neg hin] at hpc
      exact nomatch hpc
  | clear f n =>
    simp only [hs] at hpc ⊢
    by_cases hn : n < pageSize
    · rw [if_pos hn] at hpc ⊢
      obtain ⟨rfl, _⟩ := ScrubPc.clear.inj hpc
      exact h f n hs hn
    · rw [if_neg hn] at hpc
      exact nomatch hpc

lemma client_secScrubRam (s : Scrub) : (secScrubRam s).client = s.client := by
  unfold secScrubRam
  split
  · split_ifs <;> rfl
  · split_ifs <;> rfl
  · rfl

/-- A step of the scrubber writes to the frame it is clearing only. -/
lemma mem_secScrubRam {s : Scrub} (h : Clearing s) {x : ℕ} (hx : (secScrubRam s).mem x ≠ s.mem x) :
    x / pageSize ∈ freeSet s.client.pmm := by
  unfold secScrubRam at hx
  cases hs : s.pc with
  | done =>
    simp only [hs] at hx
    exact absurd rfl hx
  | test f =>
    simp only [hs] at hx
    split_ifs at hx <;> exact absurd rfl hx
  | clear f n =>
    simp only [hs] at hx
    by_cases hn : n < pageSize
    · rw [if_pos hn] at hx
      have hxf : x = f * pageSize + n := by
        by_contra hne
        exact hx (Function.update_of_ne hne _ _)
      have hdiv : x / pageSize = f := by
        unfold pageSize at *
        omega
      exact hdiv ▸ h f n hs hn
    · rw [if_neg hn] at hx
      exact absurd rfl hx

theorem clearing_run {R : Finset ℕ} (h0 : 0 ∈ R) {client : Client} (hi : ClientInv R client)
    (mem : Memory) {actions : List ScrubAction} {s : Scrub}
    (hrun : exec (guarded scrubStep Undisturbed) (scrubStart client mem) actions = some s) :
    ClientInv R s.client ∧ Clearing s := by
  refine exec_invariant (I := fun s => ClientInv R s.client ∧ Clearing s) ?_ actions
    ⟨hi, fun _ _ h _ => ScrubPc.noConfusion h⟩ hrun
  rintro s a t ⟨hi, hc⟩ hstep
  obtain ⟨hok, hstep⟩ := (guarded_eq_some ..).mp hstep
  cases a with
  | scrub =>
    cases hstep
    exact ⟨(client_secScrubRam s).symm ▸ hi, hc.scrub hi.valid⟩
  | store x v =>
    by_cases hh : s.client.Holds (x / pageSize)
    · simp only [scrubStep, if_pos hh] at hstep
      cases hstep
      exact ⟨hi, hc⟩
    · simp only [scrubStep, if_neg hh] at hstep
      exact nomatch hstep
  | call c =>
    obtain ⟨client', hcl, rfl⟩ := Option.map_eq_some_iff.mp hstep
    refine ⟨clientStep_inv h0 _ _ _ hi hcl, fun frame cleared hpc hlt => ?_⟩
    have hpc' : s.pc = .clear frame cleared := hpc
    unfold Undisturbed at hok
    simp only [hpc'] at hok
    exact hok hlt client' hcl

/-! ## Alone -/

/-- The frames a pass clears from a given frame on. -/
def scrubbable (s : Pmm) (frame : ℕ) : Finset ℕ :=
  (freeSet s).filter fun g => frame ≤ g ∧ g * pageSize < 0x40000000

def cleared (mem : Memory) (frames : Finset ℕ) : Memory :=
  fun x => if x / pageSize ∈ frames then 0 else mem x

lemma exec_scrub_succ (s : Scrub) (n : ℕ) : exec scrubStep s (List.replicate (n + 1) .scrub) =
    exec scrubStep (secScrubRam s) (List.replicate n .scrub) := by
  simp only [List.replicate_succ, exec_cons, scrubStep, Option.bind_some]

/-- The bytes of a frame are cleared one after the other. -/
lemma clear_run (frame : ℕ) :
    ∀ (left : ℕ) (s : Scrub) (n : ℕ), n + left = pageSize → s.pc = .clear frame n →
    exec scrubStep s (List.replicate (left + 1) .scrub) = some { s with
      mem := fill s.mem (frame * pageSize + n) left 0
      pc := .test (frame + 1)
      scrubbed := (s.scrubbed + 1) % 2 ^ 32 } := by
  intro left
  induction left with
  | zero =>
    intro s n hn hpc
    have hlast : ¬ n < pageSize := by omega
    simp only [exec_scrub_succ, secScrubRam, hpc, if_neg hlast, fill_zero, List.replicate_zero,
      exec_nil]
  | succ left ih =>
    intro s n hn hpc
    have hlt : n < pageSize := by omega
    rw [exec_scrub_succ, secScrubRam, hpc]
    simp only [if_pos hlt]
    rw [ih _ (n + 1) (by omega) rfl]
    simp only [fill_succ, Nat.add_assoc]

lemma scrubbable_eq_empty {s : Pmm}
    (h : ¬ (frame < s.totalFrames ∧ frame * pageSize < 0x40000000)) : scrubbable s frame = ∅ := by
  refine Finset.filter_eq_empty_iff.mpr fun g hg => ?_
  have hlt := ((mem_freeSet s g).mp hg).1
  unfold pageSize at *
  omega

lemma scrubbable_of_used {s : Pmm} (h : frame ∉ freeSet s) :
    scrubbable s frame = scrubbable s (frame + 1) := by
  ext g
  simp only [scrubbable, Finset.mem_filter]
  have : g ∈ freeSet s → g ≠ frame := fun hg he => h (he ▸ hg)
  grind

lemma scrubbable_of_free {s : Pmm} (h : frame ∈ freeSet s) (hlow : frame * pageSize < 0x40000000) :
    scrubbable s frame = insert frame (scrubbable s (frame + 1)) := by
  ext g
  simp only [scrubbable, Finset.mem_filter, Finset.mem_insert]
  grind

lemma cleared_fill (mem : Memory) (frame : ℕ) (frames : Finset ℕ) :
    cleared (fill mem (frame * pageSize) pageSize 0) frames =
      cleared mem (insert frame frames) := by
  funext x
  have hx : x / pageSize = frame ↔ frame * pageSize ≤ x ∧ x < frame * pageSize + pageSize := by
    unfold pageSize
    omega
  simp only [cleared, fill, Finset.mem_insert, hx]
  grind

lemma cleared_empty (mem : Memory) : cleared mem ∅ = mem := by
  funext x
  simp [cleared]

/-- What is left of a pass, from the head of the loop on. -/
lemma test_run : ∀ (left : ℕ) (s : Scrub) (frame : ℕ), Valid s.client.pmm → s.pc = .test frame →
    s.scrubbed < 2 ^ 32 → s.client.pmm.totalFrames ≤ frame + left →
    ∃ n, exec scrubStep s (List.replicate n .scrub) = some { s with
      mem := cleared s.mem (scrubbable s.client.pmm frame)
      pc := .done
      scrubbed := (s.scrubbed + (scrubbable s.client.pmm frame).card) % 2 ^ 32 } := by
  intro left
  induction left with
  | zero =>
    intro s frame hv hpc hlt hleft
    have hend : ¬ (frame < s.client.pmm.totalFrames ∧ frame * pageSize < 0x40000000) := by omega
    refine ⟨1, ?_⟩
    rw [exec_scrub_succ, secScrubRam, hpc]
    simp only [if_neg hend, scrubbable_eq_empty hend, cleared_empty, Finset.card_empty,
      Nat.add_zero, Nat.mod_eq_of_lt hlt, List.replicate_zero, exec_nil]
  | succ left ih =>
    intro s frame hv hpc hlt hleft
    by_cases hin : frame < s.client.pmm.totalFrames ∧ frame * pageSize < 0x40000000
    · cases hused : tpmmFrameUsed s.client.pmm (frame * pageSize) with
      | true =>
        have hfree : frame ∉ freeSet s.client.pmm := fun h => by
          rw [tpmmFrameUsed_of_free hv h] at hused
          exact nomatch hused
        obtain ⟨n, hn⟩ := ih { s with pc := .test (frame + 1) }
          (frame + 1) hv rfl hlt (by dsimp only; omega)
        refine ⟨n + 1, ?_⟩
        rw [exec_scrub_succ, secScrubRam, hpc]
        simp only [if_pos hin, hused, if_true, scrubbable_of_used hfree]
        exact hn
      | false =>
        have hfree := mem_freeSet_of_test hv hin.1 hused
        have hclear := clear_run frame pageSize { s with pc := .clear frame 0 } 0 (Nat.zero_add _)
          rfl
        simp only [Nat.add_zero] at hclear
        obtain ⟨n, hn⟩ := ih
          { s with
            mem := fill s.mem (frame * pageSize) pageSize 0
            pc := .test (frame + 1)
            scrubbed := (s.scrubbed + 1) % 2 ^ 32 }
          (frame + 1) hv rfl (Nat.mod_lt _ (by decide)) (by dsimp only; omega)
        refine ⟨pageSize + 1 + n + 1, ?_⟩
        rw [exec_scrub_succ, secScrubRam, hpc]
        simp only [if_pos hin, hused, Bool.false_eq_true, if_false]
        rw [List.replicate_add, exec_append, hclear, Option.bind_some]
        have hcard : frame ∉ scrubbable s.client.pmm (frame + 1) := by
          simp [scrubbable]
        rw [scrubbable_of_free hfree hin.2, ← cleared_fill, Finset.card_insert_of_notMem hcard]
        rw [hn]
        simp only [Nat.mod_add_mod, Nat.add_assoc, Nat.add_comm 1]
    · refine ⟨1, ?_⟩
      rw [exec_scrub_succ, secScrubRam, hpc]
      simp only [if_neg hin, scrubbable_eq_empty hin, cleared_empty, Finset.card_empty,
        Nat.add_zero, Nat.mod_eq_of_lt hlt, List.replicate_zero, exec_nil]

/-- The free frames below 1 GiB. -/
def lowFree (s : Pmm) : Finset ℕ := (freeSet s).filter fun g => g * pageSize < 0x40000000

lemma scrubbable_zero (s : Pmm) : scrubbable s 0 = lowFree s := by
  simp only [scrubbable, lowFree, Nat.zero_le, true_and]

lemma card_lowFree_lt (s : Pmm) : (lowFree s).card < 2 ^ 32 := by
  have hsub : lowFree s ⊆ Finset.range 0x40000 := by
    intro g hg
    have hlow := (Finset.mem_filter.mp hg).2
    rw [Finset.mem_range]
    unfold pageSize at hlow
    omega
  have hcard := Finset.card_le_card hsub
  rw [Finset.card_range] at hcard
  omega

/-- Started at any time after `tpmm_init`, the scrubber writes to free frames only, as long
as no call takes the frame it is clearing; alone, it clears every free frame below 1 GiB,
leaves every other byte, and counts what it cleared. -/
theorem scrub_spares_live (m : Memory) (mbi : ℕ) (image : KernelImage) (s : Pmm)
    (hinit : tpmmInit m mbi image = some s) (calls : List PmmCall) (client : Client)
    (hcalls : exec clientStep ⟨s, []⟩ calls = some client) (mem : Memory) :
    (∀ actions t, exec (guarded scrubStep Undisturbed) (scrubStart client mem) actions = some t →
      Clearing t ∧ ∀ x, (secScrubRam t).mem x ≠ t.mem x → x / pageSize ∈ freeSet t.client.pmm) ∧
    ∃ n t, exec scrubStep (scrubStart client mem) (List.replicate n .scrub) = some t ∧
      t.pc = .done ∧ t.client = client ∧ t.scrubbed = (lowFree client.pmm).card ∧
      ∀ x, t.mem x = if x / pageSize ∈ lowFree client.pmm then 0 else mem x := by
  have hi := run_inv (R := ∅) hinit (fun f hf => absurd hf (Finset.notMem_empty f)) calls hcalls
  refine ⟨fun actions t hrun => ?_, ?_⟩
  · have hc := (clearing_run (Finset.mem_insert_self _ _) hi mem hrun).2
    exact ⟨hc, fun x => mem_secScrubRam hc⟩
  · obtain ⟨n, hn⟩ := test_run client.pmm.totalFrames (scrubStart client mem) 0 hi.valid rfl
      (by decide : (0 : ℕ) < 2 ^ 32) (Nat.zero_add _).ge
    refine ⟨n, _, hn, rfl, rfl, ?_, fun x => ?_⟩
    · simp only [scrubStart, scrubbable_zero, Nat.zero_add, Nat.mod_eq_of_lt (card_lowFree_lt _)]
    · simp only [scrubStart, scrubbable_zero, cleared]

theorem scrub_spares_live_sample :
    ∃ s client, tpmmInit sampleMemory 0x8000 sampleImage = some s ∧
      exec clientStep ⟨s, []⟩ [.allocLow] = some client ∧
      (∀ actions t, exec (guarded scrubStep Undisturbed) (scrubStart client sampleMemory) actions =
        some t →
        Clearing t ∧ ∀ x, (secScrubRam t).mem x ≠ t.mem x → x / pageSize ∈ freeSet t.client.pmm) :=
          by
  have hsome : (tpmmInit sampleMemory 0x8000 sampleImage).isSome = true := by decide
  obtain ⟨s, hs⟩ := Option.isSome_iff_exists.mp hsome
  exact ⟨s, _, hs, rfl,
    (scrub_spares_live sampleMemory 0x8000 sampleImage s hs [.allocLow] _ rfl sampleMemory).1⟩

/-! ## A frame taken behind the test -/

lemma skip_run {s : Scrub} (hv : Valid s.client.pmm) : ∀ (n : ℕ), s.pc = .test 0 →
    (∀ g < n, g < s.client.pmm.totalFrames ∧ g * pageSize < 0x40000000 ∧ g ∉ freeSet s.client.pmm) →
    exec scrubStep s (List.replicate n .scrub) = some { s with pc := .test n } := by
  intro n hpc hused
  induction n with
  | zero => simp only [List.replicate_zero, exec_nil, ← hpc]
  | succ n ih =>
    obtain ⟨hlt, hlow, hfree⟩ := hused n (Nat.lt_succ_self n)
    have hbit : tpmmFrameUsed s.client.pmm (n * pageSize) = true :=
      Bool.not_eq_false _ |>.mp fun h => hfree (mem_freeSet_of_test hv hlt h)
    rw [List.replicate_succ', exec_append, ih fun g hg => hused g (hg.trans (Nat.lt_succ_self n))]
    simp only [Option.bind_some, exec_cons, exec_nil, scrubStep, secScrubRam, hbit, if_true,
      if_pos (And.intro hlt hlow)]

lemma tpmmAlloc_first {s : Pmm} (hfree : frame ∈ freeSet s) (hfirst : ∀ g < frame, g ∉ freeSet s)
    (hhint : s.firstFreeHint ≤ frame) : tpmmAlloc s = (takeFrames s frame 1, frame * pageSize) := by
  obtain ⟨hlt, hbit⟩ := (mem_freeSet s frame).mp hfree
  have hscan : scanFree s s.firstFreeHint s.totalFrames = some frame := by
    refine BitmapScan.firstFrom_eq_some hhint (by omega) (by simp [isFree, hbit]) fun j hj => ?_
    have hused := fun h => hfirst j hj ((mem_freeSet s j).mpr ⟨hj.trans hlt, h⟩)
    simpa [isFree] using hused
  rw [tpmmAlloc, hscan]

/-- The scrubber has found a frame free; a task takes it and writes to it. -/
def takenRun (frame : ℕ) : List ScrubAction :=
  List.replicate (frame + 1) .scrub ++ [.call .alloc, .store (frame * pageSize) 7]

lemma takenRun_ends {R : Finset ℕ} (h0 : 0 ∈ R) {client : Client} (hi : ClientInv R client)
    (mem : Memory) (hlow : frame * pageSize < 0x40000000) (hfree : frame ∈ freeSet client.pmm)
    (hfirst : ∀ g < frame, g ∉ freeSet client.pmm) (hhint : client.pmm.firstFreeHint ≤ frame) :
    ∃ t, exec scrubStep (scrubStart client mem) (takenRun frame) = some t ∧ t.pc = .clear frame 0 ∧
      t.client.Holds frame ∧ frame ∉ freeSet t.client.pmm ∧ t.mem (frame * pageSize) = 7 := by
  have hlt := ((mem_freeSet _ frame).mp hfree).1
  have hne : frame ≠ 0 := fun h => (hi.kept 0 h0).1 (h ▸ hfree)
  have hskip := skip_run (s := scrubStart client mem) hi.valid frame rfl fun g hg =>
    ⟨hg.trans hlt, (Nat.mul_lt_mul_of_pos_right hg (by decide)).trans hlow, hfirst g hg⟩
  have halloc := tpmmAlloc_first hfree hfirst hhint
  have hcall : clientStep client .alloc = some
      ⟨takeFrames client.pmm frame 1, ⟨grantFrames (frame * pageSize) 1, false⟩ :: client.grants⟩ :=
        by
    have hpos : frame * pageSize ≠ 0 := Nat.mul_ne_zero hne (by decide)
    simp only [clientStep, halloc, Client.grant, if_neg hpos]
  have hholds : (⟨takeFrames client.pmm frame 1,
      ⟨grantFrames (frame * pageSize) 1, false⟩ :: client.grants⟩ : Client).Holds frame := by
    refine ⟨_, List.mem_cons_self, ?_⟩
    simp [grantFrames, pageSize]
  have hinv := clientStep_inv h0 _ _ _ hi hcall
  refine ⟨⟨_, Function.update mem (frame * pageSize) 7, .clear frame 0, 0⟩, ?_, rfl, hholds,
    (hinv.managed _ hholds).2, Function.update_self ..⟩
  rw [takenRun, List.replicate_succ', List.append_assoc, exec_append, hskip]
  have hdiv : frame * pageSize / pageSize = frame := Nat.mul_div_cancel _ (by decide)
  simp only [scrubStart, Option.bind_some, List.cons_append, List.nil_append, exec_cons, exec_nil,
    scrubStep,
    secScrubRam, if_pos (And.intro hlt hlow), tpmmFrameUsed_of_free hi.valid hfree,
      Bool.false_eq_true, if_false,
    hcall, Option.map_some, hdiv, if_pos hholds]

lemma sample_tags : infoTags sampleMemory 0x8000 = some [0x8008] := by decide

theorem scrub_wipes_taken_frame :
    ∃ s t, tpmmInit sampleMemory 0x8000 sampleImage = some s ∧
      exec scrubStep (scrubStart ⟨s, []⟩ sampleMemory) (takenRun 0x200) = some t ∧
      t.client.Holds 0x200 ∧ 0x200 ∉ freeSet t.client.pmm ∧
      t.mem 0x200000 = 7 ∧ (secScrubRam t).mem 0x200000 = 0 := by
  have hsome : ((tpmmInit sampleMemory 0x8000 sampleImage).map (·.firstFreeHint)) = some 0 := by
    decide +kernel
  obtain ⟨s, hs, hhint⟩ := Option.map_eq_some_iff.mp hsome
  have hi := run_inv (R := ∅) hs (fun f hf => absurd hf (Finset.notMem_empty f)) [] rfl
  have hfree := (tpmmInit_spec hs).2
  have hfirst : ∀ g < 0x200, g ∉ freeSet s := by
    intro g hg h
    obtain ⟨p, hp, hmem⟩ := ((hfree g).mp h).1
    have hp' := (mem_infoTags sample_tags p).mpr hp
    obtain rfl := List.mem_singleton.mp hp'
    have hall : ∀ f ∈ tagFrames sampleMemory 0x8008, 0x200 ≤ f := by decide +kernel
    exact absurd (hall g hmem) (by omega)
  have hin : 0x200 ∈ freeSet s :=
    (hfree 0x200).mpr ⟨⟨0x8008, (mem_infoTags sample_tags _).mp (by simp), by decide⟩,
    by rw [mem_bootReserved]; decide⟩
  obtain ⟨t, hrun, hpc, hholds, hused, hbyte⟩ :=
    takenRun_ends (Finset.mem_insert_self _ _) hi sampleMemory
    (by decide) hin hfirst (hhint.le.trans (Nat.zero_le _))
  refine ⟨s, t, hs, hrun, hholds, hused, hbyte, ?_⟩
  simp [secScrubRam, hpc, pageSize]

end TraitOS.Tsec
