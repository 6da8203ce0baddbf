import TraitOS.Runs
import TraitOS.TmallocSpec

/-!
# Clients of the kernel heap

Runs of heap calls and of client stores. A client may store any byte anywhere in
the range it asked for; that range starts at the block's header, because the
pointer handed out is the address of the header. Runs that leave headers alone
and stay below the end of the heap's window keep all live ranges apart; a run
that writes into the first bytes of a block loses the block.
-/
namespace TraitOS.Tmalloc
open ByteMemory FreeList PageTable Runs Tpmm Tvmm

/-- A pointer a client holds, with the size it asked for. -/
structure Grant where
  ptr : ℕ
  size : ℕ
deriving DecidableEq, Repr

/-- The heap with its clients: what they hold, and the chunks mapped so far. -/
structure Client where
  heap : Heap
  live : List Grant
  chunks : List Chunk

inductive Call where
  | malloc (n : ℕ)
  | free (p : ℕ)
  | store (x : ℕ) (v : UInt8)
deriving Repr

def Grant.covers (g : Grant) (x : ℕ) : Bool := g.ptr ≤ x ∧ x < g.ptr + g.size

/-- Calls outside the rules (a large request, a pointer that is not live, a store
outside every live range) are not part of a run. -/
def clientStep (c : Client) : Call → Option Client
  | .malloc n =>
    if n < 65536 then
      (tmalloc c.heap n).map (fun r =>
        ⟨r.1, if r.2 = 0 then c.live else ⟨r.2, n⟩ :: c.live, chunksAfter c.heap r.1 c.chunks⟩)
    else none
  | .free p =>
    if c.live.any (fun g => g.ptr = p) then
      some { c with heap := tfree c.heap p, live := c.live.eraseP (fun g => g.ptr = p) }
    else none
  | .store x v =>
    if c.live.any (fun g => g.covers x) then
      some { c with heap := { c.heap with cells := Function.update c.heap.cells x v } }
    else none

def newClient (vm : Paging) (current : ℕ) (cells : Memory) : Client :=
  ⟨emptyHeap vm current cells, [], []⟩

/-- Live ranges are disjoint and inside chunks, and every release of a live block
counts. -/
structure Isolated (c : Client) : Prop where
  disjoint : c.live.Pairwise (fun a b => a.ptr + a.size ≤ b.ptr ∨ b.ptr + b.size ≤ a.ptr)
  inside : ∀ g ∈ c.live, ∃ k ∈ c.chunks, k.start ≤ g.ptr ∧ g.ptr + g.size ≤ k.stop
  released : ∀ g ∈ c.live, (tfree c.heap g.ptr).blockCount + 1 = c.heap.blockCount

/-- Stores leave the headers of live blocks as they are; requests that no free
block satisfies still find room for a chunk. -/
def Careful (c : Client) : Call → Prop
  | .malloc n => HasRoom c.heap n
  | .free _ => True
  | .store x v => c.heap.cells x = v ∨ ∀ g ∈ c.live, x < g.ptr ∨ g.ptr + headerBytes ≤ x

instance (c : Client) : (a : Call) → Decidable (Careful c a)
  | .malloc n => inferInstanceAs (Decidable (HasRoom c.heap n))
  | .free _ => inferInstanceAs (Decidable True)
  | .store _ _ => inferInstanceAs (Decidable (_ ∨ _))

def Grant.block (g : Grant) : Block := ⟨g.ptr, wanted g.size⟩

/-- The client's list is the list of live blocks. -/
structure ClientInv (c : Client) : Prop where
  laid : ∃ free, Laid c.heap (c.live.map Grant.block) [] free c.chunks
  small : ∀ g ∈ c.live, g.size < 65536

lemma Grant.size_le {g : Grant} (h : g.size < 65536) : g.size ≤ wanted g.size :=
  (wanted_bounds (by omega)).1

theorem ClientInv.isolated {c : Client} (hc : ClientInv c) : Isolated c := by
  obtain ⟨free, hl⟩ := hc.laid
  have harr := hl.arranged
  rw [List.append_nil] at harr
  have hapart : (c.live.map Grant.block).Pairwise Apart :=
    (List.pairwise_append.mp harr.apart).1
  constructor
  · refine List.Pairwise.imp_of_mem ?_ (List.pairwise_map.mp hapart)
    intro a b ha hb hab
    have hsa := Grant.size_le (hc.small a ha)
    have hsb := Grant.size_le (hc.small b hb)
    unfold Apart Block.stop Grant.block at hab
    dsimp only at hab
    omega
  · intro g hg
    have hmem : g.block ∈ c.live.map Grant.block ++ free :=
      List.mem_append_left _ (List.mem_map_of_mem hg)
    obtain ⟨k, hk, hlo, hhi⟩ := (harr.placed g.block hmem).inside
    have hs := Grant.size_le (hc.small g hg)
    unfold Block.stop Grant.block at hhi
    dsimp only at hhi
    exact ⟨k, hk, hlo, by omega⟩
  · intro g hg
    obtain ⟨front, back, hsplit⟩ := List.append_of_mem (List.mem_map_of_mem (f := Grant.block) hg)
    rw [hsplit] at hl
    have hcount := (tfree_laid hl).count
    have hbefore := hl.count
    rw [List.append_nil, List.length_append, List.length_cons] at hbefore
    rw [List.append_nil, List.length_append] at hcount
    change (tfree c.heap g.block.addr).blockCount + 1 = c.heap.blockCount
    omega

theorem clientInv_new (vm : Paging) (current : ℕ) (cells : Memory) :
    ClientInv (newClient vm current cells) :=
  ⟨⟨[], emptyHeap_laid vm current cells⟩, by simp [newClient]⟩

theorem clientInv_malloc {c t : Client} {n : ℕ} (hc : ClientInv c) (hroom : HasRoom c.heap n)
    (h : clientStep c (.malloc n) = some t) : ClientInv t := by
  obtain ⟨free, hl⟩ := hc.laid
  by_cases hn : n < 65536
  · obtain ⟨h', p, hres, hout⟩ := tmalloc_laid hl (hroom.noWrap hl (by omega))
    simp only [clientStep, if_pos hn, hres, Option.map_some, Option.some.injEq] at h
    subst h
    rcases hout with ⟨hp, hlaid⟩ | ⟨hp, free', hlaid⟩
    · rw [if_pos hp]
      exact ⟨⟨free, hlaid⟩, hc.small⟩
    · rw [if_neg hp]
      exact ⟨⟨free', hlaid⟩, List.forall_mem_cons.mpr ⟨hn, hc.small⟩⟩
  · simp [clientStep, hn] at h

theorem clientInv_free {c t : Client} {p : ℕ} (hc : ClientInv c)
    (h : clientStep c (.free p) = some t) : ClientInv t := by
  obtain ⟨free, hl⟩ := hc.laid
  by_cases hp : c.live.any (fun g => g.ptr = p) = true
  · simp only [clientStep, if_pos hp, Option.some.injEq] at h
    subst h
    obtain ⟨g, hg, hgp⟩ := List.any_eq_true.mp hp
    obtain ⟨a, front, back, _, ha, hlive, herase⟩ := 
      List.exists_of_eraseP (p := fun g : Grant => g.ptr = p) hg hgp
    have hap : a.ptr = p := by simpa using ha
    rw [hlive, List.map_append, List.map_cons] at hl
    have hfree := tfree_laid hl
    rw [← List.map_append] at hfree
    constructor
    · dsimp only
      rw [herase, ← hap]
      exact ⟨a.block :: free, hfree⟩
    · intro x hx
      exact hc.small x (List.mem_of_mem_eraseP hx)
  · simp [clientStep, hp] at h

/-- A store into a payload, behind the header, meets no header at all. -/
theorem clientInv_store {c t : Client} {x : ℕ} {v : UInt8} (hc : ClientInv c)
    (hcare : c.heap.cells x = v ∨ ∀ g ∈ c.live, x < g.ptr ∨ g.ptr + headerBytes ≤ x)
    (h : clientStep c (.store x v) = some t) : ClientInv t := by
  obtain ⟨free, hl⟩ := hc.laid
  by_cases hx : c.live.any (fun g => g.covers x) = true
  · simp only [clientStep, if_pos hx, Option.some.injEq] at h
    subst h
    obtain ⟨g, hg, hgx⟩ := List.any_eq_true.mp hx
    have hcover : g.ptr ≤ x ∧ x < g.ptr + g.size := by simpa [Grant.covers] using hgx
    have hsize := Grant.size_le (hc.small g hg)
    have harr := hl.arranged
    rw [List.append_nil] at harr
    have hsame : ∀ b ∈ c.live.map Grant.block ++ free,
        SameHeader c.heap { c.heap with cells := Function.update c.heap.cells x v } b.addr := by
      intro b hb y hlo hhi
      by_cases hy : y = x
      · subst hy
        rcases hcare with heq | hoff
        · exact (Function.update_self y v c.heap.cells).trans heq.symm
        · have hpast := hoff g hg
          have hne : g.block ≠ b := by
            intro heq
            rw [← heq] at hlo hhi
            unfold Grant.block at hlo hhi
            dsimp only at hlo hhi
            omega
          have hapart := harr.apart.forall
            (List.mem_append_left _ (List.mem_map_of_mem hg)) hb hne
          unfold Apart Block.stop Grant.block at hapart
          dsimp only at hapart
          omega
      · exact Function.update_of_ne hy v c.heap.cells
    exact ⟨⟨free, hl.stored.frame rfl hsame, hl.arranged, hl.count, hl.used⟩, hc.small⟩
  · simp [clientStep, hx] at h

theorem clientInv_step {c t : Client} {a : Call} (hc : ClientInv c)
    (h : guarded clientStep Careful c a = some t) : ClientInv t := by
  obtain ⟨hcare, hstep⟩ := (guarded_eq_some _ _ c t a).mp h
  cases a with
  | malloc n => exact clientInv_malloc hc hcare hstep
  | free p => exact clientInv_free hc hstep
  | store x v => exact clientInv_store hc hcare hstep

/-- In every run from the empty heap whose stores leave block headers as they are
and whose growths stay below the top of the address space, live ranges are
disjoint and inside chunks, every release counts, and every further request that
meets the condition returns. -/
theorem heap_isolation_of_careful (vm : Paging) (current : ℕ) (cells : Memory) (calls : List Call)
    (c : Client)
    (hrun : exec (guarded clientStep Careful) (newClient vm current cells) calls = some c) :
    Isolated c ∧ ∀ n < 65536, HasRoom c.heap n → (tmalloc c.heap n).isSome := by
  have hinv : ClientInv c :=
    exec_invariant (fun _ _ _ hs hstep => clientInv_step hs hstep)
      calls (clientInv_new vm current cells) hrun
  obtain ⟨free, hl⟩ := hinv.laid
  refine ⟨hinv.isolated, ?_⟩
  intro n hn hroom
  obtain ⟨h', p, hres, _⟩ := tmalloc_laid hl (hroom.noWrap hl (by omega))
  rw [hres]
  rfl

/-- A machine of 64 frames, the first eight of them in use: the root table in
frame 1 and the tables of the heap's first 2 MiB in frames 2 to 4. -/
def smallMachine : Paging where
  mem :=
    let m := setEntry (fun _ => 0) 0x1000 511 0x2003
    let m := setEntry m 0x2000 511 0x3003
    setEntry m 0x3000 0 0x4003
  pmm := ⟨fun i => if i = 0 then 0xFF#32 else 0#32, 64, 56, 8⟩

/-- Two blocks, a store into the payload of the second, and the first one freed
and handed out again. -/
theorem reuse_isolated :
    ∃ c, exec (guarded clientStep Careful) (newClient smallMachine 0x1000 (fun _ => 0))
        [.malloc 16, .malloc 40, .store 0xFFFFFFFFC0000044 7, .free 0xFFFFFFFFC0000010,
          .malloc 10] = some c ∧
      c.live = [⟨0xFFFFFFFFC0000010, 10⟩, ⟨0xFFFFFFFFC0000030, 40⟩] ∧ Isolated c := by
  have hlive : (exec (guarded clientStep Careful) (newClient smallMachine 0x1000 (fun _ => 0))
      [.malloc 16, .malloc 40, .store 0xFFFFFFFFC0000044 7, .free 0xFFFFFFFFC0000010,
        .malloc 10]).map (fun c => c.live) =
      some [⟨0xFFFFFFFFC0000010, 10⟩, ⟨0xFFFFFFFFC0000030, 40⟩] := by decide +kernel
  obtain ⟨c, hc, hv⟩ := Option.map_eq_some_iff.mp hlive
  exact ⟨c, hc, hv, (heap_isolation_of_careful _ _ _ _ c hc).1⟩

/-- One zero byte stored at offset 8 of a block of 16 bytes: the block is still
live, and releasing it no longer counts. -/
theorem store_in_header_loses_block :
    ∃ c, exec clientStep (newClient smallMachine 0x1000 (fun _ => 0))
        [.malloc 16, .store 0xFFFFFFFFC0000018 0] = some c ∧
      c.live = [⟨0xFFFFFFFFC0000010, 16⟩] ∧
      (tfree c.heap 0xFFFFFFFFC0000010).blockCount = c.heap.blockCount ∧ ¬ Isolated c := by
  have hrun : (exec clientStep (newClient smallMachine 0x1000 (fun _ => 0))
      [.malloc 16, .store 0xFFFFFFFFC0000018 0]).map (fun c =>
        (c.live, (tfree c.heap 0xFFFFFFFFC0000010).blockCount, c.heap.blockCount)) =
      some ([⟨0xFFFFFFFFC0000010, 16⟩], 1, 1) := by decide +kernel
  obtain ⟨c, hc, hv⟩ := Option.map_eq_some_iff.mp hrun
  obtain ⟨hlive, hcount⟩ := Prod.mk.inj hv
  obtain ⟨hafter, hbefore⟩ := Prod.mk.inj hcount
  refine ⟨c, hc, hlive, hafter.trans hbefore.symm, ?_⟩
  intro hiso
  have hdrop := hiso.released ⟨0xFFFFFFFFC0000010, 16⟩ (by rw [hlive]; simp)
  rw [hafter, hbefore] at hdrop
  omega

end TraitOS.Tmalloc
