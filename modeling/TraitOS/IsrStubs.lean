import TraitOS.X86

/-!
# Interrupt stubs

Every vector has a stub that completes what the processor pushed to a `registers_t`, pushes the
general registers and calls a handler with the address of it. The handler may write to the
structure; what it leaves there is what the interrupted code continues with. The structure only
lines up with the words on the stack if the stub knows whether the processor pushed an error code.
-/
namespace TraitOS.IsrStubs
open ByteMemory StackMachine X86

/-! ## The source -/

inductive Handler where
  | isrHandler
  | irqHandler
  | syscallHandler
deriving DecidableEq, Repr

/-- A stub: what it pushes, and the handler that its common part calls. -/
structure Stub where
  pushes : List Word
  handler : Handler
deriving DecidableEq, Repr

def isrNoerr (n : ℕ) : Stub := ⟨[0, BitVec.ofNat 64 n], .isrHandler⟩
def isrErr (n : ℕ) : Stub := ⟨[BitVec.ofNat 64 n], .isrHandler⟩
def irq (_ n : ℕ) : Stub := ⟨[0, BitVec.ofNat 64 n], .irqHandler⟩
def isr128 : Stub := ⟨[0, 128], .syscallHandler⟩

def stub (v : ℕ) : Option Stub :=
  if v < 32 then some (if v ∈ [8, 10, 11, 12, 13, 14, 17] then isrErr v else isrNoerr v)
  else if v < 48 then some (irq (v - 32) v)
  else if v = 128 then some isr128
  else none

/-- The general registers, in the order the common stubs push them. -/
def savedRegs : List Reg :=
  [.rax, .rbx, .rcx, .rdx, .rsi, .rdi, .rbp, .r8, .r9, .r10, .r11, .r12, .r13, .r14, .r15]

/-- `isr_common_stub`, `irq_common_stub` and `syscall_common_stub` up to the call of the handler. -/
def commonEntry : List (Op Reg) := savedRegs.map Op.push ++ [.mov .rdi .rsp]

/-- And from its return to the `iretq`. -/
def commonExit : List (Op Reg) := savedRegs.reverse.map Op.pop ++ [.addImm .rsp 16]

/-- A `registers_t`: the registers of the interrupted code, with the vector and the error code. -/
structure Registers where
  reg : Reg → Word
  intNo : Word
  errCode : Word

/-- The words of the structure, in the order of its members. -/
def Registers.words (r : Registers) : List Word :=
  savedRegs.reverse.map r.reg ++ [r.intNo, r.errCode] ++ returnRegs.map r.reg

/-- What the address of a `registers_t` shows of it; the general registers, the two numbers and the
return frame. -/
def readRegisters (m : Memory) (a : ℕ) : Registers where
  intNo := loadWord m (a + 120)
  errCode := loadWord m (a + 128)
  reg
    | .r15 => loadWord m a
    | .r14 => loadWord m (a + 8)
    | .r13 => loadWord m (a + 16)
    | .r12 => loadWord m (a + 24)
    | .r11 => loadWord m (a + 32)
    | .r10 => loadWord m (a + 40)
    | .r9 => loadWord m (a + 48)
    | .r8 => loadWord m (a + 56)
    | .rbp => loadWord m (a + 64)
    | .rdi => loadWord m (a + 72)
    | .rsi => loadWord m (a + 80)
    | .rdx => loadWord m (a + 88)
    | .rcx => loadWord m (a + 96)
    | .rbx => loadWord m (a + 104)
    | .rax => loadWord m (a + 112)
    | .rip => loadWord m (a + 136)
    | .cs => loadWord m (a + 144)
    | .rflags => loadWord m (a + 152)
    | .rsp => loadWord m (a + 160)
    | .ss => loadWord m (a + 168)

/-- From the interrupted instruction to the call of the handler. -/
def enter (c : Processor) (rsp0 rip cs : Word) (error : Option Word) (s : Stub) : Processor :=
  exec .rsp (deliver c rsp0 rip cs error) (s.pushes.map Op.pushImm ++ commonEntry)

/-- From the return of the handler on. -/
def leave (c : Processor) : Processor := iretq (exec .rsp c commonExit)

/-- The exceptions for which the processor pushes an error code. -/
def pushesError (v : ℕ) : Bool := v ∈ [8, 10, 11, 12, 13, 14, 17, 21, 29, 30]

/-! ## The structure on the stack -/

lemma words_readRegisters (m : Memory) (a : ℕ) : Words m a (readRegisters m a).words := by
  simp [Registers.words, savedRegs, returnRegs, readRegisters]

lemma readRegisters_eq {m : Memory} {a : ℕ} {r : Registers} (h : Words m a r.words) :
    readRegisters m a = r := by
  obtain ⟨reg, intNo, errCode⟩ := r
  have hsame := (words_readRegisters m a).unique h (by simp [Registers.words])
  simp only [Registers.words, savedRegs, returnRegs, List.reverse_cons, List.reverse_nil,
    List.nil_append,
    List.cons_append, List.map_cons, List.map_nil, List.cons.injEq, and_true] at hsame
  have hreg : (readRegisters m a).reg = reg := by
    funext r
    cases r <;> simp [hsame]
  have hint : (readRegisters m a).intNo = intNo := by simp [hsame]
  have herr : (readRegisters m a).errCode = errCode := by simp [hsame]
  rw [← hreg, ← hint, ← herr]

lemma savedRegs_not_return : ∀ r ∈ savedRegs, r ∉ returnRegs := by decide

lemma savedRegs_or_return (r : Reg) : r ∈ savedRegs ∨ r ∈ returnRegs := by cases r <;> decide

/-- The words below the return frame, lowest first: the registers and what the stub pushed. -/
lemma enter_spec {c : Processor} {rsp0 : Word} (rip cs : Word) {error : Option Word} {s : Stub}
    (hroom : 8 * (21 + s.pushes.length) ≤ (frameTop c rsp0).toNat) :
    let c' := enter c rsp0 rip cs error s
    c'.reg .rdi = c'.reg .rsp ∧
      (c'.reg .rsp).toNat + 8 * (20 + s.pushes.length + error.toList.length) =
        (frameTop c rsp0).toNat ∧
      Words c'.mem (c'.reg .rsp).toNat
        (savedRegs.reverse.map c.reg ++ s.pushes.reverse ++ error.toList ++ returnRegs.map c.reg) ∧
      ∀ a, (frameTop c rsp0).toNat ≤ a → c'.mem a = c.mem a := by
  obtain ⟨hpointer, hwords, hkept, hframe⟩ :=
    deliver_spec rip cs error (show 48 ≤ (frameTop c rsp0).toNat by omega)
  obtain ⟨d, hd⟩ : ∃ d, d = deliver c rsp0 rip cs error := ⟨_, rfl⟩
  rw [← hd] at hpointer hwords hkept hframe
  have hone : error.toList.length ≤ 1 := by cases error <;> simp
  have hentry : (entryWords c error).length = error.toList.length + 5 := by
    simp [entryWords, returnRegs]
  rw [hentry] at hpointer
  -- the pushes of the stub, then those of the common part
  have hstub : Pushed .rsp d s.pushes.reverse (exec .rsp d (s.pushes.map Op.pushImm)) :=
    pushed_words (by omega)
  obtain ⟨d₁, hd₁⟩ : ∃ d₁, d₁ = exec .rsp d (s.pushes.map Op.pushImm) := ⟨_, rfl⟩
  rw [← hd₁] at hstub
  have hpointer₁ := hstub.pointer
  rw [List.length_reverse] at hpointer₁
  have hcount : savedRegs.length = 15 := rfl
  have hsave := @pushed_registers Reg _ .rsp d₁ savedRegs (by decide) (by omega)
  have hregs : (savedRegs.map d₁.reg).reverse = savedRegs.reverse.map c.reg := by
    rw [List.map_reverse]
    refine congrArg _ (List.map_congr_left fun r hr => ?_)
    have hout : r ∉ returnRegs := savedRegs_not_return r hr
    rw [hstub.kept r (fun h => hout (h ▸ by decide)), hkept r hout]
  rw [hregs] at hsave
  have hall := hstub.trans hsave
  obtain ⟨d₂, hd₂⟩ : ∃ d₂, d₂ = exec .rsp d₁ (savedRegs.map Op.push) := ⟨_, rfl⟩
  rw [← hd₂] at hall
  have hpointer₂ := hall.pointer
  have hlen₂ : (savedRegs.reverse.map c.reg ++ s.pushes.reverse).length = 15 + s.pushes.length := by
    rw [List.length_append, List.length_map, List.length_reverse, List.length_reverse, hcount]
  rw [hlen₂] at hpointer₂
  have henter : enter c rsp0 rip cs error s = d₂.set .rdi (d₂.reg .rsp) := by
    rw [enter, ← hd, exec_append, ← hd₁, commonEntry, exec_append, ← hd₂]
    rfl
  dsimp only
  rw [henter, set_self, set_of_ne _ _ (by decide), set_mem]
  refine ⟨rfl, by omega, ?_, fun a ha => ?_⟩
  · rw [List.append_assoc, words_append, hlen₂]
    refine ⟨hall.words, ?_⟩
    rw [hpointer₂]
    exact hwords.congr fun a ha _ => (hall.frame a (Or.inr ha)).symm
  · rw [hall.frame a (Or.inr (by omega)), hframe a ha]

/-- The common stubs after the handler's return. -/
lemma leave_spec {c : Processor} (hlt : (c.reg .rsp).toNat + 176 < 2 ^ 64) :
    leave c = ⟨(readRegisters c.mem (c.reg .rsp).toNat).reg, c.mem⟩ := by
  obtain ⟨r, hr⟩ : ∃ r, r = readRegisters c.mem (c.reg .rsp).toNat := ⟨_, rfl⟩
  have hwords := words_readRegisters c.mem (c.reg .rsp).toNat
  rw [← hr, Registers.words, List.append_assoc, words_append, words_append] at hwords
  obtain ⟨hsaved, -, hreturn⟩ := hwords
  have hlen : (savedRegs.reverse.map r.reg).length = 15 := by simp [savedRegs]
  have haddr : (c.reg .rsp).toNat + 8 * 15 + 8 * [r.intNo, r.errCode].length =
    (c.reg .rsp).toNat + 136 := by
    simp only [List.length_cons, List.length_nil]
  rw [hlen, haddr] at hreturn
  have hpop := @popped_registers Reg _ .rsp c savedRegs.reverse _ (by decide)
    (by decide) hsaved (by simp) (by omega)
  obtain ⟨d, hd⟩ : ∃ d, d = exec .rsp c (savedRegs.reverse.map Op.pop) := ⟨_, rfl⟩
  rw [← hd] at hpop
  have hpointer := hpop.pointer
  rw [hlen] at hpointer
  have hexit : exec .rsp c commonExit = d.set .rsp (d.reg .rsp + 16) := by
    rw [commonExit, exec_append, ← hd]
    rfl
  have hsp : (d.reg .rsp + 16).toNat = (c.reg .rsp).toNat + 136 := by bv_omega
  have hframe : Words (d.set .rsp (d.reg .rsp + 16)).mem ((d.set .rsp (d.reg .rsp + 16)).reg
    .rsp).toNat
      (ReturnFrame.words ⟨r.reg .rip, r.reg .cs, r.reg .rflags, r.reg .rsp, r.reg .ss⟩) := by
    rw [set_mem, set_self, hsp, hpop.mem]
    exact hreturn
  obtain ⟨hloaded, hkept, hmem⟩ := iretq_spec hframe
  have hregs : (leave c).reg = r.reg := by
    funext q
    rw [leave, hexit]
    by_cases hq : q ∈ returnRegs
    · exact List.map_inj_left.mp (hloaded : returnRegs.map _ = returnRegs.map r.reg) q hq
    · have hq' : q ∈ savedRegs.reverse :=
        List.mem_reverse.mpr ((savedRegs_or_return q).resolve_right hq)
      have hne : q ≠ .rsp := fun h => hq (h ▸ by decide)
      rw [hkept q hq, set_of_ne _ _ hne]
      exact List.map_inj_left.mp hpop.values q hq'
  have hmem' : (leave c).mem = c.mem := by
    rw [leave, hexit, hmem, set_mem, hpop.mem]
  rw [← hr]
  exact Cpu.ext hregs hmem'

/-! ## Entering and leaving -/

/-- The words between the registers and the return frame, where the stub knows about the error code.
-/
lemma stub_middle {v : ℕ} {s : Stub} (hs : stub v = some s) (hv : v ∉ [21, 29, 30])
    {error : Option Word} (herror : error.isSome = pushesError v) :
    s.pushes.reverse ++ error.toList = [BitVec.ofNat 64 v, error.getD 0] := by
  unfold stub at hs
  simp only [List.mem_cons, List.not_mem_nil, or_false, not_or] at hv
  split_ifs at hs with h32 hmem h48 h128 <;> obtain rfl := Option.some.inj hs
  · obtain ⟨e, rfl⟩ := Option.isSome_iff_exists.mp (herror.trans (by simp_all [pushesError]))
    simp [isrErr]
  all_goals
    obtain rfl :=
      Option.not_isSome_iff_eq_none.mp (by rw [herror]; simp_all [pushesError]; try omega)
    simp_all [isrNoerr, irq, isr128]

/-- The structure at the call of the handler. -/
lemma enter_registers {v : ℕ} {s : Stub} (hs : stub v = some s) (hv : v ∉ [21, 29, 30])
    {error : Option Word} (herror : error.isSome = pushesError v) {c : Processor} {rsp0 : Word}
    (rip cs : Word) (hroom : 184 ≤ (frameTop c rsp0).toNat) : let c' := enter c rsp0 rip cs error s
    c'.reg .rdi = c'.reg .rsp ∧ (c'.reg .rsp).toNat + 176 = (frameTop c rsp0).toNat ∧
      readRegisters c'.mem (c'.reg .rsp).toNat = ⟨c.reg, BitVec.ofNat 64 v, error.getD 0⟩ ∧
      ∀ a, (frameTop c rsp0).toNat ≤ a → c'.mem a = c.mem a := by
  have hmiddle := stub_middle hs hv herror
  have hcount : s.pushes.length + error.toList.length = 2 := by
    have h := congrArg List.length hmiddle
    simpa using h
  obtain ⟨hrdi, hpointer, hwords, hframe⟩ := @enter_spec c rsp0 rip cs error s (by omega)
  rw [List.append_assoc (savedRegs.reverse.map c.reg), hmiddle] at hwords
  exact ⟨hrdi, by omega, readRegisters_eq hwords, hframe⟩

/-- At the call of its handler every interrupt shows the registers of the interrupted code, the
vector and the error code, and whatever the structure holds at the handler's return, the interrupted
code continues with that. -/
theorem interrupt_roundtrip (v : ℕ) (s : Stub) (hs : stub v = some s) (hv : v ∉ [21, 29, 30])
    (error : Option Word) (herror : error.isSome = pushesError v) (c : Processor)
    (rsp0 rip cs : Word) (hroom : 184 ≤ (frameTop c rsp0).toNat) :
    readRegisters (enter c rsp0 rip cs error s).mem ((enter c rsp0 rip cs error s).reg .rdi).toNat =
        ⟨c.reg, BitVec.ofNat 64 v, error.getD 0⟩ ∧
      (∀ a, (frameTop c rsp0).toNat ≤ a → (enter c rsp0 rip cs error s).mem a = c.mem a) ∧
      ∀ c' : Processor, c'.reg .rsp = (enter c rsp0 rip cs error s).reg .rsp →
        leave c' = ⟨(readRegisters c'.mem ((enter c rsp0 rip cs error s).reg .rdi).toNat).reg,
          c'.mem⟩ := by
  obtain ⟨hrdi, hpointer, hregisters, hframe⟩ := enter_registers hs hv herror rip cs hroom
  rw [hrdi]
  refine ⟨hregisters, hframe, fun c' hc' => ?_⟩
  have hlt := (frameTop c rsp0).isLt
  rw [← hc', leave_spec (by rw [hc']; omega)]

/-- Kernel code, interrupted by the timer. -/
def kernelCode : Processor := ⟨fun r => if r = .cs then 0x08 else 0x4000, fun _ => 0⟩

theorem timer_roundtrip :
    readRegisters (enter kernelCode 0 0x20 0x08 none (irq 0 32)).mem
      ((enter kernelCode 0 0x20 0x08 none (irq 0 32)).reg .rdi).toNat = ⟨kernelCode.reg, 32, 0⟩ :=
  (interrupt_roundtrip 32 (irq 0 32) (by decide)
    (by decide) none (by decide) kernelCode 0 0x20 0x08 (by decide)).1

/-! ## Faults -/

inductive FaultOutcome where
  | killTask
  | panic
  | returns
deriving DecidableEq, Repr

/-- What `isr_handler` does, decided by the structure it is given. -/
def isrHandler (r : Registers) : FaultOutcome :=
  if r.intNo.toNat < 32 then if r.reg .cs &&& 3 = 3 then .killTask else .panic
  else .returns

/-- Where the stub does not know about the error code, the structure takes it for the instruction
pointer, and that for the segment. -/
lemma shifted_frame (v : ℕ) (e : Word) {c : Processor} {rsp0 : Word} (rip cs : Word)
    (hroom : 184 ≤ (frameTop c rsp0).toNat) : let c' := enter c rsp0 rip cs (some e) (isrNoerr v)
    (readRegisters c'.mem (c'.reg .rdi).toNat).intNo = BitVec.ofNat 64 v ∧
      (readRegisters c'.mem (c'.reg .rdi).toNat).reg .cs = c.reg .rip := by
  obtain ⟨hrdi, -, hwords, -⟩ := @enter_spec c rsp0 rip cs (some e) (isrNoerr v)
    (by simpa [isrNoerr] using hroom)
  have hlen : (savedRegs.reverse.map c.reg).length = 15 := by
    rw [List.length_map, List.length_reverse]; rfl
  rw [List.append_assoc, List.append_assoc, words_append, hlen] at hwords
  obtain ⟨-, hint, -, -, hcs, -⟩ := hwords
  dsimp only
  rw [hrdi]
  exact ⟨hint, hcs⟩

/-- A fault kills the task if it comes from ring 3 and halts the kernel otherwise; for three
exceptions the address of the instruction decides instead of its segment. -/
theorem fault_outcome (v : ℕ) (hv : v < 32) (s : Stub) (hs : stub v = some s) (error : Option Word)
    (herror : error.isSome = pushesError v) (c : Processor) (rsp0 rip cs : Word)
    (hroom : 184 ≤ (frameTop c rsp0).toNat) :
    isrHandler (readRegisters (enter c rsp0 rip cs error s).mem ((enter c rsp0 rip cs error s).reg
      .rdi).toNat) =
      if c.reg (if v ∈ [21, 29, 30] then .rip else .cs) &&& 3 = 3 then .killTask else .panic := by
  have hint : (BitVec.ofNat 64 v).toNat < 32 := by
    rw [BitVec.toNat_ofNat, Nat.mod_eq_of_lt (by omega)]
    exact hv
  by_cases hthree : v ∈ [21, 29, 30]
  · obtain ⟨e, rfl⟩ : ∃ e, error = some e := by
      refine Option.isSome_iff_exists.mp (herror.trans ?_)
      simp only [List.mem_cons, List.not_mem_nil, or_false] at hthree
      rcases hthree with rfl | rfl | rfl <;> rfl
    obtain rfl : s = isrNoerr v := by
      simp only [List.mem_cons, List.not_mem_nil, or_false] at hthree
      rcases hthree with rfl | rfl | rfl <;> exact (Option.some.inj hs).symm
    obtain ⟨hno, hcs⟩ := @shifted_frame v e c rsp0 rip cs hroom
    rw [isrHandler, hno, hcs, if_pos hint, if_pos hthree]
  · obtain ⟨hrdi, -, hregisters, -⟩ := enter_registers hs hthree herror rip cs hroom
    rw [hrdi, hregisters, isrHandler, if_pos hint, if_neg hthree]

/-- User code. -/
def userCode : Processor := ⟨fun r => if r = .cs then 0x1B else 0x4000, fun _ => 0⟩

theorem page_fault_kills :
    isrHandler (readRegisters (enter userCode 0x9000 0x20 0x08 (some 4) (isrErr 14)).mem
      ((enter userCode 0x9000 0x20 0x08 (some 4) (isrErr 14)).reg .rdi).toNat) = .killTask :=
  (fault_outcome 14 (by decide) (isrErr 14) (by decide) (some 4)
    (by decide) userCode 0x9000 0x20 0x08 (by decide)).trans (by decide)

end TraitOS.IsrStubs
