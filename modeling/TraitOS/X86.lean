import TraitOS.StackMachine

/-!
# The registers of the processor, entering and leaving interrupts

The sixteen general registers with what `iretq` loads besides them, as registers of a stack
machine. A near return is a pop of the instruction pointer. An interrupt gate moves to the
kernel's stack if it is taken from ring 3, aligns it, and pushes what `iretq` loads; some
exceptions push an error code below it.
-/
namespace TraitOS.X86
open StackMachine

inductive Reg where
  | rax | rbx | rcx | rdx | rsi | rdi | rbp | rsp
  | r8 | r9 | r10 | r11 | r12 | r13 | r14 | r15
  | rip | cs | rflags | ss
deriving DecidableEq, Repr

abbrev Processor := Cpu Reg

/-- The registers that a call may not change, beside the stack pointer. -/
def calleeSaved : List Reg := [.rbp, .rbx, .r12, .r13, .r14, .r15]

/-- What `iretq` takes from the stack. -/
structure ReturnFrame where
  rip : Word
  cs : Word
  rflags : Word
  rsp : Word
  ss : Word

def ReturnFrame.words (f : ReturnFrame) : List Word := [f.rip, f.cs, f.rflags, f.rsp, f.ss]

def iretq (c : Processor) : Processor :=
  let a := (c.reg .rsp).toNat
  ((((c.set .rip (loadWord c.mem a)).set .cs (loadWord c.mem (a + 8))).set .rflags (loadWord c.mem
    (a + 16))).set .ss (loadWord c.mem (a + 32))).set .rsp (loadWord c.mem (a + 24))

/-- The registers that `iretq` loads. -/
def returnRegs : List Reg := [.rip, .cs, .rflags, .rsp, .ss]

lemma iretq_spec {c : Processor} {f : ReturnFrame} (h : Words c.mem (c.reg .rsp).toNat f.words) :
    returnRegs.map (iretq c).reg = f.words ∧ (∀ r, r ∉ returnRegs → (iretq c).reg r = c.reg r) ∧
      (iretq c).mem = c.mem := by
  obtain ⟨hrip, hcs, hrflags, hrsp, hss, -⟩ := h
  refine ⟨?_, fun r hr => ?_, rfl⟩
  · simp [returnRegs, ReturnFrame.words, iretq, Cpu.set, hrip, hcs, hrflags, hrsp, hss]
  · simp only [returnRegs, List.mem_cons, List.not_mem_nil, or_false, not_or] at hr
    simp [iretq, Cpu.set, hr]

/-- Where the frame of an interrupt begins. -/
def frameTop (c : Processor) (rsp0 : Word) : Word :=
  (if c.reg .cs &&& 3 = 3 then rsp0 else c.reg .rsp) &&& ~~~15

/-- The flags an interrupt gate clears: trap, interrupt, nested task, resume and virtual mode. -/
def clearedFlags : Word := 0x34300

def deliver (c : Processor) (rsp0 : Word) (rip cs : Word) (error : Option Word) : Processor :=
  let pushed := exec .rsp (c.set .rsp (frameTop c rsp0))
    (([c.reg .ss, c.reg .rsp, c.reg .rflags, c.reg .cs, c.reg .rip] ++ error.toList).map Op.pushImm)
  let ss := if c.reg .cs &&& 3 = 3 then 0 else c.reg .ss
  (((pushed.set .rip rip).set .cs cs).set .rflags (c.reg .rflags &&& ~~~clearedFlags)).set .ss ss

/-- What an interrupt leaves on the stack, lowest word first. -/
def entryWords (c : Processor) (error : Option Word) : List Word :=
  error.toList ++ returnRegs.map c.reg

lemma deliver_spec {c : Processor} {rsp0 : Word} (rip cs : Word) (error : Option Word)
    (hroom : 48 ≤ (frameTop c rsp0).toNat) :
    ((deliver c rsp0 rip cs error).reg .rsp).toNat + 8 * (entryWords c error).length =
      (frameTop c rsp0).toNat ∧
      Words (deliver c rsp0 rip cs error).mem ((deliver c rsp0 rip cs error).reg .rsp).toNat
        (entryWords c error) ∧
      (∀ r, r ∉ returnRegs → (deliver c rsp0 rip cs error).reg r = c.reg r) ∧
      ∀ a, (frameTop c rsp0).toNat ≤ a → (deliver c rsp0 rip cs error).mem a = c.mem a := by
  have hlen : error.toList.length ≤ 1 := by cases error <;> simp
  have hpush := @pushed_words Reg _ .rsp (c.set .rsp (frameTop c rsp0))
    ([c.reg .ss, c.reg .rsp, c.reg .rflags, c.reg .cs, c.reg .rip] ++ error.toList)
    (by simp only [set_self, List.length_append, List.length_cons, List.length_nil]; omega)
  have hwords : ([c.reg .ss, c.reg .rsp, c.reg .rflags, c.reg .cs, c.reg .rip] ++
      error.toList).reverse = entryWords c error := by
    cases error <;> simp [entryWords, returnRegs]
  rw [hwords] at hpush
  have hsp : (deliver c rsp0 rip cs error).reg .rsp = (exec .rsp (c.set .rsp (frameTop c rsp0))
      (([c.reg .ss, c.reg .rsp, c.reg .rflags, c.reg .cs, c.reg .rip] ++
        error.toList).map Op.pushImm)).reg .rsp := by
    simp [deliver, Cpu.set]
  rw [hsp]
  refine ⟨by simpa using hpush.pointer, hpush.words, fun r hr => ?_, fun a ha => ?_⟩
  · simp only [returnRegs, List.mem_cons, List.not_mem_nil, or_false, not_or] at hr
    have hkept := hpush.kept r hr.2.2.2.1
    rw [set_of_ne _ _ hr.2.2.2.1] at hkept
    simp only [deliver]
    rw [set_of_ne _ _ hr.2.2.2.2, set_of_ne _ _ hr.2.2.1, set_of_ne _ _ hr.2.1, set_of_ne _ _ hr.1,
      hkept]
  · exact hpush.frame a (Or.inr (by simpa using ha))

end TraitOS.X86
