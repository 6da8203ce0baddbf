import TraitOS.IsrStubs

/-!
# The interrupt descriptor table

`idt_set_gate` takes an address apart and the processor puts it together again. After `idt_init`
each vector with a stub leads to its stub through an interrupt gate, every other vector is
refused, and of all vectors ring 3 can only name the one of the system calls.
-/
namespace TraitOS.Idt
open StackMachine IsrStubs

/-! ## The source -/

structure IdtEntry where
  baseLow : BitVec 16
  selector : BitVec 16
  ist : BitVec 8
  flags : BitVec 8
  baseMid : BitVec 16
  baseHigh : BitVec 32
  zero : BitVec 32
deriving DecidableEq, Repr

abbrev Table := ℕ → IdtEntry

def kernelCodeSelector : BitVec 16 := 0x08
def idtFlagGate64 : BitVec 8 := 0x8E
def idtFlagGate64User : BitVec 8 := 0xEE

def gateEntry (base : Word) (selector : BitVec 16) (flags : BitVec 8) : IdtEntry where
  baseLow := (base &&& 0xFFFF).setWidth 16
  baseMid := ((base >>> 16) &&& 0xFFFF).setWidth 16
  baseHigh := ((base >>> 32) &&& 0xFFFFFFFF).setWidth 32
  selector := selector
  ist := 0
  flags := flags
  zero := 0

def idtSetGate (idt : Table) (index : ℕ) (base : Word) (selector : BitVec 16) (flags : BitVec 8) :
    Table :=
  Function.update idt index (gateEntry base selector flags)

/-- The addresses of the stubs. -/
structure StubAddresses where
  isr : ℕ → Word
  irq : ℕ → Word
  isr128 : Word

/-- The gates `idt_init` sets one after the other: the vector, the stub and the flags. -/
def gates (x : StubAddresses) : List (ℕ × Word × BitVec 8) :=
  (List.range 32).map (fun i => (i, x.isr i, idtFlagGate64)) ++
    [(128, x.isr128, idtFlagGate64User)] ++
    (List.range 16).map fun i => (32 + i, x.irq i, idtFlagGate64)

def idtInit (x : StubAddresses) (idt : Table) : Table :=
  let idt := (List.range 256).foldl (fun t i => idtSetGate t i 0 0 0) idt
  (gates x).foldl (fun t g => idtSetGate t g.1 g.2.1 kernelCodeSelector g.2.2) idt

/-! ## The processor -/

/-- Where a gate leads. -/
structure Gate where
  offset : Word
  selector : BitVec 16
  dpl : BitVec 2
deriving DecidableEq, Repr

/-- The gate of an entry, if it is present and an interrupt gate. -/
def decode (e : IdtEntry) : Option Gate :=
  if e.flags.getLsbD 7 ∧ e.flags &&& 0x1F = 0x0E then
    some ⟨(e.baseHigh ++ e.baseMid ++ e.baseLow), e.selector, (e.flags >>> 5).setWidth 2⟩
  else none

/-- A program names a vector; it needs the privilege of the gate. -/
def softwareInterrupt (idt : Table) (v : ℕ) (cpl : BitVec 2) : Option Gate :=
  (decode (idt v)).filter fun g => cpl ≤ g.dpl

/-! ## The table -/

lemma base_parts (base : Word) :
    ((base >>> 32) &&& 0xFFFFFFFF).setWidth 32 ++ ((base >>> 16) &&& 0xFFFF).setWidth 16 ++
      (base &&& 0xFFFF).setWidth 16 = base := by
  have hmask : (0xFFFFFFFF : Word).toNat = 2 ^ 32 - 1 := by decide
  have hmask' : (0xFFFF : Word).toNat = 2 ^ 16 - 1 := by decide
  have hlt := base.isLt
  apply BitVec.eq_of_toNat_eq
  simp only [BitVec.toNat_append, BitVec.toNat_setWidth, BitVec.toNat_and, BitVec.toNat_ushiftRight,
    hmask, hmask', Nat.and_two_pow_sub_one_eq_mod, Nat.shiftRight_eq_div_pow]
  rw [← Nat.shiftLeft_add_eq_or_of_lt (by omega), ← Nat.shiftLeft_add_eq_or_of_lt (by omega),
    Nat.shiftLeft_eq, Nat.shiftLeft_eq]
  omega

lemma decode_gateEntry (base : Word) (selector : BitVec 16) (flags : BitVec 8) :
    decode (gateEntry base selector flags) =
      if flags.getLsbD 7 ∧ flags &&& 0x1F = 0x0E then some ⟨base, selector,
        (flags >>> 5).setWidth 2⟩ else none := by
  simp only [decode, gateEntry, base_parts]

lemma decode_kernel (base : Word) :
    decode (gateEntry base kernelCodeSelector idtFlagGate64) = some ⟨base, 0x08, 0⟩ := by
  have hdpl : (idtFlagGate64 >>> 5).setWidth 2 = (0 : BitVec 2) := by decide
  rw [decode_gateEntry, if_pos (by decide), hdpl, kernelCodeSelector]

lemma decode_user (base : Word) :
    decode (gateEntry base kernelCodeSelector idtFlagGate64User) = some ⟨base, 0x08, 3⟩ := by
  have hdpl : (idtFlagGate64User >>> 5).setWidth 2 = (3 : BitVec 2) := by decide
  rw [decode_gateEntry, if_pos (by decide), hdpl, kernelCodeSelector]

/-- The gates are set one after the other, and no vector twice. -/
lemma foldl_setGate (gs : List (ℕ × Word × BitVec 8)) (hnodup : (gs.map Prod.fst).Nodup)
    (idt : Table) (v : ℕ) :
    (∀ b f, (v, b, f) ∈ gs →
      gs.foldl (fun t g => idtSetGate t g.1 g.2.1 kernelCodeSelector g.2.2) idt v =
        gateEntry b kernelCodeSelector f) ∧
    (v ∉ gs.map Prod.fst →
      gs.foldl (fun t g => idtSetGate t g.1 g.2.1 kernelCodeSelector g.2.2) idt v = idt v) := by
  induction gs generalizing idt with
  | nil => simp
  | cons g gs ih =>
    obtain ⟨u, b, f⟩ := g
    obtain ⟨hu, hnodup⟩ := List.nodup_cons.mp hnodup
    obtain ⟨hmem, hnot⟩ := ih hnodup (idtSetGate idt u b kernelCodeSelector f)
    refine ⟨fun b' f' h => ?_, fun h => ?_⟩
    · rcases List.mem_cons.mp h with heq | h
      · obtain ⟨rfl, rfl, rfl⟩ := heq
        rw [List.foldl_cons, hnot hu, idtSetGate, Function.update_self]
      · exact hmem b' f' h
    · obtain ⟨hne, h⟩ := not_or.mp (List.mem_cons.not.mp h)
      rw [List.foldl_cons, hnot h, idtSetGate, Function.update_of_ne hne]

lemma foldl_clear (n : ℕ) (idt : Table) {v : ℕ} (hv : v < n) :
    (List.range n).foldl (fun t i => idtSetGate t i 0 0 0) idt v = gateEntry 0 0 0 := by
  induction n with
  | zero => omega
  | succ n ih =>
    rw [List.range_succ, List.foldl_append, List.foldl_cons, List.foldl_nil, idtSetGate]
    by_cases heq : v = n
    · rw [heq, Function.update_self]
    · rw [Function.update_of_ne heq, ih (by omega)]

lemma gates_nodup (x : StubAddresses) : ((gates x).map Prod.fst).Nodup := by
  have hvectors : (gates x).map Prod.fst = List.range 32 ++ [128] ++ (List.range 16).map (32 + ·) :=
    by
    simp [gates, Function.comp_def]
  rw [hvectors]
  decide

/-- The address of the stub of a vector. -/
def StubAddresses.address (x : StubAddresses) (v : ℕ) : Word :=
  if v < 32 then x.isr v else if v < 48 then x.irq (v - 32) else x.isr128

lemma decode_idtInit (x : StubAddresses) (idt : Table) {v : ℕ} (hv : v < 256) :
    decode (idtInit x idt v) = (stub v).map fun _ => ⟨x.address v, 0x08, if v = 128 then 3
      else 0⟩ := by
  have hgates := foldl_setGate (gates x) (gates_nodup x)
    ((List.range 256).foldl (fun t i => idtSetGate t i 0 0 0) idt) v
  rw [foldl_clear 256 idt hv] at hgates
  unfold idtInit stub StubAddresses.address
  by_cases h32 : v < 32
  · rw [hgates.1 (x.isr v) idtFlagGate64 (by simp [gates, h32]), decode_kernel]
    simp [h32, show v ≠ 128 by omega]
  by_cases h48 : v < 48
  · have hmem : (v, x.irq (v - 32), idtFlagGate64) ∈ gates x := by
      simp only [gates, List.mem_append, List.mem_map, List.mem_range]
      exact Or.inr ⟨v - 32, by omega, by rw [Nat.add_sub_of_le (by omega)]⟩
    rw [hgates.1 _ _ hmem, decode_kernel]
    simp [h32, h48, show v ≠ 128 by omega]
  by_cases h128 : v = 128
  · rw [hgates.1 x.isr128 idtFlagGate64User (by simp [gates, h128]), decode_user]
    simp [h128]
  · have hout : v ∉ (gates x).map Prod.fst := by
      simp only [gates, List.map_append, List.map_map, List.mem_append, List.mem_map,
        List.mem_range, List.mem_singleton, Function.comp_def, List.map_cons, List.map_nil]
      omega
    rw [hgates.2 hout]
    simp [h32, h48, h128]
    decide

/-- After `idt_init`, whatever the table held before: a vector is accepted exactly if it has a stub
and leads there into ring 0, and a program in ring 3 can only raise the vector of the system calls.
-/
theorem idt_entry_points (x : StubAddresses) (idt : Table) (v : ℕ) (hv : v < 256) :
    decode (idtInit x idt v) = (stub v).map (fun _ => ⟨x.address v, 0x08, if v = 128 then 3
      else 0⟩) ∧
      ∀ g, softwareInterrupt (idtInit x idt) v 3 = some g ↔ v = 128 ∧ g = ⟨x.isr128, 0x08, 3⟩ := by
  refine ⟨decode_idtInit x idt hv, fun g => ?_⟩
  have haccept : softwareInterrupt (idtInit x idt) v 3 = if v = 128 then some ⟨x.isr128, 0x08, 3⟩
    else none := by
    rw [softwareInterrupt, decode_idtInit x idt hv]
    by_cases h128 : v = 128
    · subst h128
      rfl
    · rw [if_neg h128, if_neg h128]
      cases stub v <;> rfl
  rw [haccept]
  by_cases h128 : v = 128
  · simp [h128, eq_comm]
  · simp [h128]

/-- Stubs in the order of their vectors. -/
def sampleStubs : StubAddresses := ⟨BitVec.ofNat 64, fun i => BitVec.ofNat 64 (32 + i), 128⟩

/-- Of the gates of the sample `int 3` cannot be raised from ring 3, but it is there for the
processor. -/
theorem idt_breakpoint :
    decode (idtInit sampleStubs (fun _ => gateEntry 0 0 0) 3) = some ⟨3, 0x08, 0⟩ ∧
      softwareInterrupt (idtInit sampleStubs fun _ => gateEntry 0 0 0) 3 3 = none := by
  obtain ⟨hgate, hring⟩ := idt_entry_points sampleStubs (fun _ => gateEntry 0 0 0) 3 (by decide)
  refine ⟨hgate, Option.eq_none_iff_forall_ne_some.mpr fun g hg => ?_⟩
  exact absurd ((hring g).mp hg).1 (by decide)

end TraitOS.Idt
