import TraitOS.ByteMemory

/-!
# A processor with its stack in memory

Straight-line code over registers of 64 bits. Which registers there are is left open; one of
them is the stack pointer, and the stack grows down. The words of a stack are given as a list,
from the stack pointer up. Code that pushes registers is described by what it leaves in the
words and in the rest of memory, code that pops them by what it leaves in the registers.
-/
namespace TraitOS.StackMachine
open ByteMemory

abbrev Word := BitVec 64

/-! ## Words in memory -/

def loadWord (m : Memory) (a : ℕ) : Word := BitVec.ofNat 64 (load64 m a)

def storeWord (m : Memory) (a : ℕ) (v : Word) : Memory := store64 m a v.toNat

@[simp] lemma loadWord_storeWord (m : Memory) (a : ℕ) (v : Word) : loadWord (storeWord m a v) a =
    v := by
  rw [loadWord, storeWord, load64_store64_self m a v.isLt, BitVec.ofNat_toNat, BitVec.setWidth_eq]

@[simp] lemma loadWord_store64 (m : Memory) (a v : ℕ) : loadWord (store64 m a v) a =
    BitVec.ofNat 64 v := by
  rw [loadWord, load64, store64, loadLE_storeLE_self]
  exact BitVec.eq_of_toNat_eq (by simp)

lemma loadWord_storeWord_of_disjoint (m : Memory) {a b : ℕ} (v : Word) (h : b + 8 ≤ a ∨ a + 8 ≤ b) :
    loadWord (storeWord m a v) b = loadWord m b := by
  rw [loadWord, storeWord, load64_store64_of_disjoint m _ h, loadWord]

lemma storeWord_of_out (m : Memory) {a x : ℕ} (v : Word) (h : x < a ∨
    a + 8 ≤ x) : storeWord m a v x = m x :=
  storeLE_of_out m _ h

lemma loadWord_congr {m m' : Memory} {a : ℕ} (h : ∀ x, a ≤ x → x < a + 8 → m x = m' x) :
    loadWord m a = loadWord m' a := by
  rw [loadWord, load64, loadLE_congr h, loadWord]

/-- The words from an address on. -/
def Words (m : Memory) : ℕ → List Word → Prop
  | _, [] => True
  | a, w :: ws => loadWord m a = w ∧ Words m (a + 8) ws

@[simp] lemma words_nil (m : Memory) (a : ℕ) : Words m a [] := trivial

@[simp] lemma words_cons (m : Memory) (a : ℕ) (w : Word) (ws : List Word) :
    Words m a (w :: ws) ↔ loadWord m a = w ∧ Words m (a + 8) ws := Iff.rfl

lemma words_append (m : Memory) (a : ℕ) (us ws : List Word) :
    Words m a (us ++ ws) ↔ Words m a us ∧ Words m (a + 8 * us.length) ws := by
  induction us generalizing a with
  | nil => simp
  | cons u us ih =>
    have hshift : a + 8 + 8 * us.length = a + 8 * (us.length + 1) := by omega
    simp [ih, and_assoc, hshift]

lemma Words.congr {m m' : Memory} {a : ℕ} {ws : List Word} (h : Words m a ws)
    (hsame : ∀ x, a ≤ x → x < a + 8 * ws.length → m x = m' x) : Words m' a ws := by
  induction ws generalizing a with
  | nil => simp
  | cons w ws ih =>
    obtain ⟨hw, hws⟩ := h
    rw [List.length_cons] at hsame
    have hhead : loadWord m' a = w := by
      rw [← hw]
      exact loadWord_congr fun x hx hx' => (hsame x hx (by omega)).symm
    exact ⟨hhead, ih hws fun x hx hx' => hsame x (by omega) (by omega)⟩

/-- A list of words is determined by where it lies. -/
lemma Words.unique {m : Memory} {a : ℕ} {us ws : List Word} (hu : Words m a us) (hw : Words m a ws)
    (hlen : us.length = ws.length) : us = ws := by
  induction us generalizing a ws with
  | nil => exact (List.eq_nil_of_length_eq_zero hlen.symm).symm
  | cons u us ih =>
    cases ws with
    | nil => simp at hlen
    | cons w ws =>
      obtain ⟨hu₁, hu₂⟩ := hu
      obtain ⟨hw₁, hw₂⟩ := hw
      rw [ih hu₂ hw₂ (by simpa using hlen), ← hu₁, ← hw₁]

/-- Any memory holds some words. -/
lemma exists_words (m : Memory) (a n : ℕ) : ∃ ws : List Word, ws.length = n ∧ Words m a ws := by
  induction n generalizing a with
  | zero => exact ⟨[], rfl, trivial⟩
  | succ n ih =>
    obtain ⟨ws, hlen, hws⟩ := ih (a + 8)
    exact ⟨loadWord m a :: ws, by simp [hlen], rfl, hws⟩

/-! ## Instructions -/

@[ext] structure Cpu (ρ : Type*) where
  reg : ρ → Word
  mem : Memory

inductive Op (ρ : Type*) where
  | push (r : ρ)
  | pushImm (v : Word)
  | pop (r : ρ)
  | mov (dst src : ρ)
  /-- `mov dst, [addr]` and `mov [addr], src` at fixed addresses. -/
  | load (dst : ρ) (addr : ℕ)
  | store (addr : ℕ) (src : ρ)
  /-- `mov dst, [base]` and `mov [base], src`. -/
  | loadAt (dst base : ρ)
  | storeAt (base src : ρ)
  | addImm (dst : ρ) (v : Word)

section Machine
variable {ρ : Type*} [DecidableEq ρ] (sp : ρ)

def Cpu.set (c : Cpu ρ) (r : ρ) (v : Word) : Cpu ρ := { c with reg := Function.update c.reg r v }

def Cpu.push (c : Cpu ρ) (v : Word) : Cpu ρ :=
  { c.set sp (c.reg sp - 8) with mem := storeWord c.mem (c.reg sp - 8).toNat v }

/-- The register is written last, as in `pop` of the stack pointer itself. -/
def Cpu.pop (c : Cpu ρ) (r : ρ) : Cpu ρ :=
  (c.set sp (c.reg sp + 8)).set r (loadWord c.mem (c.reg sp).toNat)

def Op.run (c : Cpu ρ) : Op ρ → Cpu ρ
  | .push r => c.push sp (c.reg r)
  | .pushImm v => c.push sp v
  | .pop r => c.pop sp r
  | .mov dst src => c.set dst (c.reg src)
  | .load dst addr => c.set dst (loadWord c.mem addr)
  | .store addr src => { c with mem := storeWord c.mem addr (c.reg src) }
  | .loadAt dst base => c.set dst (loadWord c.mem (c.reg base).toNat)
  | .storeAt base src => { c with mem := storeWord c.mem (c.reg base).toNat (c.reg src) }
  | .addImm dst v => c.set dst (c.reg dst + v)

def exec (c : Cpu ρ) (ops : List (Op ρ)) : Cpu ρ := ops.foldl (Op.run sp) c

@[simp] lemma exec_nil (c : Cpu ρ) : exec sp c [] = c := rfl

@[simp] lemma exec_cons (c : Cpu ρ) (o : Op ρ) (ops : List (Op ρ)) :
    exec sp c (o :: ops) = exec sp (o.run sp c) ops := rfl

lemma exec_append (c : Cpu ρ) (ops ops' : List (Op ρ)) : exec sp c (ops ++ ops') =
    exec sp (exec sp c ops) ops' :=
  List.foldl_append

@[simp] lemma set_self (c : Cpu ρ) (r : ρ) (v : Word) : (c.set r v).reg r = v :=
  Function.update_self ..

lemma set_of_ne (c : Cpu ρ) {r r' : ρ} (v : Word) (h : r' ≠ r) : (c.set r v).reg r' = c.reg r' :=
  Function.update_of_ne h ..

@[simp] lemma set_mem (c : Cpu ρ) (r : ρ) (v : Word) : (c.set r v).mem = c.mem := rfl

end Machine

/-! ## Pushing -/

section Stack
variable {ρ : Type*} [DecidableEq ρ] {sp : ρ} {c c' c'' : Cpu ρ}

/-- Words were put on the stack, and nothing else happened. -/
structure Pushed (sp : ρ) (c : Cpu ρ) (ws : List Word) (c' : Cpu ρ) : Prop where
  pointer : (c'.reg sp).toNat + 8 * ws.length = (c.reg sp).toNat
  words : Words c'.mem (c'.reg sp).toNat ws
  kept : ∀ r, r ≠ sp → c'.reg r = c.reg r
  frame : ∀ a, a < (c'.reg sp).toNat ∨ (c.reg sp).toNat ≤ a → c'.mem a = c.mem a

omit [DecidableEq ρ] in
lemma Pushed.refl (c : Cpu ρ) : Pushed sp c [] c :=
  ⟨by simp, by simp, fun _ _ => rfl, fun _ _ => rfl⟩

omit [DecidableEq ρ] in
lemma Pushed.trans {us ws : List Word} (h : Pushed sp c ws c') (h' : Pushed sp c' us c'') :
    Pushed sp c (us ++ ws) c'' := by
  have hp := h.pointer
  have hp' := h'.pointer
  refine ⟨?_, ?_, fun r hr => (h'.kept r hr).trans (h.kept r hr), fun a ha => ?_⟩
  · rw [List.length_append]
    omega
  · refine (words_append ..).mpr ⟨h'.words, ?_⟩
    rw [hp']
    exact h.words.congr fun x hx _ => (h'.frame x (Or.inr hx)).symm
  · rw [h'.frame a (by omega), h.frame a (by omega)]

lemma Pushed.push (v : Word) (hroom : 8 ≤ (c.reg sp).toNat) : Pushed sp c [v] (c.push sp v) := by
  have hpointer : (c.reg sp - 8).toNat + 8 = (c.reg sp).toNat := by bv_omega
  have hset : (c.push sp v).reg sp = c.reg sp - 8 := set_self ..
  refine ⟨?_, ?_, fun r hr => set_of_ne _ _ hr, fun a ha => ?_⟩
  · rw [hset]
    exact hpointer
  · rw [hset]
    exact ⟨loadWord_storeWord .., trivial⟩
  · rw [hset] at ha
    exact storeWord_of_out _ _ (by omega)

/-- Pushing registers leaves them on the stack, the last one lowest. -/
lemma pushed_registers {rs : List ρ} (hsp : sp ∉ rs) (hroom : 8 * rs.length ≤ (c.reg sp).toNat) :
    Pushed sp c (rs.map c.reg).reverse (exec sp c (rs.map Op.push)) := by
  induction rs generalizing c with
  | nil => exact .refl c
  | cons r rs ih =>
    rw [List.length_cons] at hroom
    have hfirst : Pushed sp c [c.reg r] (c.push sp (c.reg r)) := .push _ (by omega)
    have hpointer := hfirst.pointer
    have hrest := @ih (c.push sp (c.reg r)) (List.not_mem_of_not_mem_cons hsp)
      (by simp at hpointer; omega)
    have hsame : rs.map (c.push sp (c.reg r)).reg = rs.map c.reg :=
      List.map_congr_left fun r' hr' => hfirst.kept r' fun h =>
        hsp (List.mem_cons_of_mem _ (h ▸ hr'))
    rw [hsame] at hrest
    simpa [Op.run] using hfirst.trans hrest

/-- Pushing words, the last one lowest. -/
lemma pushed_words {ws : List Word} (hroom : 8 * ws.length ≤ (c.reg sp).toNat) :
    Pushed sp c ws.reverse (exec sp c (ws.map Op.pushImm)) := by
  induction ws generalizing c with
  | nil => exact .refl c
  | cons w ws ih =>
    rw [List.length_cons] at hroom
    have hfirst : Pushed sp c [w] (c.push sp w) := .push _ (by omega)
    have hpointer := hfirst.pointer
    have hrest := @ih (c.push sp w) (by simp at hpointer; omega)
    simpa [Op.run] using hfirst.trans hrest

/-! ## Popping -/

/-- Words were taken from the stack into registers, and nothing else happened. -/
structure Popped (sp : ρ) (c : Cpu ρ) (rs : List ρ) (ws : List Word) (c' : Cpu ρ) : Prop where
  pointer : (c'.reg sp).toNat = (c.reg sp).toNat + 8 * ws.length
  values : rs.map c'.reg = ws
  kept : ∀ r, r ≠ sp → r ∉ rs → c'.reg r = c.reg r
  mem : c'.mem = c.mem

/-- Popping registers gives them the words of the stack, the lowest one first. -/
lemma popped_registers {rs : List ρ} {ws : List Word} (hsp : sp ∉ rs) (hnodup : rs.Nodup)
    (hwords : Words c.mem (c.reg sp).toNat ws) (hlen : ws.length = rs.length)
    (hroom : (c.reg sp).toNat + 8 * ws.length < 2 ^ 64) :
    Popped sp c rs ws (exec sp c (rs.map Op.pop)) := by
  induction rs generalizing c ws with
  | nil =>
    obtain rfl := List.eq_nil_of_length_eq_zero hlen
    exact ⟨by simp, rfl, fun _ _ _ => rfl, rfl⟩
  | cons r rs ih =>
    cases ws with
    | nil => simp at hlen
    | cons w ws =>
      obtain ⟨hw, hws⟩ := hwords
      obtain ⟨hr, hnodup⟩ := List.nodup_cons.mp hnodup
      obtain ⟨hne, hsp⟩ := not_or.mp (List.mem_cons.not.mp hsp)
      rw [List.length_cons] at hroom
      have hpointer : ((c.pop sp r).reg sp).toNat = (c.reg sp).toNat + 8 := by
        rw [Cpu.pop, set_of_ne _ _ hne, set_self]
        bv_omega
      have hrest := @ih (c.pop sp r) ws hsp hnodup (by rw [hpointer]; exact hws)
        (by simpa using hlen)
        (by rw [hpointer]; omega)
      have hread : (c.pop sp r).reg r = w := by
        rw [Cpu.pop, set_self, hw]
      refine ⟨?_, ?_, fun r' hr' hmem => ?_, hrest.mem⟩
      · simp only [List.map_cons, exec_cons, Op.run, List.length_cons]
        rw [hrest.pointer, hpointer]
        omega
      · simp only [List.map_cons, exec_cons, Op.run]
        rw [hrest.kept r (Ne.symm hne) hr, hread, hrest.values]
      · obtain ⟨hne', hmem'⟩ := not_or.mp (List.mem_cons.not.mp hmem)
        simp only [List.map_cons, exec_cons, Op.run]
        rw [hrest.kept r' hr' hmem', Cpu.pop, set_of_ne _ _ hne', set_of_ne _ _ hr']

end Stack

end TraitOS.StackMachine
