import TraitOS.Idt
import TraitOS.Runs

/-!
# The interrupt controllers

Two cascaded 8259A controllers, as far as `pic_remap` and `irq_handler` program them. A chip that
is told to initialise takes the next bytes of its data port as its vector offset, its wiring and
its mode, and after them as its mask. While a request is in service, no request of the same or of
lower priority is presented; `irq_handler` ends the service before it dispatches, so that a
handler that switches tasks holds nothing back.
-/
namespace TraitOS.Pic
open Runs IsrStubs

/-! ## A chip -/

/-- The initialisation words that are still to come; whether there is a cascade, and whether a mode
word follows. -/
inductive Phase where
  | ready
  | offset (cascade mode : Bool)
  | wiring (mode : Bool)
  | mode
deriving DecidableEq, Repr

structure Chip where
  phase : Phase
  offset : BitVec 8
  mask : BitVec 8
  request : BitVec 8
  inService : BitVec 8
deriving DecidableEq, Repr

/-- The bit of a line. -/
def bit (n : ℕ) : BitVec 8 := 1#8 <<< n

namespace Chip

/-- A byte to the command port. Commands other than initialisation and the plain end of interrupt
are never sent. -/
def command (c : Chip) (v : BitVec 8) : Chip :=
  if v.getLsbD 4 then
    { c with phase := .offset (!v.getLsbD 1) (v.getLsbD 0), mask := 0, request := 0 }
  else if v = 0x20 then { c with inService := c.inService &&& (c.inService - 1) }
  else c

/-- A byte to the data port. -/
def data (c : Chip) (v : BitVec 8) : Chip :=
  match c.phase with
  | .offset cascade mode =>
    { c with
      offset := v &&& 0xF8
      phase := if cascade then .wiring mode else if mode then .mode else .ready }
  | .wiring mode => { c with phase := if mode then .mode else .ready }
  | .mode => { c with phase := .ready }
  | .ready => { c with mask := v }

/-- The line that is presented: requested, not masked, and no line of its priority or above in
service. -/
def pending (c : Chip) : Option ℕ :=
  (List.range 8).find? fun n =>
    c.request.getLsbD n && !c.mask.getLsbD n && (List.range (n + 1)).all fun i =>
      !c.inService.getLsbD i

/-- The processor takes the interrupt. If the request is gone the chip answers with its last line
and puts nothing in service. -/
def acknowledge (c : Chip) : Chip × ℕ :=
  match c.pending with
  | some n => ({ c with request := c.request &&& ~~~bit n, inService := c.inService ||| bit n }, n)
  | none => (c, 7)

def raise (c : Chip) (n : ℕ) : Chip := { c with request := c.request ||| bit n }

def drop (c : Chip) (n : ℕ) : Chip := { c with request := c.request &&& ~~~bit n }

end Chip

/-! ## The source -/

structure Pics where
  master : Chip
  slave : Chip
deriving DecidableEq, Repr

def pic1Command : ℕ := 0x20
def pic1Data : ℕ := 0x21
def pic2Command : ℕ := 0xA0
def pic2Data : ℕ := 0xA1
def picEoi : BitVec 8 := 0x20

def outb (p : Pics) (port : ℕ) (value : BitVec 8) : Pics :=
  if port = pic1Command then { p with master := p.master.command value }
  else if port = pic1Data then { p with master := p.master.data value }
  else if port = pic2Command then { p with slave := p.slave.command value }
  else if port = pic2Data then { p with slave := p.slave.data value }
  else p

def picRemap (p : Pics) : Pics :=
  let p := outb p pic1Command 0x11
  let p := outb p pic2Command 0x11
  let p := outb p pic1Data 0x20
  let p := outb p pic2Data 0x28
  let p := outb p pic1Data 0x04
  let p := outb p pic2Data 0x02
  let p := outb p pic1Data 0x01
  let p := outb p pic2Data 0x01
  let p := outb p pic1Data 0x00
  outb p pic2Data 0x00

/-- The start of `irq_handler`, before it dispatches. -/
def endOfInterrupt (p : Pics) (intNo : ℕ) : Pics :=
  let p := if 40 ≤ intNo then outb p pic2Command picEoi else p
  outb p pic1Command picEoi

/-! ## The controllers and the processor -/

/-- The slave's output is line 2 of the master. -/
def cascade (p : Pics) : Pics :=
  if p.slave.pending.isSome then { p with master := p.master.raise 2 } else p

def acknowledge (p : Pics) : Pics × ℕ :=
  let m := p.master.acknowledge
  if p.master.pending = some 2 then
    let s := p.slave.acknowledge
    (⟨m.1, s.1⟩, s.1.offset.toNat + s.2)
  else (⟨m.1, p.slave⟩, m.1.offset.toNat + m.2)

/-- The controllers, with the vector whose handler has not yet ended the service; till then
interrupts are disabled. -/
structure Lines where
  pics : Pics
  handling : Option ℕ

inductive LineAction where
  /-- A device raises its line, or takes the request back. -/
  | raise (n : ℕ)
  | drop (n : ℕ)
  /-- The processor takes an interrupt. -/
  | accept
  /-- `irq_handler` comes to its dispatch. -/
  | endService
deriving DecidableEq, Repr

def step (s : Lines) : LineAction → Option Lines
  | .raise n =>
    if n < 8 then some { s with pics := cascade { s.pics with master := s.pics.master.raise n } }
    else if n < 16 then some
      { s with pics := cascade { s.pics with slave := s.pics.slave.raise (n - 8) } }
    else none
  | .drop n =>
    if n < 8 then some { s with pics := { s.pics with master := s.pics.master.drop n } }
    else if n < 16 then some { s with pics := { s.pics with slave := s.pics.slave.drop (n - 8) } }
    else none
  | .accept =>
    if s.handling = none then
      let r := acknowledge s.pics
      some ⟨cascade r.1, some r.2⟩
    else none
  | .endService => s.handling.map fun v => ⟨cascade (endOfInterrupt s.pics v), none⟩

/-! ## Programming the chips -/

/-- A chip that is programmed: it is ready, with its offset and no mask. -/
structure Programmed (c : Chip) (offset : BitVec 8) : Prop where
  phase : c.phase = .ready
  offset : c.offset = offset
  mask : c.mask = 0

/-- Whatever the chips were doing. -/
lemma picRemap_spec (p : Pics) :
    Programmed (picRemap p).master 0x20 ∧ Programmed (picRemap p).slave 0x28 ∧
      (picRemap p).master.inService = p.master.inService ∧ (picRemap p).slave.inService =
        p.slave.inService := by
  exact ⟨⟨rfl, rfl, rfl⟩, ⟨rfl, rfl, rfl⟩, rfl, rfl⟩

/-! ## The service of an interrupt -/

/-- At most one line is in service, so that one end of interrupt ends it. -/
def Chip.Single (c : Chip) : Prop := c.inService &&& (c.inService - 1) = 0

lemma Chip.Single.of_idle {c : Chip} (h : c.inService = 0) : c.Single := by
  rw [Chip.Single, h]
  decide

lemma bit_single : ∀ n < 8, (0 ||| bit n) &&& ((0 ||| bit n) - 1) = 0 := by decide

lemma Chip.pending_lt {c : Chip} {n : ℕ} (h : c.pending = some n) : n < 8 :=
  List.mem_range.mp (List.mem_of_find?_eq_some h)

/-- With nothing in service and nothing masked every request is presented, or one of higher
priority. -/
lemma Chip.pending_of_request {c : Chip} {offset : BitVec 8} (hc : Programmed c offset)
    (hidle : c.inService = 0) {n : ℕ} (hn : c.request.getLsbD n = true) :
    ∃ k ≤ n, c.pending = some k := by
  have hlt : n < 8 := BitVec.lt_of_getLsbD hn
  have hpresented : (c.request.getLsbD n && !c.mask.getLsbD n &&
      (List.range (n + 1)).all fun i => !c.inService.getLsbD i) = true := by
    simp [hn, hc.mask, hidle]
  have hfound : c.pending.isSome := by
    rw [pending, List.find?_isSome]
    exact ⟨n, List.mem_range.mpr hlt, hpresented⟩
  obtain ⟨k, hk⟩ := Option.isSome_iff_exists.mp hfound
  obtain ⟨-, -, hearlier⟩ := List.find?_range_eq_some.mp hk
  refine ⟨k, ?_, hk⟩
  by_contra hlater
  have hnot := hearlier n (by omega)
  rw [hpresented] at hnot
  exact Bool.false_ne_true hnot

lemma Chip.acknowledge_spec {c : Chip} {offset : BitVec 8} (hc : Programmed c offset)
    (hidle : c.inService = 0) :
    Programmed c.acknowledge.1 offset ∧ c.acknowledge.1.Single ∧ c.acknowledge.2 < 8 := by
  unfold acknowledge
  cases hpending : c.pending with
  | none => exact ⟨hc, .of_idle hidle, show 7 < 8 by decide⟩
  | some n =>
    have hlt := pending_lt hpending
    refine ⟨⟨hc.phase, hc.offset, hc.mask⟩, ?_, hlt⟩
    simp only [Single, hidle]
    exact bit_single n hlt

/-- Between an end of service and the next interrupt nothing is in service; in between only the line
of the interrupt is, and that of the cascade. -/
structure Inv (s : Lines) : Prop where
  master : Programmed s.pics.master 0x20
  slave : Programmed s.pics.slave 0x28
  idle : s.handling = none → s.pics.master.inService = 0 ∧ s.pics.slave.inService = 0
  busy : ∀ v, s.handling = some v → 32 ≤ v ∧ v < 48 ∧ s.pics.master.Single ∧ s.pics.slave.Single ∧
    (v < 40 → s.pics.slave.inService = 0)

lemma Inv.requests {s : Lines} (h : Inv s) (m k : BitVec 8) :
    Inv { s with
      pics := ⟨{ s.pics.master with request := m }, { s.pics.slave with request := k }⟩ } :=
  ⟨⟨h.master.phase, h.master.offset, h.master.mask⟩, ⟨h.slave.phase, h.slave.offset, h.slave.mask⟩,
    h.idle, h.busy⟩

lemma Inv.cascade {s : Lines} (h : Inv s) : Inv { s with pics := Pic.cascade s.pics } := by
  unfold Pic.cascade
  split_ifs
  · exact h.requests _ s.pics.slave.request
  · exact h

/-- The processor takes an interrupt. -/
lemma Inv.accept {s : Lines} (h : Inv s) (hidle : s.handling = none) :
    Inv ⟨(acknowledge s.pics).1, some (acknowledge s.pics).2⟩ := by
  obtain ⟨hm, hs⟩ := h.idle hidle
  obtain ⟨hmaster, hsingle, hline⟩ := Chip.acknowledge_spec h.master hm
  obtain ⟨hslave, hsingle', hline'⟩ := Chip.acknowledge_spec h.slave hs
  have hoffset : (0x20 : BitVec 8).toNat = 32 := rfl
  have hoffset' : (0x28 : BitVec 8).toNat = 40 := rfl
  unfold acknowledge
  split_ifs
  · refine ⟨hmaster, hslave, by simp, fun v hv => ?_⟩
    cases hv
    simp only [hslave.offset, hoffset']
    exact ⟨by omega, by omega, hsingle, hsingle', by omega⟩
  · refine ⟨hmaster, h.slave, by simp, fun v hv => ?_⟩
    cases hv
    simp only [hmaster.offset, hoffset]
    exact ⟨by omega, by omega, hsingle, .of_idle hs, fun _ => hs⟩

/-- The end of interrupt takes the one line out of service. -/
lemma Inv.endService {s : Lines} (h : Inv s) {v : ℕ} (hv : s.handling = some v) :
    Inv ⟨endOfInterrupt s.pics v, none⟩ := by
  obtain ⟨-, -, hm, hs, hlow⟩ := h.busy v hv
  have hmaster : Programmed (s.pics.master.command picEoi) 0x20 :=
    ⟨h.master.phase, h.master.offset, h.master.mask⟩
  have hslave : Programmed (s.pics.slave.command picEoi) 0x28 :=
    ⟨h.slave.phase, h.slave.offset, h.slave.mask⟩
  have hm' : (s.pics.master.command picEoi).inService = 0 := hm
  have hs' : (s.pics.slave.command picEoi).inService = 0 := hs
  by_cases h40 : 40 ≤ v
  · have heoi : endOfInterrupt s.pics v =
      ⟨s.pics.master.command picEoi, s.pics.slave.command picEoi⟩ := by
      rw [endOfInterrupt, if_pos h40]
      rfl
    rw [heoi]
    exact ⟨hmaster, hslave, fun _ => ⟨hm', hs'⟩, by simp⟩
  · have heoi : endOfInterrupt s.pics v = ⟨s.pics.master.command picEoi, s.pics.slave⟩ := by
      rw [endOfInterrupt, if_neg h40]
      rfl
    rw [heoi]
    exact ⟨hmaster, h.slave, fun _ => ⟨hm', hlow (by omega)⟩, by simp⟩

lemma Inv.step {s t : Lines} (h : Inv s) {a : LineAction} (hstep : Pic.step s a = some t) : Inv t :=
  by
  cases a with simp only [Pic.step] at hstep
  | raise n =>
    split_ifs at hstep <;> obtain rfl := Option.some.inj hstep
    · exact (h.requests _ s.pics.slave.request).cascade
    · exact (h.requests s.pics.master.request _).cascade
  | drop n =>
    split_ifs at hstep <;> obtain rfl := Option.some.inj hstep
    · exact h.requests _ s.pics.slave.request
    · exact h.requests s.pics.master.request _
  | accept =>
    split_ifs at hstep with hidle
    cases hstep
    exact (h.accept hidle).cascade
  | endService =>
    obtain ⟨v, hv, rfl⟩ := Option.map_eq_some_iff.mp hstep
    exact (h.endService hv).cascade

/-- In every run after `pic_remap`, with requests raised and taken back at any time: each interrupt
arrives with the vector of one of the sixteen stubs, and whenever interrupts are enabled nothing is
in service, so that every requested line is presented or one of higher priority - however long the
handler that was dispatched takes. -/
theorem irq_protocol (p : Pics) (hidle : p.master.inService = 0 ∧ p.slave.inService = 0)
    (actions : List LineAction) (t : Lines) (hrun : exec step ⟨picRemap p, none⟩ actions = some t) :
    (∀ v, t.handling = some v → stub v = some (irq (v - 32) v)) ∧
      (t.handling = none → t.pics.master.inService = 0 ∧ t.pics.slave.inService = 0 ∧
        (∀ n, t.pics.master.request.getLsbD n = true → ∃ k ≤ n, t.pics.master.pending = some k) ∧
        ∀ n, t.pics.slave.request.getLsbD n = true → ∃ k ≤ n, t.pics.slave.pending = some k) := by
  obtain ⟨hmaster, hslave, hm, hs⟩ := picRemap_spec p
  have hstart : Inv ⟨picRemap p, none⟩ :=
    ⟨hmaster, hslave, fun _ => ⟨hm.trans hidle.1, hs.trans hidle.2⟩, by simp⟩
  have hinv := exec_invariant (fun s a t (h : Inv s) hstep => h.step hstep) actions hstart hrun
  refine ⟨fun v hv => ?_, fun hnone => ?_⟩
  · obtain ⟨hlo, hhi, -⟩ := hinv.busy v hv
    simp [stub, hhi, show ¬ v < 32 by omega]
  · obtain ⟨hm, hs⟩ := hinv.idle hnone
    exact ⟨hm, hs, fun n hn => Chip.pending_of_request hinv.master hm hn,
      fun n hn => Chip.pending_of_request hinv.slave hs hn⟩

/-- Chips as they might be left by the firmware. -/
def firmwarePics : Pics := ⟨⟨.ready, 0x08, 0xB8, 0, 0⟩, ⟨.ready, 0x70, 0x8E, 0, 0⟩⟩

/-- A disk interrupt that is taken back too late, and a key during its service. -/
theorem irq_sample :
    ∃ t, exec step ⟨picRemap firmwarePics, none⟩ [.raise 14, .drop 14, .accept, .raise 1,
      .endService] = some t ∧
      t.pics.master.inService = 0 ∧ ∃ k ≤ 1, t.pics.master.pending = some k := by
  refine ⟨_, rfl, ?_⟩
  obtain ⟨hmaster, -, hpending, -⟩ := (irq_protocol firmwarePics ⟨rfl, rfl⟩
    [.raise 14, .drop 14, .accept, .raise 1, .endService] _ rfl).2 rfl
  exact ⟨hmaster, hpending 1 (by decide)⟩

end TraitOS.Pic
