import RiscvSoc.Control.Priority
import RiscvSoc.Firmware.Vector
import RiscvSoc.Mem.Overlay

/-!
# Firmware — Interrupts

The interrupts of `hello_world` on their way from the peripherals to the
service routines. The event unit latches its lines and hands on those that
are enabled; `riscv_soc` numbers the highest of them for the core, which
enters the trap vector of that number; and the routine behind it clears
the event by a mask. The lines, the vector and the masks are in three
files, and have to go together.

The event unit and the core are not in the repository. The event unit is
any that keeps its lines pending until they are written to its clear
register; a read of this register shows none of them, or
`int_periph_clear`, which reads before it writes, would clear others with
its own. The core is relied on to take `irq_id` when it is asked to and
serves no interrupt, to enter the vector of that number, in whichever mode
`mtvec` is set, and to take no other one while it serves it.
-/

namespace RiscvSoc.Interrupts

open RiscvSoc.Vector Control Mem

/-! ## The hardware -/

/-- `irq_i` of the event unit. -/
def irqI (timerIrq : BitVec 4) (gpioEvent uartEvent : Bool) : BitVec 32 :=
  0#3 ++ timerIrq ++ BitVec.ofBool gpioEvent ++ BitVec.ofBool uartEvent ++ 0#23

/-- The loop for `irq_id`. -/
def irqId (irqSignals : BitVec 32) : BitVec 5 :=
  (List.range 32).foldl
    (fun irqId i => if irqSignals.getLsbD i then BitVec.ofNat 5 i else irqId) 0

/-- `|irq_signals`. -/
def irqReq (irqSignals : BitVec 32) : Bool := irqSignals != 0

/-- An event unit with states `σ`: its registers and its output, what a
cycle with `irq_i` and a write to `ICP` make of it, and what is relied on
of them. -/
structure EventUnit (σ : Type) where
  ier : σ → BitVec 32
  ipr : σ → BitVec 32
  icp : σ → BitVec 32
  irqO : σ → BitVec 32
  cycle : BitVec 32 → σ → σ
  writeIcp : BitVec 32 → σ → σ
  irqO_eq : ∀ u, irqO u = ipr u &&& ier u
  ier_cycle : ∀ w u, ier (cycle w u) = ier u
  ipr_cycle : ∀ w u, ipr (cycle w u) = ipr u ||| w
  ier_writeIcp : ∀ w u, ier (writeIcp w u) = ier u
  ipr_writeIcp : ∀ w u, ipr (writeIcp w u) = ipr u &&& ~~~w
  icp_none : ∀ u, icp u &&& ipr u = 0

/-! ## The code -/

def uartEvent : BitVec 32 := 1 <<< 23
def gpioEvent : BitVec 32 := 1 <<< 24
def timerAOutputCmp : BitVec 32 := 1 <<< 26

/-- `int_periph_enable`: what is written to `IER` for what was read. -/
def intPeriphEnable (ier periphMask : BitVec 32) : BitVec 32 := ier ||| periphMask

/-- `int_periph_clear`: what is written to `ICP` for what was read. -/
def intPeriphClear (icp periphMask : BitVec 32) : BitVec 32 := icp ||| periphMask

/-- `setup_irqs`, its part for `IER`. -/
def setupIrqs (verilator : Bool) (ier : BitVec 32) : BitVec 32 :=
  let ier := intPeriphEnable ier gpioEvent
  let ier := intPeriphEnable ier timerAOutputCmp
  let ier := intPeriphEnable ier uartEvent
  if verilator then ier else intPeriphEnable ier uartEvent

/-- `trap_vectors`. -/
def trapVectors : List Label :=
  .synctrap :: List.replicate 22 .trapMachineExternalInt
    ++ [.uartTrap, .gpioTrap, .trapMachineExternalInt, .machineTimerTrap]
    ++ List.replicate 5 .trapMachineExternalInt

/-- The mask that a routine clears. `isr_m_external` does not return, and
`isr_synctrap` stops at its `ebreak`. -/
def clears : Isr → Option (BitVec 32)
  | .isrUart => some uartEvent
  | .isrGpio => some gpioEvent
  | .isrMTimer => some timerAOutputCmp
  | .isrMExternal => none
  | .isrSynctrap => none

/-- The routine behind a vector. -/
def routine (id : BitVec 5) : Isr := (trapVectors.getD id.toNat .synctrap).isr

/-! ## Runs -/

variable {σ : Type}

/-- The event unit, and the number of the interrupt in service. -/
structure State (σ : Type) where
  unit : σ
  serving : Option (BitVec 5)
  deriving DecidableEq, Repr

/-- The lines of the peripherals in a cycle, or the core goes on: it enters
a routine, or the routine clears its event and returns. -/
inductive Event where
  | lines (timerIrq : BitVec 4) (gpioEvent uartEvent : Bool)
  | core
  deriving DecidableEq, Repr

section

variable (unit : EventUnit σ)

/-- The interrupt that the core takes. -/
def State.entered (s : State σ) : Option (BitVec 5) :=
  match s.serving with
  | some _ => none
  | none => if irqReq (unit.irqO s.unit) then some (irqId (unit.irqO s.unit)) else none

def State.step (s : State σ) : Event → State σ
  | .lines timerIrq gpio uart => { s with unit := unit.cycle (irqI timerIrq gpio uart) s.unit }
  | .core =>
      match s.serving with
      | none => { s with serving := s.entered unit }
      | some id =>
          match clears (routine id) with
          | some mask => ⟨unit.writeIcp (intPeriphClear (unit.icp s.unit) mask) s.unit, none⟩
          | none => s

variable (u0 : σ)

/-- The state before event `n`, from the end of the set-up on. -/
def stateAt (e : Nat → Event) : Nat → State σ
  | 0 => ⟨u0, none⟩
  | n + 1 => (stateAt e n).step unit (e n)

/-- The interrupt that is taken at event `n`. -/
def enteredAt (e : Nat → Event) (n : Nat) : Option (BitVec 5) :=
  match e n with
  | .lines _ _ _ => none
  | .core => (stateAt unit u0 e n).entered unit

end

/-! ## The events of the program -/

/-- The events that `setup_irqs` enables. -/
inductive Source where
  | uart
  | gpio
  | timerA
  deriving DecidableEq, Repr

/-- The line of an event. -/
def Source.line : Source → Nat
  | uart => 23
  | gpio => 24
  | timerA => 26

/-- The routine for it. -/
def Source.isr : Source → Isr
  | uart => .isrUart
  | gpio => .isrGpio
  | timerA => .isrMTimer

/-- The event is up on the lines. -/
def Source.up (src : Source) : Event → Bool
  | .lines timerIrq g u =>
      match src with
      | .uart => u
      | .gpio => g
      | .timerA => timerIrq.getLsbD 1
  | .core => false

/-- There is no event of the program below the UART's. -/
theorem not_lt_uart (src : Source) : ¬ src.line < Source.uart.line := by
  cases src <;> decide

/-! ## Numbering -/

/-- The bits of a word that are set. -/
def bits (w : BitVec 32) : Finset Nat := (Finset.range 32).filter fun i => w.getLsbD i = true

@[simp] theorem mem_bits {w : BitVec 32} {i : Nat} : i ∈ bits w ↔ w.getLsbD i = true := by
  rw [bits, Finset.mem_filter, Finset.mem_range, and_iff_right_iff_imp]
  exact BitVec.lt_of_getLsbD

/-- The loop leaves the last line that is up. -/
theorem foldl_eq_overlays (w : BitVec 32) (n : Nat) :
    (List.range n).foldl (fun irqId i => if w.getLsbD i then BitVec.ofNat 5 i else irqId) 0
      = overlays (fun i (_ : Unit) => w.getLsbD i) (fun i _ => BitVec.ofNat 5 i) (fun _ => 0) n
          () := by
  induction n with
  | zero => rfl
  | succ n ih =>
      rw [List.range_succ, List.foldl_append, ih, overlays]
      rfl

/-- **The number of the highest line.** -/
theorem toNat_irqId {w : BitVec 32} (h : (bits w).Nonempty) :
    (irqId w).toNat = (bits w).max' h := by
  rw [irqId, foldl_eq_overlays]
  have hor : (∃ i, LastHit (fun i (_ : Unit) => w.getLsbD i) 32 () i) ∨
      ∀ i, i < 32 → w.getLsbD i = false := exists_lastHit_or 32 ()
  rcases hor with ⟨i, hi⟩ | hnone
  · rw [overlays_of_lastHit _ _ hi, BitVec.toNat_ofNat, Nat.mod_eq_of_lt (by have := hi.1; omega)]
    refine le_antisymm (Finset.le_max' _ _ (mem_bits.mpr hi.2.1)) (Finset.max'_le _ h _ ?_)
    intro j hj
    have hset := mem_bits.mp hj
    exact hi.le (BitVec.lt_of_getLsbD hset) hset
  · obtain ⟨i, hi⟩ := h
    have hset := mem_bits.mp hi
    have hzero := hnone i (BitVec.lt_of_getLsbD hset)
    rw [hset] at hzero
    cases hzero

theorem irqReq_iff (w : BitVec 32) : irqReq w = true ↔ (bits w).Nonempty := by
  rw [irqReq, bne_iff_ne, ← not_iff_not, not_not, Finset.not_nonempty_iff_eq_empty]
  constructor
  · rintro rfl
    ext i
    simp
  · intro h
    apply BitVec.eq_of_getLsbD_eq
    intro i _
    have hi : i ∉ bits w := by rw [h]; exact Finset.notMem_empty i
    rw [mem_bits, Bool.not_eq_true] at hi
    rw [hi]
    exact BitVec.getLsbD_zero.symm

/-! ## One event -/

/-- The events that are enabled are those of the program. -/
theorem getLsbD_setupIrqs (verilator : Bool) (i : Nat) :
    (setupIrqs verilator 0).getLsbD i = true ↔ ∃ src : Source, i = src.line := by
  have hsources : (∃ src : Source, i = src.line) ↔ i = 23 ∨ i = 24 ∨ i = 26 := by
    constructor
    · rintro ⟨src, rfl⟩
      cases src <;> decide
    · rintro (rfl | rfl | rfl)
      · exact ⟨.uart, rfl⟩
      · exact ⟨.gpio, rfl⟩
      · exact ⟨.timerA, rfl⟩
  have hbits : ∀ v, ∀ i, i < 32 →
      ((setupIrqs v 0).getLsbD i = true ↔ i = 23 ∨ i = 24 ∨ i = 26) := by decide
  rw [hsources]
  by_cases hi : i < 32
  · exact hbits verilator i hi
  · rw [BitVec.getLsbD_of_ge _ _ (Nat.le_of_not_lt hi)]
    simp only [Bool.false_eq_true, false_iff]
    omega

/-- **Vector, routine and mask of an event** belong to its line. -/
theorem clears_routine {id : BitVec 5} {src : Source} (h : id.toNat = src.line) :
    routine id = src.isr ∧ clears src.isr = some (BitVec.twoPow 32 src.line) := by
  rw [routine, h]
  cases src <;> decide

/-- The lines of the peripherals are wired to their bits. -/
theorem getLsbD_irqI (src : Source) (timerIrq : BitVec 4) (gpio uart : Bool) :
    (irqI timerIrq gpio uart).getLsbD src.line = src.up (.lines timerIrq gpio uart) := by
  rw [irqI]
  simp only [BitVec.getLsbD_append, BitVec.getLsbD_ofBool]
  cases src <;> simp [Source.line, Source.up]

/-- **Clearing an event** by its mask leaves the others, if the read shows
none of them. -/
theorem bits_clear {p r : BitVec 32} (n : Nat) (ier : BitVec 32) (hr : r &&& p = 0) :
    bits ((p &&& ~~~(intPeriphClear r (BitVec.twoPow 32 n))) &&& ier)
      = (bits (p &&& ier)).erase n := by
  ext i
  have hi : (r.getLsbD i && p.getLsbD i) = false := by
    rw [← BitVec.getLsbD_and, hr]
    exact BitVec.getLsbD_zero
  rw [Finset.mem_erase, mem_bits, mem_bits, intPeriphClear]
  by_cases hlt : i < 32
  · simp only [BitVec.getLsbD_and, BitVec.getLsbD_not, BitVec.getLsbD_or, BitVec.getLsbD_twoPow,
      hlt, decide_true, Bool.true_and]
    cases hp : p.getLsbD i with
    | false => simp
    | true =>
        rw [hp, Bool.and_true] at hi
        rw [hi]
        by_cases hin : n = i
        · subst hin
          simp [hlt]
        · simp [hin, Ne.symm hin]
  · simp [BitVec.getLsbD_of_ge _ _ (Nat.le_of_not_lt hlt)]

section

variable (unit : EventUnit σ) (v : Bool)

/-- The interrupts as requests, by their lines. -/
def server (s : State σ) : Priority.Server Nat :=
  ⟨bits (unit.irqO s.unit), s.serving.map BitVec.toNat⟩

def request : Event → Priority.Event Nat
  | .lines timerIrq gpio uart => .raise (bits (irqI timerIrq gpio uart &&& setupIrqs v 0))
  | .core => .turn

/-- Only events of the program are enabled and in service. -/
structure Handled (s : State σ) : Prop where
  ier : unit.ier s.unit = setupIrqs v 0
  serving : ∀ id ∈ s.serving, ∃ src : Source, id.toNat = src.line

theorem chosen_server (s : State σ) :
    (server unit s).chosen = (s.entered unit).map BitVec.toNat := by
  cases hs : s.serving with
  | some id =>
      simp only [Priority.Server.chosen, server, State.entered, hs, Option.map_some,
        Option.map_none]
  | none =>
      simp only [Priority.Server.chosen, server, State.entered, hs, Option.map_none]
      by_cases h : (bits (unit.irqO s.unit)).Nonempty
      · rw [dif_pos h, if_pos ((irqReq_iff _).mpr h), Option.map_some, toNat_irqId h]
      · rw [dif_neg h, if_neg (mt (irqReq_iff _).mp h), Option.map_none]

variable {unit v}

namespace Handled

variable {s : State σ} (h : Handled unit v s)

include h

/-- What is up at the core is an event of the program. -/
theorem exists_of_mem_bits {i : Nat} (hi : i ∈ bits (unit.irqO s.unit)) :
    ∃ src : Source, i = src.line := by
  rw [mem_bits, unit.irqO_eq, BitVec.getLsbD_and, Bool.and_eq_true, h.ier] at hi
  exact (getLsbD_setupIrqs v i).mp hi.2

theorem exists_of_entered {id : BitVec 5} (hid : s.entered unit = some id) :
    ∃ src : Source, id.toNat = src.line := by
  have hchosen := chosen_server unit s
  rw [hid, Option.map_some] at hchosen
  obtain ⟨hfree, hwaits, _⟩ := Priority.chosen_eq_some hchosen
  rw [Priority.Server.waiting, hfree] at hwaits
  exact h.exists_of_mem_bits hwaits

theorem step (ev : Event) : Handled unit v (s.step unit ev) := by
  cases ev with
  | lines timerIrq gpio uart => exact ⟨(unit.ier_cycle _ _).trans h.ier, h.serving⟩
  | core =>
      cases hs : s.serving with
      | none =>
          have hstep : s.step unit .core = { s with serving := s.entered unit } := by
            simp only [State.step, hs]
          rw [hstep]
          exact ⟨h.ier, fun id hid => h.exists_of_entered (Option.mem_def.mp hid)⟩
      | some id =>
          obtain ⟨src, hsrc⟩ := h.serving id hs
          obtain ⟨hroutine, hclears⟩ := clears_routine hsrc
          simp only [State.step, hs, hroutine, hclears]
          refine ⟨(unit.ier_writeIcp _ _).trans h.ier, ?_⟩
          intro id' hid'
          cases hid'

/-- **One event** is one of the priority server. -/
theorem server_step (ev : Event) :
    server unit (s.step unit ev) = (server unit s).step (request v ev) := by
  cases ev with
  | lines timerIrq gpio uart =>
      simp only [server, State.step, request, Priority.Server.step, unit.irqO_eq, unit.ipr_cycle,
        unit.ier_cycle, h.ier]
      congr 1
      ext i
      simp [Bool.and_or_distrib_right]
  | core =>
      cases hs : s.serving with
      | none =>
          have hstep : s.step unit .core = { s with serving := s.entered unit } := by
            simp only [State.step, hs]
          have hturn : (server unit s).step .turn
              = { server unit s with serving := (server unit s).chosen } := by
            simp only [Priority.Server.step, server, hs, Option.map_none]
          rw [request, hstep, hturn, chosen_server]
          rfl
      | some id =>
          obtain ⟨src, hsrc⟩ := h.serving id hs
          obtain ⟨hroutine, hclears⟩ := clears_routine hsrc
          have hstep : s.step unit .core = ⟨unit.writeIcp
              (intPeriphClear (unit.icp s.unit) (BitVec.twoPow 32 src.line)) s.unit, none⟩ := by
            simp only [State.step, hs, hroutine, hclears]
          have hturn : (server unit s).step .turn
              = ⟨(server unit s).pending.erase src.line, none⟩ := by
            simp only [Priority.Server.step, server, hs, Option.map_some, hsrc]
          rw [request, hstep, hturn, server, unit.irqO_eq, unit.ipr_writeIcp, unit.ier_writeIcp,
            bits_clear src.line _ (unit.icp_none s.unit), server, unit.irqO_eq]
          rfl

end Handled

end

/-! ## Runs of the program -/

section Runs

variable (unit : EventUnit σ) (u0 : σ) (v : Bool) (e : Nat → Event)

/-- An event waits for its routine to be entered. -/
def Waits (src : Source) (s : State σ) : Prop :=
  (unit.irqO s.unit).getLsbD src.line = true ∧ s.serving.map BitVec.toNat ≠ some src.line

instance (src : Source) : DecidablePred (Waits unit src) := fun _ =>
  inferInstanceAs (Decidable (_ ∧ _))

/-- The routine of an event is entered at event `n`. -/
def Enters (src : Source) (n : Nat) : Prop :=
  (enteredAt unit u0 e n).map BitVec.toNat = some src.line

instance (src : Source) : DecidablePred (Enters unit u0 e src) := fun _ =>
  inferInstanceAs (Decidable (_ = _))

/-- How often the core goes on in the `n` events from event `i` on. -/
def coreSteps (i n : Nat) : Nat := Nat.count (fun k => e (i + k) = .core) n

/-- How often events above `src` are up in them. -/
def upAbove (src : Source) (i n : Nat) : Nat :=
  (if src.line < Source.gpio.line then Nat.count (fun k => Source.gpio.up (e (i + k))) n else 0)
    + if src.line < Source.timerA.line then Nat.count (fun k => Source.timerA.up (e (i + k))) n
      else 0

variable {unit u0 v e}

/-- The run as one of the priority server. -/
theorem server_stateAt (h0 : unit.ier u0 = setupIrqs v 0) (n : Nat) :
    Handled unit v (stateAt unit u0 e n) ∧
      server unit (stateAt unit u0 e n)
        = Priority.stateAt (server unit ⟨u0, none⟩) (fun k => request v (e k)) n := by
  induction n with
  | zero =>
      refine ⟨⟨h0, ?_⟩, rfl⟩
      intro id hid
      cases hid
  | succ n ih =>
      obtain ⟨hhandled, hserver⟩ := ih
      refine ⟨hhandled.step (e n), ?_⟩
      rw [stateAt, hhandled.server_step, hserver]
      rfl

theorem takenAt_eq (h0 : unit.ier u0 = setupIrqs v 0) (n : Nat) :
    Priority.takenAt (server unit ⟨u0, none⟩) (fun k => request v (e k)) n
      = (enteredAt unit u0 e n).map BitVec.toNat := by
  rw [Priority.takenAt, ← (server_stateAt h0 n).2, enteredAt]
  cases e n with
  | lines timerIrq gpio uart => rfl
  | core => exact chosen_server unit _

theorem mem_waiting_iff {s : State σ} (src : Source) :
    src.line ∈ (server unit s).waiting ↔ Waits unit src s := by
  rw [Waits]
  cases hs : s.serving with
  | none => simp [Priority.Server.waiting, server, hs]
  | some id =>
      simp only [Priority.Server.waiting, server, hs, Option.map_some, Finset.mem_erase, mem_bits,
        ne_eq, Option.some.injEq]
      rw [and_comm]
      exact and_congr_right fun _ => ne_comm

theorem mem_bits_of_waiting {s : State σ} {i : Nat} (h : i ∈ (server unit s).waiting) :
    i ∈ bits (unit.irqO s.unit) := by
  cases hs : s.serving with
  | none =>
      simp only [Priority.Server.waiting, server, hs, Option.map_none] at h
      exact h
  | some id =>
      simp only [Priority.Server.waiting, server, hs, Option.map_some] at h
      exact Finset.mem_of_mem_erase h

/-- No more than the events above and a service can be ahead. -/
theorem ahead_le {s : State σ} (h : Handled unit v s) (src : Source) :
    (server unit s).ahead src.line ≤ 5 := by
  have hsub : (server unit s).waiting.filter (src.line < ·) ⊆ {24, 26} := by
    intro i hi
    obtain ⟨hwaits, hlt⟩ := Finset.mem_filter.mp hi
    obtain ⟨o, rfl⟩ := h.exists_of_mem_bits (mem_bits_of_waiting hwaits)
    cases o with
    | uart => exact absurd hlt (not_lt_uart src)
    | gpio => decide
    | timerA => decide
  have hcard := Finset.card_le_card hsub
  have htwo : ({24, 26} : Finset Nat).card = 2 := rfl
  rw [Priority.Server.ahead]
  split <;> omega

theorem turns_eq (i n : Nat) :
    Priority.turns (fun k => request v (e k)) i n = coreSteps e i n := by
  have hturn : ∀ ev, Priority.isTurn (request v ev) = true ↔ ev = .core := by
    intro ev
    cases ev with
    | lines timerIrq gpio uart => simp [request, Priority.isTurn]
    | core => simp [request, Priority.isTurn]
  simp only [Priority.turns, coreSteps, hturn]

theorem exists_raised {ev : Event} {i : Nat}
    (h : i ∈ Priority.raised (request v ev)) : ∃ src : Source, i = src.line := by
  cases ev with
  | core => cases h
  | lines timerIrq gpio uart =>
      rw [request, Priority.raised, mem_bits, BitVec.getLsbD_and, Bool.and_eq_true] at h
      exact (getLsbD_setupIrqs v i).mp h.2

/-- What comes up for the server is what is up on the lines. -/
theorem mem_raised_iff (src : Source) (ev : Event) :
    src.line ∈ Priority.raised (request v ev) ↔ src.up ev = true := by
  cases ev with
  | core => simp [request, Priority.raised, Source.up]
  | lines timerIrq gpio uart =>
      have henabled := (getLsbD_setupIrqs v src.line).mpr ⟨src, rfl⟩
      rw [request, Priority.raised, mem_bits, BitVec.getLsbD_and, henabled, Bool.and_true,
        getLsbD_irqI]

/-- The requests of an event, by the lines that are up at it. -/
theorem card_raised_le (q : Nat → Prop) [DecidablePred q] (ev : Event) :
    ((Priority.raised (request v ev)).filter q).card
      ≤ (if q Source.uart.line ∧ Source.uart.up ev = true then 1 else 0)
        + (if q Source.gpio.line ∧ Source.gpio.up ev = true then 1 else 0)
        + if q Source.timerA.line ∧ Source.timerA.up ev = true then 1 else 0 := by
  have hsub : (Priority.raised (request v ev)).filter q
      ⊆ ((if q Source.uart.line ∧ Source.uart.up ev = true then {Source.uart.line} else ∅)
        ∪ if q Source.gpio.line ∧ Source.gpio.up ev = true then {Source.gpio.line} else ∅)
        ∪ if q Source.timerA.line ∧ Source.timerA.up ev = true then {Source.timerA.line}
          else ∅ := by
    intro i hi
    obtain ⟨hraised, hq⟩ := Finset.mem_filter.mp hi
    obtain ⟨o, rfl⟩ := exists_raised hraised
    have hup := (mem_raised_iff o ev).mp hraised
    rw [Finset.mem_union, Finset.mem_union]
    cases o with
    | uart => exact .inl (.inl (by rw [if_pos ⟨hq, hup⟩]; exact Finset.mem_singleton_self _))
    | gpio => exact .inl (.inr (by rw [if_pos ⟨hq, hup⟩]; exact Finset.mem_singleton_self _))
    | timerA => exact .inr (by rw [if_pos ⟨hq, hup⟩]; exact Finset.mem_singleton_self _)
  have hcard := (Finset.card_le_card hsub).trans ((Finset.card_union_le _ _).trans
    (Nat.add_le_add_right (Finset.card_union_le _ _) _))
  simp only [apply_ite Finset.card, Finset.card_singleton, Finset.card_empty] at hcard
  exact hcard

theorem raisedAbove_le (src : Source) (i n : Nat) :
    Priority.raisedAbove (fun k => request v (e k)) src.line i n ≤ upAbove e src i n := by
  induction n with
  | zero => exact Nat.zero_le _
  | succ n ih =>
      have hcard := card_raised_le (v := v) (src.line < ·) (e (i + n))
      simp only [not_lt_uart, false_and, if_false, Nat.zero_add] at hcard
      rw [upAbove] at ih
      rw [Priority.raisedAbove, upAbove, Nat.count_succ, Nat.count_succ]
      by_cases hg : src.line < Source.gpio.line
      · have ht : src.line < Source.timerA.line := Nat.lt_trans hg (by decide)
        simp only [hg, ht, true_and, if_true] at hcard ih ⊢
        omega
      · by_cases ht : src.line < Source.timerA.line
        · simp only [hg, ht, true_and, false_and, if_true, if_false] at hcard ih ⊢
          omega
        · simp only [hg, ht, false_and, if_false] at hcard ih ⊢
          omega

end Runs

/-- **Every event is served**, by its own routine: what is entered is the
routine of the highest event that waits, and one that waits is entered
after five turns of the core, and two for each event above it that comes
up meanwhile. -/
def Served (unit : EventUnit σ) (u0 : σ) (e : Nat → Event) : Prop :=
  (∀ n id, enteredAt unit u0 e n = some id →
    ∃ src : Source, Enters unit u0 e src n ∧ routine id = src.isr ∧
      Waits unit src (stateAt unit u0 e n) ∧
      ∀ o, Waits unit o (stateAt unit u0 e n) → o.line ≤ src.line) ∧
  ∀ src i n, Waits unit src (stateAt unit u0 e i) →
    5 + 2 * upAbove e src i n < coreSteps e i n → ∃ k, k < n ∧ Enters unit u0 e src (i + k)

theorem events_served (unit : EventUnit σ) {u0 : σ} {v : Bool}
    (h0 : unit.ier u0 = setupIrqs v 0) (e : Nat → Event) : Served unit u0 e := by
  constructor
  · intro n id hid
    have hentered : (stateAt unit u0 e n).entered unit = some id := by
      rw [enteredAt] at hid
      cases he : e n with
      | lines timerIrq gpio uart =>
          rw [he] at hid
          cases hid
      | core =>
          rw [he] at hid
          exact hid
    obtain ⟨src, hsrc⟩ := (server_stateAt h0 n).1.exists_of_entered hentered
    have hchosen := chosen_server unit (stateAt unit u0 e n)
    rw [hentered, Option.map_some, hsrc] at hchosen
    obtain ⟨_, hwaits, hmax, _⟩ := Priority.chosen_eq_some hchosen
    refine ⟨src, ?_, (clears_routine hsrc).1, (mem_waiting_iff src).mp hwaits, fun o ho => ?_⟩
    · rw [Enters, hid, Option.map_some, hsrc]
    · exact hmax o.line ((mem_waiting_iff o).mpr ho)
  · intro src i n hwaits hsteps
    obtain ⟨hhandled, hserver⟩ := server_stateAt (e := e) h0 i
    have hahead := ahead_le hhandled src
    have habove := raisedAbove_le (v := v) (e := e) src i n
    rw [← mem_waiting_iff, hserver] at hwaits
    rw [hserver] at hahead
    rw [← turns_eq (v := v)] at hsteps
    obtain ⟨k, hk, htaken⟩ := Priority.taken_of_turns (n := n) hwaits (by omega)
    rw [takenAt_eq h0] at htaken
    exact ⟨k, hk, htaken⟩

/-- An event that is not pending yet does not wait. -/
theorem notMem_pending {unit : EventUnit σ} {u0 : σ} {src : Source}
    (h : (unit.ipr u0).getLsbD src.line = false) :
    src.line ∉ (server unit ⟨u0, none⟩).pending := by
  rw [server, mem_bits, unit.irqO_eq, BitVec.getLsbD_and, h]
  exact Bool.false_ne_true

/-- **No routine is entered without its event**, and not more often than
the event was up. -/
theorem enters_le_up (unit : EventUnit σ) {u0 : σ} {v : Bool}
    (h0 : unit.ier u0 = setupIrqs v 0) {src : Source}
    (hnone : (unit.ipr u0).getLsbD src.line = false) (e : Nat → Event) (n : Nat) :
    Nat.count (Enters unit u0 e src) n ≤ Nat.count (fun k => src.up (e k)) n := by
  have hwait : src.line ∉ (server unit ⟨u0, none⟩).waiting := notMem_pending hnone
  have hle := Priority.takes_le (e := fun k => request v (e k)) hwait n
  simp only [Priority.takes, Priority.raises, takenAt_eq h0, mem_raised_iff] at hle
  exact hle

/-- Between an event and its next one the core goes on as often as it takes
to serve it behind those above, in the first `n` events. -/
def Spaced (e : Nat → Event) (src : Source) (n : Nat) : Prop :=
  ∀ i k, i + 1 + k < n → src.up (e i) = true → src.up (e (i + 1 + k)) = true →
    (∀ l, l < k → src.up (e (i + 1 + l)) = false) →
    7 + 2 * upAbove e src (i + 1) k ≤ coreSteps e (i + 1) k

theorem Spaced.mono {e : Nat → Event} {src : Source} {m n : Nat} (h : Spaced e src n)
    (hmn : m ≤ n) : Spaced e src m :=
  fun i k hk => h i k (by omega)

/-- The account of an event that is spaced so. -/
theorem enters_add_waits {unit : EventUnit σ} {u0 : σ} {v : Bool}
    (h0 : unit.ier u0 = setupIrqs v 0) {src : Source}
    (hnone : (unit.ipr u0).getLsbD src.line = false) {e : Nat → Event} {n : Nat}
    (h : Spaced e src n) :
    Nat.count (Enters unit u0 e src) n
        + (if Waits unit src (stateAt unit u0 e n) then 1 else 0)
      = Nat.count (fun k => src.up (e k)) n := by
  have hcoherent : Priority.Coherent (server unit ⟨u0, none⟩) := by
    intro a ha
    cases ha
  have hahead : ∀ k, (Priority.stateAt (server unit ⟨u0, none⟩)
      (fun k => request v (e k)) k).ahead src.line ≤ 5 := by
    intro k
    obtain ⟨hhandled, hserver⟩ := server_stateAt (e := e) h0 k
    rw [← hserver]
    exact ahead_le hhandled src
  have hspaced : Priority.Spaced (fun k => request v (e k)) src.line 5 n := by
    intro i m hlt hi hm hbetween
    simp only [mem_raised_iff, Bool.not_eq_true] at hi hm hbetween
    have hturns := h i m hlt hi hm hbetween
    have habove := raisedAbove_le (v := v) (e := e) src (i + 1) m
    rw [turns_eq]
    omega
  have heq := Priority.takes_eq hcoherent (notMem_pending hnone) hahead hspaced
  rw [Priority.owed, ← (server_stateAt h0 n).2] at heq
  simp only [Priority.takes, Priority.raises, takenAt_eq h0, mem_raised_iff,
    mem_waiting_iff] at heq
  exact heq

/-- **No event is lost and none is served twice**, in the first `n` events. -/
structure ServedOnce (unit : EventUnit σ) (u0 : σ) (e : Nat → Event) (src : Source) (n : Nat) :
    Prop where
  /-- The routine is not entered before the first event. -/
  before : ∀ k, k < n → (∀ l, l < k → src.up (e l) = false) → ¬ Enters unit u0 e src k
  /-- Between an event and its next one it is entered once. -/
  once : ∀ i k, i + 1 + k < n → src.up (e i) = true → src.up (e (i + 1 + k)) = true →
    (∀ l, l < k → src.up (e (i + 1 + l)) = false) →
    Nat.count (fun l => Enters unit u0 e src (i + 1 + l)) k = 1
  /-- Behind the last event it has been entered, or waits. -/
  account : Nat.count (Enters unit u0 e src) n
      + (if Waits unit src (stateAt unit u0 e n) then 1 else 0)
    = Nat.count (fun k => src.up (e k)) n

/-- Nothing is entered while the lines are up. -/
theorem not_enters_of_up {unit : EventUnit σ} {u0 : σ} {e : Nat → Event} {src : Source} {i : Nat}
    (h : src.up (e i) = true) (o : Source) : ¬ Enters unit u0 e o i := by
  intro henters
  rw [Enters, enteredAt] at henters
  cases he : e i with
  | lines timerIrq gpio uart =>
      rw [he] at henters
      cases henters
  | core =>
      rw [he] at h
      cases h

theorem served_once (unit : EventUnit σ) {u0 : σ} {v : Bool}
    (h0 : unit.ier u0 = setupIrqs v 0) {src : Source}
    (hnone : (unit.ipr u0).getLsbD src.line = false) {e : Nat → Event} {n : Nat}
    (h : Spaced e src n) : ServedOnce unit u0 e src n := by
  have haccount : ∀ k, k ≤ n → Nat.count (Enters unit u0 e src) k
        + (if Waits unit src (stateAt unit u0 e k) then 1 else 0)
      = Nat.count (fun k => src.up (e k)) k :=
    fun k hk => enters_add_waits h0 hnone (h.mono hk)
  -- at an event all before it have been served
  have hserved : ∀ i, i < n → src.up (e i) = true →
      Nat.count (Enters unit u0 e src) i = Nat.count (fun k => src.up (e k)) i ∧
        Nat.count (Enters unit u0 e src) (i + 1) = Nat.count (Enters unit u0 e src) i := by
    intro i hi hup
    have hbefore := haccount i (by omega)
    have hafter := haccount (i + 1) hi
    rw [Nat.count_succ, Nat.count_succ, if_neg (not_enters_of_up hup src), if_pos hup] at hafter
    rw [Nat.count_succ, if_neg (not_enters_of_up hup src)]
    split at hafter <;> omega
  refine ⟨fun k hk hquiet henters => ?_, fun i k hk hi hnext hquiet => ?_,
    haccount n (Nat.le_refl n)⟩
  · have hup : ¬ src.up (e k) = true := fun hup => not_enters_of_up hup src henters
    have hnever : Nat.count (fun k => src.up (e k)) k = 0 :=
      Nat.count_iff_forall_not.mpr fun l hl => Bool.eq_false_iff.mp (hquiet l hl)
    have hone := haccount (k + 1) hk
    rw [Nat.count_succ, Nat.count_succ, if_pos henters, if_neg hup, hnever] at hone
    omega
  · obtain ⟨hall, hsame⟩ := hserved i (by omega) hi
    have hlater := (hserved (i + 1 + k) hk hnext).1
    have hnever : Nat.count (fun l => src.up (e (i + 1 + l))) k = 0 :=
      Nat.count_iff_forall_not.mpr fun l hl => Bool.eq_false_iff.mp (hquiet l hl)
    have henters := Nat.count_add (Enters unit u0 e src) (i + 1) k
    have hups := Nat.count_add (fun k => src.up (e k)) (i + 1) k
    rw [Nat.count_succ, if_pos hi, hnever] at hups
    omega

/-- An event unit of two registers, `IER` and `IPR`, with an `ICP` that
reads as zero. -/
def twoRegisters : EventUnit (BitVec 32 × BitVec 32) where
  ier u := u.1
  ipr u := u.2
  icp _ := 0
  irqO u := u.2 &&& u.1
  cycle w u := (u.1, u.2 ||| w)
  writeIcp w u := (u.1, u.2 &&& ~~~w)
  irqO_eq _ := rfl
  ier_cycle _ _ := rfl
  ipr_cycle _ _ := rfl
  ier_writeIcp _ _ := rfl
  ipr_writeIcp _ _ := rfl
  icp_none _ := BitVec.zero_and

/-- What `setup_irqs` leaves of it, with nothing pending. -/
def setUp : BitVec 32 × BitVec 32 := (setupIrqs true 0, 0)

theorem ier_setUp : twoRegisters.ier setUp = setupIrqs true 0 := rfl

theorem ipr_setUp (src : Source) : (twoRegisters.ipr setUp).getLsbD src.line = false :=
  BitVec.getLsbD_zero

/-- UART and GPIO events that come up together, the one again in the
service of the other. -/
def together (n : Nat) : Event :=
  if n = 0 ∨ n = 2 then .lines 0 (n == 0) true else .core

theorem events_served_together : Served twoRegisters setUp together :=
  events_served twoRegisters ier_setUp together

theorem enters_le_up_together :
    Nat.count (Enters twoRegisters setUp together .uart) 6
      ≤ Nat.count (fun k => Source.uart.up (together k)) 6 :=
  enters_le_up twoRegisters ier_setUp (ipr_setUp .uart) together 6

/-- A timer event every ninth time. -/
def everyNinth (n : Nat) : Event := if n % 9 = 0 then .lines 2 false false else .core

theorem up_everyNinth (n : Nat) : Source.timerA.up (everyNinth n) = true ↔ n % 9 = 0 := by
  rw [everyNinth]
  split
  · rename_i h
    simp [Source.up, h]
  · rename_i h
    simp [Source.up, h]

theorem everyNinth_spaced : Spaced everyNinth .timerA 30 := by
  intro i n _ hi hn hbetween
  rw [up_everyNinth] at hi hn
  simp only [← Bool.not_eq_true, up_everyNinth] at hbetween
  have hlen : n = 8 := by
    by_contra hne
    have hlt : 8 < n := by omega
    have hnot := hbetween 8 hlt
    omega
  subst hlen
  have hcore : coreSteps everyNinth (i + 1) 8 = 8 := by
    refine Nat.count_iff_forall.mpr fun k hk => ?_
    have hne : (i + 1 + k) % 9 ≠ 0 := by omega
    rw [everyNinth, if_neg hne]
  have habove : upAbove everyNinth .timerA (i + 1) 8 = 0 := rfl
  rw [hcore, habove]
  decide

theorem served_once_everyNinth : ServedOnce twoRegisters setUp everyNinth .timerA 30 :=
  served_once twoRegisters ier_setUp (ipr_setUp .timerA) everyNinth_spaced

end RiscvSoc.Interrupts
