import RiscvSoc.Firmware.Interrupts
import RiscvSoc.Firmware.TimerApi

/-!
# Firmware — Ticks

The timer of `hello_world` from the driver to the service routine. The
program sets the compare value and starts the timer; the timer shows a
match in one cycle of each period; the event unit latches it, and the core
enters `isr_m_timer`. A core that goes on often enough in each period
enters it once for each that has gone by.
-/

namespace RiscvSoc.Ticks

open Sync Timer ApbTimer TimerApi Interrupts

/-! ## Cycles among the events -/

/-- The peripherals go on by a cycle. -/
def isCycle : Event → Bool
  | .lines _ _ _ => true
  | .core => false

/-- The cycles among the first `n` events. -/
def cyclesTo (e : Nat → Event) (n : Nat) : Nat := Nat.count (fun k => isCycle (e k)) n

theorem cyclesTo_succ (e : Nat → Event) (n : Nat) :
    cyclesTo e (n + 1) = cyclesTo e n + if isCycle (e n) = true then 1 else 0 :=
  Nat.count_succ _ n

theorem cyclesTo_mono (e : Nat → Event) {m n : Nat} (h : m ≤ n) : cyclesTo e m ≤ cyclesTo e n :=
  Nat.count_monotone _ h

/-- All other events are turns of the core. -/
theorem coreSteps_add_cyclesTo (e : Nat → Event) (i n : Nat) :
    coreSteps e i n + cyclesTo e (i + n) = n + cyclesTo e i := by
  induction n with
  | zero =>
      rw [coreSteps, Nat.count_zero]
      rfl
  | succ n ih =>
      have hstep : cyclesTo e (i + (n + 1))
          = cyclesTo e (i + n) + if isCycle (e (i + n)) = true then 1 else 0 :=
        cyclesTo_succ e (i + n)
      rw [coreSteps] at ih
      rw [coreSteps, Nat.count_succ, hstep]
      cases he : e (i + n) with
      | core =>
          have hno : ¬ isCycle .core = true := Bool.false_ne_true
          rw [if_pos rfl, if_neg hno]
          omega
      | lines timerIrq gpio uart =>
          have hcycle : isCycle (.lines timerIrq gpio uart) = true := rfl
          rw [if_neg Event.noConfusion, if_pos hcycle]
          omega

/-- The events of a line, by the cycles in which it is up. -/
theorem count_up {e : Nat → Event} {src : Source} {q : Nat → Prop} [DecidablePred q] {n : Nat}
    (h : ∀ k, k < n → isCycle (e k) = true → (src.up (e k) = true ↔ q (cyclesTo e k))) :
    Nat.count (fun k => src.up (e k)) n = Nat.count q (cyclesTo e n) := by
  induction n with
  | zero => rfl
  | succ n ih =>
      have hn := h n (Nat.lt_succ_self n)
      rw [Nat.count_succ, ih fun k hk => h k (Nat.lt_succ_of_lt hk), cyclesTo_succ]
      cases he : e n with
      | core =>
          have hno : ¬ src.up .core = true := Bool.false_ne_true
          rw [if_neg hno]
          rfl
      | lines timerIrq gpio uart =>
          have hcycle : isCycle (.lines timerIrq gpio uart) = true := rfl
          rw [he] at hn
          rw [if_pos hcycle, Nat.count_succ]
          simp only [hn hcycle]

/-! ## The timer on the lines -/

/-- `timer_irq` shows the interrupts of the timers, from cycle `c0` on. -/
def Wired (ins : Nat → Inputs) (c0 : Nat) (e : Nat → Event) : Prop :=
  ∀ k timerIrq gpio uart, e k = .lines timerIrq gpio uart →
    ∀ b : Fin 4, timerIrq.getLsbD b = (ApbTimer.outputsAt ins (c0 + cyclesTo e k)).irqO b

section

variable {ins : Nat → Inputs} {c0 : Nat} {e : Nat → Event} {value : BitVec 32} {c m n : Nat}

theorem up_timerA (h : Wired ins c0 e) {k : Nat} (hc : isCycle (e k) = true) :
    Source.timerA.up (e k) = (ApbTimer.outputsAt ins (c0 + cyclesTo e k)).irqO 1 := by
  cases he : e k with
  | core =>
      rw [he] at hc
      cases hc
  | lines timerIrq gpio uart => exact h k timerIrq gpio uart he 1

/-- The match in the cycles among the events. -/
theorem up_timerA_iff (hw : Writes ins value c m (c0 + cyclesTo e n)) (hvalue : value ≠ 0)
    (h : Wired ins c0 e) {k : Nat} (hk : k ≤ n) (hc : isCycle (e k) = true) :
    Source.timerA.up (e k) = true ↔
      m < c0 + cyclesTo e k ∧ (c0 + cyclesTo e k - (m + 1)) % (value.toNat + 1) = value.toNat := by
  have hle := cyclesTo_mono e hk
  rw [up_timerA h hc, hw.outputCmp_iff (by omega)]
  exact and_iff_right hvalue

/-- What is up has a cycle. -/
theorem isCycle_of_up {src : Source} {ev : Event} (h : src.up ev = true) : isCycle ev = true := by
  cases ev with
  | lines timerIrq gpio uart => rfl
  | core => cases h

/-- From one match to the next one there are the cycles of a period. -/
theorem timerA_spaced (hw : Writes ins value c m (c0 + cyclesTo e n)) (hvalue : value ≠ 0)
    (h : Wired ins c0 e)
    (hturns : ∀ i k, cyclesTo e i + value.toNat ≤ cyclesTo e (i + k) → 7 ≤ coreSteps e i k) :
    Spaced e .timerA n := by
  intro i k hk hi hnext _
  have hcycle := isCycle_of_up hi
  obtain ⟨hmi, hmodi⟩ := (up_timerA_iff hw hvalue h (by omega) hcycle).mp hi
  obtain ⟨hmk, hmodk⟩ := (up_timerA_iff hw hvalue h (by omega) (isCycle_of_up hnext)).mp hnext
  have hsucc : cyclesTo e (i + 1) = cyclesTo e i + 1 := by
    rw [cyclesTo_succ, if_pos hcycle]
  have hmono := cyclesTo_mono e (Nat.le_add_right (i + 1) k)
  have hperiod : value.toNat + 1 ≤ cyclesTo e (i + 1 + k) - cyclesTo e i := by
    have hdvd : value.toNat + 1 ∣
        (c0 + cyclesTo e (i + 1 + k) - (m + 1)) - (c0 + cyclesTo e i - (m + 1)) :=
      Nat.dvd_of_mod_eq_zero (Nat.sub_mod_eq_zero_of_mod_eq (hmodk.trans hmodi.symm))
    have hle := Nat.le_of_dvd (by omega) hdvd
    omega
  exact hturns (i + 1) k (by omega)

end

/-- **One entry for each period.** The interrupts are set up in cycle `c0`,
before the timer is started, and timer A sees no writes but those of the
driver. If the core goes on seven times in any `value` cycles, it has
entered `isr_m_timer` as often as the timer has gone round, or is about to
for the last time. -/
theorem ticks_served {σ : Type} (unit : EventUnit σ) {u0 : σ} {v : Bool}
    (h0 : unit.ier u0 = setupIrqs v 0)
    (hnone : (unit.ipr u0).getLsbD Source.timerA.line = false)
    {ins : Nat → Inputs} {c0 : Nat} {e : Nat → Event} (hwired : Wired ins c0 e)
    {value : BitVec 32} (hvalue : value ≠ 0)
    (hturns : ∀ i k, cyclesTo e i + value.toNat ≤ cyclesTo e (i + k) → 7 ≤ coreSteps e i k)
    {n : Nat} (hwrites : writesA ins (c0 + cyclesTo e n) = startTimer (setCmp value []))
    (hstart : ∀ j, writesTimerCtrl (portA ins j) = true → c0 ≤ j) :
    ∃ m, writesTimerCtrl (portA ins m) = true ∧
      Nat.count (Enters unit u0 e .timerA) n
          + (if Waits unit .timerA (stateAt unit u0 e n) then 1 else 0)
        = (c0 + cyclesTo e n - (m + 1)) / (value.toNat + 1) := by
  obtain ⟨c, m, hw⟩ := exists_writes hwrites
  have hc0 := hstart m hw.start.1
  have hphase : value.toNat < value.toNat + 1 := Nat.lt_succ_self _
  refine ⟨m, hw.start.1, ?_⟩
  rw [enters_add_waits h0 hnone (timerA_spaced hw hvalue hwired hturns),
    count_up (q := fun j => m + 1 - c0 ≤ j ∧
      (j - (m + 1 - c0)) % (value.toNat + 1) = value.toNat),
    count_ticks, ticks_eq hphase]
  · have hsub : cyclesTo e n - (m + 1 - c0) = c0 + cyclesTo e n - (m + 1) := by omega
    rw [hsub, Nat.add_sub_cancel, Nat.sub_self, Nat.add_zero]
  · intro k hk hcycle
    rw [up_timerA_iff hw hvalue hwired (Nat.le_of_lt hk) hcycle]
    have hsub : cyclesTo e k - (m + 1 - c0) = c0 + cyclesTo e k - (m + 1) := by omega
    rw [hsub]
    exact and_congr_left fun _ => by omega

/-- The bus of a compare value of 9. -/
def setNine (n : Nat) : Inputs where
  paddr := if n < 2 then 0x8 else 0x4
  pwdata := if n < 2 then 9 else 1
  pwrite := n < 4
  psel := n < 4
  penable := n % 2 == 1

/-- `timer_irq` in a cycle. -/
def timerIrqs (ins : Nat → Inputs) (j : Nat) : BitVec 4 :=
  let irq := (ApbTimer.outputsAt ins j).irqO
  BitVec.ofBool (irq 3) ++ BitVec.ofBool (irq 2) ++ BitVec.ofBool (irq 1) ++ BitVec.ofBool (irq 0)

theorem getLsbD_timerIrqs (ins : Nat → Inputs) (j : Nat) (b : Fin 4) :
    (timerIrqs ins j).getLsbD b = (ApbTimer.outputsAt ins j).irqO b := by
  rw [timerIrqs]
  simp only [BitVec.getLsbD_append, BitVec.getLsbD_ofBool]
  match b with
  | 0 => rfl
  | 1 => rfl
  | 2 => rfl
  | 3 => rfl

/-- Peripherals and core take turns, for thirty cycles. -/
def turnAbout (k : Nat) : Event :=
  if k % 2 = 0 ∧ k < 60 then .lines (timerIrqs setNine (3 + k / 2)) false false else .core

theorem cyclesTo_turnAbout (n : Nat) : cyclesTo turnAbout n = (min n 60 + 1) / 2 := by
  induction n with
  | zero => rfl
  | succ n ih =>
      have hcycle : isCycle (turnAbout n) = true ↔ n % 2 = 0 ∧ n < 60 := by
        rw [turnAbout]
        split
        · rename_i h
          exact iff_of_true rfl h
        · rename_i h
          exact iff_of_false Bool.false_ne_true h
      rw [cyclesTo_succ, ih]
      simp only [hcycle]
      split <;> omega

theorem wired_turnAbout : Wired setNine 3 turnAbout := by
  intro k timerIrq gpio uart he b
  rw [turnAbout] at he
  split at he
  · rename_i h
    injection he with htimer _ _
    have hhalf : (min k 60 + 1) / 2 = k / 2 := by omega
    rw [← htimer, cyclesTo_turnAbout, hhalf, getLsbD_timerIrqs]
  · cases he

theorem ticks_served_turnAbout :
    ∃ m, writesTimerCtrl (portA setNine m) = true ∧
      Nat.count (Enters twoRegisters setUp turnAbout .timerA) 60
          + (if Waits twoRegisters .timerA (stateAt twoRegisters setUp turnAbout 60) then 1
            else 0)
        = (3 + cyclesTo turnAbout 60 - (m + 1)) / 10 := by
  have hnine : (9 : BitVec 32).toNat = 9 := rfl
  have hvalue : (9 : BitVec 32) ≠ 0 := by decide
  have hearly : ∀ j, j < 3 → writesTimerCtrl (portA setNine j) = false := by decide
  refine ticks_served twoRegisters ier_setUp (ipr_setUp .timerA) wired_turnAbout hvalue
    (fun i k h => ?_) ?_ fun j hj => ?_
  · have hall := coreSteps_add_cyclesTo turnAbout i k
    rw [hnine] at h
    rw [cyclesTo_turnAbout, cyclesTo_turnAbout] at h hall
    omega
  · rw [cyclesTo_turnAbout]
    decide
  · refine Nat.le_of_not_lt fun hlt => ?_
    rw [hearly j hlt] at hj
    cases hj

end RiscvSoc.Ticks
