import RiscvSoc.Apb.Timer
import RiscvSoc.Sync.Divider

/-!
# Apb — Prescaler

How often a prescaled timer counts. The count goes up when the cycle
counter equals the prescaler field of the control word, but the counter
restarts on the whole control word. So it counts once in
`timerCtrl + 1` cycles and not, as programmed, once in one more than the
field.
-/

namespace RiscvSoc.Timer

open Sync

section Runs

variable (s : Regs) (ins : Nat → Inputs)

/-- The registers in cycle `n` of a run out of reset from `s`. -/
def runAt (n : Nat) : Regs := timer.runFrom s (fun _ => true) ins n

/-- The first `n` cycles see no bus write. -/
def Unwritten (ins : Nat → Inputs) (n : Nat) : Prop :=
  ∀ j, j < n → writeAccess (ins j) = false

/-- The first `n` cycles see no bus write, no overflow and no match. -/
def Quiet (n : Nat) : Prop :=
  ∀ j, j < n → writeAccess (ins j) = false ∧ ∀ b, irqO (runAt s ins j) b = false

variable {s ins} {n : Nat}

theorem Unwritten.mono {m : Nat} (h : Unwritten ins n) (hmn : m ≤ n) : Unwritten ins m :=
  fun j hj => h j (by omega)

theorem Quiet.mono {m : Nat} (h : Quiet s ins n) (hmn : m ≤ n) : Quiet s ins m :=
  fun j hj => h j (by omega)

theorem Quiet.unwritten (h : Quiet s ins n) : Unwritten ins n := fun j hj => (h j hj).1

theorem runAt_succ_of_quiet (h : writeAccess (ins n) = false) :
    runAt s ins (n + 1) =
      { runAt s ins n with
        timer := countN (runAt s ins n)
        cycleCounter := cycleCounterN (runAt s ins n) } := by
  rw [runAt, Circuit.runFrom_succ_of_run _ rfl]
  show busWrite _ _ = _
  rw [busWrite, h, if_neg Bool.false_ne_true]
  rfl

/-- Without a bus write the control word and the compare value stay. -/
theorem programmed_of_unwritten (h : Unwritten ins n) :
    (runAt s ins n).timerCtrl = s.timerCtrl ∧ (runAt s ins n).cmp = s.cmp := by
  induction n with
  | zero => exact ⟨rfl, rfl⟩
  | succ n ih =>
      rw [runAt_succ_of_quiet (h n (Nat.lt_succ_self n))]
      exact ih (h.mono (Nat.le_succ n))

/-- **The cycle counter runs modulo the control word**, and takes no notice
of the interrupts. -/
theorem cycleCounter_of_unwritten (hc : s.cycleCounter = 0) (h : Unwritten ins n) :
    (runAt s ins n).cycleCounter.toNat = n % (s.timerCtrl.toNat + 1) := by
  refine counter_eq_mod (c := fun k => (runAt s ins k).cycleCounter.toNat) ?_ fun k hk => ?_
  · show s.cycleCounter.toNat = 0
    rw [hc]
    rfl
  · obtain ⟨hctrl, _⟩ := programmed_of_unwritten (s := s) (h.mono (Nat.le_of_lt hk))
    show (runAt s ins (k + 1)).cycleCounter.toNat = _
    rw [runAt_succ_of_quiet (h k hk)]
    show (cycleCounterN _).toNat = _
    rw [cycleCounterN, hctrl]
    by_cases hle : s.timerCtrl ≤ (runAt s ins k).cycleCounter
    · rw [if_pos hle, if_pos (BitVec.le_def.mp hle)]
      rfl
    · have hlt : (runAt s ins k).cycleCounter.toNat < s.timerCtrl.toNat :=
        Nat.lt_of_not_le fun hn => hle (BitVec.le_def.mpr hn)
      have hone : (1 : BitVec 32).toNat = 1 := rfl
      rw [if_neg hle, if_neg (by omega), BitVec.toNat_add_of_lt (by omega), hone]

/-- A prescaled count goes up in the cycles in which the counter is at
the prescaler field. -/
theorem countN_of_prescaled {r : Regs} (hen : enableBit r = true) (hp : prescalerInt r ≠ 0)
    (h0 : irqO r 0 = false) (h1 : irqO r 1 = false) :
    countN r = if r.cycleCounter.toNat = (prescalerInt r).toNat then r.timer + 1
      else r.timer := by
  have heq : ((prescalerInt r).setWidth 32 == r.cycleCounter) = true ↔
      r.cycleCounter.toNat = (prescalerInt r).toNat := by
    have hlt := (prescalerInt r).isLt
    rw [beq_iff_eq, ← BitVec.toNat_inj, BitVec.toNat_setWidth, Nat.mod_eq_of_lt (by omega)]
    exact eq_comm
  have hp' : prescalerInt r ≠ 0#3 := hp
  unfold countN
  by_cases hk : r.cycleCounter.toNat = (prescalerInt r).toNat
  · simp [h0, h1, hen, hp', hk, heq.mpr hk]
  · have hne : ((prescalerInt r).setWidth 32 == r.cycleCounter) = false := by
      rw [← Bool.not_eq_true, heq]
      exact hk
    simp [h0, h1, hp', hk, hne]

/-- **The count is the number of the counter's ticks.** -/
theorem timer_of_quiet (hen : enableBit s = true) (hp : prescalerInt s ≠ 0)
    (hc : s.cycleCounter = 0) (h : Quiet s ins n) :
    (runAt s ins n).timer.toNat
      = s.timer.toNat + ticks (s.timerCtrl.toNat + 1) (prescalerInt s).toNat n := by
  induction n with
  | zero => rfl
  | succ n ih =>
      have hq := h.mono (Nat.le_succ n)
      obtain ⟨hw, hirq⟩ := h n (Nat.lt_succ_self n)
      obtain ⟨hctrl, _⟩ := programmed_of_unwritten (s := s) hq.unwritten
      have hcount := cycleCounter_of_unwritten hc hq.unwritten
      have hpre : prescalerInt (runAt s ins n) = prescalerInt s := by
        rw [prescalerInt, hctrl, prescalerInt]
      have hon : enableBit (runAt s ins n) = true := by
        rw [enableBit, hctrl]
        exact hen
      rw [runAt_succ_of_quiet hw]
      show (countN _).toNat = _
      rw [countN_of_prescaled hon (hpre ▸ hp) (hirq 0) (hirq 1), hpre, hcount, ticks_succ]
      by_cases hk : n % (s.timerCtrl.toNat + 1) = (prescalerInt s).toNat
      · rw [if_pos hk, if_pos hk, toNat_succ_of_no_overflow (hirq 0), ih hq, Nat.add_assoc]
      · rw [if_neg hk, if_neg hk, ih hq, Nat.add_zero (ticks _ _ _)]

/-- With the enable bit set the control word is well above its prescaler
field. -/
theorem le_timerCtrl (hen : enableBit s = true) :
    8 * (prescalerInt s).toNat + 1 ≤ s.timerCtrl.toNat := by
  have hodd : s.timerCtrl.toNat % 2 = 1 := by
    rw [enableBit, BitVec.getLsbD, Nat.testBit_zero, decide_eq_true_eq] at hen
    exact hen
  have hfield : (prescalerInt s).toNat = s.timerCtrl.toNat / 8 % 8 := by
    rw [prescalerInt, BitVec.extractLsb'_toNat, Nat.shiftRight_eq_div_pow]
  omega

/-- **The prescaler divides as programmed up to the second count**: on a
quiet run from a cycle counter of 0, with the timer enabled and the
prescaler field `p` not 0, the count has advanced by `n / (p + 1)` after
`n` cycles exactly if `n < 2 * (p + 1)`. -/
theorem timer_divides_iff (hen : enableBit s = true) (hp : prescalerInt s ≠ 0)
    (hc : s.cycleCounter = 0) (h : Quiet s ins n) :
    (runAt s ins n).timer.toNat = s.timer.toNat + n / ((prescalerInt s).toNat + 1) ↔
      n < 2 * ((prescalerInt s).toNat + 1) := by
  have hword := le_timerCtrl hen
  have hlong : 2 * ((prescalerInt s).toNat + 1) ≤ s.timerCtrl.toNat + 1 := by omega
  have hfar := ticks_eq_div_iff (Nat.succ_pos (prescalerInt s).toNat) hlong n
  rw [timer_of_quiet hen hp hc h, Nat.add_left_cancel_iff]
  exact hfar

end Runs

/-- A timer just programmed to count every other cycle. -/
def everyOther : Regs where
  timer := 0
  timerCtrl := 0x9
  cmp := 0
  cycleCounter := 0

def idleBus (_ : Nat) : Inputs where
  paddr := 0
  pwdata := 0
  pwrite := false
  psel := false
  penable := false

theorem everyOther_quiet : Quiet everyOther idleBus 4 := by
  intro j hj
  match j with
  | 0 => decide
  | 1 => decide
  | 2 => decide
  | 3 => decide

theorem timer_divides_everyOther :
    (runAt everyOther idleBus 4).timer.toNat
        = everyOther.timer.toNat + 4 / ((prescalerInt everyOther).toNat + 1) ↔
      4 < 2 * ((prescalerInt everyOther).toNat + 1) :=
  timer_divides_iff (by decide) (by decide) rfl everyOther_quiet

/-- After four cycles it has counted once. -/
theorem every_other_counts_once :
    Quiet everyOther idleBus 4 ∧
      ¬ (runAt everyOther idleBus 4).timer.toNat
        = everyOther.timer.toNat + 4 / ((prescalerInt everyOther).toNat + 1) := by
  refine ⟨everyOther_quiet, ?_⟩
  decide

end RiscvSoc.Timer
