import RiscvSoc.Apb.Prescaler
import Mathlib.Algebra.Group.Nat.Defs

/-!
# Apb — Periodic

The timer without a prescaler. Between two bus writes it goes round: up
to the compare value where one is set, and else up to its last value, so
that the incrementer never wraps by itself. A match and an overflow both
restart the count; where the compare value is the last value they fall
together.
-/

namespace RiscvSoc.Timer

open Sync

/-- The last count before the timer restarts. -/
def lastCount (cmp : BitVec 32) : Nat :=
  if cmp = 0 then 2 ^ 32 - 1 else cmp.toNat

/-- The cycles from one start of the count to the next. -/
def period (cmp : BitVec 32) : Nat :=
  if cmp = 0 then 2 ^ 32 else cmp.toNat + 1

theorem lastCount_add_one (cmp : BitVec 32) : lastCount cmp + 1 = period cmp := by
  unfold lastCount period
  by_cases h : cmp = 0
  · rw [if_pos h, if_pos h]
    exact Nat.sub_add_cancel (by decide)
  · rw [if_neg h, if_neg h]

theorem lastCount_le (cmp : BitVec 32) : lastCount cmp ≤ 2 ^ 32 - 1 := by
  unfold lastCount
  split
  · exact Nat.le_refl _
  · have hlt := cmp.isLt
    omega

/-- The overflow, on the value of the count. -/
theorem irqO_overflow_iff_toNat (r : Regs) :
    irqO r 0 = true ↔ r.timer.toNat = 2 ^ 32 - 1 := by
  rw [irqO_overflow_iff, ← BitVec.toNat_inj]
  rfl

/-- The match, on the value of the count. -/
theorem irqO_match_iff_toNat (r : Regs) :
    irqO r 1 = true ↔ r.cmp ≠ 0 ∧ r.timer.toNat = r.cmp.toNat := by
  rw [irqO_match_iff, BitVec.toNat_inj]

/-- Up to the last count, the timer is at it exactly when it raises one of
its interrupts. -/
theorem irqO_iff_lastCount {r : Regs} (hle : r.timer.toNat ≤ lastCount r.cmp) :
    (irqO r 0 || irqO r 1) = true ↔ r.timer.toNat = lastCount r.cmp := by
  rw [Bool.or_eq_true, irqO_overflow_iff_toNat, irqO_match_iff_toNat]
  have hmax := lastCount_le r.cmp
  unfold lastCount at hle hmax ⊢
  by_cases hc : r.cmp = 0
  · simp [hc]
  · simp only [hc, if_false, ne_eq, not_false_eq_true, true_and] at hle hmax ⊢
    -- an overflow up to the compare value is a match
    constructor
    · rintro (h | h) <;> omega
    · exact fun h => .inr h

/-- **One cycle of the enabled timer without a prescaler.** -/
theorem countN_of_unprescaled {r : Regs} (hen : enableBit r = true) (hp : prescalerInt r = 0)
    (hle : r.timer.toNat ≤ lastCount r.cmp) :
    (countN r).toNat = if r.timer.toNat = lastCount r.cmp then 0 else r.timer.toNat + 1 := by
  have hirq := irqO_iff_lastCount hle
  by_cases htop : r.timer.toNat = lastCount r.cmp
  · rw [if_pos htop, countN, if_pos (hirq.mpr htop)]
    rfl
  · have hno : ¬ (irqO r 0 || irqO r 1) = true := fun h => htop (hirq.mp h)
    have h0 : irqO r 0 = false := (Bool.or_eq_false_iff.mp (Bool.eq_false_iff.mpr hno)).1
    rw [if_neg htop, countN, if_neg hno, hen, hp]
    exact toNat_succ_of_no_overflow h0

section Runs

variable {s : Regs} {ins : Nat → Inputs} {n : Nat}

/-- **The count goes round.** -/
theorem timer_of_unwritten (hen : enableBit s = true) (hp : prescalerInt s = 0)
    (ht : s.timer = 0) (h : Unwritten ins n) :
    (runAt s ins n).timer.toNat = n % period s.cmp := by
  rw [← lastCount_add_one]
  refine counter_eq_mod_of_le (c := fun k => (runAt s ins k).timer.toNat) ?_
    fun k hk hle => ?_
  · show s.timer.toNat = 0
    rw [ht]
    rfl
  · obtain ⟨hctrl, hcmp⟩ := programmed_of_unwritten (s := s) (h.mono (Nat.le_of_lt hk))
    have hon : enableBit (runAt s ins k) = true := by
      rw [enableBit, hctrl]
      exact hen
    have hpre : prescalerInt (runAt s ins k) = 0 := by
      rw [prescalerInt, hctrl]
      exact hp
    show (runAt s ins (k + 1)).timer.toNat = _
    rw [runAt_succ_of_quiet (h k hk), ← hcmp]
    exact countN_of_unprescaled hon hpre (by rw [hcmp]; exact hle)

variable (s ins n)

/-- The count and the interrupts in cycle `n`. -/
structure Periodic : Prop where
  timer : (runAt s ins n).timer.toNat = n % period s.cmp
  /-- The match interrupt is up exactly while the count is at a compare
  value that is set. -/
  onMatch : irqO (runAt s ins n) 1 = true ↔ s.cmp ≠ 0 ∧ (runAt s ins n).timer = s.cmp
  /-- That is in one cycle of each period, its last. -/
  onceEvery : irqO (runAt s ins n) 1 = true ↔
    s.cmp ≠ 0 ∧ n % (s.cmp.toNat + 1) = s.cmp.toNat
  onOverflow : irqO (runAt s ins n) 0 = true ↔ (runAt s ins n).timer.toNat = 2 ^ 32 - 1

variable {s ins n}

/-- **The timer without a prescaler is exactly periodic.** -/
theorem periodic (hen : enableBit s = true) (hp : prescalerInt s = 0) (ht : s.timer = 0)
    (h : Unwritten ins n) : Periodic s ins n := by
  have htimer := timer_of_unwritten hen hp ht h
  obtain ⟨_, hcmp⟩ := programmed_of_unwritten (s := s) h
  refine ⟨htimer, ?_, ?_, irqO_overflow_iff_toNat _⟩
  · rw [irqO_match_iff, hcmp]
  · rw [irqO_match_iff_toNat, hcmp, htimer, period]
    by_cases hc : s.cmp = 0
    · simp [hc]
    · rw [if_neg hc]

end Runs

/-- A timer started with a compare value of 2. -/
def everyThird : Regs where
  timer := 0
  timerCtrl := 0x1
  cmp := 2
  cycleCounter := 0

theorem periodic_everyThird : Periodic everyThird idleBus 5 :=
  periodic (by decide) (by decide) rfl fun _ _ => rfl

end RiscvSoc.Timer
