import RiscvSoc.Apb.Periodic
import RiscvSoc.Sync.Cascade

/-!
# Apb — PrescaledMatch

The prescaled timer over its restarts. The cycle counter does not take
notice of a match or an overflow, so the count is a counter behind a
divider: its last value stands for one cycle only, and from one interrupt
to the next it takes as many of the counter's rounds as that value says.
-/

namespace RiscvSoc.Timer

open Sync

theorem lastCount_pos (cmp : BitVec 32) : 0 < lastCount cmp := by
  unfold lastCount
  split
  · decide
  · rename_i h
    exact Nat.pos_of_ne_zero fun hz => h (BitVec.eq_of_toNat_eq hz)

/-- One cycle of the enabled timer with a prescaler. -/
theorem toNat_countN_of_prescaled {r : Regs} (hen : enableBit r = true) (hp : prescalerInt r ≠ 0)
    (hle : r.timer.toNat ≤ lastCount r.cmp) :
    (countN r).toNat =
      if r.timer.toNat = lastCount r.cmp then 0
      else if r.cycleCounter.toNat = (prescalerInt r).toNat then r.timer.toNat + 1
      else r.timer.toNat := by
  have hirq := irqO_iff_lastCount hle
  by_cases htop : r.timer.toNat = lastCount r.cmp
  · rw [if_pos htop, countN, if_pos (hirq.mpr htop)]
    rfl
  · have hno : (irqO r 0 || irqO r 1) = false := Bool.eq_false_iff.mpr fun h => htop (hirq.mp h)
    obtain ⟨h0, h1⟩ := Bool.or_eq_false_iff.mp hno
    rw [if_neg htop, countN_of_prescaled hen hp h0 h1]
    by_cases hk : r.cycleCounter.toNat = (prescalerInt r).toNat
    · rw [if_pos hk, if_pos hk]
      exact toNat_succ_of_no_overflow h0
    · rw [if_neg hk, if_neg hk]

section Runs

variable {s : Regs} {ins : Nat → Inputs} {n : Nat}

/-- **The prescaled count over its restarts.** -/
theorem timer_eq_cascade (hen : enableBit s = true) (hp : prescalerInt s ≠ 0) (ht : s.timer = 0)
    (hc : s.cycleCounter = 0) (h : Unwritten ins n) :
    (runAt s ins n).timer.toNat
      = cascade (s.timerCtrl.toNat + 1) (prescalerInt s).toNat (lastCount s.cmp) n := by
  have hword := le_timerCtrl hen
  have hfield : (prescalerInt s).toNat ≠ 0 := fun hz => hp (BitVec.eq_of_toNat_eq hz)
  refine eq_cascade (c := fun k => (runAt s ins k).timer.toNat) (by omega) (lastCount_pos _) ?_
    fun k hk hle => ?_
  · show s.timer.toNat = 0
    rw [ht]
    rfl
  · have hk' := h.mono (Nat.le_of_lt hk)
    obtain ⟨hctrl, hcmp⟩ := programmed_of_unwritten (s := s) hk'
    have hon : enableBit (runAt s ins k) = true := by
      rw [enableBit, hctrl]
      exact hen
    have hpre : prescalerInt (runAt s ins k) = prescalerInt s := by
      rw [prescalerInt, hctrl, prescalerInt]
    show (runAt s ins (k + 1)).timer.toNat = _
    rw [runAt_succ_of_quiet (h k hk), ← cycleCounter_of_unwritten hc hk', ← hcmp, ← hpre]
    exact toNat_countN_of_prescaled hon (hpre ▸ hp) (by rw [hcmp]; exact hle)

variable (s ins n)

/-- Where a cycle lies in its round, of `(CTRL + 1) * CMP` cycles. A run
begins `p + 1` cycles before the end of a stage. -/
def roundPos : Nat :=
  (n + (s.timerCtrl.toNat - (prescalerInt s).toNat)) % ((s.timerCtrl.toNat + 1) * lastCount s.cmp)

/-- **The rounds of the prescaled timer**, in cycle `n`. -/
structure Rounds : Prop where
  /-- The count is at its last value in the first cycle of a round, -/
  last : (runAt s ins n).timer.toNat = lastCount s.cmp ↔ roundPos s n = 0
  /-- and at each other value for the `CTRL + 1` cycles of its stage, or
  what the last value has left of them. -/
  stage : ∀ v, v < lastCount s.cmp → ((runAt s ins n).timer.toNat = v ↔ roundPos s n ≠ 0 ∧
    v * (s.timerCtrl.toNat + 1) ≤ roundPos s n ∧
    roundPos s n < (v + 1) * (s.timerCtrl.toNat + 1))
  /-- There is an interrupt in that first cycle, and in no other. -/
  onceEvery : (irqO (runAt s ins n) 0 || irqO (runAt s ins n) 1) = true ↔ roundPos s n = 0
  /-- It is the match interrupt if a compare value is set. -/
  onMatch : irqO (runAt s ins n) 1 = true ↔ s.cmp ≠ 0 ∧ roundPos s n = 0

variable {s ins n}

/-- **The prescaled timer is periodic**, in `(CTRL + 1) * CMP` cycles. -/
theorem rounds (hen : enableBit s = true) (hp : prescalerInt s ≠ 0) (ht : s.timer = 0)
    (hc : s.cycleCounter = 0) (h : Unwritten ins n) : Rounds s ins n := by
  have hword := le_timerCtrl hen
  have hphase : (prescalerInt s).toNat < s.timerCtrl.toNat + 1 := by omega
  have htimer := timer_eq_cascade hen hp ht hc h
  have hpos : cascadePos (s.timerCtrl.toNat + 1) (prescalerInt s).toNat (lastCount s.cmp) n
      = roundPos s n := by
    rw [cascadePos, Nat.add_sub_cancel, roundPos]
  have hlast : (runAt s ins n).timer.toNat = lastCount s.cmp ↔ roundPos s n = 0 := by
    rw [htimer, cascade_eq_top_iff hphase (lastCount_pos _), hpos]
  obtain ⟨_, hcmp⟩ := programmed_of_unwritten (s := s) h
  refine ⟨hlast, fun v hv => ?_, ?_, ?_⟩
  · rw [htimer, cascade_eq_iff (Nat.succ_pos _) hv, hpos]
  · have hle : (runAt s ins n).timer.toNat ≤ lastCount (runAt s ins n).cmp := by
      rw [hcmp, htimer]
      exact cascade_le hphase (lastCount_pos _) n
    rw [irqO_iff_lastCount hle, hcmp, hlast]
  · rw [irqO_match_iff_toNat, hcmp]
    refine and_congr_right fun hset => ?_
    rw [← hlast, lastCount, if_neg hset]

end Runs

/-- A timer started with a prescaler field of 1 and a compare value of 2. -/
def slowThird : Regs where
  timer := 0
  timerCtrl := 0x9
  cmp := 2
  cycleCounter := 0

theorem rounds_slowThird : Rounds slowThird idleBus 12 :=
  rounds (by decide) (by decide) rfl rfl fun _ _ => rfl

end RiscvSoc.Timer
