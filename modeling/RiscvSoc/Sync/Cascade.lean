import RiscvSoc.Sync.Divider
import Mathlib.Data.Nat.ModEq

/-!
# Sync — Cascade

A counter behind a divider: it counts the divider's ticks up to `top`,
stays there for one cycle and restarts by itself, without a tick. It goes
round in `period * top` cycles, and the cycle at `top` does not cost it a
tick as long as no two ticks follow each other.
-/

namespace RiscvSoc.Sync

/-- Where a cycle lies in a round; a round starts with the cycle at the top. -/
def cascadePos (period phase top n : Nat) : Nat := (n + (period - 1 - phase)) % (period * top)

/-- The count in cycle `n`. -/
def cascade (period phase top n : Nat) : Nat :=
  if cascadePos period phase top n = 0 then top else cascadePos period phase top n / period

variable {period phase top : Nat}

/-- The divider ticks in the last cycle of a stage. -/
theorem cascadePos_mod (hp : phase < period) (n : Nat) :
    cascadePos period phase top n % period = period - 1 ↔ n % period = phase := by
  have hdiv := Nat.div_add_mod n period
  have hlt := Nat.mod_lt n (by omega : 0 < period)
  rw [cascadePos, Nat.mod_mul_right_mod]
  rcases Nat.lt_or_ge phase (n % period) with hbehind | hbefore
  · have hsum : n + (period - 1 - phase)
        = (n % period - 1 - phase) + period * (n / period + 1) := by
      rw [Nat.mul_succ]
      omega
    rw [hsum, Nat.add_mul_mod_self_left, Nat.mod_eq_of_lt (by omega)]
    omega
  · have hsum : n + (period - 1 - phase)
        = (n % period + (period - 1 - phase)) + period * (n / period) := by
      omega
    rw [hsum, Nat.add_mul_mod_self_left, Nat.mod_eq_of_lt (by omega)]
    omega

theorem cascadePos_lt (hp : phase < period) (ht : 0 < top) (n : Nat) :
    cascadePos period phase top n < period * top :=
  Nat.mod_lt _ (Nat.mul_pos (by omega) ht)

/-- A position goes up to the end of the round. -/
theorem cascadePos_succ (hp : phase < period) (ht : 0 < top) (n : Nat) :
    cascadePos period phase top (n + 1)
      = if cascadePos period phase top n + 1 = period * top then 0
        else cascadePos period phase top n + 1 := by
  have hlt := cascadePos_lt hp ht n
  have hmod : cascadePos period phase top (n + 1)
      = (cascadePos period phase top n + 1) % (period * top) := by
    rw [cascadePos, cascadePos, Nat.mod_add_mod]
    congr 1
    omega
  rw [hmod]
  split
  · rename_i hend
    rw [hend, Nat.mod_self]
  · rw [Nat.mod_eq_of_lt (by omega)]

theorem cascade_zero (hp : phase + 1 < period) (ht : 0 < top) : cascade period phase top 0 = 0 := by
  have hpos : cascadePos period phase top 0 = period - 1 - phase := by
    have hle : period * 1 ≤ period * top := Nat.mul_le_mul_left period ht
    rw [cascadePos, Nat.zero_add, Nat.mod_eq_of_lt (by omega)]
  rw [cascade, hpos, if_neg (by omega), Nat.div_eq_of_lt (by omega)]

theorem cascade_lt {n : Nat} (hp : phase < period) (ht : 0 < top)
    (h : cascadePos period phase top n ≠ 0) : cascade period phase top n < top := by
  rw [cascade, if_neg h]
  exact Nat.div_lt_of_lt_mul (cascadePos_lt hp ht n)

theorem cascade_le (hp : phase < period) (ht : 0 < top) (n : Nat) :
    cascade period phase top n ≤ top := by
  by_cases htop : cascadePos period phase top n = 0
  · exact Nat.le_of_eq (if_pos htop)
  · exact Nat.le_of_lt (cascade_lt hp ht htop)

/-- **The count is at the top in the first cycle of a round.** -/
theorem cascade_eq_top_iff (hp : phase < period) (ht : 0 < top) (n : Nat) :
    cascade period phase top n = top ↔ cascadePos period phase top n = 0 := by
  refine ⟨fun h => ?_, fun h => if_pos h⟩
  by_contra hne
  have hlt := cascade_lt hp ht hne
  omega

/-- Below the top the count is the number of its stage. -/
theorem cascade_eq_iff {v n : Nat} (hperiod : 0 < period) (hv : v < top) :
    cascade period phase top n = v ↔ cascadePos period phase top n ≠ 0 ∧
      v * period ≤ cascadePos period phase top n ∧
      cascadePos period phase top n < (v + 1) * period := by
  rw [cascade]
  by_cases htop : cascadePos period phase top n = 0
  · rw [if_pos htop]
    exact iff_of_false (by omega) fun h => h.1 htop
  · rw [if_neg htop, Nat.div_eq_iff hperiod, Nat.succ_mul]
    omega

/-- **One cycle of the counter.** -/
theorem cascade_succ (hp : phase + 1 < period) (ht : 0 < top) (n : Nat) :
    cascade period phase top (n + 1) =
      if cascade period phase top n = top then 0
      else if n % period = phase then cascade period phase top n + 1
      else cascade period phase top n := by
  have hp' : phase < period := by omega
  have hround : period * 1 ≤ period * top := Nat.mul_le_mul_left period ht
  have hlt := cascadePos_lt hp' ht n
  have hnext := cascadePos_succ hp' ht n
  by_cases htop : cascadePos period phase top n = 0
  · -- the cycle behind the top is the first of a stage
    rw [htop, if_neg (by omega)] at hnext
    rw [if_pos ((cascade_eq_top_iff hp' ht n).mpr htop), cascade, hnext, if_neg (by omega),
      Nat.div_eq_of_lt (by omega)]
  · have hne : cascade period phase top n ≠ top := fun h =>
      htop ((cascade_eq_top_iff hp' ht n).mp h)
    -- the top is what the last stage of the round counts to
    have hval : cascade period phase top (n + 1)
        = (cascadePos period phase top n + 1) / period := by
      rw [cascade, hnext]
      by_cases hend : cascadePos period phase top n + 1 = period * top
      · rw [if_pos hend, if_pos rfl, hend, Nat.mul_div_cancel_left top (by omega)]
      · rw [if_neg hend, if_neg (Nat.succ_ne_zero _)]
    have htick : (cascadePos period phase top n + 1) % period = 0 ↔ n % period = phase := by
      obtain ⟨b, rfl⟩ : ∃ b, period = b + 1 := ⟨period - 1, by omega⟩
      rw [Nat.succ_mod_succ_eq_zero_iff, ← cascadePos_mod hp' n, Nat.add_sub_cancel]
    rw [if_neg hne, hval, cascade, if_neg htop]
    by_cases hk : n % period = phase
    · rw [if_pos hk, Nat.succ_div_of_mod_eq_zero (htick.mpr hk)]
    · rw [if_neg hk, Nat.succ_div_of_mod_ne_zero fun h => hk (htick.mp h)]

/-- **A counter behind a divider.** -/
theorem eq_cascade {c : Nat → Nat} (hp : phase + 1 < period) (ht : 0 < top) (h0 : c 0 = 0) {n : Nat}
    (hs : ∀ k, k < n → c k ≤ top → c (k + 1) =
      if c k = top then 0 else if k % period = phase then c k + 1 else c k) :
    c n = cascade period phase top n := by
  induction n with
  | zero => rw [h0, cascade_zero hp ht]
  | succ n ih =>
      have hn := ih fun k hk => hs k (by omega)
      have hle := cascade_le (by omega : phase < period) ht n
      rw [hs n (Nat.lt_succ_self n) (by omega), hn, cascade_succ hp ht]

end RiscvSoc.Sync
