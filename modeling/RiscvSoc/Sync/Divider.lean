import RiscvSoc.Sync.Cycles
import Mathlib.Data.Nat.Count

/-!
# Sync — Divider

Clock dividers: a counter that restarts behind its top value, and the
ticks it gives, one in each period at a fixed phase. The count of ticks
has a closed form, from which follows how far a divider of too long a
period keeps up with the one that was meant.
-/

namespace RiscvSoc.Sync

/-- **A counter that restarts at `top` counts modulo `top + 1`**, whatever
it would do above `top`. -/
theorem counter_eq_mod_of_le {c : Nat → Nat} {top n : Nat} (h0 : c 0 = 0)
    (hs : ∀ k, k < n → c k ≤ top → c (k + 1) = if c k = top then 0 else c k + 1) :
    c n = n % (top + 1) := by
  induction n with
  | zero => rw [h0, Nat.zero_mod]
  | succ n ih =>
      have hn := ih fun k hk => hs k (by omega)
      have hlt : n % (top + 1) < top + 1 := Nat.mod_lt n (Nat.succ_pos top)
      rw [hs n (Nat.lt_succ_self n) (by omega), hn]
      split
      · rename_i htop
        rw [Nat.add_mod, htop]
        rcases Nat.eq_zero_or_pos top with rfl | hpos
        · rfl
        · rw [Nat.mod_eq_of_lt (by omega : 1 < top + 1), Nat.mod_self]
      · rename_i htop
        rw [Nat.add_mod, Nat.mod_eq_of_lt (by omega : 1 < top + 1),
          Nat.mod_eq_of_lt (by omega : n % (top + 1) + 1 < top + 1)]

/-- The same of a counter that restarts from `top` on. -/
theorem counter_eq_mod {c : Nat → Nat} {top n : Nat} (h0 : c 0 = 0)
    (hs : ∀ k, k < n → c (k + 1) = if top ≤ c k then 0 else c k + 1) :
    c n = n % (top + 1) := by
  refine counter_eq_mod_of_le h0 fun k hk hle => ?_
  rw [hs k hk]
  by_cases heq : c k = top
  · rw [if_pos heq, if_pos (by omega)]
  · rw [if_neg heq, if_neg (by omega)]

/-- The ticks before cycle `n` of a divider that ticks at `phase`. -/
def ticks (period phase n : Nat) : Nat :=
  (cycles (fun j => j % period == phase) n).length

theorem ticks_succ (period phase n : Nat) :
    ticks period phase (n + 1) = ticks period phase n + if n % period = phase then 1 else 0 := by
  rw [ticks, length_cycles_succ, ticks]
  by_cases h : n % period = phase <;> simp [h]

/-- The ticks of a divider that is started in cycle `d`. -/
theorem count_ticks {period phase : Nat} (d n : Nat) :
    Nat.count (fun j => d ≤ j ∧ (j - d) % period = phase) n = ticks period phase (n - d) := by
  induction n with
  | zero =>
      rw [Nat.count_zero, Nat.zero_sub]
      rfl
  | succ n ih =>
      rw [Nat.count_succ, ih]
      by_cases hd : d ≤ n
      · have hsub : n + 1 - d = n - d + 1 := by omega
        rw [hsub, ticks_succ]
        simp only [hd, true_and]
      · have hsub : n + 1 - d = n - d := by omega
        rw [hsub, if_neg fun h => hd h.1, Nat.add_zero]

theorem ticks_eq {period phase : Nat} (h : phase < period) (n : Nat) :
    ticks period phase n = (n + (period - 1 - phase)) / period := by
  induction n with
  | zero =>
      rw [Nat.zero_add, Nat.div_eq_of_lt (by omega)]
      rfl
  | succ n ih =>
      have hdvd : period ∣ n + (period - 1 - phase) + 1 ↔ n % period = phase := by
        have hsum : n + (period - 1 - phase) + 1 = n + (period - phase) := by omega
        rw [hsum, Nat.dvd_iff_mod_eq_zero, Nat.add_mod]
        have hlt := Nat.mod_lt n (by omega : 0 < period)
        rcases Nat.eq_zero_or_pos phase with rfl | hpos
        · rw [Nat.sub_zero, Nat.mod_self, Nat.add_zero, Nat.mod_mod]
        · rw [Nat.mod_eq_of_lt (by omega : period - phase < period)]
          constructor
          · intro hz
            by_contra hne
            rcases Nat.lt_or_ge (n % period + (period - phase)) period with hl | hg
            · rw [Nat.mod_eq_of_lt hl] at hz
              omega
            · rw [Nat.mod_eq_sub_mod hg, Nat.mod_eq_of_lt (by omega)] at hz
              omega
          · intro hp
            have hfull : n % period + (period - phase) = period := by omega
            rw [hfull, Nat.mod_self]
      have harg : n + 1 + (period - 1 - phase) = n + (period - 1 - phase) + 1 := by omega
      rw [ticks_succ, ih, harg, Nat.succ_div]
      simp only [hdvd]

/-- **A divider of too long a period falls behind at the second tick**:
with a period of at least `2 * q` it has given `n / q` ticks before cycle
`n` exactly as long as a divider by `q` has given at most one. -/
theorem ticks_eq_div_iff {period q : Nat} (hq : 0 < q) (h : 2 * q ≤ period) (n : Nat) :
    ticks period (q - 1) n = n / q ↔ n < 2 * q := by
  rw [ticks_eq (by omega)]
  have hpos : 0 < period := by omega
  constructor
  · intro heq
    by_contra hge
    -- the quotient by `q` is some `a` from 2 on, and the ticks are fewer
    have ha : 2 ≤ n / q := (Nat.le_div_iff_mul_le hq).mpr (by omega)
    have hn : n < q * (n / q) + q := by
      have hdiv := Nat.div_add_mod n q
      have hmod := Nat.mod_lt n hq
      omega
    have hlt : (n + (period - 1 - (q - 1))) / period < n / q := by
      rw [Nat.div_lt_iff_lt_mul hpos]
      obtain ⟨b, hb⟩ : ∃ b, n / q = b + 2 := ⟨n / q - 2, by omega⟩
      rw [hb] at hn ⊢
      have hperiod : q * (b + 2) ≤ period * (b + 1) :=
        calc q * (b + 2) ≤ q * (2 * (b + 1)) := Nat.mul_le_mul_left q (by omega)
          _ = 2 * q * (b + 1) := by rw [← Nat.mul_assoc, Nat.mul_comm q 2]
          _ ≤ period * (b + 1) := Nat.mul_le_mul_right _ h
      have hsplit : (b + 2) * period = period * (b + 1) + period := by
        rw [Nat.mul_comm, Nat.mul_succ period (b + 1)]
      omega
    omega
  · intro hlt
    rcases Nat.lt_or_ge n q with hsmall | hlarge
    · rw [Nat.div_eq_of_lt hsmall, Nat.div_eq_of_lt (by omega)]
    · have hone : n / q = 1 := Nat.div_eq_of_lt_le (by omega) (by omega)
      rw [hone]
      exact Nat.div_eq_of_lt_le (by omega) (by omega)

end RiscvSoc.Sync
