import Mathlib.Data.List.Infix
import Mathlib.Data.List.Nodup

/-!
# Sync — Cycles

A signal of a clocked design is a function of the cycle number. This
module is the bookkeeping over such signals: `cycles p n` lists, in
order, the cycles before `n` in which the Boolean signal `p` is high,
so a sequence of bus events is a list of cycle numbers and a count of
events is its length.

Nothing here knows what the signals mean.
-/

namespace RiscvSoc.Sync

/-- The cycles before `n` in which `p` is high, in order. -/
def cycles (p : Nat → Bool) (n : Nat) : List Nat :=
  (List.range n).filter p

@[simp] theorem cycles_zero (p : Nat → Bool) : cycles p 0 = [] := rfl

theorem cycles_succ (p : Nat → Bool) (n : Nat) :
    cycles p (n + 1) = cycles p n ++ if p n then [n] else [] := by
  rw [cycles, List.range_succ, List.filter_append]
  cases h : p n <;> simp [cycles, h]

theorem cycles_succ_of_high {p : Nat → Bool} {n : Nat} (h : p n = true) :
    cycles p (n + 1) = cycles p n ++ [n] := by
  rw [cycles_succ, if_pos h]

theorem cycles_succ_of_low {p : Nat → Bool} {n : Nat} (h : p n = false) :
    cycles p (n + 1) = cycles p n := by
  simp [cycles_succ, h]

theorem mem_cycles {p : Nat → Bool} {n k : Nat} :
    k ∈ cycles p n ↔ k < n ∧ p k = true := by
  simp [cycles]

theorem cycles_nodup (p : Nat → Bool) (n : Nat) : (cycles p n).Nodup :=
  List.nodup_range.filter p

/-- The list depends on the signal before `n` only. -/
theorem cycles_congr {p q : Nat → Bool} {n : Nat}
    (h : ∀ k, k < n → p k = q k) : cycles p n = cycles q n :=
  List.filter_congr fun k hk => h k (List.mem_range.mp hk)

theorem length_cycles_succ (p : Nat → Bool) (n : Nat) :
    (cycles p (n + 1)).length = (cycles p n).length + (p n).toNat := by
  rw [cycles_succ]
  cases p n <;> simp

/-- A signal that repeats `p` one cycle later is high one cycle after
each event of `p`, and nowhere else. -/
theorem cycles_delay {p q : Nat → Bool} (h0 : q 0 = false)
    (h : ∀ k, q (k + 1) = p k) (n : Nat) :
    cycles q (n + 1) = (cycles p n).map (· + 1) := by
  induction n with
  | zero => rw [cycles_succ_of_low h0]; rfl
  | succ n ih =>
      rw [cycles_succ q (n + 1), ih, h, cycles_succ p n]
      cases p n <;> simp

/-- The same up to a cycle. -/
theorem cycles_delay_of_lt {p q : Nat → Bool} {n : Nat} (h0 : q 0 = false)
    (h : ∀ k, k < n → q (k + 1) = p k) : cycles q (n + 1) = (cycles p n).map (· + 1) := by
  induction n with
  | zero => rw [cycles_succ_of_low h0]; rfl
  | succ n ih =>
      rw [cycles_succ q (n + 1), ih fun k hk => h k (Nat.lt_succ_of_lt hk),
        h n (Nat.lt_succ_self n), cycles_succ p n]
      cases p n <;> simp

theorem length_cycles_delay {p q : Nat → Bool} (h : ∀ k, q (k + 1) = p k) (n : Nat) :
    (cycles q (n + 1)).length = (q 0).toNat + (cycles p n).length := by
  induction n with
  | zero => rw [length_cycles_succ]; simp
  | succ n ih => rw [length_cycles_succ, ih, h, length_cycles_succ p, Nat.add_assoc]

theorem length_cycles_le {p q : Nat → Bool} (h : ∀ k, q k = true → p k = true)
    (n : Nat) : (cycles q n).length ≤ (cycles p n).length := by
  induction n with
  | zero => exact Nat.le_refl _
  | succ n ih =>
      rw [length_cycles_succ, length_cycles_succ]
      have hn := h n
      cases hq : q n
      · simp only [Bool.toNat_false]; omega
      · rw [hq] at hn
        simp only [hn rfl, Bool.toNat_true]; omega

/-- Two signals, one implied by the other, have the same number of
events before `n` only if they agree before `n`. -/
theorem length_cycles_eq_iff {p q : Nat → Bool}
    (h : ∀ k, q k = true → p k = true) (n : Nat) :
    (cycles p n).length = (cycles q n).length ↔
      ∀ k, k < n → p k = true → q k = true := by
  induction n with
  | zero => simp
  | succ n ih =>
      have hle := length_cycles_le h n
      have hn := h n
      rw [length_cycles_succ, length_cycles_succ]
      constructor
      · intro heq k hk hp
        have hpq : (q n).toNat ≤ (p n).toNat := by
          cases hq : q n <;> simp_all
        rcases Nat.lt_succ_iff_lt_or_eq.mp hk with hlt | rfl
        · exact ih.mp (by omega) k hlt hp
        · cases hq : q k
          · simp only [hp, hq, Bool.toNat_true, Bool.toNat_false] at heq
            omega
          · rfl
      · intro hall
        have heq := ih.mpr fun k hk => hall k (by omega)
        have hpn : p n = q n := by
          cases hp : p n
          · cases hq : q n
            · rfl
            · simp [hn hq] at hp
          · exact (hall n (by omega) hp).symm
        rw [heq, hpn]

end RiscvSoc.Sync
