/-!
# Mem — Overlay

A row of block writes to a memory. Block `i` covers the addresses that
`hits i` holds of and writes `val i a` to address `a`. What a later block
covers is what is left in the end, so the contents of an address are
those of the LAST block that hits it.
-/

namespace RiscvSoc.Mem

variable {A V : Type _} (hits : Nat → A → Bool) (val : Nat → A → V) (m : A → V)

/-- The memory after the first `n` blocks. -/
def overlays : Nat → A → V
  | 0, a => m a
  | n + 1, a => if hits n a then val n a else overlays n a

/-- Block `i` is the last of the first `n` to hit `a`. -/
def LastHit (n : Nat) (a : A) (i : Nat) : Prop :=
  i < n ∧ hits i a = true ∧ ∀ j, i < j → j < n → hits j a = false

variable {hits}

/-- An address is hit last by some block or by none. -/
theorem exists_lastHit_or (n : Nat) (a : A) :
    (∃ i, LastHit hits n a i) ∨ ∀ i, i < n → hits i a = false := by
  induction n with
  | zero => exact .inr fun i hi => absurd hi (Nat.not_lt_zero i)
  | succ n ih =>
      by_cases hn : hits n a = true
      · exact .inl ⟨n, Nat.lt_succ_self n, hn, fun j h1 h2 => by omega⟩
      · rw [Bool.not_eq_true] at hn
        rcases ih with ⟨i, hlt, hi, hlater⟩ | hnone
        · refine .inl ⟨i, by omega, hi, fun j h1 h2 => ?_⟩
          rcases Nat.lt_succ_iff_lt_or_eq.mp h2 with h3 | rfl
          · exact hlater j h1 h3
          · exact hn
        · refine .inr fun i hi => ?_
          rcases Nat.lt_succ_iff_lt_or_eq.mp hi with h3 | rfl
          · exact hnone i h3
          · exact hn

/-- A block that hits `a` is not after the last one. -/
theorem LastHit.le {n : Nat} {a : A} {i j : Nat} (hi : LastHit hits n a i) (hj : j < n)
    (h : hits j a = true) : j ≤ i := by
  rw [← Nat.not_lt]
  intro hlt
  rw [hi.2.2 j hlt hj] at h
  cases h

theorem overlays_of_lastHit {n : Nat} {a : A} {i : Nat} (h : LastHit hits n a i) :
    overlays hits val m n a = val i a := by
  obtain ⟨hlt, hi, hlater⟩ := h
  induction n with
  | zero => omega
  | succ n ih =>
      rw [overlays]
      rcases Nat.lt_succ_iff_lt_or_eq.mp hlt with h1 | rfl
      · rw [hlater n h1 (Nat.lt_succ_self n), if_neg Bool.false_ne_true]
        exact ih h1 fun j h2 h3 => hlater j h2 (by omega)
      · rw [if_pos hi]

theorem overlays_of_no_hit {n : Nat} {a : A} (h : ∀ i, i < n → hits i a = false) :
    overlays hits val m n a = m a := by
  induction n with
  | zero => rfl
  | succ n ih =>
      rw [overlays, h n (Nat.lt_succ_self n), if_neg Bool.false_ne_true]
      exact ih fun i hi => h i (by omega)

end RiscvSoc.Mem
