import Mathlib.Data.Nat.Init

/-!
# Sync — Latest

Contents that only events change. Some cycles bring a new value, the
others none; a register that loads each new value and otherwise stays
holds the value that came last.
-/

namespace RiscvSoc.Sync

variable {α : Type _}

/-- The value that came last before cycle `n`, or `d` if none came. -/
def latest (f : Nat → Option α) (d : α) : Nat → α
  | 0 => d
  | n + 1 => (f n).getD (latest f d n)

theorem latest_succ (f : Nat → Option α) (d : α) (n : Nat) :
    latest f d (n + 1) = (f n).getD (latest f d n) := rfl

variable {f : Nat → Option α} {d : α}

/-- **A register that loads each new value holds the latest.** -/
theorem eq_latest {r : Nat → α} (h0 : r 0 = d)
    (hs : ∀ n, r (n + 1) = (f n).getD (r n)) (n : Nat) : r n = latest f d n := by
  induction n with
  | zero => exact h0
  | succ n ih => rw [hs, ih, latest_succ]

/-- Without new values from cycle `m` on, what was there in `m` stays. -/
theorem latest_eq_of_none {m n : Nat} (hmn : m ≤ n)
    (hno : ∀ j, m ≤ j → j < n → f j = none) : latest f d n = latest f d m := by
  induction n, hmn using Nat.le_induction with
  | base => rfl
  | succ n hmn ih =>
      rw [latest_succ, hno n hmn (Nat.lt_succ_self n)]
      exact ih fun j hj hjn => hno j hj (by omega)

/-- The last value to come is the one that is there. -/
theorem latest_of_last {a : α} {m n : Nat} (hmn : m < n) (h : f m = some a)
    (hno : ∀ j, m < j → j < n → f j = none) : latest f d n = a := by
  rw [latest_eq_of_none hmn fun j hj hjn => hno j hj hjn, latest_succ, h]
  rfl

theorem latest_of_none {n : Nat} (hno : ∀ j, j < n → f j = none) : latest f d n = d :=
  latest_eq_of_none (Nat.zero_le n) fun j _ hj => hno j hj

end RiscvSoc.Sync
