import RiscvSoc.Sync.Pipeline

/-!
# Sync — Crossbar

Several masters and several slaves, each with a pipelined port of its own,
and something between them that carries the transfers. It may show a slave
a transfer later than its master has shown it, and other masters' transfers
before it; until the slave is done the master is kept in its data phase.

From what holds in each cycle follows what a run has done: each slave has
completed the transfers that are for it, and of each master in the order
in which that master has completed them.
-/

namespace RiscvSoc.Sync

open Pipeline

variable {ι κ : Type _} {ready offer : ι → Nat → Bool} {sready soffer : κ → Nat → Bool}
  {target : ι → Nat → κ → Prop} {source : κ → Nat → ι × Nat}

/-- What connects the ports. `target i j k` says that the transfer that
master `i` has begun in cycle `j` is for slave `k`, and `source k a` names
the transfer that slave `k` has taken in cycle `a`. -/
structure Crossbar (ready offer : ι → Nat → Bool) (sready soffer : κ → Nat → Bool)
    (target : ι → Nat → κ → Prop) (source : κ → Nat → ι × Nat) : Prop where
  /-- A slave takes transfers that are for it. -/
  addressed : ∀ {k a}, accepts (sready k) (soffer k) a = true →
    target (source k a).1 (source k a).2 k
  /-- In its data phase the master of the transfer is in that of the same. -/
  held : ∀ {k t a}, owner (sready k) (soffer k) t = some a →
    owner (ready (source k a).1) (offer (source k a).1) t = some (source k a).2
  /-- The master goes on when the slave is done with its transfer. -/
  ends : ∀ {i t j k}, owner (ready i) (offer i) t = some j → target i j k →
    (ready i t = true ↔
      sready k t = true ∧ ∃ a, owner (sready k) (soffer k) t = some a ∧ source k a = (i, j))

/-- The transfers that slave `k` has completed before cycle `n`, in order. -/
def carried (sready soffer : κ → Nat → Bool) (source : κ → Nat → ι × Nat) (k : κ) (n : Nat) :
    List (ι × Nat) :=
  (completed (sready k) (soffer k) n).map (source k)

theorem carried_succ_of_owner {k : κ} {n a : Nat} (hr : sready k n = true)
    (h : owner (sready k) (soffer k) n = some a) :
    carried sready soffer source k (n + 1)
      = carried sready soffer source k n ++ [source k a] := by
  rw [carried, completed_succ_of_owner hr h, List.map_append]
  rfl

theorem carried_succ_of_none {k : κ} {n : Nat}
    (h : sready k n = true → owner (sready k) (soffer k) n = none) :
    carried sready soffer source k (n + 1) = carried sready soffer source k n := by
  rw [carried, completed_succ_of_none h, carried]

namespace Crossbar

variable (h : Crossbar ready offer sready soffer target source)

include h

theorem target_of_owner {k : κ} {n a : Nat} (ho : owner (sready k) (soffer k) n = some a) :
    target (source k a).1 (source k a).2 k :=
  h.addressed (owner_eq_some_iff.mp ho).1

/-- The end of a transfer at the slave is its end at the master. -/
theorem ready_of_sready {k : κ} {n a : Nat} (hr : sready k n = true)
    (ho : owner (sready k) (soffer k) n = some a) : ready (source k a).1 n = true :=
  (h.ends (h.held ho) (h.target_of_owner ho)).mpr ⟨hr, a, ho, rfl⟩

variable [DecidableEq ι] [∀ i k, DecidablePred fun j => target i j k]

/-- **Each slave completes what is for it**, and of each master in order. -/
theorem filter_carried (i : ι) (k : κ) (n : Nat) :
    ((carried sready soffer source k n).filter fun x => x.1 = i).map Prod.snd
      = (completed (ready i) (offer i) n).filter fun j => target i j k := by
  induction n with
  | zero => rfl
  | succ n ih =>
      by_cases hown : sready k n = true ∧
          ∃ a, owner (sready k) (soffer k) n = some a ∧ (source k a).1 = i
      · -- a transfer of the master ends at the slave
        obtain ⟨hr, a, ho, rfl⟩ := hown
        have hmaster := completed_succ_of_owner (h.ready_of_sready hr ho) (h.held ho)
        rw [carried_succ_of_owner hr ho, List.filter_append, List.map_append, ih, hmaster,
          List.filter_append]
        congr 1
        simp [h.target_of_owner ho]
      · have hslave : (carried sready soffer source k (n + 1)).filter (fun x => x.1 = i)
            = (carried sready soffer source k n).filter fun x => x.1 = i := by
          by_cases hr : sready k n = true
          · cases ho : owner (sready k) (soffer k) n with
            | none => rw [carried_succ_of_none fun _ => ho]
            | some a =>
                have hne : (source k a).1 ≠ i := fun he => hown ⟨hr, a, ho, he⟩
                rw [carried_succ_of_owner hr ho, List.filter_append]
                simp [hne]
          · rw [carried_succ_of_none fun hr' => absurd hr' hr]
        rw [hslave, ih]
        cases hr : ready i n with
        | false => rw [completed_succ_of_none fun hr' => by rw [hr] at hr'; cases hr']
        | true =>
            cases ho : owner (ready i) (offer i) n with
            | none => rw [completed_succ_of_none fun _ => ho]
            | some j =>
                -- a transfer that ends at the master and not at the slave is not for it
                have hnot : ¬ target i j k := by
                  intro ht
                  obtain ⟨hs, a, ha, hsource⟩ := (h.ends ho ht).mp hr
                  exact hown ⟨hs, a, ha, by rw [hsource]⟩
                rw [completed_succ_of_owner hr ho, List.filter_append]
                simp [hnot]

/-- A completed transfer is carried to the slave it is for. -/
theorem mem_carried_iff {i : ι} {j : Nat} {k : κ} {n : Nat} :
    (i, j) ∈ carried sready soffer source k n ↔
      j ∈ completed (ready i) (offer i) n ∧ target i j k := by
  have hmem : j ∈ ((carried sready soffer source k n).filter fun x => x.1 = i).map Prod.snd ↔
      (i, j) ∈ carried sready soffer source k n := by
    simp only [List.mem_map, List.mem_filter, decide_eq_true_eq]
    constructor
    · rintro ⟨⟨i', j'⟩, ⟨hx, rfl⟩, rfl⟩
      exact hx
    · exact fun hx => ⟨(i, j), ⟨hx, rfl⟩, rfl⟩
  rw [← hmem, h.filter_carried, List.mem_filter, decide_eq_true_eq]

end Crossbar

end RiscvSoc.Sync
