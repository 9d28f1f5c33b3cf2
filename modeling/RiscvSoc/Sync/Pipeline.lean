import RiscvSoc.Sync.Cycles

/-!
# Sync — Pipeline

The two-phase pipeline of a shared bus, seen by one party. A transfer
is OFFERED in its address phase, ACCEPTED in a cycle in which it is
offered and the bus is ready, and its data phase then lasts from the
following cycle up to and including the next ready one. The address
phase of a transfer overlaps the data phase of the one before it.

Transfers are named by the cycle of their acceptance, so whatever they
carry is read off the signals of that cycle.
-/

namespace RiscvSoc.Sync

/-- Cycle `n` lies in the data phase of the transfer accepted in
cycle `k`: no cycle strictly between the two was ready. -/
def DataPhase (ready : Nat → Bool) (k n : Nat) : Prop :=
  k < n ∧ ∀ j, k < j → j < n → ready j = false

/-- A data phase starts in the cycle after the acceptance and goes on
through cycles that are not ready. -/
theorem DataPhase.succ_cases {ready : Nat → Bool} {k n : Nat}
    (h : DataPhase ready k (n + 1)) :
    k = n ∨ (DataPhase ready k n ∧ ready n = false) := by
  obtain ⟨hlt, hw⟩ := h
  rcases Nat.lt_succ_iff_lt_or_eq.mp hlt with h1 | h1
  · exact .inr ⟨⟨h1, fun j hj hjn => hw j hj (by omega)⟩, hw n h1 (by omega)⟩
  · exact .inl h1

/-- A wait state prolongs a data phase. -/
theorem DataPhase.succ_of_wait {ready : Nat → Bool} {k n : Nat}
    (h : DataPhase ready k n) (hw : ready n = false) : DataPhase ready k (n + 1) := by
  refine ⟨Nat.lt_succ_of_lt h.1, fun j h1 h2 => ?_⟩
  rcases Nat.lt_succ_iff_lt_or_eq.mp h2 with h3 | rfl
  · exact h.2 j h1 h3
  · exact hw

theorem DataPhase.start (ready : Nat → Bool) (k : Nat) :
    DataPhase ready k (k + 1) :=
  ⟨by omega, fun j h1 h2 => by omega⟩

namespace Pipeline

variable (ready offer : Nat → Bool)

/-- A transfer is accepted. -/
def accepts (n : Nat) : Bool :=
  ready n && offer n

/-- The transfer whose data phase cycle `n` belongs to, if any. -/
def owner : Nat → Option Nat
  | 0 => none
  | n + 1 =>
      if ready n then (if offer n then some n else none)
      else owner n

/-- The transfers whose data phase ended before cycle `n`, in order. -/
def completed : Nat → List Nat
  | 0 => []
  | n + 1 =>
      if ready n then completed n ++ (owner ready offer n).toList
      else completed n

variable {ready offer}

theorem owner_succ_of_ready {n : Nat} (h : ready n = true) :
    owner ready offer (n + 1) = if offer n then some n else none := by
  rw [owner, if_pos h]

theorem owner_succ_of_wait {n : Nat} (h : ready n = false) :
    owner ready offer (n + 1) = owner ready offer n := by
  simp [owner, h]

theorem completed_succ_of_owner {n k : Nat} (hr : ready n = true)
    (h : owner ready offer n = some k) :
    completed ready offer (n + 1) = completed ready offer n ++ [k] := by
  rw [completed, if_pos hr, h]; rfl

theorem completed_succ_of_none {n : Nat}
    (h : ready n = true → owner ready offer n = none) :
    completed ready offer (n + 1) = completed ready offer n := by
  rw [completed]
  cases hr : ready n
  · simp
  · simp [h hr]

/-- A completed transfer ended its data phase in some ready cycle. -/
theorem exists_owner_of_completed {n k : Nat} (h : k ∈ completed ready offer n) :
    ∃ j, ready j = true ∧ owner ready offer j = some k := by
  induction n with
  | zero => cases h
  | succ n ih =>
      rw [completed] at h
      split at h
      · rename_i hr
        rcases List.mem_append.mp h with h1 | h1
        · exact ih h1
        · exact ⟨n, hr, Option.mem_toList.mp h1⟩
      · exact ih h

/-- **No transfer is lost**: the accepted ones are the completed ones
and the one in its data phase. -/
theorem accepted_eq (n : Nat) :
    cycles (accepts ready offer) n
      = completed ready offer n ++ (owner ready offer n).toList := by
  induction n with
  | zero => rfl
  | succ n ih =>
      rw [cycles_succ, ih, accepts]
      -- a ready cycle completes the owner and takes the offer in its place
      cases hr : ready n
      · simp [completed, owner, hr]
      · cases ho : offer n <;> simp [completed, owner, hr, ho]

/-- The pipeline seen by one that offers only some of the transfers. -/
theorem owner_filter (sel : Nat → Bool) (n : Nat) :
    owner ready (fun k => offer k && sel k) n = (owner ready offer n).filter sel := by
  induction n with
  | zero => rfl
  | succ n ih =>
      rw [owner, owner, ih]
      cases ready n
      · rfl
      · cases offer n <;> cases hs : sel n <;> simp [Option.filter, hs]

theorem completed_filter (sel : Nat → Bool) (n : Nat) :
    completed ready (fun k => offer k && sel k) n = (completed ready offer n).filter sel := by
  induction n with
  | zero => rfl
  | succ n ih =>
      rw [completed, completed, ih, owner_filter]
      cases ready n with
      | false => rfl
      | true =>
          rw [if_pos rfl, if_pos rfl, List.filter_append]
          cases owner ready offer n with
          | none => rfl
          | some k => cases hs : sel k <;> simp [Option.filter, hs]

/-- The owner of a cycle is the accepted transfer whose data phase the
cycle belongs to. -/
theorem owner_eq_some_iff {n k : Nat} :
    owner ready offer n = some k ↔
      accepts ready offer k = true ∧ DataPhase ready k n := by
  induction n with
  | zero => simp [owner, DataPhase]
  | succ n ih =>
      cases hr : ready n
      · -- a wait state: the owner stays, and nothing is accepted in cycle `n`
        rw [owner_succ_of_wait hr, ih]
        constructor
        · rintro ⟨ha, hlt, hw⟩
          refine ⟨ha, by omega, fun j h1 h2 => ?_⟩
          rcases Nat.lt_succ_iff_lt_or_eq.mp h2 with h3 | rfl
          · exact hw j h1 h3
          · exact hr
        · rintro ⟨ha, hlt, hw⟩
          refine ⟨ha, ?_, fun j h1 h2 => hw j h1 (by omega)⟩
          rcases Nat.lt_succ_iff_lt_or_eq.mp hlt with h3 | rfl
          · exact h3
          · simp [accepts, hr] at ha
      · -- a ready cycle: only a transfer accepted in it can own the next one
        rw [owner_succ_of_ready hr]
        constructor
        · intro h
          split at h
          · rename_i ho
            cases h
            exact ⟨by simp [accepts, hr, ho], by omega, fun j h1 h2 => by omega⟩
          · cases h
        · rintro ⟨ha, hlt, hw⟩
          rcases Nat.lt_succ_iff_lt_or_eq.mp hlt with h3 | rfl
          · exact absurd (hw n h3 (by omega)) (by simp [hr])
          · simp only [accepts, hr, Bool.true_and] at ha
            rw [if_pos ha]

/-- A completed transfer was accepted. -/
theorem accepts_of_completed {n k : Nat} (h : k ∈ completed ready offer n) :
    k < n ∧ accepts ready offer k = true := by
  rw [← mem_cycles, accepted_eq]
  exact List.mem_append_left _ h

/-- The transfer in its data phase has not completed before. -/
theorem owner_not_mem_completed {n k : Nat} (h : owner ready offer n = some k) :
    k ∉ completed ready offer n := by
  intro hk
  have hnd := cycles_nodup (accepts ready offer) n
  rw [accepted_eq, h, List.nodup_append] at hnd
  exact hnd.2.2 k hk k (by simp) rfl

end Pipeline

end RiscvSoc.Sync
