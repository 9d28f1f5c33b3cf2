import Mathlib.Data.Finset.Max
import Mathlib.Data.Finset.Card
import Mathlib.Data.Nat.Count

/-!
# Control — Priority

Requests that are served one at a time. A server that is free takes up the
highest of the pending requests, and does not leave it for a higher one.
The request stays pending until its service is done, so one that comes up
again in the meantime is done with it.

A request that waits lets only higher ones go first, and each of them
once, or as often as it has come up again.
-/

namespace RiscvSoc.Control.Priority

variable {α : Type _} [LinearOrder α]

structure Server (α : Type _) where
  pending : Finset α
  serving : Option α

/-- Requests come up, or the server goes on. -/
inductive Event (α : Type _) where
  | raise (rs : Finset α)
  | turn

namespace Server

/-- The request that a turn takes up. -/
def chosen (s : Server α) : Option α :=
  match s.serving with
  | some _ => none
  | none => if h : s.pending.Nonempty then some (s.pending.max' h) else none

def step (s : Server α) : Event α → Server α
  | .raise rs => { s with pending := s.pending ∪ rs }
  | .turn =>
      match s.serving with
      | some a => ⟨s.pending.erase a, none⟩
      | none => { s with serving := s.chosen }

/-- The requests that are to be taken up yet. -/
def waiting (s : Server α) : Finset α :=
  match s.serving with
  | some a => s.pending.erase a
  | none => s.pending

/-- The turns that go to requests above `a` if nothing comes up. -/
def ahead (a : α) (s : Server α) : Nat :=
  2 * (s.waiting.filter (a < ·)).card + if s.serving.isSome then 1 else 0

end Server

/-- What is taken up at an event. -/
def taken (s : Server α) : Event α → Option α
  | .raise _ => none
  | .turn => s.chosen

/-- The requests of an event. -/
def raised : Event α → Finset α
  | .raise rs => rs
  | .turn => ∅

def isTurn : Event α → Bool
  | .raise _ => false
  | .turn => true

/-! ## One event -/

/-- The requests of an event wait, and no others come to. -/
theorem waiting_raise_subset (s : Server α) (rs : Finset α) :
    (s.step (.raise rs)).waiting ⊆ s.waiting ∪ rs := by
  intro b hb
  cases hs : s.serving with
  | none =>
      simp only [Server.waiting, Server.step, hs] at hb ⊢
      exact hb
  | some c =>
      simp only [Server.waiting, Server.step, hs, Finset.mem_erase, Finset.mem_union] at hb ⊢
      rcases hb.2 with hp | hr
      · exact .inl ⟨hb.1, hp⟩
      · exact .inr hr

theorem waiting_subset_raise (s : Server α) (rs : Finset α) :
    s.waiting ⊆ (s.step (.raise rs)).waiting := by
  intro b hb
  cases hs : s.serving with
  | none =>
      simp only [Server.waiting, Server.step, hs] at hb ⊢
      exact Finset.mem_union_left rs hb
  | some c =>
      simp only [Server.waiting, Server.step, hs, Finset.mem_erase, Finset.mem_union] at hb ⊢
      exact ⟨hb.1, .inl hb.2⟩

/-- **What a turn takes up** is the highest of what waits, and then it does
not wait any more. -/
theorem chosen_eq_some {s : Server α} {b : α} (h : s.chosen = some b) :
    s.serving = none ∧ b ∈ s.waiting ∧ (∀ c ∈ s.waiting, c ≤ b) ∧
      (s.step .turn).waiting = s.waiting.erase b := by
  cases hs : s.serving with
  | some c =>
      rw [Server.chosen, hs] at h
      cases h
  | none =>
      have hstep : s.step .turn = { s with serving := some b } := by
        simp only [Server.step, hs, h]
      simp only [Server.chosen, hs] at h
      by_cases hne : s.pending.Nonempty
      · rw [dif_pos hne] at h
        obtain rfl := Option.some.inj h
        simp only [Server.waiting, hs, hstep]
        exact ⟨trivial, Finset.max'_mem _ hne, fun c hc => Finset.le_max' _ c hc, trivial⟩
      · rw [dif_neg hne] at h
        cases h

/-- A turn that takes up nothing, with the server not idle, ends a service. -/
theorem turn_of_chosen_eq_none {s : Server α} (h : s.chosen = none) :
    (s.step .turn).waiting = s.waiting ∧ (s.step .turn).serving = none := by
  cases hs : s.serving with
  | some c => simp only [Server.waiting, Server.step, hs, and_self]
  | none =>
      simp only [Server.step, hs, h, Server.waiting, and_self]

theorem ahead_raise (a : α) (s : Server α) (rs : Finset α) :
    (s.step (.raise rs)).ahead a ≤ s.ahead a + 2 * (rs.filter (a < ·)).card := by
  have hsub : (s.step (.raise rs)).waiting.filter (a < ·)
      ⊆ s.waiting.filter (a < ·) ∪ rs.filter (a < ·) := by
    rw [← Finset.filter_union]
    exact Finset.filter_subset_filter _ (waiting_raise_subset s rs)
  have hcard := (Finset.card_le_card hsub).trans (Finset.card_union_le _ _)
  have hserving : (s.step (.raise rs)).serving = s.serving := rfl
  rw [Server.ahead, Server.ahead, hserving]
  omega

/-- **A turn for others** is one turn less. -/
theorem ahead_turn {a : α} {s : Server α} (ha : a ∈ s.waiting) (h : s.chosen ≠ some a) :
    (s.step .turn).ahead a + 1 ≤ s.ahead a := by
  cases hc : s.chosen with
  | none =>
      obtain ⟨hwaiting, hserving⟩ := turn_of_chosen_eq_none hc
      -- the server was not free, as `a` was waiting
      cases hs : s.serving with
      | some c =>
          rw [Server.ahead, Server.ahead, hwaiting, hserving, hs]
          exact Nat.le_refl _
      | none =>
          rw [Server.waiting, hs] at ha
          rw [Server.chosen, hs, dif_pos ⟨a, ha⟩] at hc
          cases hc
  | some b =>
      obtain ⟨hfree, hb, hmax, hwaiting⟩ := chosen_eq_some hc
      have hlt : a < b := lt_of_le_of_ne (hmax a ha) fun hab => h (hab ▸ hc)
      have hmem : b ∈ s.waiting.filter (a < ·) := Finset.mem_filter.mpr ⟨hb, hlt⟩
      have hcard : ((s.step .turn).waiting.filter (a < ·)).card + 1
          = (s.waiting.filter (a < ·)).card := by
        rw [hwaiting, Finset.filter_erase, Finset.card_erase_add_one hmem]
      have hserving : (s.step .turn).serving.isSome = true := by
        simp only [Server.step, hfree, hc, Option.isSome_some]
      rw [Server.ahead, Server.ahead, hserving, hfree, if_pos rfl]
      simp only [Option.isSome_none, Bool.false_eq_true, if_false]
      omega

/-- What waits goes on waiting until it is taken up. -/
theorem waiting_step {a : α} {s : Server α} {ev : Event α} (ha : a ∈ s.waiting)
    (h : taken s ev ≠ some a) : a ∈ (s.step ev).waiting := by
  cases ev with
  | raise rs => exact waiting_subset_raise s rs ha
  | turn =>
      cases hc : s.chosen with
      | none =>
          rw [(turn_of_chosen_eq_none hc).1]
          exact ha
      | some b =>
          rw [(chosen_eq_some hc).2.2.2]
          exact Finset.mem_erase.mpr ⟨fun hab => h (hab ▸ hc), ha⟩

/-! ## The whole load -/

/-- What is in service is pending. -/
def Coherent (s : Server α) : Prop := ∀ a ∈ s.serving, a ∈ s.pending

theorem Coherent.step {s : Server α} (h : Coherent s) (ev : Event α) : Coherent (s.step ev) := by
  intro a ha
  cases ev with
  | raise rs => exact Finset.mem_union_left rs (h a ha)
  | turn =>
      cases hs : s.serving with
      | some b =>
          simp only [Server.step, hs] at ha
          cases ha
      | none =>
          have hstep : s.step .turn = { s with serving := s.chosen } := by
            simp only [Server.step, hs]
          rw [hstep] at ha ⊢
          have hwait := (chosen_eq_some (Option.mem_def.mp ha)).2.1
          rw [Server.waiting, hs] at hwait
          exact hwait

/-- The turns until the service of `a` is done, if nothing comes up. -/
def left (a : α) (s : Server α) : Nat :=
  if a ∈ s.pending then (if s.serving = some a then 1 else s.ahead a + 2) else 0

theorem left_eq_zero_iff (a : α) (s : Server α) : left a s = 0 ↔ a ∉ s.pending := by
  rw [left]
  split
  · rename_i h
    simp only [h, not_true, iff_false]
    split <;> omega
  · rename_i h
    simp only [h, not_false_eq_true]

theorem mem_waiting_iff_of_ne {a : α} {s : Server α} (h : s.serving ≠ some a) :
    a ∈ s.waiting ↔ a ∈ s.pending := by
  cases hs : s.serving with
  | none => simp only [Server.waiting, hs]
  | some b =>
      have hne : a ≠ b := fun hab => h (hab ▸ hs)
      simp only [Server.waiting, hs, Finset.mem_erase, ne_eq, hne, not_false_eq_true, true_and]

theorem left_raise {a : α} (s : Server α) {rs : Finset α} (h : a ∉ rs) :
    left a (s.step (.raise rs)) ≤ left a s + 2 * (rs.filter (a < ·)).card := by
  have hahead := ahead_raise a s rs
  have hmem : a ∈ (s.step (.raise rs)).pending ↔ a ∈ s.pending :=
    Finset.mem_union.trans (or_iff_left h)
  have hserving : (s.step (.raise rs)).serving = s.serving := rfl
  rw [left, left, hserving]
  simp only [hmem]
  split
  · split <;> omega
  · omega

/-- **A turn brings the end nearer.** -/
theorem left_turn {a : α} {s : Server α} (h : left a s ≠ 0) :
    left a (s.step .turn) + 1 ≤ left a s := by
  have hpending : a ∈ s.pending := by
    rw [ne_eq, left_eq_zero_iff, not_not] at h
    exact h
  by_cases hserving : s.serving = some a
  · -- the service of `a` ends
    have hstep : s.step .turn = ⟨s.pending.erase a, none⟩ := by
      simp only [Server.step, hserving]
    rw [hstep, left, left, if_neg (Finset.notMem_erase a _), if_pos hpending, if_pos hserving]
  · have hwait := (mem_waiting_iff_of_ne hserving).mpr hpending
    have hleft : left a s = s.ahead a + 2 := by
      rw [left, if_pos hpending, if_neg hserving]
    by_cases hchosen : s.chosen = some a
    · -- the service of `a` begins
      obtain ⟨hfree, _⟩ := chosen_eq_some hchosen
      have hnext : (s.step .turn).serving = some a := by
        simp only [Server.step, hfree, hchosen]
      have hle : left a (s.step .turn) ≤ 1 := by
        rw [left, hnext, if_pos rfl]
        split <;> omega
      omega
    · have hturn := ahead_turn hwait hchosen
      have hle : left a (s.step .turn) ≤ (s.step .turn).ahead a + 2 := by
        rw [left]
        split
        · split <;> omega
        · omega
      omega

theorem left_le (a : α) (s : Server α) : left a s ≤ s.ahead a + 2 := by
  rw [left]
  split
  · split <;> omega
  · omega

theorem notMem_pending_step {a : α} {s : Server α} {ev : Event α} (h : a ∉ s.pending)
    (hr : a ∉ raised ev) : a ∉ (s.step ev).pending := by
  cases ev with
  | raise rs => exact fun ha => (Finset.mem_union.mp ha).elim h hr
  | turn =>
      cases hs : s.serving with
      | some b =>
          simp only [Server.step, hs]
          exact fun ha => h (Finset.mem_of_mem_erase ha)
      | none =>
          simp only [Server.step, hs]
          exact h

/-- 1 for a request that waits. -/
def owed (a : α) (s : Server α) : Nat := if a ∈ s.waiting then 1 else 0

theorem owed_raise (a : α) (s : Server α) (rs : Finset α) :
    owed a (s.step (.raise rs)) ≤ owed a s + if a ∈ rs then 1 else 0 := by
  have hsub := waiting_raise_subset s rs
  rw [owed, owed]
  by_cases hw : a ∈ (s.step (.raise rs)).waiting
  · rw [if_pos hw]
    rcases Finset.mem_union.mp (hsub hw) with hold | hnew
    · rw [if_pos hold]
      omega
    · rw [if_pos hnew]
      omega
  · rw [if_neg hw]
    omega

theorem owed_turn (a : α) (s : Server α) :
    owed a (s.step .turn) + (if s.chosen = some a then 1 else 0) = owed a s := by
  rw [owed, owed]
  cases hc : s.chosen with
  | none =>
      rw [(turn_of_chosen_eq_none hc).1, if_neg (Option.some_ne_none a).symm]
      rfl
  | some b =>
      obtain ⟨_, hb, _, hwaiting⟩ := chosen_eq_some hc
      rw [hwaiting]
      by_cases hab : b = a
      · subst hab
        rw [if_neg (Finset.notMem_erase b _), if_pos rfl, if_pos hb]
      · have hiff : a ∈ s.waiting.erase b ↔ a ∈ s.waiting :=
          Finset.mem_erase.trans (and_iff_right (Ne.symm hab))
        rw [if_neg fun h => hab (Option.some.inj h)]
        simp only [hiff, Nat.add_zero]

/-- A request that comes up when it is not pending waits from then on. -/
theorem owed_raise_eq {a : α} {s : Server α} (hs : Coherent s) {rs : Finset α}
    (h : a ∈ rs → a ∉ s.pending) :
    owed a (s.step (.raise rs)) = owed a s + if a ∈ rs then 1 else 0 := by
  by_cases hr : a ∈ rs
  · have hserving : s.serving ≠ some a := fun hsv => h hr (hs a hsv)
    have hold : a ∉ s.waiting := fun hw => h hr ((mem_waiting_iff_of_ne hserving).mp hw)
    have hserving' : (s.step (.raise rs)).serving ≠ some a := hserving
    have hnew : a ∈ (s.step (.raise rs)).waiting :=
      (mem_waiting_iff_of_ne hserving').mpr (Finset.mem_union_right s.pending hr)
    rw [owed, owed, if_pos hnew, if_neg hold, if_pos hr]
  · have hiff : a ∈ (s.step (.raise rs)).waiting ↔ a ∈ s.waiting :=
      ⟨fun hw => (Finset.mem_union.mp (waiting_raise_subset s rs hw)).resolve_right hr,
        fun hw => waiting_subset_raise s rs hw⟩
    rw [owed, owed, if_neg hr]
    simp only [hiff, Nat.add_zero]

/-- **The account of a request** over an event. -/
theorem owed_step (a : α) (s : Server α) (ev : Event α) :
    owed a (s.step ev) + (if taken s ev = some a then 1 else 0)
      ≤ owed a s + if a ∈ raised ev then 1 else 0 := by
  cases ev with
  | raise rs => exact owed_raise a s rs
  | turn => exact Nat.le_of_eq (owed_turn a s)

/-- The account balances if the request comes up when it is done with. -/
theorem owed_step_eq {a : α} {s : Server α} (hs : Coherent s) {ev : Event α}
    (h : a ∈ raised ev → a ∉ s.pending) :
    owed a (s.step ev) + (if taken s ev = some a then 1 else 0)
      = owed a s + if a ∈ raised ev then 1 else 0 := by
  cases ev with
  | raise rs => exact owed_raise_eq hs h
  | turn => exact owed_turn a s

/-! ## Runs -/

section Runs

variable (s0 : Server α) (e : Nat → Event α)

/-- The server before event `n`. -/
def stateAt : Nat → Server α
  | 0 => s0
  | n + 1 => (stateAt n).step (e n)

def takenAt (n : Nat) : Option α := taken (stateAt s0 e n) (e n)

/-- How many of the `n` events from event `i` on are turns. -/
def turns (i n : Nat) : Nat := Nat.count (fun k => isTurn (e (i + k))) n

/-- How often requests above `a` come up in them. -/
def raisedAbove (a : α) (i : Nat) : Nat → Nat
  | 0 => 0
  | n + 1 => raisedAbove a i n + ((raised (e (i + n))).filter (a < ·)).card

/-- How often `a` comes up in the first `n` events. -/
def raises (a : α) (n : Nat) : Nat := Nat.count (fun k => a ∈ raised (e k)) n

/-- How often `a` is taken up in them. -/
def takes (a : α) (n : Nat) : Nat := Nat.count (fun k => takenAt s0 e k = some a) n

variable {s0 e}

/-- As long as `a` is not taken up, the turns go to requests ahead of it. -/
theorem turns_le {a : α} {i n : Nat} (ha : a ∈ (stateAt s0 e i).waiting)
    (h : ∀ k, k < n → takenAt s0 e (i + k) ≠ some a) :
    a ∈ (stateAt s0 e (i + n)).waiting ∧
      (stateAt s0 e (i + n)).ahead a + turns e i n
        ≤ (stateAt s0 e i).ahead a + 2 * raisedAbove e a i n := by
  induction n with
  | zero => exact ⟨ha, Nat.le_refl _⟩
  | succ n ih =>
      obtain ⟨hwait, hle⟩ := ih fun k hk => h k (Nat.lt_succ_of_lt hk)
      have hnot := h n (Nat.lt_succ_self n)
      have hstep : stateAt s0 e (i + (n + 1)) = (stateAt s0 e (i + n)).step (e (i + n)) := rfl
      rw [takenAt] at hnot
      rw [turns] at hle
      rw [hstep, turns, Nat.count_succ, raisedAbove]
      refine ⟨waiting_step hwait hnot, ?_⟩
      cases he : e (i + n) with
      | raise rs =>
          have hraise := ahead_raise a (stateAt s0 e (i + n)) rs
          have hno : ¬ isTurn (.raise rs : Event α) = true := Bool.false_ne_true
          rw [if_neg hno]
          simp only [raised]
          omega
      | turn =>
          rw [he] at hnot
          have hturn := ahead_turn hwait hnot
          have hyes : isTurn (.turn : Event α) = true := rfl
          rw [if_pos hyes]
          simp only [raised, Finset.filter_empty, Finset.card_empty]
          omega

/-- **Bounded waiting**: a waiting request is taken up within as many turns
as those ahead of it take, and those above it that come up meanwhile. -/
theorem taken_of_turns {a : α} {i n : Nat} (ha : a ∈ (stateAt s0 e i).waiting)
    (h : (stateAt s0 e i).ahead a + 2 * raisedAbove e a i n < turns e i n) :
    ∃ k, k < n ∧ takenAt s0 e (i + k) = some a := by
  by_contra hnone
  have hle := (turns_le ha fun k hk htaken => hnone ⟨k, hk, htaken⟩).2
  omega

/-- **Nothing is taken up that has not come up**, and not more often. -/
theorem takes_le {a : α} (h0 : a ∉ s0.waiting) (n : Nat) : takes s0 e a n ≤ raises e a n := by
  -- what waits has come up once more than it has been taken up, at least
  have hinv : takes s0 e a n + owed a (stateAt s0 e n) ≤ raises e a n := by
    induction n with
    | zero =>
        show 0 + owed a s0 ≤ 0
        rw [owed, if_neg h0]
    | succ n ih =>
        have hstep := owed_step a (stateAt s0 e n) (e n)
        rw [takes, raises] at ih
        rw [takes, raises, Nat.count_succ, Nat.count_succ, takenAt]
        show _ + owed a ((stateAt s0 e n).step (e n)) ≤ _
        omega
  omega

/-- A request that does not come up again is done with after as many turns
as are left. -/
theorem notMem_pending_of_turns {a : α} {i n : Nat}
    (h : ∀ k, k < n → a ∉ raised (e (i + k)))
    (hturns : left a (stateAt s0 e i) + 2 * raisedAbove e a i n ≤ turns e i n) :
    a ∉ (stateAt s0 e (i + n)).pending := by
  have hinv : left a (stateAt s0 e (i + n)) + turns e i n
      ≤ left a (stateAt s0 e i) + 2 * raisedAbove e a i n ∨
        left a (stateAt s0 e (i + n)) = 0 := by
    clear hturns
    induction n with
    | zero => exact .inl (Nat.le_refl _)
    | succ n ih =>
        have hnot := h n (Nat.lt_succ_self n)
        have hstep : stateAt s0 e (i + (n + 1)) = (stateAt s0 e (i + n)).step (e (i + n)) := rfl
        rw [hstep]
        by_cases hzero : left a (stateAt s0 e (i + n)) = 0
        · exact .inr ((left_eq_zero_iff a _).mpr
            (notMem_pending_step ((left_eq_zero_iff a _).mp hzero) hnot))
        · have hle := (ih fun k hk => h k (Nat.lt_succ_of_lt hk)).resolve_right hzero
          rw [turns] at hle
          refine .inl ?_
          rw [turns, Nat.count_succ, raisedAbove]
          cases he : e (i + n) with
          | raise rs =>
              rw [he] at hnot
              have hother : a ∉ rs := hnot
              have hraise := left_raise (stateAt s0 e (i + n)) hother
              have hno : ¬ isTurn (.raise rs : Event α) = true := Bool.false_ne_true
              rw [if_neg hno]
              simp only [raised]
              omega
          | turn =>
              have hturn := left_turn hzero
              have hyes : isTurn (.turn : Event α) = true := rfl
              rw [if_pos hyes]
              simp only [raised, Finset.filter_empty, Finset.card_empty]
              omega
  rcases hinv with hle | hzero
  · exact (left_eq_zero_iff a _).mp (by omega)
  · exact (left_eq_zero_iff a _).mp hzero

/-- The last time before `n` that something happened, if any. -/
theorem exists_last (p : Nat → Prop) (n : Nat) :
    (∀ k, k < n → ¬ p k) ∨ ∃ i m, n = i + 1 + m ∧ p i ∧ ∀ k, k < m → ¬ p (i + 1 + k) := by
  induction n with
  | zero => exact .inl fun k hk => absurd hk (Nat.not_lt_zero k)
  | succ n ih =>
      by_cases hn : p n
      · exact .inr ⟨n, 0, rfl, hn, fun k hk => absurd hk (Nat.not_lt_zero k)⟩
      · rcases ih with hnone | ⟨i, m, rfl, hi, hafter⟩
        · refine .inl fun k hk => ?_
          rcases Nat.lt_succ_iff_lt_or_eq.mp hk with hlt | rfl
          · exact hnone k hlt
          · exact hn
        · refine .inr ⟨i, m + 1, rfl, hi, fun k hk => ?_⟩
          rcases Nat.lt_succ_iff_lt_or_eq.mp hk with hlt | rfl
          · exact hafter k hlt
          · exact hn

/-- Between a request and its next one there are the turns for its service,
with no more than `b` ahead of it, in the first `n` events. -/
def Spaced (e : Nat → Event α) (a : α) (b n : Nat) : Prop :=
  ∀ i k, i + 1 + k < n → a ∈ raised (e i) → a ∈ raised (e (i + 1 + k)) →
    (∀ l, l < k → a ∉ raised (e (i + 1 + l))) →
    b + 2 + 2 * raisedAbove e a (i + 1) k ≤ turns e (i + 1) k

theorem Spaced.mono {a : α} {b m n : Nat} (h : Spaced e a b n) (hmn : m ≤ n) :
    Spaced e a b m :=
  fun i k hk => h i k (by omega)

/-- So it comes up when it is done with. -/
theorem notMem_pending_of_spaced {a : α} {b n : Nat} (h0 : a ∉ s0.pending)
    (hb : ∀ k, (stateAt s0 e k).ahead a ≤ b) (h : Spaced e a b (n + 1)) (hn : a ∈ raised (e n)) :
    a ∉ (stateAt s0 e n).pending := by
  rcases exists_last (fun k => a ∈ raised (e k)) n with hnone | ⟨i, m, rfl, hi, hafter⟩
  · clear hn h
    induction n with
    | zero => exact h0
    | succ n ih =>
        exact notMem_pending_step (ih fun k hk => hnone k (Nat.lt_succ_of_lt hk))
          (hnone n (Nat.lt_succ_self n))
  · have hleft := left_le a (stateAt s0 e (i + 1))
    have hahead := hb (i + 1)
    have hturns := h i m (Nat.lt_succ_self _) hi hn hafter
    exact notMem_pending_of_turns hafter (by omega)

/-- **Every request is served once**, those that come up when they are done
with: as often as it has come up it has been taken up, or is waiting. -/
theorem takes_eq {a : α} {b n : Nat} (hs0 : Coherent s0) (h0 : a ∉ s0.pending)
    (hb : ∀ k, (stateAt s0 e k).ahead a ≤ b) (h : Spaced e a b n) :
    takes s0 e a n + owed a (stateAt s0 e n) = raises e a n := by
  have hcoherent : ∀ k, Coherent (stateAt s0 e k) := by
    intro k
    induction k with
    | zero => exact hs0
    | succ k ih => exact ih.step (e k)
  induction n with
  | zero =>
      have hwait : a ∉ s0.waiting := by
        cases hs : s0.serving with
        | none =>
            rw [Server.waiting, hs]
            exact h0
        | some c =>
            rw [Server.waiting, hs]
            exact fun hw => h0 (Finset.mem_of_mem_erase hw)
      show 0 + owed a s0 = 0
      rw [owed, if_neg hwait]
  | succ n ih =>
      have ih := ih (h.mono (Nat.le_succ n))
      rw [takes, raises] at ih
      rw [takes, raises, Nat.count_succ, Nat.count_succ, takenAt]
      show _ + owed a ((stateAt s0 e n).step (e n)) = _
      have hstep := owed_step_eq (hcoherent n) fun hn => notMem_pending_of_spaced h0 hb h hn
      omega

end Runs

end RiscvSoc.Control.Priority
