import RiscvSoc.Sync.Circuit

/-!
# Apb — Timer

`timer`, one timer of the APB timer unit: a count, a compare value and a
control word, with a prescaler, and what holds of the count over runs
from reset.

In one cycle the count is reset by a match or an overflow, or else
counts, prescaled or not; a bus write then overrides what it writes. A
write of the compare value also resets the count, so only a direct write
can bring the count above it.
-/

namespace RiscvSoc.Timer

open Sync

/-! ## The module -/

def regTimer : BitVec 2 := 0b00
def regTimerCtrl : BitVec 2 := 0b01
def regCmp : BitVec 2 := 0b10

/-- The APB slave port in one cycle. -/
structure Inputs where
  paddr : BitVec 12
  pwdata : BitVec 32
  pwrite : Bool
  psel : Bool
  penable : Bool
  deriving DecidableEq, Repr

/-- `regs_q`, by register, and `cycle_counter_q`. -/
structure Regs where
  timer : BitVec 32
  timerCtrl : BitVec 32
  cmp : BitVec 32
  cycleCounter : BitVec 32
  deriving DecidableEq, Repr

structure Outputs where
  prdata : BitVec 32
  pready : Bool
  pslverr : Bool
  irqO : Fin 2 → Bool

/-- `PADDR[4:2]`, of which two bits are kept. -/
def registerAdr (paddr : BitVec 12) : BitVec 2 := (paddr.extractLsb' 2 3).setWidth 2

/-- Overflow and compare match. -/
def irqO (r : Regs) (b : Fin 2) : Bool :=
  match b with
  | 0 => if r.timer = 0xffffffff then true else false
  | 1 => if r.cmp ≠ 0 ∧ r.timer = r.cmp then true else false

def prescalerInt (r : Regs) : BitVec 3 := r.timerCtrl.extractLsb' 3 3

def enableBit (r : Regs) : Bool := r.timerCtrl.getLsbD 0

/-- The count of the next cycle, but for the bus. -/
def countN (r : Regs) : BitVec 32 :=
  if irqO r 0 || irqO r 1 then 0
  else if enableBit r && prescalerInt r != 0
      && (prescalerInt r).setWidth 32 == r.cycleCounter then r.timer + 1
  else if enableBit r && prescalerInt r == 0 then r.timer + 1
  else r.timer

/-- The prescaler's counter restarts on the whole control word. -/
def cycleCounterN (r : Regs) : BitVec 32 :=
  if r.cycleCounter ≥ r.timerCtrl then 0 else r.cycleCounter + 1

def writeAccess (i : Inputs) : Bool := i.psel && i.penable && i.pwrite

def readAccess (i : Inputs) : Bool := i.psel && i.penable && !i.pwrite

/-- A write from the bus. -/
def busWrite (r : Regs) (i : Inputs) : Regs :=
  if writeAccess i then
    if registerAdr i.paddr = regTimer then { r with timer := i.pwdata }
    else if registerAdr i.paddr = regTimerCtrl then { r with timerCtrl := i.pwdata }
    else if registerAdr i.paddr = regCmp then { r with cmp := i.pwdata, timer := 0 }
    else r
  else r

def prdata (r : Regs) (i : Inputs) : BitVec 32 :=
  if readAccess i then
    if registerAdr i.paddr = regTimer then r.timer
    else if registerAdr i.paddr = regTimerCtrl then r.timerCtrl
    else if registerAdr i.paddr = regCmp then r.cmp
    else 0
  else 0

def outputs (r : Regs) (i : Inputs) : Outputs where
  prdata := prdata r i
  pready := true
  pslverr := false
  irqO := irqO r

def timer : Circuit Inputs Regs where
  reset := { timer := 0, timerCtrl := 0, cmp := 0, cycleCounter := 0 }
  next r i := busWrite { r with timer := countN r, cycleCounter := cycleCounterN r } i

/-! ## One cycle -/

/-- A direct write to the count. -/
def writesTimer (i : Inputs) : Bool := writeAccess i && registerAdr i.paddr == regTimer

def writesTimerCtrl (i : Inputs) : Bool :=
  writeAccess i && registerAdr i.paddr == regTimerCtrl

def writesCmp (i : Inputs) : Bool := writeAccess i && registerAdr i.paddr == regCmp

/-- What a write from the bus does, register by register. -/
theorem busWrite_eq (r : Regs) (i : Inputs) :
    busWrite r i =
      { timer := if writesCmp i then 0 else if writesTimer i then i.pwdata else r.timer
        timerCtrl := if writesTimerCtrl i then i.pwdata else r.timerCtrl
        cmp := if writesCmp i then i.pwdata else r.cmp
        cycleCounter := r.cycleCounter } := by
  unfold busWrite writesCmp writesTimer writesTimerCtrl
  by_cases hw : writeAccess i = true
  · by_cases h0 : registerAdr i.paddr = regTimer
    · simp [hw, h0, regTimer, regTimerCtrl, regCmp]
    · by_cases h1 : registerAdr i.paddr = regTimerCtrl
      · simp [hw, h1, regTimer, regTimerCtrl, regCmp]
      · by_cases h2 : registerAdr i.paddr = regCmp
        · simp [hw, h2, regTimer, regTimerCtrl, regCmp]
        · simp [hw, h0, h1, h2]
  · simp [hw]

/-- **What one cycle does to the count**: a write of the compare value
resets it, a direct write sets it, otherwise it counts. -/
theorem next_timer (r : Regs) (i : Inputs) :
    (timer.next r i).timer =
      if writesCmp i then 0 else if writesTimer i then i.pwdata else countN r := by
  show (busWrite _ i).timer = _
  rw [busWrite_eq]

theorem next_timerCtrl (r : Regs) (i : Inputs) :
    (timer.next r i).timerCtrl = if writesTimerCtrl i then i.pwdata else r.timerCtrl := by
  show (busWrite _ i).timerCtrl = _
  rw [busWrite_eq]

theorem next_cmp (r : Regs) (i : Inputs) :
    (timer.next r i).cmp = if writesCmp i then i.pwdata else r.cmp := by
  show (busWrite _ i).cmp = _
  rw [busWrite_eq]

/-- The two interrupts. -/
theorem irqO_match_iff (r : Regs) : irqO r 1 = true ↔ r.cmp ≠ 0 ∧ r.timer = r.cmp := by
  simp [irqO]

theorem irqO_overflow_iff (r : Regs) : irqO r 0 = true ↔ r.timer = 0xffffffff := by
  simp [irqO]

/-- **What the count can do by itself**: restart on an interrupt, or else
stay or go up by one. -/
theorem countN_cases (r : Regs) :
    (countN r = 0 ∧ (irqO r 0 = true ∨ irqO r 1 = true)) ∨
      (irqO r 0 = false ∧ irqO r 1 = false ∧
        (countN r = r.timer ∨ countN r = r.timer + 1)) := by
  unfold countN
  cases h0 : irqO r 0
  · cases h1 : irqO r 1
    · right
      refine ⟨rfl, rfl, ?_⟩
      simp only [Bool.or_self, Bool.false_eq_true, if_false]
      split
      · exact .inr rfl
      · split
        · exact .inr rfl
        · exact .inl rfl
    · exact .inl ⟨rfl, .inr rfl⟩
  · exact .inl ⟨rfl, .inl rfl⟩

/-- Below its last value the count goes up without wrapping. -/
theorem toNat_succ_of_no_overflow {r : Regs} (h : irqO r 0 = false) :
    (r.timer + 1).toNat = r.timer.toNat + 1 := by
  have hne : r.timer ≠ 0xffffffff := by
    rw [Ne, ← irqO_overflow_iff, h]
    exact Bool.false_ne_true
  have hlt := r.timer.isLt
  have hnat : r.timer.toNat ≠ 0xffffffff := fun hn => hne (BitVec.eq_of_toNat_eq hn)
  rw [BitVec.toNat_add]
  simp
  omega

/-! ## The compare value -/

/-- Without a match the count is not at a compare value that is set. -/
theorem ne_cmp_of_no_match {r : Regs} (hset : r.cmp ≠ 0) (h : irqO r 1 = false) :
    r.timer.toNat ≠ r.cmp.toNat := by
  intro hn
  have hmatch := (irqO_match_iff r).mpr ⟨hset, BitVec.eq_of_toNat_eq hn⟩
  rw [h] at hmatch
  cases hmatch

/-- The count has not run past the compare value. -/
def Bounded (r : Regs) : Prop := r.cmp = 0 ∨ r.timer ≤ r.cmp

/-- By itself the count does not run past it. -/
theorem countN_le {r : Regs} (h : Bounded r) : r.cmp = 0 ∨ countN r ≤ r.cmp := by
  rcases h with h | h
  · exact .inl h
  · rcases countN_cases r with ⟨hz, _⟩ | ⟨h0, h1, hstay | hup⟩
    · right
      rw [hz, BitVec.le_def]
      exact Nat.zero_le _
    · right
      rw [hstay]
      exact h
    · -- no match: the count is below a compare value that is set
      by_cases hc : r.cmp = 0
      · exact .inl hc
      · right
        have hne := ne_cmp_of_no_match hc h1
        rw [BitVec.le_def] at h
        rw [hup, BitVec.le_def, toNat_succ_of_no_overflow h0]
        omega

/-- One cycle keeps the bound, whatever the bus does but for a direct
write above the compare value. -/
theorem next_bounded {r : Regs} {i : Inputs} (h : Bounded r)
    (hw : writesTimer i = true → r.cmp ≠ 0 → i.pwdata ≤ r.cmp) :
    Bounded (timer.next r i) := by
  unfold Bounded
  rw [next_timer, next_cmp]
  cases hc : writesCmp i
  · simp only [Bool.false_eq_true, if_false]
    cases ht : writesTimer i
    · simp only [Bool.false_eq_true, if_false]
      exact countN_le h
    · simp only [if_true]
      by_cases hz : r.cmp = 0
      · exact .inl hz
      · exact .inr (hw ht hz)
  · right
    rw [BitVec.le_def]
    exact Nat.zero_le _

section Runs

variable (ins : Nat → Inputs)

def regsAt (n : Nat) : Regs := timer.stateAt ins n

/-- Direct writes to the count stay up to the compare value, where one is
set. -/
def WritesBelow : Prop :=
  ∀ n, writesTimer (ins n) = true → (regsAt ins n).cmp ≠ 0 →
    (ins n).pwdata ≤ (regsAt ins n).cmp

/-- **Never past the compare value.** -/
structure NeverPast : Prop where
  bounded : ∀ n, (regsAt ins n).cmp = 0 ∨ (regsAt ins n).timer ≤ (regsAt ins n).cmp
  /-- No match is jumped over: in a cycle without a write to either
  register the count stays, goes up by one from below the compare value,
  or is at a match and restarts. -/
  notJumped : ∀ n, (regsAt ins n).cmp ≠ 0 → writesTimer (ins n) = false →
    writesCmp (ins n) = false →
    (regsAt ins (n + 1)).timer = (regsAt ins n).timer ∨
    ((regsAt ins n).timer < (regsAt ins n).cmp ∧
      (regsAt ins (n + 1)).timer.toNat = (regsAt ins n).timer.toNat + 1) ∨
    (irqO (regsAt ins n) 1 = true ∧ (regsAt ins (n + 1)).timer = 0)
  /-- A match lasts one cycle, unless the bus sets the count to the
  compare value again. -/
  oneCycle : ∀ n, irqO (regsAt ins n) 1 = true → irqO (regsAt ins (n + 1)) 1 = true →
    writesTimer (ins n) = true ∧ (ins n).pwdata = (regsAt ins n).cmp

variable {ins}

theorem bounded_of_writesBelow (hw : WritesBelow ins) (n : Nat) : Bounded (regsAt ins n) := by
  induction n with
  | zero => exact .inl rfl
  | succ n ih => exact next_bounded ih (hw n)

/-- What the count does in a cycle in which the bus leaves it alone. -/
theorem timer_succ_of_quiet {n : Nat} (ht : writesTimer (ins n) = false)
    (hc : writesCmp (ins n) = false) :
    (regsAt ins (n + 1)).timer = countN (regsAt ins n) := by
  show (timer.next _ _).timer = _
  rw [next_timer, hc, ht]
  rfl

/-- After a match the next one needs a direct write. -/
theorem match_twice {n : Nat} (h : irqO (regsAt ins n) 1 = true)
    (hnext : irqO (regsAt ins (n + 1)) 1 = true) :
    writesTimer (ins n) = true ∧ (ins n).pwdata = (regsAt ins n).cmp := by
  obtain ⟨hset, heq⟩ := (irqO_match_iff _).mp hnext
  have htimer : (regsAt ins (n + 1)).timer = _ := next_timer (regsAt ins n) (ins n)
  have hcmp : (regsAt ins (n + 1)).cmp = _ := next_cmp (regsAt ins n) (ins n)
  -- a count of zero does not match a compare value that is set
  have hne : (regsAt ins (n + 1)).timer ≠ 0 := fun hz => hset (heq ▸ hz)
  cases hc : writesCmp (ins n)
  · rw [hc, if_neg Bool.false_ne_true] at htimer hcmp
    cases ht : writesTimer (ins n)
    · rw [ht, if_neg Bool.false_ne_true] at htimer
      rcases countN_cases (regsAt ins n) with ⟨hz, _⟩ | ⟨_, h1, _⟩
      · exact absurd (htimer.trans hz) hne
      · rw [h1] at h
        cases h
    · rw [ht, if_pos rfl] at htimer
      exact ⟨rfl, by rw [← htimer, heq, hcmp]⟩
  · rw [hc, if_pos rfl] at htimer
    exact absurd htimer hne

theorem not_jumped (hw : WritesBelow ins) {n : Nat} (hset : (regsAt ins n).cmp ≠ 0)
    (ht : writesTimer (ins n) = false) (hc : writesCmp (ins n) = false) :
    (regsAt ins (n + 1)).timer = (regsAt ins n).timer ∨
    ((regsAt ins n).timer < (regsAt ins n).cmp ∧
      (regsAt ins (n + 1)).timer.toNat = (regsAt ins n).timer.toNat + 1) ∨
    (irqO (regsAt ins n) 1 = true ∧ (regsAt ins (n + 1)).timer = 0) := by
  have hle := (bounded_of_writesBelow hw n).resolve_left hset
  rw [timer_succ_of_quiet ht hc]
  rcases countN_cases (regsAt ins n) with ⟨hz, hirq⟩ | ⟨h0, h1, hstay | hup⟩
  · right; right
    refine ⟨?_, hz⟩
    rcases hirq with h0 | h1
    · -- an overflow within the bound is a match
      have hlast := (irqO_overflow_iff _).mp h0
      refine (irqO_match_iff _).mpr ⟨hset, ?_⟩
      rw [hlast, BitVec.le_def] at hle
      have hlt := (regsAt ins n).cmp.isLt
      refine BitVec.eq_of_toNat_eq ?_
      rw [hlast]
      simp at hle ⊢
      omega
    · exact h1
  · exact .inl hstay
  · right; left
    have hne := ne_cmp_of_no_match hset h1
    rw [BitVec.le_def] at hle
    rw [hup, toNat_succ_of_no_overflow h0, BitVec.lt_def]
    exact ⟨by omega, rfl⟩

/-- **The timer never runs past its compare value.** -/
theorem neverPast (hw : WritesBelow ins) : NeverPast ins where
  bounded := bounded_of_writesBelow hw
  notJumped _ hset ht hc := not_jumped hw hset ht hc
  oneCycle _ h hnext := match_twice h hnext

end Runs

/-- The compare value is set to 3, the timer started, and the count set
to 2 while it runs. -/
def startedTimer (n : Nat) : Inputs where
  paddr := if n = 0 then 0x8 else if n = 1 then 0x4 else 0x0
  pwdata := if n = 0 then 3 else if n = 1 then 1 else 2
  pwrite := n < 3
  psel := n < 3
  penable := n < 3

theorem startedTimer_writesBelow : WritesBelow startedTimer := by
  intro n hw
  match n with
  | 0 => revert hw; decide
  | 1 => revert hw; decide
  | 2 => decide
  | n + 3 =>
      simp only [writesTimer, writeAccess, startedTimer, Bool.and_eq_true,
        decide_eq_true_eq] at hw
      omega

theorem neverPast_startedTimer : NeverPast startedTimer := neverPast startedTimer_writesBelow

end RiscvSoc.Timer
