import RiscvSoc.Apb.Timer
import RiscvSoc.Sync.Latest
import Mathlib.Data.Nat.Log

/-!
# Apb — ApbTimer

`apb_timer`, a bank of timers behind one APB slave port. All timers see
the same bus wires; the slave address selects the one whose `PSEL` is
passed on, and the bits below it a register in it.

So each timer runs as it would alone on the accesses to it, and the
registers that only the bus writes keep what was written last.
-/

namespace RiscvSoc.ApbTimer

open Sync Timer

/-! ## The module -/

/-- `PADDR[$clog2(TIMER_CNT)+3:4]`. -/
def slaveAddressInt (timerCnt : Nat) (paddr : BitVec 12) : Nat :=
  (paddr.extractLsb' 4 (Nat.clog 2 timerCnt)).toNat

/-- The bits of `psel_int`. -/
def pselInt (timerCnt : Nat) (i : Inputs) (k : Fin timerCnt) : Bool :=
  if slaveAddressInt timerCnt i.paddr = k.val then i.psel else false

/-- The slave port of timer `k`. -/
def timerIn (timerCnt : Nat) (i : Inputs) (k : Fin timerCnt) : Inputs :=
  { i with psel := pselInt timerCnt i k }

structure Outputs (timerCnt : Nat) where
  prdata : BitVec 32
  pready : Bool
  pslverr : Bool
  irqO : Fin (timerCnt * 2) → Bool

/-- Where `psel_int` is not zero, the slave address is that of a timer. -/
theorem slaveAddressInt_lt {timerCnt : Nat} {i : Inputs}
    (h : ∃ k, pselInt timerCnt i k = true) : slaveAddressInt timerCnt i.paddr < timerCnt := by
  obtain ⟨k, hk⟩ := h
  unfold pselInt at hk
  split at hk
  · rename_i heq
    rw [heq]
    exact k.isLt
  · cases hk

/-- The output mux, and the interrupts of all timers. -/
def outputs {timerCnt : Nat} (r : Fin timerCnt → Regs) (i : Inputs) : Outputs timerCnt :=
  let mux : Option (Fin timerCnt) :=
    if h : ∃ k, pselInt timerCnt i k = true then some ⟨_, slaveAddressInt_lt h⟩ else none
  let port k := Timer.outputs (r k) (timerIn timerCnt i k)
  { prdata := match mux with
      | some k => (port k).prdata
      | none => 0
    pready := match mux with
      | some k => (port k).pready
      | none => true
    pslverr := match mux with
      | some k => (port k).pslverr
      | none => false
    irqO := fun j => (port ⟨j / 2, by omega⟩).irqO ⟨j % 2, by omega⟩ }

/-- The bank of `TIMER_CNT` timers. -/
def apbTimer (timerCnt : Nat) : Circuit Inputs (Fin timerCnt → Regs) where
  reset _ := timer.reset
  next r i k := timer.next (r k) (timerIn timerCnt i k)

/-! ## One timer of the bank -/

section Bank

variable {timerCnt : Nat}

/-- **Each timer runs alone** on the bus as it sees it. -/
theorem stateAt_timer (ins : Nat → Inputs) (n : Nat) (k : Fin timerCnt) :
    (apbTimer timerCnt).stateAt ins n k
      = timer.stateAt (fun j => timerIn timerCnt (ins j) k) n :=
  Circuit.stateAt_component (c := apbTimer timerCnt) (f := fun r => r k)
    (g := fun _ i => timerIn timerCnt i k) rfl (fun _ _ => rfl) ins n

/-- A cycle in which a timer is not selected is to it like any other such
cycle. -/
theorem next_of_not_selected {r : Regs} {i i' : Inputs} (h : i.psel = false)
    (h' : i'.psel = false) : timer.next r i = timer.next r i' := by
  have hw : writeAccess i = false := by rw [writeAccess, h, Bool.false_and, Bool.false_and]
  have hw' : writeAccess i' = false := by rw [writeAccess, h', Bool.false_and, Bool.false_and]
  show busWrite _ i = busWrite _ i'
  rw [busWrite, busWrite, hw, hw', if_neg Bool.false_ne_true, if_neg Bool.false_ne_true]

/-- `i'` is `i`, or an idle cycle in the place of an access to another
timer than `k`. -/
def ReplacesOther (k : Fin timerCnt) (i i' : Inputs) : Prop :=
  i' = i ∨
    (i.psel = true ∧ slaveAddressInt timerCnt i.paddr ≠ k.val ∧ i'.psel = false)

theorem next_of_replacesOther {k : Fin timerCnt} {i i' : Inputs} (h : ReplacesOther k i i')
    (r : Regs) : timer.next r (timerIn timerCnt i' k) = timer.next r (timerIn timerCnt i k) := by
  rcases h with rfl | ⟨_, hother, hidle⟩
  · rfl
  · refine next_of_not_selected ?_ ?_
    · show pselInt timerCnt i' k = false
      rw [pselInt, hidle, ite_self]
    · show pselInt timerCnt i k = false
      rw [pselInt, if_neg hother]

/-- **Accesses to other timers leave a timer alone.** -/
theorem stateAt_of_replacesOther {k : Fin timerCnt} {ins ins' : Nat → Inputs}
    (h : ∀ j, ReplacesOther k (ins j) (ins' j)) (n : Nat) :
    (apbTimer timerCnt).stateAt ins' n k = (apbTimer timerCnt).stateAt ins n k := by
  rw [stateAt_timer, stateAt_timer]
  exact timer.stateAt_congr (fun j r => next_of_replacesOther (h j) r) n

/-- The output mux passes the addressed timer's data on. -/
theorem prdata_outputs {k : Fin timerCnt} {i : Inputs} (r : Fin timerCnt → Regs)
    (hsel : i.psel = true) (hk : slaveAddressInt timerCnt i.paddr = k.val) :
    (outputs r i).prdata = Timer.prdata (r k) (timerIn timerCnt i k) := by
  have hex : ∃ k, pselInt timerCnt i k = true := ⟨k, by rw [pselInt, if_pos hk, hsel]⟩
  have hidx : (⟨_, slaveAddressInt_lt hex⟩ : Fin timerCnt) = k := Fin.ext hk
  unfold outputs
  simp only [dif_pos hex, hidx]
  rfl

end Bank

/-! ## The registers that the bus writes -/

/-- The registers of a timer that only the bus writes. -/
inductive Register where
  | ctrl
  | cmp
  deriving DecidableEq, Repr

namespace Register

/-- The byte offset among those of one timer. -/
def offset : Register → Nat
  | ctrl => 4
  | cmp => 8

def adr : Register → BitVec 2
  | ctrl => regTimerCtrl
  | cmp => regCmp

def value (g : Register) (r : Regs) : BitVec 32 :=
  match g with
  | ctrl => r.timerCtrl
  | cmp => r.cmp

/-- What the bus writes to a register. -/
theorem value_next (g : Register) (r : Regs) (i : Inputs) :
    g.value (timer.next r i) =
      if writeAccess i = true ∧ registerAdr i.paddr = g.adr then i.pwdata else g.value r := by
  cases g with
  | ctrl =>
      show (timer.next r i).timerCtrl = _
      rw [next_timerCtrl, writesTimerCtrl]
      simp only [Bool.and_eq_true, beq_iff_eq]
      rfl
  | cmp =>
      show (timer.next r i).cmp = _
      rw [next_cmp, writesCmp]
      simp only [Bool.and_eq_true, beq_iff_eq]
      rfl

/-- What the bus reads from it. -/
theorem prdata_eq_value (g : Register) (r : Regs) {i : Inputs} (hr : readAccess i = true)
    (hg : registerAdr i.paddr = g.adr) : Timer.prdata r i = g.value r := by
  rw [Timer.prdata, if_pos hr, hg]
  cases g with
  | ctrl => rfl
  | cmp => rfl

end Register

/-- `PADDR[4:2]`. -/
def word (paddr : BitVec 12) : BitVec 3 := paddr.extractLsb' 2 3

/-- That of a register in the address map of two timers. -/
def registerWord (k : Fin 2) (g : Register) : BitVec 3 :=
  word (BitVec.ofNat 12 (16 * k.val + g.offset))

theorem toNat_word (paddr : BitVec 12) : (word paddr).toNat = paddr.toNat / 4 % 8 := by
  rw [word, BitVec.extractLsb'_toNat, Nat.shiftRight_eq_div_pow]

theorem toNat_registerAdr (paddr : BitVec 12) :
    (registerAdr paddr).toNat = paddr.toNat / 4 % 4 := by
  rw [registerAdr, BitVec.toNat_setWidth, BitVec.extractLsb'_toNat, Nat.shiftRight_eq_div_pow]
  omega

theorem slaveAddressInt_two (paddr : BitVec 12) :
    slaveAddressInt 2 paddr = paddr.toNat / 16 % 2 := by
  have hlog : Nat.clog 2 2 = 1 := Nat.clog_eq_one (Nat.le_refl 2) (Nat.le_refl 2)
  rw [slaveAddressInt, hlog, BitVec.extractLsb'_toNat, Nat.shiftRight_eq_div_pow]

/-- **The two slices of the address select one register**: the bit above
selects the timer, the two bits that are kept the register in it. -/
theorem word_eq_registerWord_iff (paddr : BitVec 12) (k : Fin 2) (g : Register) :
    word paddr = registerWord k g ↔
      slaveAddressInt 2 paddr = k.val ∧ registerAdr paddr = g.adr := by
  have hk := k.isLt
  rw [registerWord, ← BitVec.toNat_inj, toNat_word, toNat_word, slaveAddressInt_two,
    ← BitVec.toNat_inj, toNat_registerAdr, BitVec.toNat_ofNat]
  cases g with
  | ctrl =>
      show _ = (16 * k.val + 4) % 2 ^ 12 / 4 % 8 ↔ _ ∧ _ = 1
      omega
  | cmp =>
      show _ = (16 * k.val + 8) % 2 ^ 12 / 4 % 8 ↔ _ ∧ _ = 2
      omega

/-- A write access to a word. -/
def WritesWord (w : BitVec 3) (i : Inputs) : Prop :=
  writeAccess i = true ∧ word i.paddr = w

instance (w : BitVec 3) (i : Inputs) : Decidable (WritesWord w i) := by
  unfold WritesWord
  infer_instance

/-- A read access to a word. -/
def ReadsWord (w : BitVec 3) (i : Inputs) : Prop :=
  readAccess i = true ∧ word i.paddr = w

/-- On the port of timer `k`, a write to one of its registers is a write
to the word of the register. -/
theorem writesWord_iff (i : Inputs) (k : Fin 2) (g : Register) :
    WritesWord (registerWord k g) i ↔
      writeAccess (timerIn 2 i k) = true ∧ registerAdr (timerIn 2 i k).paddr = g.adr := by
  show writeAccess i = true ∧ word i.paddr = registerWord k g ↔
    (pselInt 2 i k && i.penable && i.pwrite) = true ∧ registerAdr i.paddr = g.adr
  rw [word_eq_registerWord_iff, writeAccess, pselInt]
  by_cases hk : slaveAddressInt 2 i.paddr = k.val
  · simp [hk]
  · simp [hk]

section Runs

variable (ins : Nat → Inputs)

/-- The registers of the timers in cycle `n` of the run from reset. -/
def regsAt (n : Nat) : Fin 2 → Regs := (apbTimer 2).stateAt ins n

def outputsAt (n : Nat) : Outputs 2 := outputs (regsAt ins n) (ins n)

/-- What the bus writes to a word in each cycle. -/
def written (w : BitVec 3) (n : Nat) : Option (BitVec 32) :=
  if WritesWord w (ins n) then some (ins n).pwdata else none

/-- **A register file that keeps what is written**, of two timers that do
not disturb each other. -/
structure RegisterFile : Prop where
  /-- A read returns the datum of the last write to the same word. -/
  readsLast : ∀ k g n m, m < n → WritesWord (registerWord k g) (ins m) →
    (∀ j, m < j → j < n → ¬ WritesWord (registerWord k g) (ins j)) →
    ReadsWord (registerWord k g) (ins n) →
    (outputsAt ins n).prdata = (ins m).pwdata
  readsZero : ∀ k g n, (∀ j, j < n → ¬ WritesWord (registerWord k g) (ins j)) →
    ReadsWord (registerWord k g) (ins n) → (outputsAt ins n).prdata = 0
  /-- With the accesses to the other timer replaced by idle cycles, a
  timer and its interrupts are the same. -/
  isolated : ∀ (k : Fin 2) ins', (∀ j, ReplacesOther k (ins j) (ins' j)) → ∀ n,
    regsAt ins' n k = regsAt ins n k ∧
      ∀ j : Fin (2 * 2), j.val / 2 = k.val →
        (outputsAt ins' n).irqO j = (outputsAt ins n).irqO j

variable {ins}

/-- **A register holds what was written to its word last.** -/
theorem value_regsAt (k : Fin 2) (g : Register) (n : Nat) :
    g.value (regsAt ins n k) = latest (written ins (registerWord k g)) 0 n := by
  refine eq_latest (r := fun n => g.value (regsAt ins n k)) ?_ (fun n => ?_) n
  · cases g with
    | ctrl => rfl
    | cmp => rfl
  · show g.value (timer.next (regsAt ins n k) (timerIn 2 (ins n) k)) = _
    rw [Register.value_next, written]
    by_cases hw : WritesWord (registerWord k g) (ins n)
    · rw [if_pos ((writesWord_iff _ k g).mp hw), if_pos hw]
      rfl
    · rw [if_neg fun h => hw ((writesWord_iff _ k g).mpr h), if_neg hw]
      rfl

/-- A read of a register returns its value. -/
theorem prdata_of_readsWord {k : Fin 2} {g : Register} {n : Nat}
    (h : ReadsWord (registerWord k g) (ins n)) :
    (outputsAt ins n).prdata = g.value (regsAt ins n k) := by
  obtain ⟨hread, hword⟩ := h
  obtain ⟨hk, hg⟩ := (word_eq_registerWord_iff _ k g).mp hword
  have hsel : (ins n).psel = true := by
    simp only [readAccess, Bool.and_eq_true] at hread
    exact hread.1.1
  have hport : readAccess (timerIn 2 (ins n) k) = true := by
    have hpsel : pselInt 2 (ins n) k = (ins n).psel := if_pos hk
    show (pselInt 2 (ins n) k && (ins n).penable && !(ins n).pwrite) = true
    rw [hpsel]
    exact hread
  rw [outputsAt, prdata_outputs _ hsel hk]
  exact g.prdata_eq_value _ hport hg

theorem written_eq_none {w : BitVec 3} {j : Nat} (h : ¬ WritesWord w (ins j)) :
    written ins w j = none := if_neg h

variable (ins)

/-- **The block of two timers is a faithful register file.** -/
theorem registerFile : RegisterFile ins where
  readsLast k g n m hmn hw hno hr := by
    rw [prdata_of_readsWord hr, value_regsAt]
    exact latest_of_last hmn (if_pos hw) fun j hj hjn => written_eq_none (hno j hj hjn)
  readsZero k g n hno hr := by
    rw [prdata_of_readsWord hr, value_regsAt]
    exact latest_of_none fun j hj => written_eq_none (hno j hj)
  isolated k ins' h n := by
    have hregs : regsAt ins' n k = regsAt ins n k := stateAt_of_replacesOther h n
    refine ⟨hregs, fun j hj => ?_⟩
    have hidx : (⟨j.val / 2, by omega⟩ : Fin 2) = k := Fin.ext hj
    show irqO (regsAt ins' n ⟨j.val / 2, _⟩) _ = irqO (regsAt ins n ⟨j.val / 2, _⟩) _
    rw [hidx, hregs]

end Runs

end RiscvSoc.ApbTimer
