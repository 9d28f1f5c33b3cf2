import RiscvSoc.Apb.ApbTimer
import RiscvSoc.Apb.Periodic
import RiscvSoc.Control.Mmio

/-!
# Firmware — TimerApi

The timer driver, and what it does to the timer. The software sets the
compare value and then starts the timer; the bus carries these two writes
in some cycles, and in the others whatever it likes, other slaves' writes
and reads of the timers included. From the cycle behind the second write
the timer goes round.
-/

namespace RiscvSoc.TimerApi

open Sync Control Timer ApbTimer

/-! ## The driver -/

def timerBaseAddr : BitVec 32 := 0x40020000

def tira : BitVec 32 := timerBaseAddr + 0x00
def tpra : BitVec 32 := timerBaseAddr + 0x04
def tocra : BitVec 32 := timerBaseAddr + 0x08

abbrev Bus := Trace (BitVec 32) (BitVec 32)

def resetTimer (h : Bus) : Bus := writeReg tira 0 h

def startTimer (h : Bus) : Bus := writeReg tpra 1 h

def stopTimer (h : Bus) : Bus := writeReg tpra 0 h

def setCmp (value : BitVec 32) (h : Bus) : Bus := writeReg tocra value h

/-- `get_time`: what is read, and the accesses. -/
def getTime (timer : Devices (BitVec 32) (BitVec 32)) (h : Bus) : BitVec 32 × Bus :=
  (timer h tira, readReg timer tira h)

/-! ## The timer while it is stopped -/

section Stopped

variable {s : Regs} {ins : Nat → Inputs} {n : Nat}

/-- A timer that is not enabled and stands at 0 has no interrupt and stays
there. -/
theorem countN_of_stopped {r : Regs} (hen : enableBit r = false) (ht : r.timer = 0) :
    countN r = 0 := by
  rcases countN_cases r with ⟨hz, _⟩ | ⟨h0, h1, _⟩
  · exact hz
  · simp only [countN, h0, h1, hen, Bool.or_false, Bool.false_and, Bool.false_eq_true, if_false]
    exact ht

theorem timer_of_stopped (hen : enableBit s = false) (ht : s.timer = 0) (h : Unwritten ins n) :
    (runAt s ins n).timer = 0 := by
  induction n with
  | zero => exact ht
  | succ n ih =>
      have hn := h.mono (Nat.le_succ n)
      have hoff : enableBit (runAt s ins n) = false := by
        rw [enableBit, (programmed_of_unwritten (s := s) hn).1]
        exact hen
      rw [runAt_succ_of_quiet (h n (Nat.lt_succ_self n))]
      exact countN_of_stopped hoff (ih hn)

end Stopped

/-! ## The two writes -/

/-- One write goes to one register. -/
theorem not_writesTimerCtrl {i : Inputs} (h : registerAdr i.paddr = regCmp) :
    writesTimerCtrl i = false := by
  rw [writesTimerCtrl, h]
  exact Bool.and_false _

theorem writesTimerCtrl_only {i : Inputs} (h : registerAdr i.paddr = regTimerCtrl) :
    writesCmp i = false ∧ writesTimer i = false := by
  rw [writesCmp, writesTimer, h]
  exact ⟨Bool.and_false _, Bool.and_false _⟩

section Runs

variable (ins : Nat → Inputs)

/-- The port of timer A. -/
def portA (j : Nat) : Inputs := timerIn 2 (ins j) ⟨0, by decide⟩

/-- The writes to timer A in the first `n` cycles, by the addresses of the
software. -/
def writesA (n : Nat) : Bus :=
  (cycles (fun j => writeAccess (portA ins j)) n).map fun j =>
    .write (timerBaseAddr + (ins j).paddr.setWidth 32) (ins j).pwdata

/-- **The timer runs**, from the cycle behind `m` on up to cycle `n`. -/
structure Runs (value : BitVec 32) (m n : Nat) : Prop where
  timer : ∀ j, m < j → j ≤ n →
    (ApbTimer.regsAt ins j 0).timer.toNat = (j - (m + 1)) % period value
  /-- `TIMER_A_OUTPUT_CMP`, in the last cycle of each period. -/
  outputCmp : ∀ j, m < j → j ≤ n → ((ApbTimer.outputsAt ins j).irqO 1 = true ↔
    value ≠ 0 ∧ (j - (m + 1)) % (value.toNat + 1) = value.toNat)
  /-- What `get_time` reads. -/
  time : ∀ j, m < j → j ≤ n → readAccess (ins j) = true →
    timerBaseAddr + (ins j).paddr.setWidth 32 = tira →
    (ApbTimer.outputsAt ins j).prdata.toNat = (j - (m + 1)) % period value
  /-- So that is what it returns, if its read is the access of cycle `j`. -/
  getTime : ∀ j dev h, m < j → j ≤ n → readAccess (ins j) = true →
    timerBaseAddr + (ins j).paddr.setWidth 32 = tira →
    dev h tira = (ApbTimer.outputsAt ins j).prdata →
    (TimerApi.getTime dev h).1.toNat = (j - (m + 1)) % period value

/-- Timer A runs alone on its port. -/
theorem regsAt_add (m n : Nat) :
    ApbTimer.regsAt ins (m + n) 0
      = runAt (ApbTimer.regsAt ins m 0) (fun k => portA ins (m + k)) n := by
  have hrun : ∀ j, ApbTimer.regsAt ins j 0 = timer.stateAt (portA ins) j := fun j =>
    stateAt_timer ins j 0
  rw [hrun, hrun, timer.stateAt_add]
  rfl

variable {ins}

theorem regsAt_succ (n : Nat) :
    ApbTimer.regsAt ins (n + 1) 0 = timer.next (ApbTimer.regsAt ins n 0) (portA ins n) := rfl

/-- The cycles of the two writes. -/
structure Writes (ins : Nat → Inputs) (value : BitVec 32) (c m n : Nat) : Prop where
  order : c < m ∧ m < n
  cmp : writesCmp (portA ins c) = true ∧ (portA ins c).pwdata = value
  start : writesTimerCtrl (portA ins m) = true ∧ (portA ins m).pwdata = 1
  others : ∀ j, j < n → j ≠ c → j ≠ m → writeAccess (portA ins j) = false

/-- An access of the software is one at its offset. -/
theorem paddr_of_addr {p o : BitVec 12}
    (h : timerBaseAddr + p.setWidth 32 = timerBaseAddr + o.setWidth 32) : p = o := by
  have hoff := congrArg BitVec.toNat ((BitVec.add_right_inj timerBaseAddr).mp h)
  rw [BitVec.toNat_setWidth_of_le (by decide), BitVec.toNat_setWidth_of_le (by decide)] at hoff
  exact BitVec.eq_of_toNat_eq hoff

theorem port_of_write {j : Nat} {o : BitVec 12} {x : BitVec 32}
    (h : Access.write (timerBaseAddr + (ins j).paddr.setWidth 32) (ins j).pwdata
      = .write (timerBaseAddr + o.setWidth 32) x) :
    (portA ins j).paddr = o ∧ (portA ins j).pwdata = x := by
  injection h with haddr hdata
  exact ⟨paddr_of_addr haddr, hdata⟩

/-- What `get_time` reads is the count. -/
theorem prdata_tira {j : Nat} (hread : readAccess (ins j) = true)
    (haddr : timerBaseAddr + (ins j).paddr.setWidth 32 = tira) :
    (ApbTimer.outputsAt ins j).prdata = (ApbTimer.regsAt ins j 0).timer := by
  have hzero : (ins j).paddr = 0 := paddr_of_addr haddr
  have hselect : slaveAddressInt 2 (ins j).paddr = 0 := by
    rw [slaveAddressInt_two, hzero]
    rfl
  have hsel : (ins j).psel = true := by
    simp only [readAccess, Bool.and_eq_true] at hread
    exact hread.1.1
  have hport : readAccess (portA ins j) = true := by
    have hpsel : pselInt 2 (ins j) 0 = (ins j).psel := if_pos hselect
    show (pselInt 2 (ins j) 0 && (ins j).penable && !(ins j).pwrite) = true
    rw [hpsel]
    exact hread
  have hadr : registerAdr (portA ins j).paddr = regTimer := by
    show registerAdr (ins j).paddr = regTimer
    rw [hzero]
    rfl
  rw [ApbTimer.outputsAt, prdata_outputs (k := 0) _ hsel hselect]
  show Timer.prdata (ApbTimer.regsAt ins j 0) (portA ins j) = _
  rw [Timer.prdata, if_pos hport, if_pos hadr]

theorem exists_writes {value : BitVec 32} {n : Nat}
    (h : writesA ins n = startTimer (setCmp value [])) : ∃ c m, Writes ins value c m n := by
  obtain ⟨c, rest, hcycles, hc, hrest⟩ := List.map_eq_cons_iff.mp h
  obtain ⟨m, tail, rfl, hm, htail⟩ := List.map_eq_cons_iff.mp hrest
  obtain rfl := List.map_eq_nil_iff.mp htail
  obtain ⟨hcmp, hvalue⟩ := port_of_write (o := 0x08) hc
  obtain ⟨hctrl, hone⟩ := port_of_write (o := 0x04) hm
  have hmem : ∀ j, j ∈ [c, m] ↔ j < n ∧ writeAccess (portA ins j) = true := fun j => by
    rw [← hcycles]
    exact mem_cycles
  have hcacc := ((hmem c).mp List.mem_cons_self).2
  obtain ⟨hmn, hmacc⟩ := (hmem m).mp (List.mem_cons_of_mem c List.mem_cons_self)
  have hsorted : (cycles (fun j => writeAccess (portA ins j)) n).Pairwise (· < ·) :=
    List.pairwise_lt_range.filter _
  rw [hcycles] at hsorted
  have hcm : c < m := List.rel_of_pairwise_cons hsorted List.mem_cons_self
  refine ⟨c, m, ⟨hcm, hmn⟩, ⟨?_, hvalue⟩, ⟨?_, hone⟩, fun j hj hjc hjm => ?_⟩
  · rw [writesCmp, hcacc, hcmp]
    decide
  · rw [writesTimerCtrl, hmacc, hctrl]
    decide
  · rw [← Bool.not_eq_true]
    intro hacc
    rcases List.mem_cons.mp ((hmem j).mpr ⟨hj, hacc⟩) with hmem | hmem
    · exact hjc hmem
    · exact hjm (List.mem_singleton.mp hmem)

namespace Writes

variable {value : BitVec 32} {c m n : Nat} (h : Writes ins value c m n)

include h

/-- Up to the first write the timer is as after reset. -/
theorem before {j : Nat} (hj : j ≤ c) :
    enableBit (ApbTimer.regsAt ins j 0) = false ∧ (ApbTimer.regsAt ins j 0).cmp = 0 := by
  have hcn := h.order
  have hrun := regsAt_add ins 0 j
  have hquiet : Unwritten (fun k => portA ins (0 + k)) j := fun k hk => by
    show writeAccess (portA ins (0 + k)) = false
    rw [Nat.zero_add]
    exact h.others k (by omega) (by omega) (by omega)
  rw [Nat.zero_add] at hrun
  rw [hrun, enableBit, (programmed_of_unwritten hquiet).1, (programmed_of_unwritten hquiet).2]
  have hzero : (0 : BitVec 32).getLsbD 0 = false := by decide
  exact ⟨hzero, rfl⟩

/-- Behind it the compare value is set and the count is 0. -/
theorem behindCmp : enableBit (ApbTimer.regsAt ins (c + 1) 0) = false ∧
    (ApbTimer.regsAt ins (c + 1) 0).timer = 0 ∧ (ApbTimer.regsAt ins (c + 1) 0).cmp = value := by
  have hno := not_writesTimerCtrl (beq_iff_eq.mp (Bool.and_eq_true_iff.mp h.cmp.1).2)
  rw [regsAt_succ]
  refine ⟨?_, ?_, ?_⟩
  · rw [enableBit, next_timerCtrl, hno, if_neg Bool.false_ne_true]
    exact (h.before (Nat.le_refl c)).1
  · rw [next_timer, h.cmp.1, if_pos rfl]
  · rw [next_cmp, h.cmp.1, if_pos rfl, h.cmp.2]

/-- That is so up to the second write. -/
theorem beforeStart {j : Nat} (hcj : c < j) (hjm : j ≤ m) :
    enableBit (ApbTimer.regsAt ins j 0) = false ∧
      (ApbTimer.regsAt ins j 0).timer = 0 ∧ (ApbTimer.regsAt ins j 0).cmp = value := by
  have hmn := h.order.2
  obtain ⟨hen, ht, hcmp⟩ := h.behindCmp
  have hrun := regsAt_add ins (c + 1) (j - (c + 1))
  have hquiet : Unwritten (fun k => portA ins (c + 1 + k)) (j - (c + 1)) := fun k hk =>
    h.others (c + 1 + k) (by omega) (by omega) (by omega)
  obtain ⟨hkeep, hkeep'⟩ := programmed_of_unwritten (s := ApbTimer.regsAt ins (c + 1) 0) hquiet
  rw [Nat.add_sub_cancel' hcj] at hrun
  rw [hrun]
  refine ⟨?_, timer_of_stopped hen ht hquiet, hkeep'.trans hcmp⟩
  rw [enableBit, hkeep]
  exact hen

/-- Behind the second one the timer is started. -/
theorem started : enableBit (ApbTimer.regsAt ins (m + 1) 0) = true ∧
    prescalerInt (ApbTimer.regsAt ins (m + 1) 0) = 0 ∧
    (ApbTimer.regsAt ins (m + 1) 0).timer = 0 ∧ (ApbTimer.regsAt ins (m + 1) 0).cmp = value := by
  obtain ⟨hen, ht, hcmp⟩ := h.beforeStart h.order.1 (Nat.le_refl m)
  have hctrl : (ApbTimer.regsAt ins (m + 1) 0).timerCtrl = 1 := by
    rw [regsAt_succ, next_timerCtrl, h.start.1, if_pos rfl, h.start.2]
  have hno := writesTimerCtrl_only (beq_iff_eq.mp (Bool.and_eq_true_iff.mp h.start.1).2)
  refine ⟨?_, ?_, ?_, ?_⟩
  · rw [enableBit, hctrl]
    decide
  · rw [prescalerInt, hctrl]
    decide
  · rw [regsAt_succ, next_timer, hno.1, hno.2, if_neg Bool.false_ne_true,
      if_neg Bool.false_ne_true, countN_of_stopped hen ht]
  · rw [regsAt_succ, next_cmp, hno.1, if_neg Bool.false_ne_true, hcmp]

/-- Then it goes round. -/
theorem toNat_timer {j : Nat} (hm : m < j) (hj : j ≤ n) :
    (ApbTimer.regsAt ins j 0).timer.toNat = (j - (m + 1)) % period value ∧
      (ApbTimer.regsAt ins j 0).cmp = value := by
  have hcm := h.order
  obtain ⟨hen, hp, ht, hcmp⟩ := h.started
  have hrun := regsAt_add ins (m + 1) (j - (m + 1))
  have hquiet : Unwritten (fun k => portA ins (m + 1 + k)) (j - (m + 1)) := fun k hk =>
    h.others (m + 1 + k) (by omega) (by omega) (by omega)
  rw [Nat.add_sub_cancel' hm] at hrun
  rw [hrun, timer_of_unwritten hen hp ht hquiet, (programmed_of_unwritten hquiet).2, hcmp]
  exact ⟨rfl, rfl⟩

/-- **The match interrupt**, from reset on: none before the timer is
started, and then one in each period. -/
theorem outputCmp_iff {j : Nat} (hj : j ≤ n) :
    (ApbTimer.outputsAt ins j).irqO 1 = true ↔
      value ≠ 0 ∧ m < j ∧ (j - (m + 1)) % (value.toNat + 1) = value.toNat := by
  show irqO (ApbTimer.regsAt ins j 0) 1 = true ↔ _
  rw [irqO_match_iff_toNat]
  by_cases hm : m < j
  · obtain ⟨htimer, hcmp⟩ := h.toNat_timer hm hj
    rw [hcmp, htimer, period]
    refine and_congr_right fun hset => ?_
    rw [if_neg hset]
    exact (and_iff_right hm).symm
  · have hoff : ¬ ((ApbTimer.regsAt ins j 0).cmp ≠ 0 ∧
        (ApbTimer.regsAt ins j 0).timer.toNat = (ApbTimer.regsAt ins j 0).cmp.toNat) := by
      rintro ⟨hset, heq⟩
      by_cases hc : j ≤ c
      · exact hset (h.before hc).2
      · obtain ⟨_, ht, _⟩ := h.beforeStart (j := j) (by omega) (by omega)
        rw [ht] at heq
        exact hset (BitVec.eq_of_toNat_eq heq.symm)
    simp only [hoff, hm, false_and, and_false]

end Writes

/-- **The driver starts a periodic timer.** If the writes that timer A has
seen from reset on are those of `set_cmp` and then `start_timer`, it has
gone round since the second one. -/
theorem startTimer_runs {value : BitVec 32} {n : Nat}
    (h : writesA ins n = startTimer (setCmp value [])) :
    ∃ m, m < n ∧ writesTimerCtrl (portA ins m) = true ∧ Runs ins value m n := by
  obtain ⟨c, m, hw⟩ := exists_writes h
  have htime : ∀ j, m < j → j ≤ n → readAccess (ins j) = true →
      timerBaseAddr + (ins j).paddr.setWidth 32 = tira →
      (ApbTimer.outputsAt ins j).prdata.toNat = (j - (m + 1)) % period value := by
    intro j hm hj hread haddr
    rw [prdata_tira hread haddr, (hw.toNat_timer hm hj).1]
  refine ⟨m, hw.order.2, hw.start.1, fun j hm hj => (hw.toNat_timer hm hj).1,
    fun j hm hj => ?_, htime, fun j dev h hm hj hread haddr hdev => ?_⟩
  · rw [hw.outputCmp_iff hj]
    exact and_congr_right fun _ => and_iff_right hm
  · rw [TimerApi.getTime, hdev, htime j hm hj hread haddr]

end Runs

/-- A setup phase before each of the two writes, and an idle bus. -/
def setThenStart (n : Nat) : Inputs where
  paddr := if n < 2 then 0x8 else 0x4
  pwdata := if n < 2 then 10000 else 1
  pwrite := n < 4
  psel := n < 4
  penable := n % 2 == 1

theorem startTimer_runs_setThenStart :
    ∃ m, m < 6 ∧ writesTimerCtrl (portA setThenStart m) = true ∧ Runs setThenStart 10000 m 6 :=
  startTimer_runs (by decide)

end RiscvSoc.TimerApi
