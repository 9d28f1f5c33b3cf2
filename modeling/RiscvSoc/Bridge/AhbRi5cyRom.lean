import RiscvSoc.Sync.Circuit
import RiscvSoc.Sync.Pipeline

/-!
# Bridge — AhbRi5cyRom

`ahb_ri5cy_rom`, the AHB-Lite slave in front of the boot ROM, and the
ROM behind it: an FSM that enables the ROM, and the register the ROM
reads its words into.

The slave has no register for the address of its data phase. The FSM
waits for `hready_i` in both busy states, but the ROM stays enabled
there and goes on reading whatever `haddr_i` shows, which in a wait
state is the next transfer.
-/

namespace RiscvSoc.AhbRi5cyRom

open Sync

/-! ## The module -/

/-- `fsm_st`. The register is three bits wide; its other codes are never
loaded. -/
inductive Fsm where
  | idle
  | waitReq
  | newReq
  deriving DecidableEq, Repr

/-- The inputs of one cycle that are read. -/
structure Inputs where
  hselI : Bool
  haddrI : BitVec 32
  hwriteI : Bool
  hreadyI : Bool
  deriving DecidableEq, Repr

/-- The FSM, and the output register of `boot_rom_generic`. -/
structure Regs where
  fsmSt : Fsm
  mem : BitVec 32
  deriving DecidableEq, Repr

structure Outputs where
  hrdataO : BitVec 32
  hreadyoutO : Bool
  hrespO : Bool
  deriving DecidableEq, Repr

def nextSt (fsmSt : Fsm) (i : Inputs) : Fsm :=
  match fsmSt with
  | .idle =>
      if !i.hreadyI then .idle
      else if i.hselI then .waitReq
      else .idle
  | .waitReq =>
      if !i.hreadyI then .waitReq
      else if i.hselI then .newReq
      else .idle
  | .newReq =>
      if !i.hreadyI then .newReq
      else if i.hselI then .waitReq
      else .idle

def reqO (fsmSt : Fsm) (i : Inputs) : Bool :=
  match fsmSt with
  | .idle =>
      if i.hreadyI then
        if i.hselI && !i.hwriteI then true else false
      else false
  | .waitReq => true
  | .newReq => true

/-- `raddr_i`: the ROM is wired to `haddr_i[15:0]`. -/
def raddr (i : Inputs) : BitVec 16 := i.haddrI.extractLsb' 0 16

def outputs (r : Regs) : Outputs where
  hrdataO := r.mem
  hreadyoutO := true
  hrespO := false

/-- The clocked blocks of the slave and of its ROM. The ROM's register
is not reset: it starts as `mem0`. -/
def ahbRi5cyRom (rom : BitVec 16 → BitVec 32) (mem0 : BitVec 32) : Circuit Inputs Regs where
  reset := { fsmSt := .idle, mem := mem0 }
  next r i :=
    { fsmSt := nextSt r.fsmSt i
      mem := if reqO r.fsmSt i then rom (raddr i) else r.mem }

/-! ## Runs from reset -/

section Runs

variable (rom : BitVec 16 → BitVec 32) (mem0 : BitVec 32) (ins : Nat → Inputs)

def regsAt (n : Nat) : Regs := (ahbRi5cyRom rom mem0).stateAt ins n

def outputsAt (n : Nat) : Outputs := outputs (regsAt rom mem0 ins n)

def hready (n : Nat) : Bool := (ins n).hreadyI

/-- A read is accepted. -/
def acceptedRead (n : Nat) : Bool := (ins n).hselI && (ins n).hreadyI && !(ins n).hwriteI

/-- **The word that was asked for**, in every cycle of the data phase of
every accepted read. -/
def ReturnsAsked : Prop :=
  ∀ k n, acceptedRead ins k = true → DataPhase (hready ins) k n →
    (outputsAt rom mem0 ins n).hrdataO = rom (raddr (ins k))

variable {ins}

/-- The ROM reads in the acceptance cycle of a read. -/
theorem reqO_of_acceptedRead {n : Nat} (h : acceptedRead ins n = true) (s : Fsm) :
    reqO s (ins n) = true := by
  simp only [acceptedRead, Bool.and_eq_true, Bool.not_eq_true'] at h
  cases s <;> simp [reqO, h]

/-- Throughout the data phase of a transfer the FSM is busy. -/
theorem fsmSt_ne_idle {k n : Nat} (hsel : (ins k).hselI = true)
    (hr : (ins k).hreadyI = true) (hd : DataPhase (hready ins) k n) :
    (regsAt rom mem0 ins n).fsmSt ≠ .idle := by
  induction n with
  | zero => exact absurd hd.1 (Nat.not_lt_zero k)
  | succ n ih =>
      show nextSt (regsAt rom mem0 ins n).fsmSt (ins n) ≠ .idle
      rcases hd.succ_cases with rfl | ⟨hd', hwait⟩
      · cases (regsAt rom mem0 ins k).fsmSt <;> simp [nextSt, hr, hsel]
      · rw [hready] at hwait
        have hbusy := ih hd'
        cases hs : (regsAt rom mem0 ins n).fsmSt <;> simp_all [nextSt]

/-- The next cycle shows the word at the address of an enabled one. -/
theorem hrdataO_succ {n : Nat} (h : reqO (regsAt rom mem0 ins n).fsmSt (ins n) = true) :
    (outputsAt rom mem0 ins (n + 1)).hrdataO = rom (raddr (ins n)) := by
  show (if reqO (regsAt rom mem0 ins n).fsmSt (ins n) then rom (raddr (ins n))
    else (regsAt rom mem0 ins n).mem) = _
  rw [if_pos h]

theorem reqO_of_busy {s : Fsm} (h : s ≠ .idle) (i : Inputs) : reqO s i = true := by
  cases s with
  | idle => exact absurd rfl h
  | waitReq => rfl
  | newReq => rfl

/-- A data phase in cycle `n + 1` shows the word addressed in cycle `n`,
be that cycle the acceptance or a wait state. -/
theorem hrdataO_of_dataPhase {k n : Nat} (hk : acceptedRead ins k = true)
    (hd : DataPhase (hready ins) k (n + 1)) :
    (outputsAt rom mem0 ins (n + 1)).hrdataO = rom (raddr (ins n)) := by
  apply hrdataO_succ
  rcases hd.succ_cases with rfl | ⟨hd', _⟩
  · exact reqO_of_acceptedRead hk _
  · simp only [acceptedRead, Bool.and_eq_true] at hk
    exact reqO_of_busy (fsmSt_ne_idle rom mem0 hk.1.1 hk.1.2 hd') _

/-- **The asked word is returned iff wait states show its address**: on
exactly the runs on which, in every wait state of the data phase of a
read, `haddr_i` addresses the word that was asked for. -/
theorem returnsAsked_iff (ins : Nat → Inputs) :
    ReturnsAsked rom mem0 ins ↔
      ∀ k n, acceptedRead ins k = true → DataPhase (hready ins) k n →
        (ins n).hreadyI = false → rom (raddr (ins n)) = rom (raddr (ins k)) := by
  constructor
  · intro hall k n hk hd hwait
    have hnext := hd.succ_of_wait hwait
    rw [← hrdataO_of_dataPhase rom mem0 hk hnext]
    exact hall k (n + 1) hk hnext
  · intro hwaits k n hk hd
    cases n with
    | zero => exact absurd hd.1 (Nat.not_lt_zero k)
    | succ n =>
        rw [hrdataO_of_dataPhase rom mem0 hk hd]
        rcases hd.succ_cases with rfl | ⟨hd', hwait⟩
        · rfl
        · exact hwaits k n hk hd' hwait

end Runs

/-- A read of byte address 0, its data phase prolonged by one wait state
that shows the next transfer, a read of byte address 4. -/
def pendingRead (n : Nat) : Inputs where
  hselI := n < 3
  haddrI := if n = 0 then 0x1A000000 else 0x1A000004
  hwriteI := false
  hreadyI := n != 1

def twoWordRom (a : BitVec 16) : BitVec 32 := if a = 0 then 0x11 else 0x22

/-- The wait state replaces the word. -/
theorem pending_read_replaced : ¬ ReturnsAsked twoWordRom 0 pendingRead := by
  intro h
  have hd : DataPhase (hready pendingRead) 0 2 := by
    refine ⟨by decide, fun j h1 h2 => ?_⟩
    obtain rfl : j = 1 := by omega
    rfl
  have h2 := h 0 2 (by decide) hd
  revert h2
  decide

end RiscvSoc.AhbRi5cyRom
