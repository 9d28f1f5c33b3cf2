import RiscvSoc.Sync.Circuit

/-!
# Apb — RstCtrlUnit

`rst_ctrl_unit`, the APB register that holds the boot address, and what
holds of its contents over runs of a shared APB.

The write enable is `req && want_write`. Neither looks at `PENABLE`:
`want_write` is the direction of the last selected cycle, and `req`
stays high for one cycle after it. So `PWDATA` is also loaded in cycles
that are no write access of this unit, and the register keeps its value
exactly when `PWDATA` happens to hold that value there.
-/

namespace RiscvSoc.RstCtrlUnit

open Sync

/-! ## The module -/

/-- `fsm_st`. The register is three bits wide; its other codes are never
loaded. -/
inductive Fsm where
  | idle
  | waitReq
  | newReq
  deriving DecidableEq, Repr

/-- The APB slave port in one cycle. `PENABLE` and `PADDR` are wired and
not read. -/
structure Inputs where
  psel : Bool
  penable : Bool
  paddr : BitVec 32
  pwdata : BitVec 32
  pwrite : Bool
  deriving DecidableEq, Repr

structure Regs where
  fsmSt : Fsm
  rstAddr : BitVec 32
  wantWrite : Bool
  deriving DecidableEq, Repr

structure Outputs where
  prdata : BitVec 32
  pready : Bool
  pslverr : Bool
  rstAddrO : BitVec 32
  deriving DecidableEq, Repr

def nextSt (fsmSt : Fsm) (i : Inputs) : Fsm :=
  match fsmSt with
  | .idle => if i.psel then .waitReq else .idle
  | .waitReq => if i.psel then .newReq else .idle
  | .newReq => if i.psel then .waitReq else .idle

def req (fsmSt : Fsm) (i : Inputs) : Bool :=
  match fsmSt with
  | .idle => if i.psel && !i.pwrite then true else false
  | .waitReq => true
  | .newReq => true

def outputs (r : Regs) : Outputs where
  prdata := r.rstAddr
  pready := true
  pslverr := false
  rstAddrO := r.rstAddr

/-- The two clocked blocks. -/
def rstCtrlUnit (defaultBootAddr : BitVec 32) : Circuit Inputs Regs where
  reset := { fsmSt := .idle, rstAddr := defaultBootAddr, wantWrite := false }
  next r i :=
    { fsmSt := nextSt r.fsmSt i
      rstAddr := if req r.fsmSt i && r.wantWrite then i.pwdata else r.rstAddr
      wantWrite :=
        if i.psel && i.pwrite then true
        else if i.psel && !i.pwrite then false
        else r.wantWrite }

/-! ## The bus -/

/-- The setup phase of a transfer to this unit. -/
def Inputs.setup (i : Inputs) : Bool := i.psel && !i.penable

/-- The access phase of a transfer to this unit. It ends in one cycle,
as the unit is always ready. -/
def Inputs.access (i : Inputs) : Bool := i.psel && i.penable

/-- **The APB protocol**, as far as this unit is selected: a setup phase,
then one access phase that holds the address phase signals and the datum
of a write. Nothing is asked of the cycles in between. -/
structure ApbRun (ins : Nat → Inputs) : Prop where
  access_of_setup : ∀ n, (ins n).setup = true →
    (ins (n + 1)).access = true ∧ (ins (n + 1)).paddr = (ins n).paddr ∧
      (ins (n + 1)).pwrite = (ins n).pwrite ∧
      ((ins n).pwrite = true → (ins (n + 1)).pwdata = (ins n).pwdata)
  not_access_zero : (ins 0).access = false
  setup_of_access : ∀ n, (ins (n + 1)).access = true → (ins n).setup = true

section Runs

variable (defaultBootAddr : BitVec 32) (ins : Nat → Inputs)

def regsAt (n : Nat) : Regs := (rstCtrlUnit defaultBootAddr).stateAt ins n

/-- The outputs in cycle `n` of the run from reset. -/
def outputsAt (n : Nat) : Outputs := outputs (regsAt defaultBootAddr ins n)

/-- A write access to this unit completes. -/
def writeAccess (n : Nat) : Bool := (ins n).access && (ins n).pwrite

/-- The datum of the last write access completed before cycle `n`. -/
def lastWrite : Nat → BitVec 32
  | 0 => defaultBootAddr
  | n + 1 => if writeAccess ins n then (ins n).pwdata else lastWrite n

/-- The unit was selected in the cycle before. -/
def selectedBefore : Nat → Bool
  | 0 => false
  | n + 1 => (ins n).psel

/-- The last cycle before `n` in which the unit was selected had
`PWRITE` high. -/
def lastDirection : Nat → Bool
  | 0 => false
  | n + 1 => if (ins n).psel then (ins n).pwrite else lastDirection n

/-- The unit was selected last for a write, and either that was in the
cycle before or the setup phase of a read ends the pause. -/
def sampled (n : Nat) : Bool :=
  lastDirection ins n &&
    (selectedBefore ins n || ((ins n).psel && !(ins n).pwrite))

/-- **A register that only its own writes change.** -/
def OnlyOwnWrites : Prop :=
  ∀ n, (outputsAt defaultBootAddr ins n).rstAddrO = lastWrite defaultBootAddr ins n ∧
    ((ins n).access = true → (ins n).pwrite = false →
      (outputsAt defaultBootAddr ins n).prdata = lastWrite defaultBootAddr ins n)

/-! ## Runs from reset -/

theorem wantWrite_eq (n : Nat) :
    (regsAt defaultBootAddr ins n).wantWrite = lastDirection ins n := by
  refine (rstCtrlUnit defaultBootAddr).stateAt_invariant
    (I := fun n r => r.wantWrite = lastDirection ins n) rfl (fun n r ih => ?_) n
  rw [lastDirection, ← ih]
  cases hs : (ins n).psel <;> cases hw : (ins n).pwrite <;> simp [rstCtrlUnit, hs, hw]

/-- The FSM is out of `IDLE` exactly after a selected cycle. -/
theorem fsmSt_eq_idle_iff (n : Nat) :
    (regsAt defaultBootAddr ins n).fsmSt = .idle ↔ selectedBefore ins n = false := by
  refine (rstCtrlUnit defaultBootAddr).stateAt_invariant
    (I := fun n r => r.fsmSt = .idle ↔ selectedBefore ins n = false) (by simp [rstCtrlUnit,
      selectedBefore]) (fun n r _ => ?_) n
  show nextSt r.fsmSt (ins n) = .idle ↔ (ins n).psel = false
  cases r.fsmSt <;> cases hs : (ins n).psel <;> simp [nextSt, hs]

/-- **What loads the register**, in terms of the bus alone. -/
theorem rstAddr_succ (n : Nat) :
    (regsAt defaultBootAddr ins (n + 1)).rstAddr =
      if sampled ins n then (ins n).pwdata
      else (regsAt defaultBootAddr ins n).rstAddr := by
  have hreq : (req (regsAt defaultBootAddr ins n).fsmSt (ins n)
        && (regsAt defaultBootAddr ins n).wantWrite) = sampled ins n := by
    have hidle := fsmSt_eq_idle_iff defaultBootAddr ins n
    rw [wantWrite_eq, sampled, Bool.and_comm]
    congr 1
    cases hf : (regsAt defaultBootAddr ins n).fsmSt <;>
      cases hb : selectedBefore ins n <;> simp_all [req]
  rw [← hreq]
  rfl

/-- A write access is sampled: its setup phase was a selected cycle with
the same `PWRITE`. -/
theorem sampled_of_writeAccess (hbus : ApbRun ins) {n : Nat}
    (h : writeAccess ins n = true) : sampled ins n = true := by
  simp only [writeAccess, Bool.and_eq_true] at h
  obtain ⟨hacc, hwr⟩ := h
  cases n with
  | zero => rw [hbus.not_access_zero] at hacc; cases hacc
  | succ m =>
      have hsetup := hbus.setup_of_access m hacc
      have hheld := (hbus.access_of_setup m hsetup).2.2.1
      rw [Inputs.setup, Bool.and_eq_true] at hsetup
      simp [sampled, lastDirection, selectedBefore, hsetup.1, ← hheld, hwr]

/-- **The register holds its last write iff no stray sample changes
it**: in every sampled cycle that is not a write access of this unit
`PWDATA`, whoever drives it, equals the datum of the last write. -/
theorem onlyOwnWrites_iff (hbus : ApbRun ins) :
    OnlyOwnWrites defaultBootAddr ins ↔
      ∀ n, sampled ins n = true → writeAccess ins n = false →
        (ins n).pwdata = lastWrite defaultBootAddr ins n := by
  have hstep := rstAddr_succ defaultBootAddr ins
  constructor
  · intro hown n hs hna
    have hn := (hown (n + 1)).1
    rw [outputsAt, outputs, hstep, if_pos hs, lastWrite, hna] at hn
    exact hn
  · intro hstray
    have hkeep : ∀ n, (regsAt defaultBootAddr ins n).rstAddr
        = lastWrite defaultBootAddr ins n := by
      intro n
      induction n with
      | zero => rfl
      | succ n ih =>
          rw [hstep, lastWrite]
          -- a write access loads its datum, any other sample what is there
          by_cases hw : writeAccess ins n = true
          · rw [if_pos (sampled_of_writeAccess ins hbus hw), if_pos hw]
          · rw [if_neg hw]
            split
            · rename_i hs
              exact hstray n hs (Bool.not_eq_true _ ▸ hw)
            · exact ih
    intro n
    exact ⟨hkeep n, fun _ _ => hkeep n⟩

end Runs

/-- One write of `0x1A000080`, then an idle bus with `PWDATA` low. -/
def oneWrite (n : Nat) : Inputs where
  psel := n < 2
  penable := n == 1
  paddr := 0
  pwdata := if n < 2 then 0x1A000080 else 0
  pwrite := n < 2

theorem oneWrite_apb : ApbRun oneWrite := by
  refine ⟨fun n h => ?_, rfl, fun n h => ?_⟩
  · have hn : n = 0 := by
      simp [Inputs.setup, oneWrite] at h
      omega
    subst hn
    decide
  · have hn : n = 0 := by
      simp [Inputs.access, oneWrite] at h
      omega
    subst hn
    decide

theorem onlyOwnWrites_oneWrite :
    OnlyOwnWrites 0x1A000000 oneWrite ↔
      ∀ n, sampled oneWrite n = true → writeAccess oneWrite n = false →
        (oneWrite n).pwdata = lastWrite 0x1A000000 oneWrite n :=
  onlyOwnWrites_iff 0x1A000000 oneWrite oneWrite_apb

/-- The idle cycle after the write clears the boot address. -/
theorem idle_cycle_overwrites :
    ApbRun oneWrite ∧ ¬ OnlyOwnWrites 0x1A000000 oneWrite := by
  refine ⟨oneWrite_apb, fun h => ?_⟩
  have h3 := (h 3).1
  revert h3
  decide

end RiscvSoc.RstCtrlUnit
