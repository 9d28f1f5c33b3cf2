import RiscvSoc.Bridge.Ahb
import RiscvSoc.Sync.Circuit
import RiscvSoc.Sync.Pipeline

/-!
# Bridge — Ri5cyToAhb

`ri5cy_to_ahb`, the bridge from the core's request port to an AHB-Lite
master port: the combinational outputs, the three-state FSM and the
registered write datum, and what holds of them over runs from reset.

The address phase is combinational (the bridge shows the core's request
as it is), so only the datum and the FSM are state. A request is
captured in a cycle with `req_i` and `hreadyout_i` both high; the grant
looks at `req_i` alone.
-/

namespace RiscvSoc.Ri5cyToAhb

open Sync Mem Ahb

/-! ## The module -/

/-- `fsm_st`. The register is three bits wide; its other codes are never
loaded. -/
inductive Fsm where
  | idle
  | waitReq
  | newReq
  deriving DecidableEq, Repr

/-- The inputs of one cycle: the core's request port and the answer of
the bus. -/
structure Inputs where
  reqI : Bool
  weI : Bool
  beI : BitVec 4
  addrI : BitVec 32
  wdataI : BitVec 32
  hrdataI : BitVec 32
  hreadyoutI : Bool
  deriving DecidableEq, Repr

structure Regs where
  fsmSt : Fsm
  hwdataTmp : BitVec 32
  deriving DecidableEq, Repr

/-- The outputs of one cycle that depend on anything. -/
structure Outputs where
  gntO : Bool
  rvalidO : Bool
  rdataO : BitVec 32
  hselO : Bool
  haddrO : BitVec 32
  hwdataO : BitVec 32
  hwriteO : Bool
  hsizeO : BitVec 3
  htransO : BitVec 2
  hreadyO : Bool
  deriving DecidableEq, Repr

/-- The lane generate loop: `{8{be_i[i]}} & wdata_i[i*8+:8]`. -/
def hwmask (beI : BitVec 4) (wdataI : BitVec 32) : BitVec 32 :=
  ofLanes fun i => (if beI.getLsbD i then 0xff else 0x00) &&& lane wdataI i

def hsize (beI : BitVec 4) : BitVec 3 :=
  if beI = 0b1111 ∨ beI = 0b1110 then word
  else if beI = 0b0011 ∨ beI = 0b0110 ∨ beI = 0b1100 then halfword
  else byte

def nextSt (fsmSt : Fsm) (i : Inputs) : Fsm :=
  match fsmSt with
  | .idle =>
      if !i.hreadyoutI then .idle
      else if i.reqI then .waitReq
      else .idle
  | .waitReq =>
      if !i.hreadyoutI then .waitReq
      else if i.reqI then .newReq
      else .idle
  | .newReq =>
      if !i.hreadyoutI then .newReq
      else if i.reqI then .waitReq
      else .idle

def rvalid (fsmSt : Fsm) (i : Inputs) : Bool :=
  match fsmSt with
  | .idle => false
  | .waitReq => if i.hreadyoutI == false then false else true
  | .newReq => if i.hreadyoutI == false then false else true

def outputs (r : Regs) (i : Inputs) : Outputs where
  gntO := i.reqI
  rvalidO := rvalid r.fsmSt i
  rdataO := i.hrdataI
  hselO := i.reqI
  haddrO := i.addrI
  hwdataO := r.hwdataTmp
  hwriteO := i.weI
  hsizeO := hsize i.beI
  htransO := if i.reqI then nonseqHtrans else idleHtrans
  hreadyO := i.hreadyoutI

/-- The two clocked blocks. -/
def ri5cyToAhb : Circuit Inputs Regs where
  reset := { fsmSt := .idle, hwdataTmp := 0 }
  next r i :=
    { fsmSt := nextSt r.fsmSt i
      hwdataTmp :=
        if i.reqI && i.hreadyoutI then hwmask i.beI i.wdataI
        else r.hwdataTmp }

/-- The outputs in cycle `n` of the run from reset. -/
def outputsAt (ins : Nat → Inputs) (n : Nat) : Outputs :=
  outputs (ri5cyToAhb.stateAt ins n) (ins n)

/-! ## One cycle -/

@[simp] theorem lane_hwmask (beI : BitVec 4) (wdataI : BitVec 32) (l : Fin 4) :
    lane (hwmask beI wdataI) l
      = masked (enables beI) 0 (lane wdataI) l := by
  have hff : (0xff : BitVec 8) = BitVec.allOnes 8 := rfl
  rw [hwmask, lane_ofLanes, masked, enables, hff]
  cases beI.getLsbD l
  · simp
  · simp only [if_true, BitVec.allOnes_and]

/-- The transfers the FSM knows of: none in `IDLE`, else one. -/
def Fsm.outstanding : Fsm → Nat
  | .idle => 0
  | .waitReq => 1
  | .newReq => 1

/-- A request is captured. -/
def Inputs.accepted (i : Inputs) : Bool := i.reqI && i.hreadyoutI

/-- One cycle balances the account: what the FSM knows of afterwards is
what it knew before, less the answer given, plus the request captured. -/
theorem nextSt_balance (s : Fsm) (i : Inputs) :
    (nextSt s i).outstanding + (rvalid s i).toNat
      = s.outstanding + i.accepted.toNat := by
  cases s <;> cases hq : i.reqI <;> cases hr : i.hreadyoutI <;>
    simp [nextSt, rvalid, Fsm.outstanding, Inputs.accepted, hq, hr]

/-! ## Runs from reset -/

section Runs

variable (ins : Nat → Inputs)

def fsmAt (n : Nat) : Fsm := (ri5cyToAhb.stateAt ins n).fsmSt

def hwdataAt (n : Nat) : BitVec 32 := (ri5cyToAhb.stateAt ins n).hwdataTmp

theorem fsmAt_succ (n : Nat) : fsmAt ins (n + 1) = nextSt (fsmAt ins n) (ins n) := rfl

theorem hwdataAt_succ (n : Nat) :
    hwdataAt ins (n + 1) =
      if (ins n).accepted then hwmask (ins n).beI (ins n).wdataI
      else hwdataAt ins n := rfl

/-- A request is granted: `req_i` and `gnt_o`. -/
def granted (n : Nat) : Bool := (ins n).reqI && (outputsAt ins n).gntO

/-- A request is captured. -/
def accepted (n : Nat) : Bool := (ins n).accepted

/-- A request is answered: `rvalid_o`. -/
def answered (n : Nat) : Bool := (outputsAt ins n).rvalidO

def hreadyout (n : Nat) : Bool := (ins n).hreadyoutI

/-- The transfer whose data phase cycle `n` belongs to. -/
def owner (n : Nat) : Option Nat :=
  Pipeline.owner (hreadyout ins) (fun n => (ins n).reqI) n

theorem answered_eq (n : Nat) : answered ins n = rvalid (fsmAt ins n) (ins n) := rfl

theorem accepts_eq :
    Pipeline.accepts (hreadyout ins) (fun n => (ins n).reqI) = accepted ins := by
  funext n
  exact Bool.and_comm _ _

/-- **The account of a run**: captured requests are answered, but for
the one the FSM still knows of. -/
theorem accepted_eq_answered (n : Nat) :
    (cycles (accepted ins) n).length
      = (cycles (answered ins) n).length + (fsmAt ins n).outstanding := by
  induction n with
  | zero => rfl
  | succ n ih =>
      have hb := nextSt_balance (fsmAt ins n) (ins n)
      rw [length_cycles_succ, length_cycles_succ, ih, answered_eq, fsmAt_succ, accepted]
      omega

/-- The FSM is out of `IDLE` exactly in the cycles of a data phase. -/
theorem outstanding_eq (n : Nat) :
    (fsmAt ins n).outstanding = (owner ins n).toList.length := by
  induction n with
  | zero => rfl
  | succ n ih =>
      rw [fsmAt_succ, owner]
      rw [owner] at ih
      cases hr : (ins n).hreadyoutI
      · rw [Pipeline.owner_succ_of_wait hr, ← ih]
        cases fsmAt ins n <;> simp [nextSt, Fsm.outstanding, hr]
      · rw [Pipeline.owner_succ_of_ready hr]
        cases hq : (ins n).reqI <;> cases fsmAt ins n <;>
          simp [nextSt, Fsm.outstanding, hr, hq]

/-- A captured request is outstanding in the next cycle. -/
theorem outstanding_succ_of_accepted {n : Nat} (h : accepted ins n = true) :
    (fsmAt ins (n + 1)).outstanding = 1 := by
  rw [← accepts_eq] at h
  rw [outstanding_eq, owner,
    Pipeline.owner_eq_some_iff.mpr ⟨h, DataPhase.start _ n⟩]
  rfl

/-- `rvalid_o` marks the ready cycle that ends a data phase. -/
theorem answered_iff (n : Nat) :
    answered ins n = true ↔ hreadyout ins n = true ∧ ∃ k, owner ins n = some k := by
  have ho := outstanding_eq ins n
  rw [answered_eq, hreadyout]
  cases hs : fsmAt ins n <;> cases hk : owner ins n <;>
    simp_all [rvalid, Fsm.outstanding]

/-- As many data phases have ended as answers were given. -/
theorem length_completed (n : Nat) :
    (Pipeline.completed (hreadyout ins) (fun n => (ins n).reqI) n).length
      = (cycles (answered ins) n).length := by
  have hacc := accepted_eq_answered ins n
  rw [← accepts_eq, Pipeline.accepted_eq, List.length_append, outstanding_eq] at hacc
  exact Nat.add_right_cancel hacc

/-- **The datum stays**: throughout the data phase of a captured
request `hwdata_o` is that request's datum, its disabled lanes zero. -/
theorem hwdataAt_of_dataPhase {k n : Nat} (hk : accepted ins k = true)
    (h : DataPhase (hreadyout ins) k n) :
    hwdataAt ins n = hwmask (ins k).beI (ins k).wdataI := by
  induction n with
  | zero => exact absurd h.1 (Nat.not_lt_zero k)
  | succ n ih =>
      rw [hwdataAt_succ]
      rcases h.succ_cases with rfl | ⟨hd, hw⟩
      · exact if_pos hk
      · -- in a wait state nothing is captured, whatever the core shows
        rw [hreadyout] at hw
        rw [Inputs.accepted, hw, Bool.and_false, if_neg Bool.false_ne_true]
        exact ih hd

/-- A transfer is outstanding in the cycles of its data phase. -/
theorem outstanding_iff (n : Nat) :
    fsmAt ins n ≠ .idle ↔
      ∃ k, accepted ins k = true ∧ DataPhase (hreadyout ins) k n := by
  have ho := outstanding_eq ins n
  have howner : (∃ k, accepted ins k = true ∧ DataPhase (hreadyout ins) k n) ↔
      ∃ k, owner ins n = some k := by
    refine exists_congr fun k => ?_
    rw [← accepts_eq, owner, Pipeline.owner_eq_some_iff]
  rw [howner]
  cases hs : fsmAt ins n <;> cases hk : owner ins n <;> simp_all [Fsm.outstanding]

/-- **What a transfer keeps under stalls.** -/
structure KeepsData : Prop where
  /-- The difference of the counts is what the FSM says. -/
  account : ∀ n,
    (((cycles (accepted ins) n).length : Int) - (cycles (answered ins) n).length = 1 ↔
      fsmAt ins n = .waitReq ∨ fsmAt ins n = .newReq) ∧
    (((cycles (accepted ins) n).length : Int) - (cycles (answered ins) n).length = 0 ↔
      fsmAt ins n = .idle)
  /-- Outstanding are the transfers in their data phase. -/
  outstanding : ∀ n, fsmAt ins n ≠ .idle ↔
    ∃ k, accepted ins k = true ∧ DataPhase (hreadyout ins) k n
  /-- Throughout its data phase the datum is the one of its acceptance,
  the disabled lanes zero. -/
  held : ∀ k n, accepted ins k = true → DataPhase (hreadyout ins) k n → ∀ l : Fin 4,
    lane (outputsAt ins n).hwdataO l =
      if (ins k).beI.getLsbD l then lane (ins k).wdataI l else 0
  /-- It is answered in the first later ready cycle, and nothing else is. -/
  answeredFirst : ∀ n, (outputsAt ins n).rvalidO = true ↔
    ∃ k, accepted ins k = true ∧ DataPhase (hreadyout ins) k n ∧ (ins n).hreadyoutI = true
  /-- The answer is the bus's datum. -/
  readData : ∀ n, (outputsAt ins n).rvalidO = true → (outputsAt ins n).rdataO = (ins n).hrdataI

theorem account_eq (n : Nat) :
    ((cycles (accepted ins) n).length : Int) - (cycles (answered ins) n).length
      = (fsmAt ins n).outstanding := by
  have hacc := accepted_eq_answered ins n
  omega

/-- **Transfers keep their data under any stalls.** -/
theorem keepsData : KeepsData ins where
  account n := by
    rw [account_eq]
    cases fsmAt ins n <;> simp [Fsm.outstanding]
  outstanding := outstanding_iff ins
  held k n hk hd l := by
    have hdata : (outputsAt ins n).hwdataO = hwmask (ins k).beI (ins k).wdataI :=
      hwdataAt_of_dataPhase ins hk hd
    rw [hdata, lane_hwmask]
    rfl
  answeredFirst n := by
    have hans := answered_iff ins n
    rw [answered, hreadyout] at hans
    constructor
    · intro hv
      obtain ⟨hr, k, hk⟩ := hans.mp hv
      rw [owner, Pipeline.owner_eq_some_iff, accepts_eq] at hk
      exact ⟨k, hk.1, hk.2, hr⟩
    · rintro ⟨k, hk, hd, hr⟩
      rw [← accepts_eq] at hk
      exact hans.mpr ⟨hr, k, Pipeline.owner_eq_some_iff.mpr ⟨hk, hd⟩⟩
  readData _ _ := rfl

theorem granted_eq (n : Nat) : granted ins n = (ins n).reqI := by
  simp [granted, outputsAt, outputs]

/-- **No grant is forgotten exactly on runs without a stalled request**:
the granted requests are the answered ones and the one the FSM knows
of, in every cycle, iff no request meets a wait state. -/
theorem granted_eq_answered_iff :
    (∀ n, (cycles (granted ins) n).length
        = (cycles (answered ins) n).length
          + (fsmAt ins n).outstanding) ↔
      ∀ n, (ins n).reqI = true → (ins n).hreadyoutI = true := by
  have hsub : ∀ k, accepted ins k = true → granted ins k = true := by
    intro k hk
    rw [granted_eq]
    simp only [accepted, Inputs.accepted, Bool.and_eq_true] at hk
    exact hk.1
  simp only [← accepted_eq_answered ins, length_cycles_eq_iff hsub, granted_eq,
    accepted, Inputs.accepted, Bool.and_eq_true]
  constructor
  · intro h n hn
    exact (h (n + 1) n (by omega) hn).2
  · intro h n k _ hk
    exact ⟨hk, h k hk⟩

end Runs

/-- A read request that meets one wait state, is granted, and is
withdrawn as the grant allows. -/
def stalledRequest (n : Nat) : Inputs where
  reqI := n == 0
  weI := false
  beI := 0b1111
  addrI := 0x20000000
  wdataI := 0
  hrdataI := 0
  hreadyoutI := n != 0

/-- It was granted, the FSM is in `IDLE`, and no answer was given. -/
theorem stalled_grant_forgotten :
    ¬ ∀ n, (cycles (granted stalledRequest) n).length
        = (cycles (answered stalledRequest) n).length
          + (fsmAt stalledRequest n).outstanding := by
  intro h
  have h1 := h 1
  revert h1
  decide

end RiscvSoc.Ri5cyToAhb
