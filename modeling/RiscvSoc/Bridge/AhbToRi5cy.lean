import RiscvSoc.Bridge.Ahb
import RiscvSoc.Sync.Circuit
import RiscvSoc.Sync.Pipeline

/-!
# Bridge — AhbToRi5cy

`ahb_to_ri5cy`, the bridge from an AHB-Lite slave port to the debug
module's request port: a four-state FSM, the address phase it saves for
a write, and the read datum it locks over wait states.

A read is passed on in its address phase; a write waits for its datum
and is performed in `WRITE_REQ`, the one cycle with `hreadyout_o` low.
-/

namespace RiscvSoc.AhbToRi5cy

open Sync Ahb

/-! ## The module -/

/-- `fsm_st`. The register is three bits wide; its other codes are never
loaded. -/
inductive Fsm where
  | idle
  | waitReq
  | newReq
  | writeReq
  deriving DecidableEq, Repr

/-- The inputs of one cycle that are read: the memory's datum and the
AHB slave port. -/
structure Inputs where
  rdataI : BitVec 32
  hselI : Bool
  haddrI : BitVec 32
  hwdataI : BitVec 32
  hwriteI : Bool
  hsizeI : BitVec 3
  htransI : BitVec 2
  hreadyI : Bool
  deriving DecidableEq, Repr

structure Regs where
  fsmSt : Fsm
  beSaved : BitVec 4
  haddrSaved : BitVec 32
  hrdataSaved : BitVec 32
  rdataMem : Bool
  lock : Bool
  deriving DecidableEq, Repr

structure Outputs where
  reqO : Bool
  weO : Bool
  beO : BitVec 4
  addrO : BitVec 32
  wdataO : BitVec 32
  hrdataO : BitVec 32
  hreadyoutO : Bool
  deriving DecidableEq, Repr

def wrReq (i : Inputs) : Bool := i.hselI && i.hwriteI

def rdReq (i : Inputs) : Bool := i.hselI && !i.hwriteI

def be (hsizeI : BitVec 3) : BitVec 4 :=
  if hsizeI = word then 0b1111
  else if hsizeI = halfword then 0b0011
  else if hsizeI = byte then 0b0001
  else 0b0000

def hrdataO (r : Regs) (rdataI : BitVec 32) : BitVec 32 :=
  if r.lock then r.hrdataSaved else rdataI

def hreadyoutO (fsmSt : Fsm) : Bool :=
  if fsmSt == .writeReq then false else true

def nextSt (fsmSt : Fsm) (i : Inputs) : Fsm :=
  match fsmSt with
  | .idle =>
      if wrReq i then .writeReq
      else if rdReq i then .waitReq
      else .idle
  | .waitReq =>
      if wrReq i then .writeReq
      else if rdReq i then .newReq
      else .idle
  | .newReq =>
      if wrReq i then .writeReq
      else if rdReq i then .waitReq
      else .idle
  | .writeReq => .idle

def reqO (fsmSt : Fsm) (i : Inputs) : Bool :=
  match fsmSt with
  | .idle => if wrReq i then false else if rdReq i then true else false
  | .waitReq => if wrReq i then false else if rdReq i then true else false
  | .newReq => if wrReq i then false else if rdReq i then true else false
  | .writeReq => true

def outputs (r : Regs) (i : Inputs) : Outputs where
  reqO := reqO r.fsmSt i
  weO := if r.fsmSt == .writeReq then true else i.hwriteI
  beO := if r.fsmSt == .writeReq then r.beSaved else be i.hsizeI
  addrO := if r.fsmSt == .writeReq then r.haddrSaved else i.haddrI
  wdataO := i.hwdataI
  hrdataO := hrdataO r i.rdataI
  hreadyoutO := hreadyoutO r.fsmSt

/-- The read datum is captured. -/
def captures (r : Regs) (i : Inputs) : Bool :=
  !i.hreadyI && r.rdataMem && !r.lock

/-- The two clocked blocks. Of the two assignments to `lock` the later
one, on `hready_i`, wins. -/
def ahbToRi5cy : Circuit Inputs Regs where
  reset :=
    { fsmSt := .idle, beSaved := 0, haddrSaved := 0, hrdataSaved := 0,
      rdataMem := false, lock := false }
  next r i :=
    { fsmSt :=
        if i.hreadyI == false && r.fsmSt != .idle && r.fsmSt != .writeReq
            && nextSt r.fsmSt i != .writeReq then r.fsmSt
        else nextSt r.fsmSt i
      beSaved := if i.hselI then be i.hsizeI else r.beSaved
      haddrSaved := if i.hselI then i.haddrI else r.haddrSaved
      hrdataSaved := if captures r i then i.rdataI else r.hrdataSaved
      rdataMem := if rdReq i then true else false
      lock :=
        if i.hreadyI then false
        else if captures r i then true
        else r.lock }

def outputsAt (ins : Nat → Inputs) (n : Nat) : Outputs :=
  outputs (ahbToRi5cy.stateAt ins n) (ins n)

/-! ## One cycle -/

/-- A write is performed in `WRITE_REQ` and nowhere else. -/
theorem write_outputs_iff (r : Regs) (i : Inputs) :
    ((outputs r i).reqO && (outputs r i).weO) = true ↔ r.fsmSt = .writeReq := by
  cases hs : r.fsmSt <;> cases hq : i.hselI <;> cases hw : i.hwriteI <;>
    simp [outputs, reqO, wrReq, rdReq, hs, hq, hw]

/-- Outside `WRITE_REQ` the request is the selected read. -/
theorem reqO_of_ne_writeReq {s : Fsm} (h : s ≠ .writeReq) (i : Inputs) :
    reqO s i = rdReq i := by
  cases s with
  | writeReq => exact absurd rfl h
  | _ =>
      cases hq : i.hselI <;> cases hw : i.hwriteI <;>
        simp [reqO, wrReq, rdReq, hq, hw]

/-- `WRITE_REQ` is entered from every other state, by the mere sight of
a selected write: neither `hready_i` nor `htrans_i` has a say. -/
theorem next_writeReq_iff (r : Regs) (i : Inputs) :
    (ahbToRi5cy.next r i).fsmSt = .writeReq ↔
      r.fsmSt ≠ .writeReq ∧ wrReq i = true := by
  cases hs : r.fsmSt <;> cases hq : i.hselI <;> cases hw : i.hwriteI <;>
    cases hr : i.hreadyI <;>
    simp [ahbToRi5cy, nextSt, wrReq, rdReq, hs, hq, hw, hr]

theorem next_lock (r : Regs) (i : Inputs) :
    (ahbToRi5cy.next r i).lock =
      if i.hreadyI then false else if captures r i then true else r.lock := rfl

theorem next_rdataMem (r : Regs) (i : Inputs) :
    (ahbToRi5cy.next r i).rdataMem = rdReq i := by
  cases h : rdReq i <;> simp [ahbToRi5cy, h]

/-! ## Runs from reset -/

section Runs

variable (ins : Nat → Inputs)

def fsmAt (n : Nat) : Fsm := (ahbToRi5cy.stateAt ins n).fsmSt

@[simp] theorem fsmAt_zero : fsmAt ins 0 = .idle := rfl

/-- A write is performed on the debug-module port. -/
def writes (n : Nat) : Bool := (outputsAt ins n).reqO && (outputsAt ins n).weO

def hready (n : Nat) : Bool := (ins n).hreadyI

/-- The address phase of a transfer to this slave. -/
def offered (n : Nat) : Bool := (ins n).hselI && transferring (ins n).htransI

/-- A write transfer is accepted. -/
def acceptedWrite (n : Nat) : Bool :=
  Pipeline.accepts (hready ins) (offered ins) n && (ins n).hwriteI

/-- The transfer of this slave whose data phase cycle `n` belongs to. -/
def owner (n : Nat) : Option Nat := Pipeline.owner (hready ins) (offered ins) n

/-- The master holds its address phase over wait states. -/
def HoldsAddressPhase : Prop :=
  ∀ n, (ins n).hreadyI = false →
    (ins (n + 1)).haddrI = (ins n).haddrI ∧ (ins (n + 1)).hwriteI = (ins n).hwriteI ∧
    (ins (n + 1)).hsizeI = (ins n).hsizeI ∧ (ins (n + 1)).hselI = (ins n).hselI

/-- `hready_i` follows this slave's wait state while the slave owns the
data phase. -/
def FollowsWaitState : Prop :=
  ∀ n, (owner ins n).isSome = true → (ins n).hreadyI = true →
    (outputsAt ins n).hreadyoutO = true

/-- **Write once**: the performed writes are, in order, the accepted
write transfers, each performed in its own data phase with its own
address and the datum then on the bus. -/
def WritesOnce : Prop :=
  ∃ serve : Nat → Nat,
    (∀ j k, acceptedWrite ins j = true → acceptedWrite ins k = true → j < k →
      serve j < serve k) ∧
    (∀ n, writes ins n = true ↔ ∃ k, acceptedWrite ins k = true ∧ serve k = n) ∧
    ∀ k, acceptedWrite ins k = true →
      DataPhase (hready ins) k (serve k) ∧
      (outputsAt ins (serve k)).addrO = (ins k).haddrI ∧
      (outputsAt ins (serve k)).wdataO = (ins (serve k)).hwdataI

/-- The FSM takes a selected write for an accepted one, in cycle `n`,
only if it is. -/
def TakesAccepted (n : Nat) : Prop :=
  fsmAt ins n ≠ .writeReq → wrReq (ins n) = true →
    (ins n).hreadyI = true ∧ transferring (ins n).htransI = true

theorem writes_iff (n : Nat) : writes ins n = true ↔ fsmAt ins n = .writeReq :=
  write_outputs_iff _ _

theorem writes_succ_iff (n : Nat) :
    writes ins (n + 1) = true ↔ fsmAt ins n ≠ .writeReq ∧ wrReq (ins n) = true := by
  rw [writes_iff]
  exact next_writeReq_iff _ _

theorem not_writes_zero : ¬ writes ins 0 = true := by
  simp [writes_iff]

theorem acceptedWrite_iff (n : Nat) :
    acceptedWrite ins n = true ↔
      wrReq (ins n) = true ∧ (ins n).hreadyI = true ∧
        transferring (ins n).htransI = true := by
  simp only [acceptedWrite, Pipeline.accepts, hready, offered, wrReq, Bool.and_eq_true]
  tauto

/-- A write is performed with the address phase of the cycle before, its
byte enables decoded from the size alone. -/
theorem outputs_of_writes {n : Nat} (h : writes ins (n + 1) = true) :
    (outputsAt ins (n + 1)).addrO = (ins n).haddrI ∧
      (outputsAt ins (n + 1)).beO = be (ins n).hsizeI := by
  have hs := (writes_iff ins (n + 1)).mp h
  have hq := ((writes_succ_iff ins n).mp h).2
  simp only [wrReq, Bool.and_eq_true] at hq
  simp only [fsmAt] at hs
  simp only [outputsAt, outputs, hs, beq_self_eq_true, if_true]
  simp [Circuit.stateAt_succ, ahbToRi5cy, hq.1]

/-- No read is shown in the cycle before `WRITE_REQ`. -/
theorem rdataMem_of_writes {n : Nat} (h : writes ins n = true) :
    (ahbToRi5cy.stateAt ins n).rdataMem = false := by
  cases n with
  | zero => rfl
  | succ n =>
      have hwr := ((writes_succ_iff ins n).mp h).2
      simp only [wrReq, Bool.and_eq_true] at hwr
      rw [Circuit.stateAt_succ, next_rdataMem, rdReq, hwr.2]
      simp

/-- With no wait states but its own the bridge never locks a datum: the
one wait state there is, `WRITE_REQ`, follows no read. -/
theorem lock_eq_false
    (hready : ∀ n, (ins n).hreadyI = hreadyoutO (fsmAt ins n)) (n : Nat) :
    (ahbToRi5cy.stateAt ins n).lock = false := by
  induction n with
  | zero => rfl
  | succ n ih =>
      rw [Circuit.stateAt_succ, next_lock, captures, ih, hready]
      -- only `WRITE_REQ` is a wait state, and no read is pending there
      by_cases hs : fsmAt ins n = .writeReq
      · rw [rdataMem_of_writes ins ((writes_iff ins n).mpr hs)]
        simp
      · simp [hreadyoutO, hs]

/-- While this slave owns the data phase its own wait state holds the
bus, so no transfer is accepted in `WRITE_REQ`. -/
theorem not_writeReq_of_accepted (hproto : FollowsWaitState ins) {k : Nat}
    (hk : acceptedWrite ins k = true)
    (htakes : ∀ m, m < k → TakesAccepted ins m) : fsmAt ins k ≠ .writeReq := by
  intro hs
  have hready := ((acceptedWrite_iff ins k).mp hk).2.1
  cases k with
  | zero => cases hs
  | succ m =>
      obtain ⟨hne, hwr⟩ := (writes_succ_iff ins m).mp ((writes_iff ins _).mpr hs)
      have hacc := (acceptedWrite_iff ins m).mpr
        ⟨hwr, htakes m (Nat.lt_succ_self m) hne hwr⟩
      rw [acceptedWrite, Bool.and_eq_true] at hacc
      have howner : owner ins (m + 1) = some m :=
        Pipeline.owner_eq_some_iff.mpr ⟨hacc.1, DataPhase.start _ m⟩
      have hout := hproto (m + 1) (by rw [howner]; rfl) hready
      simp only [fsmAt] at hs
      simp [outputsAt, outputs, hreadyoutO, hs] at hout

/-- As long as the FSM has only taken accepted writes, an accepted write
is performed in the cycle after its acceptance. -/
theorem writes_succ_of_accepted (hproto : FollowsWaitState ins) {k : Nat}
    (hk : acceptedWrite ins k = true) (htakes : ∀ m, m < k → TakesAccepted ins m) :
    writes ins (k + 1) = true :=
  (writes_succ_iff ins k).mpr
    ⟨not_writeReq_of_accepted ins hproto hk htakes, ((acceptedWrite_iff ins k).mp hk).1⟩

/-- The first cycle to take a write that is not accepted would perform a
write for a transfer that was served before. -/
theorem takesAccepted_of_writesOnce (hproto : FollowsWaitState ins)
    (honce : WritesOnce ins) (n : Nat) : TakesAccepted ins n := by
  obtain ⟨serve, _, hwrites, hown⟩ := honce
  induction n using Nat.strong_induction_on with
  | _ n ih =>
      intro hne hwr
      by_contra hnot
      have hnacc : ¬ acceptedWrite ins n = true := fun ha =>
        hnot ((acceptedWrite_iff ins n).mp ha).2
      obtain ⟨k, hk, hserve⟩ := (hwrites (n + 1)).mp
        ((writes_succ_iff ins n).mpr ⟨hne, hwr⟩)
      have hphase := (hown k hk).1
      rw [hserve] at hphase
      have hkn : k < n := by
        rcases hphase.succ_cases with rfl | ⟨hd, _⟩
        · exact absurd hk hnacc
        · exact hd.1
      -- the transfer `k` was already served in the cycle after its acceptance
      obtain ⟨k', hk', hserve'⟩ := (hwrites (k + 1)).mp
        (writes_succ_of_accepted ins hproto hk fun m hm => ih m (by omega))
      have hphase' := (hown k' hk').1
      rw [hserve'] at hphase'
      rcases hphase'.succ_cases with rfl | ⟨_, hw⟩
      · rw [hserve'] at hserve
        omega
      · rw [hready, ((acceptedWrite_iff ins k).mp hk).2.1] at hw
        cases hw

theorem writesOnce_of_takesAccepted (hproto : FollowsWaitState ins)
    (htakes : ∀ n, TakesAccepted ins n) : WritesOnce ins := by
  have hserved : ∀ k, acceptedWrite ins k = true → writes ins (k + 1) = true := fun k hk =>
    writes_succ_of_accepted ins hproto hk fun m _ => htakes m
  refine ⟨Nat.succ, fun j k _ _ h => Nat.succ_lt_succ h, fun n => ?_, fun k hk => ?_⟩
  · constructor
    · intro hw
      cases n with
      | zero => exact absurd hw (not_writes_zero ins)
      | succ n =>
          obtain ⟨hne, hwr⟩ := (writes_succ_iff ins n).mp hw
          exact ⟨n, (acceptedWrite_iff ins n).mpr ⟨hwr, htakes n hne hwr⟩, rfl⟩
    · rintro ⟨k, hk, rfl⟩
      exact hserved k hk
  · exact ⟨DataPhase.start _ k, (outputs_of_writes ins (hserved k hk)).1, rfl⟩

/-- **Every accepted write is performed exactly once iff the FSM only
takes accepted writes**: in every cycle outside `WRITE_REQ` in which a
write to this slave is shown, `hready_i` is high and `htrans_i` asks for
a transfer. All that is needed of the bus is that `hready_i` follows
this slave's wait state while the slave owns the data phase. -/
theorem writesOnce_iff (hproto : FollowsWaitState ins) :
    WritesOnce ins ↔ ∀ n, TakesAccepted ins n :=
  ⟨takesAccepted_of_writesOnce ins hproto, writesOnce_of_takesAccepted ins hproto⟩

end Runs

/-- A write to the debug module, shown in cycle 0 while another slave
stalls the bus, accepted in cycle 1, its datum `0x22` on the bus in
cycle 2. The `0x11` before belongs to the other slave's transfer. -/
def stalledWrite (n : Nat) : Inputs where
  rdataI := 0
  hselI := n < 2
  haddrI := 0x1B000100
  hwdataI := if n < 2 then 0x11 else 0x22
  hwriteI := true
  hsizeI := word
  htransI := if n < 2 then nonseqHtrans else idleHtrans
  hreadyI := n != 0

theorem stalledWrite_holds : HoldsAddressPhase stalledWrite := by
  intro n hn
  obtain rfl : n = 0 := by simpa [stalledWrite] using hn
  decide

theorem stalledWrite_follows : FollowsWaitState stalledWrite := by
  intro n
  match n with
  | 0 => decide
  | 1 => decide
  | 2 => decide
  | n + 3 =>
      have hready : hready stalledWrite (n + 2) = true := by simp [hready, stalledWrite]
      have hidle : offered stalledWrite (n + 2) = false := by simp [offered, stalledWrite]
      simp [owner, Pipeline.owner_succ_of_ready hready, hidle]

theorem writesOnce_stalledWrite :
    WritesOnce stalledWrite ↔ ∀ n, TakesAccepted stalledWrite n :=
  writesOnce_iff stalledWrite stalledWrite_follows

/-- The stalled write is performed in cycle 1, with the other slave's
datum and before it is accepted. -/
theorem stalled_write_misplaced :
    HoldsAddressPhase stalledWrite ∧ FollowsWaitState stalledWrite ∧
      ¬ WritesOnce stalledWrite := by
  refine ⟨stalledWrite_holds, stalledWrite_follows, ?_⟩
  rintro ⟨serve, _, hwrites, hown⟩
  obtain ⟨k, hk, hserve⟩ := (hwrites 1).mp (by decide)
  have hlt := (hown k hk).1.1
  obtain rfl : k = 0 := by omega
  revert hk
  decide

end RiscvSoc.AhbToRi5cy
