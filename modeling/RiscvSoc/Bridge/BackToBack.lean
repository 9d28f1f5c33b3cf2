import RiscvSoc.Bridge.AhbToRi5cy
import RiscvSoc.Bridge.Ri5cyToAhb

/-!
# Bridge — BackToBack

The two bridges wired back to back: the master port of `ri5cy_to_ahb`
straight into the slave port of `ahb_to_ri5cy`, the slave's
`hreadyout_o` the ready signal of both. Seen from outside this is a
core port on one side and a memory port on the other, and under the
core's own protocol (one transaction at a time) it is transparent.

The proof speaks of cycles, not of the two FSMs: a read is on the memory
port in the cycle of its grant, a write one cycle later, and the core
cannot have a request in that cycle (`Spaced`). From there every fact is
one about the component that causes it.
-/

namespace RiscvSoc.BackToBack

open Sync Mem Ahb

/-! ## The wiring -/

/-- The core's request port and the memory's datum. -/
structure Inputs where
  reqI : Bool
  weI : Bool
  beI : BitVec 4
  addrI : BitVec 32
  wdataI : BitVec 32
  rdataI : BitVec 32
  deriving DecidableEq, Repr

structure Regs where
  master : Ri5cyToAhb.Regs
  slave : AhbToRi5cy.Regs
  deriving DecidableEq, Repr

/-- The wire both bridges take for the bus's ready signal. -/
def ready (r : Regs) : Bool := AhbToRi5cy.hreadyoutO r.slave.fsmSt

def masterIn (r : Regs) (i : Inputs) : Ri5cyToAhb.Inputs where
  reqI := i.reqI
  weI := i.weI
  beI := i.beI
  addrI := i.addrI
  wdataI := i.wdataI
  hrdataI := AhbToRi5cy.hrdataO r.slave i.rdataI
  hreadyoutI := ready r

def masterOut (r : Regs) (i : Inputs) : Ri5cyToAhb.Outputs :=
  Ri5cyToAhb.outputs r.master (masterIn r i)

def slaveIn (r : Regs) (i : Inputs) : AhbToRi5cy.Inputs where
  rdataI := i.rdataI
  hselI := (masterOut r i).hselO
  haddrI := (masterOut r i).haddrO
  hwdataI := (masterOut r i).hwdataO
  hwriteI := (masterOut r i).hwriteO
  hsizeI := (masterOut r i).hsizeO
  htransI := (masterOut r i).htransO
  hreadyI := ready r

def slaveOut (r : Regs) (i : Inputs) : AhbToRi5cy.Outputs :=
  AhbToRi5cy.outputs r.slave (slaveIn r i)

def backToBack : Circuit Inputs Regs where
  reset :=
    { master := Ri5cyToAhb.ri5cyToAhb.reset
      slave := AhbToRi5cy.ahbToRi5cy.reset }
  next r i :=
    { master := Ri5cyToAhb.ri5cyToAhb.next r.master (masterIn r i)
      slave := AhbToRi5cy.ahbToRi5cy.next r.slave (slaveIn r i) }

section Runs

variable (ins : Nat → Inputs)

def regsAt (n : Nat) : Regs := backToBack.stateAt ins n

def masterIns (n : Nat) : Ri5cyToAhb.Inputs := masterIn (regsAt ins n) (ins n)

def slaveIns (n : Nat) : AhbToRi5cy.Inputs := slaveIn (regsAt ins n) (ins n)

/-- The core's port. -/
def corePort (n : Nat) : Ri5cyToAhb.Outputs := masterOut (regsAt ins n) (ins n)

/-- The memory's port. -/
def memPort (n : Nat) : AhbToRi5cy.Outputs := slaveOut (regsAt ins n) (ins n)

theorem regsAt_master (n : Nat) :
    (regsAt ins n).master = Ri5cyToAhb.ri5cyToAhb.stateAt (masterIns ins) n :=
  Circuit.stateAt_component backToBack rfl (fun _ _ => rfl) ins n

theorem regsAt_slave (n : Nat) :
    (regsAt ins n).slave = AhbToRi5cy.ahbToRi5cy.stateAt (slaveIns ins) n :=
  Circuit.stateAt_component backToBack rfl (fun _ _ => rfl) ins n

theorem corePort_eq (n : Nat) :
    corePort ins n = Ri5cyToAhb.outputsAt (masterIns ins) n := by
  rw [Ri5cyToAhb.outputsAt, ← regsAt_master]; rfl

theorem memPort_eq (n : Nat) :
    memPort ins n = AhbToRi5cy.outputsAt (slaveIns ins) n := by
  rw [AhbToRi5cy.outputsAt, ← regsAt_slave]; rfl

/-! ## The events of a run -/

/-- A core request is granted. -/
def grants (n : Nat) : Bool := (ins n).reqI && (corePort ins n).gntO

/-- A core request is answered. -/
def answers (n : Nat) : Bool := (corePort ins n).rvalidO

/-- A request is on the memory port. -/
def requests (n : Nat) : Bool := (memPort ins n).reqO

/-- The core's discipline: it raises `req_i` only when no transaction is
outstanding or the outstanding one is being answered. -/
def OneAtATime : Prop :=
  ∀ n, (ins n).reqI = true →
    (cycles (grants ins) n).length = (cycles (answers ins) n).length ∨
      answers ins n = true

/-- What the discipline comes to on the inputs before cycle `n + 1`: no
request in the cycle after a write. -/
def SpacedTo (n : Nat) : Prop :=
  ∀ m, m < n → (ins m).reqI = true → (ins m).weI = true →
    (ins (m + 1)).reqI = false

theorem grants_eq (n : Nat) : grants ins n = (ins n).reqI := by
  simp [grants, corePort, masterOut, Ri5cyToAhb.outputs, masterIn]

theorem answers_eq (n : Nat) :
    answers ins n = Ri5cyToAhb.answered (masterIns ins) n := by
  rw [answers, corePort_eq]; rfl

theorem hreadyout_eq (n : Nat) :
    Ri5cyToAhb.hreadyout (masterIns ins) n
      = AhbToRi5cy.hreadyoutO (AhbToRi5cy.fsmAt (slaveIns ins) n) := by
  rw [AhbToRi5cy.fsmAt, ← regsAt_slave]; rfl

theorem hreadyout_eq_false_iff (n : Nat) :
    Ri5cyToAhb.hreadyout (masterIns ins) n = false ↔
      AhbToRi5cy.writes (slaveIns ins) n = true := by
  rw [hreadyout_eq, AhbToRi5cy.writes_iff]
  cases AhbToRi5cy.fsmAt (slaveIns ins) n <;> simp [AhbToRi5cy.hreadyoutO]

theorem wrReq_eq (n : Nat) :
    AhbToRi5cy.wrReq (slaveIns ins n) = ((ins n).reqI && (ins n).weI) := rfl

variable {ins}

theorem SpacedTo.mono {m n : Nat} (h : SpacedTo ins n) (hmn : m ≤ n) :
    SpacedTo ins m :=
  fun k hk => h k (by omega)

/-- No request meets the wait state of a write. -/
theorem SpacedTo.not_writes {n : Nat} (h : SpacedTo ins n)
    (hq : (ins n).reqI = true) : AhbToRi5cy.writes (slaveIns ins) n = false := by
  rw [← Bool.not_eq_true]
  intro hw
  cases n with
  | zero => exact AhbToRi5cy.not_writes_zero _ hw
  | succ n =>
      have hwr := ((AhbToRi5cy.writes_succ_iff _ n).mp hw).2
      rw [wrReq_eq, Bool.and_eq_true] at hwr
      rw [h n (Nat.lt_succ_self n) hwr.1 hwr.2] at hq
      cases hq

/-- A write is performed in the cycle after its request. -/
theorem SpacedTo.writes_succ {n : Nat} (h : SpacedTo ins n) :
    AhbToRi5cy.writes (slaveIns ins) (n + 1) = ((ins n).reqI && (ins n).weI) := by
  rw [Bool.eq_iff_iff, AhbToRi5cy.writes_succ_iff, wrReq_eq]
  constructor
  · exact And.right
  · intro hwr
    refine ⟨fun hs => ?_, hwr⟩
    rw [Bool.and_eq_true] at hwr
    have hw := (AhbToRi5cy.writes_iff _ _).mpr hs
    rw [h.not_writes hwr.1] at hw
    cases hw

/-- Every request is captured in the cycle of its grant. -/
theorem SpacedTo.accepted_eq_grants {n : Nat} (h : SpacedTo ins n) :
    Ri5cyToAhb.accepted (masterIns ins) n = grants ins n := by
  have hreq : (masterIns ins n).reqI = (ins n).reqI := rfl
  rw [grants_eq]
  cases hq : (ins n).reqI
  · simp [Ri5cyToAhb.accepted, Ri5cyToAhb.Inputs.accepted, hreq, hq]
  · have hr : Ri5cyToAhb.hreadyout (masterIns ins) n = true := by
      rw [← Bool.not_eq_false, hreadyout_eq_false_iff, h.not_writes hq]
      exact Bool.false_ne_true
    simp only [Ri5cyToAhb.hreadyout] at hr
    simp [Ri5cyToAhb.accepted, Ri5cyToAhb.Inputs.accepted, hreq, hq, hr]

/-- **The core's discipline spaces its writes.** Up to the write all
grants were captured, so the account of the master bridge shows one
transaction outstanding, and in the wait state there is no answer. -/
theorem OneAtATime.spaced (h : OneAtATime ins) : ∀ n, SpacedTo ins n := by
  intro n
  induction n with
  | zero => intro m hm; omega
  | succ n ih =>
      intro m hm hq hw
      rcases Nat.lt_succ_iff_lt_or_eq.mp hm with hlt | rfl
      · exact ih m hlt hq hw
      · rw [← Bool.not_eq_true]
        intro hq'
        -- cycle `m + 1` is the wait state of the write granted in cycle `m`
        have hwait : Ri5cyToAhb.hreadyout (masterIns ins) (m + 1) = false := by
          rw [hreadyout_eq_false_iff, ih.writes_succ, hq, hw]; rfl
        rcases h (m + 1) hq' with hcount | hans
        · -- so that write is outstanding, against the count
          have hacc := Ri5cyToAhb.accepted_eq_answered (masterIns ins) (m + 1)
          rw [cycles_congr fun k hk => (ih.mono (by omega : k ≤ m)).accepted_eq_grants,
            hcount, cycles_congr fun k _ => answers_eq ins k,
            Ri5cyToAhb.outstanding_succ_of_accepted (n := m)] at hacc
          · omega
          · rw [ih.accepted_eq_grants, grants_eq, hq]
        · rw [answers_eq, Ri5cyToAhb.answered_iff, hwait] at hans
          exact absurd hans.1 Bool.false_ne_true

end Runs

end RiscvSoc.BackToBack
