import RiscvSoc.Bridge.AhbToRi5cy

/-!
# Bridge — StalledReads

Reads through `ahb_to_ri5cy` whose data phase other slaves prolong. The
memory answers a read for one cycle only, so in the first wait state the
bridge locks the answer away and shows it until the bus is ready.

What carries the proof is that a ready cycle clears the lock: a data
phase always begins with it open, whatever was locked before, and once
locked the answer stays to the end of the phase.
-/

namespace RiscvSoc.AhbToRi5cy

open Sync Ahb

/-! ## One cycle -/

/-- The first wait state after a read locks its datum. -/
theorem next_of_capture {r : Regs} {i : Inputs} (hr : i.hreadyI = false)
    (hread : r.rdataMem = true) (hopen : r.lock = false) :
    (ahbToRi5cy.next r i).lock = true ∧ (ahbToRi5cy.next r i).hrdataSaved = i.rdataI := by
  have hcap : captures r i = true := by simp [captures, hr, hread, hopen]
  simp [ahbToRi5cy, hcap, hr]

/-- Further wait states keep it. -/
theorem next_of_locked {r : Regs} {i : Inputs} (hr : i.hreadyI = false)
    (hlock : r.lock = true) :
    (ahbToRi5cy.next r i).lock = true ∧
      (ahbToRi5cy.next r i).hrdataSaved = r.hrdataSaved := by
  have hcap : captures r i = false := by simp [captures, hlock]
  simp [ahbToRi5cy, hcap, hr, hlock]

/-- A ready cycle opens the lock. -/
theorem next_of_ready {r : Regs} {i : Inputs} (hr : i.hreadyI = true) :
    (ahbToRi5cy.next r i).lock = false := by
  simp [ahbToRi5cy, hr]

/-! ## Runs from reset -/

section Runs

variable (ins : Nat → Inputs)

/-- The slave is selected. It does not look at `htrans_i`, so every
selected address phase counts as a transfer to it. -/
def selected (n : Nat) : Bool := (ins n).hselI

/-- `hready_i` follows this slave's wait state while the slave owns the
data phase, that of any transfer it was selected for. -/
def FollowsOwnWaitState : Prop :=
  ∀ n, (Pipeline.owner (hready ins) (selected ins) n).isSome = true →
    (ins n).hreadyI = true → (outputsAt ins n).hreadyoutO = true

/-- A read is accepted. -/
def acceptedRead (n : Nat) : Bool := (ins n).hselI && !(ins n).hwriteI && (ins n).hreadyI

/-- A read request is on the debug-module port. -/
def reads (n : Nat) : Bool := (outputsAt ins n).reqO && !(outputsAt ins n).weO

/-- The memory is attached: `answer n a` is what it answers to a read of
`a` requested in cycle `n`, and `rdata_i` shows that in cycle `n + 1`.
Nothing is said of `rdata_i` in any other cycle. -/
def Answers (answer : Nat → BitVec 32 → BitVec 32) : Prop :=
  ∀ n, reads ins n = true → (ins (n + 1)).rdataI = answer n (outputsAt ins n).addrO

variable {ins}

theorem acceptedRead_iff {n : Nat} :
    acceptedRead ins n = true ↔
      (ins n).hselI = true ∧ (ins n).hwriteI = false ∧ (ins n).hreadyI = true := by
  simp [acceptedRead, and_assoc]

/-- No read is accepted in `WRITE_REQ`: the write that led there is
either held in the address phase still, or it was accepted and its own
wait state holds the bus. -/
theorem not_writeReq_of_acceptedRead (hhold : HoldsAddressPhase ins)
    (hproto : FollowsOwnWaitState ins) {k : Nat} (hk : acceptedRead ins k = true) :
    fsmAt ins k ≠ .writeReq := by
  intro hs
  obtain ⟨_, hread, hready⟩ := acceptedRead_iff.mp hk
  cases k with
  | zero => cases hs
  | succ m =>
      obtain ⟨_, hwr⟩ := (writes_succ_iff ins m).mp ((writes_iff ins _).mpr hs)
      simp only [wrReq, Bool.and_eq_true] at hwr
      cases hm : (ins m).hreadyI
      · -- a wait state: the write is still shown
        have hheld := (hhold m hm).2.1
        rw [hread, hwr.2] at hheld
        cases hheld
      · -- the write was accepted, so this is its data phase
        have hacc : Pipeline.accepts (AhbToRi5cy.hready ins) (selected ins) m = true := by
          simp [Pipeline.accepts, AhbToRi5cy.hready, selected, hm, hwr.1]
        have howner := Pipeline.owner_eq_some_iff.mpr ⟨hacc, DataPhase.start _ m⟩
        have hout := hproto (m + 1) (by rw [howner]; rfl) hready
        simp only [fsmAt] at hs
        simp [outputsAt, outputs, hreadyoutO, hs] at hout

/-- An accepted read is requested at once, at its own address. -/
theorem reads_of_acceptedRead (hhold : HoldsAddressPhase ins)
    (hproto : FollowsOwnWaitState ins) {k : Nat} (hk : acceptedRead ins k = true) :
    reads ins k = true ∧ (outputsAt ins k).addrO = (ins k).haddrI := by
  have hs := not_writeReq_of_acceptedRead hhold hproto hk
  obtain ⟨hsel, hread, _⟩ := acceptedRead_iff.mp hk
  have hreq := reqO_of_ne_writeReq hs (ins k)
  simp only [fsmAt] at hs hreq
  simp [reads, outputsAt, outputs, hreq, hs, rdReq, hsel, hread]

/-- **The answer of a read throughout its data phase**: in the first
cycle it is on `rdata_i` and the lock is open, later it is locked. -/
theorem answer_of_dataPhase {v : BitVec 32} {k n : Nat} (hk : acceptedRead ins k = true)
    (hv : (ins (k + 1)).rdataI = v) (hd : DataPhase (hready ins) k n) :
    (n = k + 1 ∧ (ahbToRi5cy.stateAt ins n).lock = false ∧
        (ahbToRi5cy.stateAt ins n).rdataMem = true) ∨
      ((ahbToRi5cy.stateAt ins n).lock = true ∧
        (ahbToRi5cy.stateAt ins n).hrdataSaved = v) := by
  obtain ⟨hsel, hread, hready⟩ := acceptedRead_iff.mp hk
  induction n with
  | zero => exact absurd hd.1 (Nat.not_lt_zero k)
  | succ n ih =>
      rw [Circuit.stateAt_succ]
      rcases hd.succ_cases with rfl | ⟨hd', hwait⟩
      · left
        refine ⟨rfl, next_of_ready hready, ?_⟩
        rw [next_rdataMem, rdReq, hsel, hread]
        rfl
      · right
        rcases ih hd' with ⟨rfl, hopen, hpending⟩ | ⟨hlock, hsaved⟩
        · rw [← hv]
          exact next_of_capture hwait hpending hopen
        · rw [← hsaved]
          exact next_of_locked hwait hlock

/-- **Reads survive stalls of any length**: an accepted read is
requested in its acceptance cycle at its own address, and in every cycle
of its data phase, the one that completes it among them, `hrdata_o` is
the memory's answer to that request. -/
theorem reads_survive {answer : Nat → BitVec 32 → BitVec 32}
    (hhold : HoldsAddressPhase ins) (hproto : FollowsOwnWaitState ins)
    (hmem : Answers ins answer) {k : Nat} (hk : acceptedRead ins k = true) :
    (reads ins k = true ∧ (outputsAt ins k).addrO = (ins k).haddrI) ∧
      ∀ n, DataPhase (hready ins) k n →
        (outputsAt ins n).hrdataO = answer k (ins k).haddrI := by
  obtain ⟨hreq, haddr⟩ := reads_of_acceptedRead hhold hproto hk
  have hv := hmem k hreq
  rw [haddr] at hv
  refine ⟨⟨hreq, haddr⟩, fun n hd => ?_⟩
  show hrdataO (ahbToRi5cy.stateAt ins n) (ins n).rdataI = _
  rcases answer_of_dataPhase hk hv hd with ⟨rfl, hopen, _⟩ | ⟨hlock, hsaved⟩
  · rw [hrdataO, hopen, if_neg Bool.false_ne_true, hv]
  · rw [hrdataO, hlock, if_pos rfl, hsaved]

end Runs

/-- A read of `0x1B000100` accepted in cycle 0, its data phase prolonged
by three wait states in which the next read is pending. -/
def stalledRead (n : Nat) : Inputs where
  rdataI := if n = 1 then 0x11 else 0x22
  hselI := n < 5
  haddrI := if n = 0 then 0x1B000100 else 0x1B000104
  hwdataI := 0
  hwriteI := false
  hsizeI := word
  htransI := if n < 5 then nonseqHtrans else idleHtrans
  hreadyI := n = 0 ∨ 3 < n

def wordAnswer (_ : Nat) (a : BitVec 32) : BitVec 32 := if a = 0x1B000100 then 0x11 else 0x22

theorem stalledRead_holds : HoldsAddressPhase stalledRead := by
  intro n hn
  have hcases : n = 1 ∨ n = 2 ∨ n = 3 := by
    simp [stalledRead] at hn
    omega
  rcases hcases with rfl | rfl | rfl <;> decide

theorem stalledRead_no_write (n : Nat) : fsmAt stalledRead n ≠ .writeReq := by
  cases n with
  | zero => simp
  | succ n =>
      rw [Ne, ← writes_iff, writes_succ_iff]
      simp [wrReq, stalledRead]

theorem stalledRead_follows : FollowsOwnWaitState stalledRead := by
  intro n _ _
  have hs := stalledRead_no_write n
  simp only [fsmAt] at hs
  simp [outputsAt, outputs, hreadyoutO, hs]

theorem stalledRead_answers : Answers stalledRead wordAnswer := by
  intro n hn
  match n with
  | 0 => decide
  | n + 1 =>
      have hs := stalledRead_no_write (n + 1)
      simp only [fsmAt] at hs
      simp [outputsAt, outputs, hs, stalledRead, wordAnswer]

theorem reads_survive_stalledRead :
    (reads stalledRead 0 = true ∧ (outputsAt stalledRead 0).addrO = 0x1B000100) ∧
      ∀ n, DataPhase (hready stalledRead) 0 n → (outputsAt stalledRead n).hrdataO = 0x11 :=
  reads_survive stalledRead_holds stalledRead_follows stalledRead_answers (by decide)

end RiscvSoc.AhbToRi5cy
