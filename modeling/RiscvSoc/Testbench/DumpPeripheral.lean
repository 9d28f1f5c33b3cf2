import RiscvSoc.Bridge.Ri5cyToAhb

/-!
# Testbench — DumpPeripheral

The character output of the simulator. `tick` looks at the wires of the
data master before each clock: an address phase that shows a write to
the dump peripheral sets `getDataNextCycle`, and the next tick prints
the low byte of `HWDATA`.

The predicate on the wires asks for neither a request nor a ready bus,
and the flag has no initial value. So what is printed is what was
written exactly on the runs on which the two make no difference.
-/

namespace RiscvSoc.DumpPeripheral

open Sync Mem Ri5cyToAhb

/-! ## The sampler -/

/-- The low byte of `ahb_master[1].HWDATA`. -/
def getbufferReq (bus : Outputs) : BitVec 8 := bus.hwdataO.setWidth 8

def printfbufferReq (bus : Outputs) : Bool := bus.haddrO == 0x1C000000 && bus.hwriteO

/-- What one `tick` does before it clocks the core: the new
`getDataNextCycle` and the characters printed. -/
def tick (getDataNextCycle : Bool) (bus : Outputs) : Bool × List (BitVec 8) :=
  let cleared := if getDataNextCycle then false else getDataNextCycle
  let printed := if getDataNextCycle then [getbufferReq bus] else []
  (if printfbufferReq bus then true else cleared, printed)

section Runs

/- From the construction of the testbench: the flag and the registers of
the bridge hold anything, and the reset input is driven as it may be. -/
variable (flag : Bool) (regs : Regs) (rstn : Nat → Bool) (ins : Nat → Inputs)

/-- The wires of the data master in tick `n`. -/
def busAt (n : Nat) : Outputs := outputs (ri5cyToAhb.runFrom regs rstn ins n) (ins n)

/-- `getDataNextCycle` at the start of tick `n`. -/
def flagAt : Nat → Bool
  | 0 => flag
  | n + 1 => (tick (flagAt n) (busAt regs rstn ins n)).1

/-- The characters printed in the first `n` ticks. -/
def printed : Nat → List (BitVec 8)
  | 0 => []
  | n + 1 => printed n ++ (tick (flagAt flag regs rstn ins n) (busAt regs rstn ins n)).2

/-! ## The reference -/

/-- The address phase shows a write to the dump peripheral. -/
def shown (n : Nat) : Bool := (ins n).addrI == 0x1C000000 && (ins n).weI

/-- A write to the dump peripheral is accepted. In reset nothing is. -/
def acceptedWrite (n : Nat) : Bool :=
  shown ins n && (rstn n && (ins n).reqI && (ins n).hreadyoutI)

/-- The characters written in the cycles before `n`. -/
def written (n : Nat) : List (BitVec 8) :=
  (cycles (acceptedWrite rstn ins) n).map fun k =>
    (hwmask (ins k).beI (ins k).wdataI).setWidth 8

/-! ## Runs -/

theorem flagAt_succ (n : Nat) : flagAt flag regs rstn ins (n + 1) = shown ins n := by
  have hshown : printfbufferReq (busAt regs rstn ins n) = shown ins n := rfl
  rw [flagAt, tick, hshown]
  cases shown ins n <;> cases flagAt flag regs rstn ins n <;> rfl

theorem printed_eq (n : Nat) :
    printed flag regs rstn ins n
      = (cycles (flagAt flag regs rstn ins) n).map fun k =>
          getbufferReq (busAt regs rstn ins k) := by
  induction n with
  | zero => rfl
  | succ n ih =>
      rw [printed, ih, cycles_succ, List.map_append, tick]
      cases flagAt flag regs rstn ins n <;> simp

/-- The cycle after its acceptance a datum is on the bus. -/
theorem getbufferReq_of_accepted {k : Nat} (h : acceptedWrite rstn ins k = true) :
    getbufferReq (busAt regs rstn ins (k + 1))
      = (hwmask (ins k).beI (ins k).wdataI).setWidth 8 := by
  simp only [acceptedWrite, Bool.and_eq_true] at h
  obtain ⟨-, ⟨hr, hq⟩, hready⟩ := h
  rw [getbufferReq, busAt, Circuit.runFrom_succ_of_run _ hr]
  simp [outputs, ri5cyToAhb, hq, hready]

theorem shown_of_acceptedWrite {k : Nat} (h : acceptedWrite rstn ins k = true) :
    shown ins k = true := by
  rw [acceptedWrite, Bool.and_eq_true] at h
  exact h.1

/-- **Each character once**: in the first `n + 1` ticks the simulator
prints exactly what was written in the first `n` cycles iff the flag was
clear at the start and each cycle that shows a write to the dump
peripheral accepts it. -/
theorem printed_eq_written_iff (n : Nat) :
    printed flag regs rstn ins (n + 1) = written rstn ins n ↔
      flag = false ∧ ∀ k, k < n → shown ins k = true → acceptedWrite rstn ins k = true := by
  have hdelay := flagAt_succ flag regs rstn ins
  have hsub := fun k => shown_of_acceptedWrite rstn ins (k := k)
  rw [printed_eq, written]
  constructor
  · intro h
    have hlen := congrArg List.length h
    rw [List.length_map, List.length_map, length_cycles_delay hdelay] at hlen
    -- as many prints as shown cycles and the flag, and no fewer than writes
    have hle := length_cycles_le hsub n
    have hflag : flagAt flag regs rstn ins 0 = false := by
      cases hf : flagAt flag regs rstn ins 0
      · rfl
      · rw [hf, Bool.toNat_true] at hlen
        omega
    rw [hflag, Bool.toNat_false, Nat.zero_add] at hlen
    exact ⟨hflag, (length_cycles_eq_iff hsub n).mp hlen⟩
  · rintro ⟨hflag, hacc⟩
    have hsame : cycles (shown ins) n = cycles (acceptedWrite rstn ins) n := by
      refine cycles_congr fun k hk => ?_
      rw [Bool.eq_iff_iff]
      exact ⟨hacc k hk, hsub k⟩
    rw [cycles_delay hflag hdelay, List.map_map, hsame]
    exact List.map_congr_left fun k hk =>
      getbufferReq_of_accepted regs rstn ins (mem_cycles.mp hk).2

end Runs

/-- An `A` written to the dump peripheral, its address phase held for
one wait state. -/
def heldWrite (n : Nat) : Inputs where
  reqI := n < 2
  weI := n < 2
  beI := 0b0001
  addrI := if n < 2 then 0x1C000000 else 0x20000000
  wdataI := 0x41
  hrdataI := 0
  hreadyoutI := n != 0

/-- It is printed twice, the first time as what the data register held
before. -/
theorem held_write_printed_twice :
    ¬ ∀ n, printed false ri5cyToAhb.reset (fun _ => true) heldWrite (n + 1)
        = written (fun _ => true) heldWrite n := by
  intro h
  have h2 := h 2
  revert h2
  decide

end RiscvSoc.DumpPeripheral
