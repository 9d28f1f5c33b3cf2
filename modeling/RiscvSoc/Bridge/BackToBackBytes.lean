import RiscvSoc.Bridge.Transparent

/-!
# Bridge — BackToBackBytes

The byte enables on their way through both bridges. `ri5cy_to_ahb`
codes them as a size, `ahb_to_ri5cy` decodes the size into enables of
its own. The address offset is lost on the way: the decoded enables
always start at lane 0.
-/

namespace RiscvSoc.BackToBack

open Sync Mem Ahb

/-! ## The encoding and its decoding -/

/-- **What survives the trip**: a byte, a halfword or a word at lane 0. -/
theorem be_hsize_eq_iff : ∀ beI : BitVec 4,
    AhbToRi5cy.be (Ri5cyToAhb.hsize beI) = beI ↔
      beI = 0b0001 ∨ beI = 0b0011 ∨ beI = 0b1111 := by
  decide

section Runs

variable (ins : Nat → Inputs)

/-- A store is granted. -/
def storeGranted (n : Nat) : Bool := grants ins n && (ins n).weI

/-- The store granted in cycle `k`, as the core means it. -/
def storeOf (k : Nat) : Store (BitVec 30) (Fin 4) (BitVec 8) :=
  storeTo (ins k).addrI (ins k).beI (ins k).wdataI

/-- The store on the memory port in cycle `n`. -/
def portStore (n : Nat) : Store (BitVec 30) (Fin 4) (BitVec 8) :=
  storeTo (memPort ins n).addrO (memPort ins n).beO (memPort ins n).wdataO

/-- The memory after the stores on its port before cycle `n`. -/
def portMem (m0 : ByteMem) (n : Nat) : ByteMem :=
  m0.stores ((cycles (writes ins) n).map (portStore ins))

/-- The same traffic with other write data. -/
def withData (d : Nat → BitVec 32) (n : Nat) : Inputs :=
  { ins n with wdataI := d n }

/-- What the memory gets for the store granted in cycle `k`. -/
def arrived (k : Nat) : Store (BitVec 30) (Fin 4) (BitVec 8) where
  word := wordAddr (ins k).addrI
  enable := enables (AhbToRi5cy.be (Ri5cyToAhb.hsize (ins k).beI))
  data := masked (enables (ins k).beI) 0 (lane (ins k).wdataI)

variable {ins}

theorem storeGranted_eq (n : Nat) :
    storeGranted ins n = ((ins n).reqI && (ins n).weI) := by
  rw [storeGranted, grants_eq]

theorem portStore_of_granted (h : ∀ n, SpacedTo ins n) {k : Nat}
    (hk : storeGranted ins k = true) : portStore ins (k + 1) = arrived ins k := by
  have hw : AhbToRi5cy.writes (slaveIns ins) (k + 1) = true := by
    rw [(h k).writes_succ, ← storeGranted_eq, hk]
  obtain ⟨haddr, hbe⟩ : (memPort ins (k + 1)).addrO = (ins k).addrI ∧
      (memPort ins (k + 1)).beO = AhbToRi5cy.be (Ri5cyToAhb.hsize (ins k).beI) := by
    rw [memPort_eq]
    exact AhbToRi5cy.outputs_of_writes _ hw
  rw [storeGranted, Bool.and_eq_true] at hk
  have hlanes : lane (Ri5cyToAhb.hwmask (ins k).beI (ins k).wdataI)
      = masked (enables (ins k).beI) 0 (lane (ins k).wdataI) := by
    ext l : 1
    exact Ri5cyToAhb.lane_hwmask _ _ l
  rw [portStore, storeTo, haddr, hbe, wdataO_succ h hk.1, hlanes]
  rfl

/-- Every store arrives, one cycle after its grant. -/
theorem portMem_succ (h : ∀ n, SpacedTo ins n) (m0 : ByteMem) (n : Nat) :
    portMem ins m0 (n + 1) = m0.stores ((cycles (storeGranted ins) n).map (arrived ins)) := by
  have hdelay : cycles (writes ins) (n + 1)
      = (cycles (storeGranted ins) n).map (· + 1) := by
    refine cycles_delay ?_ (fun k => ?_) n
    · rw [← Bool.not_eq_true]
      exact AhbToRi5cy.not_writes_zero _
    · rw [writes, (h k).writes_succ, storeGranted_eq]
  rw [portMem, hdelay, List.map_map]
  congr 1
  exact List.map_congr_left fun k hk => portStore_of_granted h (mem_cycles.mp hk).2

theorem spacedTo_withData {n : Nat} (h : SpacedTo ins n) (d : Nat → BitVec 32) :
    SpacedTo (withData ins d) n := h

theorem cycles_storeGranted_withData (d : Nat → BitVec 32) (n : Nat) :
    cycles (storeGranted (withData ins d)) n = cycles (storeGranted ins) n :=
  cycles_congr fun k _ => by rw [storeGranted_eq, storeGranted_eq]; rfl

/-- **Byte enables survive the trip iff every store is a byte, a
halfword or a word at lane 0.** For traffic of a core that issues one
transaction at a time: whatever the memory and the data, the memory is
at every time the one the granted stores write lane for lane, exactly
if each of them has `be_i` equal to `0001`, `0011` or `1111`. -/
theorem portMem_byte_exact_iff (hcore : OneAtATime ins) :
    (∀ (d : Nat → BitVec 32) (m0 : ByteMem) (n : Nat),
        portMem (withData ins d) m0 (n + 1)
          = m0.stores ((cycles (storeGranted ins) n).map (storeOf (withData ins d)))) ↔
      ∀ k, storeGranted ins k = true →
        (ins k).beI = 0b0001 ∨ (ins k).beI = 0b0011 ∨ (ins k).beI = 0b1111 := by
  have hspaced := hcore.spaced
  constructor
  · intro hall k hk
    -- probe store `k` as it arrives
    have hbefore := hall (probeData k) background k
    have hafter := hall (probeData k) background (k + 1)
    have hnot : k ∉ cycles (storeGranted ins) k := fun hmem =>
      Nat.lt_irrefl k (mem_cycles.mp hmem).1
    have hstill := stores_background (f := storeOf (withData ins (probeData k))) hnot
      fun _ => rfl
    have hsp : ∀ n, SpacedTo (withData ins (probeData k)) n := fun n =>
      spacedTo_withData (hspaced n) _
    rw [portMem_succ hsp, cycles_storeGranted_withData, hstill] at hbefore
    rw [portMem_succ hsp, cycles_storeGranted_withData, cycles_succ_of_high hk,
      List.map_append, List.map_append, stores_append, stores_append, hbefore,
      hstill] at hafter
    have hprobe : (withData ins (probeData k) k).wdataI = probeWord := by
      simp [withData, probeData]
    simp only [List.map_singleton, arrived, storeOf, hprobe] at hafter
    exact (be_hsize_eq_iff _).mp (enables_eq_of_probe (ins k).addrI hafter)
  · intro hbe d m0 n
    rw [portMem_succ fun n => spacedTo_withData (hspaced n) d, cycles_storeGranted_withData]
    refine stores_map_congr (fun k hk m => ?_) m0
    have hkeep := (be_hsize_eq_iff _).mpr (hbe k (mem_cycles.mp hk).2)
    simp only [arrived, storeOf, withData, storeTo]
    rw [hkeep, store_masked]

end Runs

/-- One byte store of `0x5A` to byte address 1. -/
def byteStore (n : Nat) : Inputs where
  reqI := n == 0
  weI := true
  beI := 0b0010
  addrI := 0x1A100101
  wdataI := 0x5A00
  rdataI := 0

theorem byteStore_oneAtATime : OneAtATime byteStore := by
  intro n hq
  obtain rfl : n = 0 := by simpa [byteStore] using hq
  decide

theorem portMem_byte_exact_byteStore :
    (∀ (d : Nat → BitVec 32) (m0 : ByteMem) (n : Nat),
        portMem (withData byteStore d) m0 (n + 1)
          = m0.stores ((cycles (storeGranted byteStore) n).map
              (storeOf (withData byteStore d)))) ↔
      ∀ k, storeGranted byteStore k = true →
        (byteStore k).beI = 0b0001 ∨ (byteStore k).beI = 0b0011 ∨
          (byteStore k).beI = 0b1111 :=
  portMem_byte_exact_iff byteStore_oneAtATime

/-- The byte does not arrive, and lane 0 is cleared. -/
theorem byte_store_misplaced :
    OneAtATime byteStore ∧
      (∀ k, storeGranted byteStore k = true →
        LaneRun (byteStore k).beI (byteOffset (byteStore k).addrI)) ∧
      ¬ ∀ (m0 : ByteMem) (n : Nat), portMem byteStore m0 (n + 1)
          = m0.stores ((cycles (storeGranted byteStore) n).map (storeOf byteStore)) := by
  refine ⟨byteStore_oneAtATime, fun k hk => ?_, fun h => ?_⟩
  · have hk0 : k = 0 := by
      rw [storeGranted_eq, Bool.and_eq_true] at hk
      simpa [byteStore] using hk.1
    subst hk0
    decide
  · have hlane := congrFun (congrFun (h (fun _ _ => 0xFF) 1) (wordAddr 0x1A100101)) 0
    revert hlane
    decide

end RiscvSoc.BackToBack
