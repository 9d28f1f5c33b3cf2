import RiscvSoc.Bridge.Ri5cyToAhb

/-!
# Bridge — StoreBytes

What the stores of `ri5cy_to_ahb` do to an AHB memory. The slave is not
part of the repository; `slaveMem` is the rule assumed of it: a write
transfer is sampled in its address phase and commits, in the ready
cycle that ends its data phase, the lanes its size and address offset
name.

The bridge re-encodes a byte-enable pattern as a size and an offset.
The encoding is exact but for one pattern a core issues, `0111`, which
`hsize` codes as a single byte.
-/

namespace RiscvSoc.Ri5cyToAhb

open Sync Mem Ahb

/-! ## The assumed slave -/

section Slave

variable (bus : Nat → Outputs)

/-- The address phase of a write transfer is on the bus. -/
def writeOffered (n : Nat) : Bool :=
  (bus n).hselO && transferring (bus n).htransO && (bus n).hwriteO

def busReady (n : Nat) : Bool := (bus n).hreadyO

/-- The lanes the slave commits in cycle `n` for the transfer accepted
in cycle `k`. -/
def committed (k n : Nat) : Store (BitVec 30) (Fin 4) (BitVec 8) where
  word := wordAddr (bus k).haddrO
  enable := enables (sizeLanes (bus k).hsizeO (byteOffset (bus k).haddrO))
  data := lane (bus n).hwdataO

/-- The memory behind the slave in cycle `n`. -/
def slaveMem (m0 : ByteMem) : Nat → ByteMem
  | 0 => m0
  | n + 1 =>
      if busReady bus n then
        match Pipeline.owner (busReady bus) (writeOffered bus) n with
        | some k => (slaveMem m0 n).store (committed bus k n)
        | none => slaveMem m0 n
      else slaveMem m0 n

end Slave

/-! ## The reference -/

section Stores

variable (ins : Nat → Inputs)

/-- A store is on the core's port. -/
def storeOffered (n : Nat) : Bool := (ins n).reqI && (ins n).weI

/-- The stores whose data phase ended before cycle `n`, in order. With
the one still in its data phase these are all the accepted stores
(`Pipeline.accepted_eq`). -/
def storesDone (n : Nat) : List Nat :=
  Pipeline.completed (hreadyout ins) (storeOffered ins) n

/-- The store on the port in cycle `k`, as the core means it. -/
def storeOf (k : Nat) : Store (BitVec 30) (Fin 4) (BitVec 8) :=
  storeTo (ins k).addrI (ins k).beI (ins k).wdataI

/-- The same traffic with other write data. -/
def withData (d : Nat → BitVec 32) (n : Nat) : Inputs :=
  { ins n with wdataI := d n }

/-! ## The encoding -/

/-- **The size encoding**: on the byte enables of a core the lanes the
slave commits are the enabled ones, unless these are `0111`. -/
theorem sizeLanes_hsize_eq_iff : ∀ (be : BitVec 4) (offset : BitVec 2),
    LaneRun be offset → (sizeLanes (hsize be) offset = be ↔ be ≠ 0b0111) := by
  decide

/-! ## Runs -/

theorem writeOffered_outputsAt (n : Nat) :
    writeOffered (outputsAt ins) n = storeOffered ins n := by
  cases h : (ins n).reqI <;>
    simp [writeOffered, storeOffered, outputsAt, outputs, transferring, h]

theorem busReady_outputsAt : busReady (outputsAt ins) = hreadyout ins := rfl

/-- What the slave commits for the store accepted in cycle `k`. -/
theorem committed_outputsAt {k n : Nat}
    (h : Pipeline.owner (hreadyout ins) (storeOffered ins) n = some k) :
    committed (outputsAt ins) k n =
      { word := wordAddr (ins k).addrI
        enable := enables (sizeLanes (hsize (ins k).beI) (byteOffset (ins k).addrI))
        data := masked (enables (ins k).beI) 0 (lane (ins k).wdataI) } := by
  obtain ⟨ha, hd⟩ := Pipeline.owner_eq_some_iff.mp h
  have hacc : accepted ins k = true := by
    simp only [Pipeline.accepts, hreadyout, storeOffered, Bool.and_eq_true] at ha
    simp [accepted, Inputs.accepted, ha.1, ha.2.1]
  have hdata : (outputsAt ins n).hwdataO = hwmask (ins k).beI (ins k).wdataI :=
    hwdataAt_of_dataPhase ins hacc hd
  have hlanes : lane (hwmask (ins k).beI (ins k).wdataI)
      = masked (enables (ins k).beI) 0 (lane (ins k).wdataI) := funext (lane_hwmask _ _)
  rw [committed, hdata, hlanes]
  rfl

/-- One ready cycle at the end of a data phase. -/
theorem slaveMem_succ_of_owner {k n : Nat} (m0 : ByteMem)
    (hr : hreadyout ins n = true)
    (h : Pipeline.owner (hreadyout ins) (storeOffered ins) n = some k) :
    slaveMem (outputsAt ins) m0 (n + 1) =
      (slaveMem (outputsAt ins) m0 n).store (committed (outputsAt ins) k n) := by
  rw [slaveMem, busReady_outputsAt, if_pos hr,
    show writeOffered (outputsAt ins) = storeOffered ins from
      funext (writeOffered_outputsAt ins), h]

/-- Every other cycle. -/
theorem slaveMem_succ_of_none {n : Nat} (m0 : ByteMem)
    (h : hreadyout ins n = true →
      Pipeline.owner (hreadyout ins) (storeOffered ins) n = none) :
    slaveMem (outputsAt ins) m0 (n + 1) = slaveMem (outputsAt ins) m0 n := by
  rw [slaveMem, busReady_outputsAt,
    show writeOffered (outputsAt ins) = storeOffered ins from
      funext (writeOffered_outputsAt ins)]
  cases hr : hreadyout ins n
  · simp
  · rw [if_pos rfl, h hr]

/-- Traffic whose enables the encoding keeps writes the reference
memory. -/
theorem slaveMem_eq_reference
    (hexact : ∀ k n, k ∈ storesDone ins n →
      sizeLanes (hsize (ins k).beI) (byteOffset (ins k).addrI) = (ins k).beI)
    (m0 : ByteMem) (n : Nat) :
    slaveMem (outputsAt ins) m0 n
      = m0.stores ((storesDone ins n).map (storeOf ins)) := by
  induction n with
  | zero => rfl
  | succ n ih =>
      by_cases hk : hreadyout ins n = true ∧
          ∃ k, Pipeline.owner (hreadyout ins) (storeOffered ins) n = some k
      · -- the data phase of store `k` ends: its lanes are committed
        obtain ⟨hr, k, hk⟩ := hk
        have hdone : storesDone ins (n + 1) = storesDone ins n ++ [k] :=
          Pipeline.completed_succ_of_owner hr hk
        have hlanes := hexact k (n + 1) (by simp [hdone])
        rw [slaveMem_succ_of_owner ins m0 hr hk, ih, committed_outputsAt ins hk,
          hlanes, store_masked, hdone, List.map_append, List.map_singleton,
          stores_concat]
        rfl
      · have hnone : hreadyout ins n = true →
            Pipeline.owner (hreadyout ins) (storeOffered ins) n = none := by
          intro hr
          cases ho : Pipeline.owner (hreadyout ins) (storeOffered ins) n with
          | none => rfl
          | some k => exact absurd ⟨hr, k, ho⟩ hk
        have hdone : storesDone ins (n + 1) = storesDone ins n :=
          Pipeline.completed_succ_of_none hnone
        rw [slaveMem_succ_of_none ins m0 hnone, ih, hdone]

/-- **Stores are byte exact iff none is enabled `0111`.** For traffic
with the byte enables of a core, under any wait states: whatever the
memory and the data, the memory behind the slave is at every time the
one the completed stores write lane for lane, exactly if no completed
store has `be_i = 0111`. -/
theorem slaveMem_byte_exact_iff
    (hshape : ∀ n, storeOffered ins n = true → hreadyout ins n = true →
      LaneRun (ins n).beI (byteOffset (ins n).addrI)) :
    (∀ (d : Nat → BitVec 32) (m0 : ByteMem) (n : Nat),
        slaveMem (outputsAt (withData ins d)) m0 n
          = m0.stores ((storesDone ins n).map (storeOf (withData ins d)))) ↔
      ∀ k n, k ∈ storesDone ins n → (ins k).beI ≠ 0b0111 := by
  have hrun : ∀ k n, k ∈ storesDone ins n →
      LaneRun (ins k).beI (byteOffset (ins k).addrI) := by
    intro k n hk
    have ha := (Pipeline.accepts_of_completed hk).2
    rw [Pipeline.accepts, Bool.and_eq_true] at ha
    exact hshape k ha.2 ha.1
  constructor
  · intro hall k n hk
    obtain ⟨j, hr, ho⟩ := Pipeline.exists_owner_of_completed hk
    -- probe store `k` in the cycle that ends its data phase
    have hbefore := hall (probeData k) background j
    have hafter := hall (probeData k) background (j + 1)
    have hdone : storesDone ins (j + 1) = storesDone ins j ++ [k] :=
      Pipeline.completed_succ_of_owner hr ho
    have hnot : k ∉ storesDone ins j := Pipeline.owner_not_mem_completed ho
    rw [stores_background hnot fun _ => rfl] at hbefore
    rw [slaveMem_succ_of_owner (withData ins (probeData k)) _ hr ho, hbefore,
      committed_outputsAt (withData ins (probeData k)) ho, hdone, List.map_append,
      stores_append, stores_background hnot fun _ => rfl] at hafter
    have hprobe : (withData ins (probeData k) k).wdataI = probeWord := by
      simp [withData, probeData]
    rw [hprobe] at hafter
    refine (sizeLanes_hsize_eq_iff _ _ (hrun k n hk)).mp
      (enables_eq_of_probe (ins k).addrI (hafter.trans ?_))
    simp only [List.map_singleton, storeOf, hprobe]
    rfl
  · intro hbe d m0 n
    exact slaveMem_eq_reference (withData ins d)
      (fun k n hk => (sizeLanes_hsize_eq_iff _ _ (hrun k n hk)).mpr (hbe k n hk)) m0 n

end Stores

/-- A store of the word `0xAABBCCDD` to byte address 3, as the core's
load/store unit issues it: the datum rotated, first the lane of word 0,
then the three lanes of word 1. -/
def misalignedStore (n : Nat) : Inputs where
  reqI := n < 2
  weI := n < 2
  beI := if n = 0 then 0b1000 else 0b0111
  addrI := if n = 0 then 3 else 4
  wdataI := 0xDDAABBCC
  hrdataI := 0
  hreadyoutI := true

theorem misalignedStore_shape (n : Nat) (h : storeOffered misalignedStore n = true) :
    LaneRun (misalignedStore n).beI (byteOffset (misalignedStore n).addrI) := by
  match n with
  | 0 => decide
  | 1 => decide
  | n + 2 =>
      simp only [storeOffered, misalignedStore, Bool.and_eq_true,
        decide_eq_true_eq] at h
      omega

theorem slaveMem_byte_exact_misaligned :
    (∀ (d : Nat → BitVec 32) (m0 : ByteMem) (n : Nat),
        slaveMem (outputsAt (withData misalignedStore d)) m0 n
          = m0.stores ((storesDone misalignedStore n).map
              (storeOf (withData misalignedStore d)))) ↔
      ∀ k n, k ∈ storesDone misalignedStore n → (misalignedStore k).beI ≠ 0b0111 :=
  slaveMem_byte_exact_iff misalignedStore fun n h _ => misalignedStore_shape n h

/-- The second half of the misaligned store loses two of its bytes. -/
theorem misaligned_store_drops_bytes :
    ¬ ∀ n, slaveMem (outputsAt misalignedStore) (fun _ _ => 0) n
        = LaneMem.stores (fun _ _ => 0)
            ((storesDone misalignedStore n).map (storeOf misalignedStore)) := by
  intro h
  have hlane := congrFun (congrFun (h 3) 1) 1
  revert hlane
  decide

end RiscvSoc.Ri5cyToAhb
