import RiscvSoc.Bridge.StoreBytes
import RiscvSoc.Soc.AddrMap
import RiscvSoc.Sync.Crossbar

/-!
# Soc — Fabric

From the masters to the slaves. `riscv_soc` has three masters, each behind
a `ri5cy_to_ahb`: the two ports of the core, whose wrapper has `filter_oor`
on the way to `HSEL`, and the debug unit, which has no filter. The
instruction port is wired not to write.

The interconnect that joins them to the slaves is not part of the
repository. `Interconnect` is what is relied on of it in each cycle: whose
transfer a slave is shown, whose data it sees, and which master goes on. It
may let a master wait for another one, and for as long as it likes.

The bridge does not learn what the filter has stopped, and answers it as
any other access: a store out of range is dropped without a trace.
-/

namespace RiscvSoc.Soc

open Sync Mem Ahb Ri5cyToAhb

variable {n : Nat} (m : AddrMap n)

/-! ## The masters -/

/-- A port of the wrapper: the bus of its bridge, selected through the
filter. -/
def filtered (bus : Nat → Outputs) (t : Nat) : Outputs :=
  { bus t with hselO := (filterOor m (bus t).haddrO (bus t).hselO).validO }

/-- `error_instr_oor` and `error_data_oor`, which nothing reads. -/
def errorOor (bus : Nat → Outputs) (t : Nat) : Bool :=
  (filterOor m (bus t).haddrO (bus t).hselO).errorO

/-- The instruction port in a cycle. -/
structure Fetch where
  instrReq : Bool
  instrAddr : BitVec 32
  hrdataI : BitVec 32
  hreadyoutI : Bool
  deriving DecidableEq, Repr

/-- The inputs of its bridge. -/
def Fetch.inputs (f : Fetch) : Inputs where
  reqI := f.instrReq
  weI := false
  beI := 0xf
  addrI := f.instrAddr
  wdataI := 0
  hrdataI := f.hrdataI
  hreadyoutI := f.hreadyoutI

/-- `ahb_master[0]` to `ahb_master[2]`. -/
inductive Master where
  | instr
  | data
  | debug
  deriving DecidableEq, Repr

/-- What the bridges of the masters are shown. -/
structure Masters where
  instr : Nat → Fetch
  data : Nat → Inputs
  sb : Nat → Inputs

def Masters.ins (p : Masters) : Master → Nat → Inputs
  | .instr => fun t => (p.instr t).inputs
  | .data => p.data
  | .debug => p.sb

/-- The buses of the masters. -/
def Masters.bus (p : Masters) : Master → Nat → Outputs
  | .instr => filtered m (outputsAt (p.ins .instr))
  | .data => filtered m (outputsAt (p.ins .data))
  | .debug => outputsAt (p.ins .debug)

/-! ## The interconnect -/

/-- The address phase of a transfer is on a bus. -/
def offered (bus : Nat → Outputs) (t : Nat) : Bool :=
  (bus t).hselO && transferring (bus t).htransO

/-- What is relied on of the interconnect between the buses `master` and
`slave`. `source k a` is the transfer that it shows slave `k` in cycle `a`:
its master, and the cycle in which that has begun it. -/
structure Interconnect (master : Master → Nat → Outputs) (slave : Fin n → Nat → Outputs)
    (source : Fin n → Nat → Master × Nat) : Prop where
  /-- A slave is selected by base and mask. -/
  select : ∀ {k a}, Pipeline.accepts (busReady (slave k)) (offered (slave k)) a = true →
    m.decoded (master (source k a).1 (source k a).2).haddrO k = true
  /-- It is shown the address phase of its transfer. -/
  address : ∀ {k a}, Pipeline.accepts (busReady (slave k)) (offered (slave k)) a = true →
    (slave k a).haddrO = (master (source k a).1 (source k a).2).haddrO ∧
      (slave k a).hwriteO = (master (source k a).1 (source k a).2).hwriteO ∧
      (slave k a).hsizeO = (master (source k a).1 (source k a).2).hsizeO
  /-- In its data phase the master is in that of the same transfer, -/
  held : ∀ {k t a}, Pipeline.owner (busReady (slave k)) (offered (slave k)) t = some a →
    Pipeline.owner (busReady (master (source k a).1)) (offered (master (source k a).1)) t
      = some (source k a).2
  /-- and the datum on its bus is the slave's. -/
  datum : ∀ {k t a}, Pipeline.owner (busReady (slave k)) (offered (slave k)) t = some a →
    (slave k t).hwdataO = (master (source k a).1 t).hwdataO
  /-- A master goes on in the cycle in which the slave is done with its
  transfer. -/
  ready : ∀ {i t j k}, Pipeline.owner (busReady (master i)) (offered (master i)) t = some j →
    m.decoded (master i j).haddrO k = true →
    (busReady (master i) t = true ↔ busReady (slave k) t = true ∧
      ∃ a, Pipeline.owner (busReady (slave k)) (offered (slave k)) t = some a ∧
        source k a = (i, j))

/-- The transfers that slave `k` has completed before cycle `t`, in order. -/
def served (slave : Fin n → Nat → Outputs) (source : Fin n → Nat → Master × Nat) (k : Fin n)
    (t : Nat) : List (Master × Nat) :=
  carried (fun k => busReady (slave k)) (fun k => offered (slave k)) source k t

/-! ## The accesses -/

/-- The accesses whose data phase ended before cycle `t`, in order. -/
def accessesDone (ins : Nat → Inputs) (t : Nat) : List Nat :=
  Pipeline.completed (hreadyout ins) (fun t => (ins t).reqI) t

/-- The store accepted in cycle `j`, with the lanes that its size names. -/
def laneStore (ins : Nat → Inputs) (j : Nat) : Store (BitVec 30) (Fin 4) (BitVec 8) where
  word := wordAddr (ins j).addrI
  enable := enables (sizeLanes (hsize (ins j).beI) (byteOffset (ins j).addrI))
  data := masked (enables (ins j).beI) 0 (lane (ins j).wdataI)

/-- The accesses to region `k`. -/
def toRegion (ins : Nat → Inputs) (k : Fin n) (j : Nat) : Bool :=
  decide ((m.region k).contains (ins j).addrI)

/-- A transfer is a store. -/
def isStore (p : Masters) (x : Master × Nat) : Bool := (p.ins x.1 x.2).weI

def storeOfMaster (p : Masters) (x : Master × Nat) : Store (BitVec 30) (Fin 4) (BitVec 8) :=
  laneStore (p.ins x.1) x.2

/-- **The masters in the address map.** -/
structure Routed (p : Masters) (slave : Fin n → Nat → Outputs)
    (source : Fin n → Nat → Master × Nat) : Prop where
  /-- Of each master a slave has completed what was for its region, in the
  order of the master. -/
  inOrder : ∀ i k t, ((served slave source k t).filter fun x => x.1 = i).map Prod.snd
    = (accessesDone (p.ins i) t).filter (toRegion m (p.ins i) k)
  /-- An access of the core that has been answered was one slave's and no
  other's, or an error of the filter and no slave's. -/
  oneSlave : ∀ i t j, i ≠ .debug → j ∈ accessesDone (p.ins i) t →
    (errorOor m (outputsAt (p.ins i)) j = true ∧ ∀ k, (i, j) ∉ served slave source k t) ∨
    (errorOor m (outputsAt (p.ins i)) j = false ∧ ∃ k, (m.region k).contains (p.ins i j).addrI ∧
      ∀ k', (i, j) ∈ served slave source k' t ↔ k' = k)
  /-- The memory of a slave is the one that the stores among what it has
  completed have written. -/
  memory : ∀ k m0 t, slaveMem (slave k) m0 t
    = m0.stores (((served slave source k t).filter (isStore p)).map (storeOfMaster p))
  /-- As long as the debug unit does not write to its region, these are the
  stores of the data port. -/
  dataPort : ∀ k m0 t, (∀ j ∈ storesDone p.sb t, toRegion m p.sb k j = false) →
    slaveMem (slave k) m0 t
      = m0.stores (((storesDone p.data t).filter (toRegion m p.data k)).map (laneStore p.data))

/-! ## Selection -/

variable {m}

theorem decoded_eq_decide (addr : BitVec 32) (k : Fin n) :
    m.decoded addr k = decide ((m.region k).contains addr) := by
  rw [Bool.eq_iff_iff, decide_eq_true_iff]
  exact decoded_iff m addr k

theorem toRegion_eq (ins : Nat → Inputs) (k : Fin n) (j : Nat) :
    toRegion m ins k j = m.decoded (ins j).addrI k :=
  (decoded_eq_decide (ins j).addrI k).symm

theorem offered_outputsAt (ins : Nat → Inputs) :
    offered (outputsAt ins) = fun t => (ins t).reqI := by
  funext t
  cases h : (ins t).reqI <;> simp [offered, outputsAt, outputs, transferring, h]

/-- The filter lets pass what has a slave. -/
theorem offered_filtered (ins : Nat → Inputs) :
    offered (filtered m (outputsAt ins))
      = fun t => (ins t).reqI && (List.finRange n).any (m.decoded (ins t).addrI) := by
  funext t
  have hoff : ((outputsAt ins t).hselO && transferring (outputsAt ins t).htransO) = (ins t).reqI :=
    congrFun (offered_outputsAt ins) t
  have hsel : (outputsAt ins t).hselO = (ins t).reqI := rfl
  have haddr : (outputsAt ins t).haddrO = (ins t).addrI := rfl
  have hvalid := (filterOor_iff m (ins t).addrI (ins t).reqI).1
  show ((filterOor m (outputsAt ins t).haddrO (outputsAt ins t).hselO).validO
    && transferring (outputsAt ins t).htransO) = _
  rw [hsel] at hoff ⊢
  rw [haddr, Bool.eq_iff_iff, Bool.and_eq_true, hvalid, Bool.and_eq_true, List.any_eq_true]
  simp only [List.mem_finRange, true_and]
  rw [Bool.eq_iff_iff, Bool.and_eq_true] at hoff
  constructor
  · exact And.left
  · exact fun h => ⟨h, (hoff.mpr h.1).2⟩

/-- What a master has begun in cycle `j` is its access of that cycle. -/
theorem bus_address (p : Masters) (i : Master) (j : Nat) :
    (p.bus m i j).haddrO = (p.ins i j).addrI ∧ (p.bus m i j).hwriteO = (p.ins i j).weI ∧
      (p.bus m i j).hsizeO = hsize (p.ins i j).beI := by
  cases i <;> exact ⟨rfl, rfl, rfl⟩

theorem busReady_bus (p : Masters) (i : Master) : busReady (p.bus m i) = hreadyout (p.ins i) := by
  cases i <;> rfl

/-- The interconnect goes by what the filter has let pass. -/
theorem offered_bus (p : Masters) (i : Master) :
    offered (p.bus m i) = fun t => (p.ins i t).reqI &&
      (decide (i = .debug) || (List.finRange n).any (m.decoded (p.ins i t).addrI)) := by
  cases i with
  | instr => exact offered_filtered (p.ins .instr)
  | data => exact offered_filtered (p.ins .data)
  | debug =>
      refine (offered_outputsAt (p.ins .debug)).trans (funext fun t => ?_)
      exact (Bool.and_true _).symm

/-! ## Routes -/

theorem storesDone_eq (ins : Nat → Inputs) (t : Nat) :
    storesDone ins t = (accessesDone ins t).filter fun j => (ins j).weI :=
  Pipeline.completed_filter (fun j => (ins j).weI) t

/-- The transfers that a master has completed are the accesses that the
filter has let pass. -/
theorem completed_bus (p : Masters) (i : Master) (t : Nat) :
    Pipeline.completed (busReady (p.bus m i)) (offered (p.bus m i)) t
      = (accessesDone (p.ins i) t).filter fun j =>
          decide (i = .debug) || (List.finRange n).any (m.decoded (p.ins i j).addrI) := by
  rw [busReady_bus, offered_bus]
  exact Pipeline.completed_filter _ t

/-- The stores of the data port in a list of transfers. -/
theorem map_storeOfMaster_data (p : Masters) (l : List (Master × Nat)) :
    ((l.filter fun x => x.1 = .data).filter (isStore p)).map (storeOfMaster p)
      = (((l.filter fun x => x.1 = .data).map Prod.snd).filter fun j => (p.data j).weI).map
          (laneStore p.data) := by
  have hfst : ∀ x ∈ l.filter fun x => x.1 = .data, x = (.data, x.2) := by
    intro x hx
    rw [← of_decide_eq_true (List.mem_filter.mp hx).2]
  have hstore : (l.filter fun x => x.1 = .data).filter (isStore p)
      = (l.filter fun x => x.1 = .data).filter ((fun j => (p.data j).weI) ∘ Prod.snd) :=
    List.filter_congr fun x hx => by rw [hfst x hx]; rfl
  rw [List.filter_map, List.map_map, hstore]
  refine List.map_congr_left fun x hx => ?_
  rw [hfst x (List.mem_of_mem_filter hx)]
  rfl

section Served

variable {slave : Fin n → Nat → Outputs} {source : Fin n → Nat → Master × Nat} {k : Fin n}
  {t : Nat}

theorem served_succ_of_owner {a : Nat} (hr : busReady (slave k) t = true)
    (ho : Pipeline.owner (busReady (slave k)) (offered (slave k)) t = some a) :
    served slave source k (t + 1) = served slave source k t ++ [source k a] := by
  have hcarried : carried (fun k => busReady (slave k)) (fun k => offered (slave k)) source k
      (t + 1) = _ := carried_succ_of_owner hr ho
  exact hcarried

theorem served_succ_of_none (h : busReady (slave k) t = true →
    Pipeline.owner (busReady (slave k)) (offered (slave k)) t = none) :
    served slave source k (t + 1) = served slave source k t := by
  have hcarried : carried (fun k => busReady (slave k)) (fun k => offered (slave k)) source k
      (t + 1) = _ := carried_succ_of_none h
  exact hcarried

end Served

section Routes

variable {p : Masters} {slave : Fin n → Nat → Outputs} {source : Fin n → Nat → Master × Nat}
  (h : Interconnect m (p.bus m) slave source)

include h

theorem Interconnect.crossbar :
    Crossbar (fun i => busReady (p.bus m i)) (fun i => offered (p.bus m i))
      (fun k => busReady (slave k)) (fun k => offered (slave k))
      (fun i j k => m.decoded (p.bus m i j).haddrO k = true) source :=
  ⟨h.select, h.held, h.ready⟩

theorem filter_served (i : Master) (k : Fin n) (t : Nat) :
    ((served slave source k t).filter fun x => x.1 = i).map Prod.snd
      = (accessesDone (p.ins i) t).filter (toRegion m (p.ins i) k) := by
  rw [served, h.crossbar.filter_carried, completed_bus, List.filter_filter]
  refine List.filter_congr fun j _ => ?_
  rw [toRegion_eq, (bus_address p i j).1]
  cases hdec : m.decoded (p.ins i j).addrI k with
  | false => rfl
  | true =>
      have hany : (List.finRange n).any (m.decoded (p.ins i j).addrI) = true :=
        List.any_eq_true.mpr ⟨k, List.mem_finRange k, hdec⟩
      rw [hany, Bool.or_true]
      rfl

/-- A slave has completed the accesses to its region. -/
theorem mem_served_iff {i : Master} {j : Nat} {k : Fin n} {t : Nat} :
    (i, j) ∈ served slave source k t ↔
      j ∈ accessesDone (p.ins i) t ∧ m.decoded (p.ins i j).addrI k = true := by
  rw [served, h.crossbar.mem_carried_iff, completed_bus, List.mem_filter, (bus_address p i j).1,
    and_assoc]
  refine and_congr_right fun _ => and_iff_right_of_imp fun hdec => ?_
  rw [Bool.or_eq_true]
  exact .inr (List.any_eq_true.mpr ⟨k, List.mem_finRange k, hdec⟩)

theorem oneSlave_of_done {i : Master} {t j : Nat} (hj : j ∈ accessesDone (p.ins i) t) :
    (errorOor m (outputsAt (p.ins i)) j = true ∧ ∀ k, (i, j) ∉ served slave source k t) ∨
    (errorOor m (outputsAt (p.ins i)) j = false ∧ ∃ k, (m.region k).contains (p.ins i j).addrI ∧
      ∀ k', (i, j) ∈ served slave source k' t ↔ k' = k) := by
  have hreq : (p.ins i j).reqI = true :=
    (Bool.and_eq_true_iff.mp (Pipeline.accepts_of_completed hj).2).2
  have herror : errorOor m (outputsAt (p.ins i)) j = true ↔
      ¬ ∃ k, m.decoded (p.ins i j).addrI k = true :=
    (filterOor_iff m (p.ins i j).addrI (p.ins i j).reqI).2.trans (and_iff_right hreq)
  have hmem : ∀ k, (i, j) ∈ served slave source k t ↔ m.decoded (p.ins i j).addrI k = true :=
    fun k => (mem_served_iff h).trans (and_iff_right hj)
  by_cases hex : ∃ k, m.decoded (p.ins i j).addrI k = true
  · obtain ⟨k, hk⟩ := hex
    refine .inr ⟨?_, k, (decoded_iff m _ k).mp hk, fun k' => ?_⟩
    · rw [← Bool.not_eq_true, herror]
      exact fun hno => hno ⟨k, hk⟩
    · rw [hmem]
      constructor
      · exact fun hk' => decoded_unique m hk' hk
      · rintro rfl
        exact hk
  · exact .inl ⟨herror.mpr hex, fun k hk => hex ⟨k, (hmem k).mp hk⟩⟩

/-! ## Memories -/

/-- What a slave commits at the end of a store is the store of its master. -/
theorem committed_slave {k : Fin n} {a t : Nat}
    (ho : Pipeline.owner (busReady (slave k)) (offered (slave k)) t = some a)
    (hstore : isStore p (source k a) = true) :
    committed (slave k) a t = storeOfMaster p (source k a) := by
  obtain ⟨haddr, _, hsize⟩ := h.address (Pipeline.owner_eq_some_iff.mp ho).1
  have hdata := h.datum ho
  have hheld := h.held ho
  rw [busReady_bus, Pipeline.owner_eq_some_iff, offered_bus] at hheld
  obtain ⟨hacc, hphase⟩ := hheld
  obtain ⟨hready, hoffer⟩ := Bool.and_eq_true_iff.mp hacc
  have howner : Pipeline.owner (hreadyout (p.ins (source k a).1))
      (storeOffered (p.ins (source k a).1)) t = some (source k a).2 := by
    rw [Pipeline.owner_eq_some_iff]
    refine ⟨Bool.and_eq_true_iff.mpr ⟨hready, Bool.and_eq_true_iff.mpr ⟨?_, hstore⟩⟩, hphase⟩
    exact (Bool.and_eq_true_iff.mp hoffer).1
  calc committed (slave k) a t
      = committed (p.bus m (source k a).1) (source k a).2 t := by
        rw [committed, haddr, hsize, hdata, committed]
    _ = committed (outputsAt (p.ins (source k a).1)) (source k a).2 t := by
        cases (source k a).1 <;> rfl
    _ = storeOfMaster p (source k a) := committed_outputsAt _ howner

theorem hwriteO_slave {k : Fin n} {a t : Nat}
    (ho : Pipeline.owner (busReady (slave k)) (offered (slave k)) t = some a) :
    (slave k a).hwriteO = isStore p (source k a) := by
  rw [(h.address (Pipeline.owner_eq_some_iff.mp ho).1).2.1, (bus_address p _ _).2.1, isStore]

/-- **The memory of a slave.** -/
theorem slaveMem_served (k : Fin n) (m0 : ByteMem) (t : Nat) :
    slaveMem (slave k) m0 t
      = m0.stores (((served slave source k t).filter (isStore p)).map (storeOfMaster p)) := by
  have howner : ∀ t, Pipeline.owner (busReady (slave k)) (writeOffered (slave k)) t
      = (Pipeline.owner (busReady (slave k)) (offered (slave k)) t).filter
          fun a => (slave k a).hwriteO :=
    Pipeline.owner_filter fun a => (slave k a).hwriteO
  induction t with
  | zero => rfl
  | succ t ih =>
      rw [slaveMem, howner, ih]
      cases hr : busReady (slave k) t with
      | false =>
          have hwait : busReady (slave k) t = true →
              Pipeline.owner (busReady (slave k)) (offered (slave k)) t = none := by
            rw [hr]
            exact fun h => absurd h Bool.false_ne_true
          rw [if_neg Bool.false_ne_true, served_succ_of_none hwait]
      | true =>
          rw [if_pos rfl]
          cases ho : Pipeline.owner (busReady (slave k)) (offered (slave k)) t with
          | none =>
              rw [served_succ_of_none fun _ => ho]
              rfl
          | some a =>
              -- the slave is done with a transfer, and commits it if it is a store
              have hwrite := hwriteO_slave h ho
              rw [served_succ_of_owner hr ho, List.filter_append, List.map_append]
              cases hstore : isStore p (source k a) with
              | false => simp [Option.filter, hwrite, hstore]
              | true =>
                  have hsome : (some a).filter (fun a => (slave k a).hwriteO) = some a := by
                    simp [Option.filter, hwrite, hstore]
                  have hlist : [source k a].filter (isStore p) = [source k a] := by simp [hstore]
                  rw [hsome, hlist, List.map_singleton, stores_concat,
                    ← committed_slave h ho hstore]

/-- A store that a slave has completed is the data port's, if none of the
debug unit's was for it. -/
theorem eq_data_of_store {k : Fin n} {t : Nat} {x : Master × Nat}
    (hsb : ∀ j ∈ storesDone p.sb t, toRegion m p.sb k j = false)
    (hx : x ∈ served slave source k t) (hstore : isStore p x = true) : x.1 = .data := by
  obtain ⟨i, j⟩ := x
  cases i with
  | data => rfl
  | instr => cases hstore
  | debug =>
      obtain ⟨hdone, hdec⟩ := (mem_served_iff h).mp hx
      have hj : j ∈ storesDone p.sb t := by
        rw [storesDone_eq]
        exact List.mem_filter.mpr ⟨hdone, hstore⟩
      have hno := hsb j hj
      rw [toRegion_eq] at hno
      exact absurd (hdec.symm.trans hno) Bool.noConfusion

theorem slaveMem_dataPort {k : Fin n} {t : Nat} (m0 : ByteMem)
    (hsb : ∀ j ∈ storesDone p.sb t, toRegion m p.sb k j = false) :
    slaveMem (slave k) m0 t = m0.stores
      (((storesDone p.data t).filter (toRegion m p.data k)).map (laneStore p.data)) := by
  have hdata : (served slave source k t).filter (isStore p)
      = ((served slave source k t).filter fun x => x.1 = .data).filter (isStore p) := by
    rw [List.filter_filter]
    refine List.filter_congr fun x hx => ?_
    cases hstore : isStore p x with
    | false => rfl
    | true =>
        rw [decide_eq_true (eq_data_of_store h hsb hx hstore)]
        rfl
  rw [slaveMem_served h, hdata, map_storeOfMaster_data, filter_served h .data k t, storesDone_eq,
    List.filter_filter, List.filter_filter]
  simp only [Bool.and_comm]
  rfl

end Routes

/-- **The masters in the address map**, any map and any traffic: each slave
completes what is for its region, in the order of each master; what the
core asks for has one slave or is an error; and the memory of a slave is
what the stores it has completed have written. -/
theorem masters_routed {m : AddrMap n} {p : Masters} {slave : Fin n → Nat → Outputs}
    {source : Fin n → Nat → Master × Nat} (h : Interconnect m (p.bus m) slave source) :
    Routed m p slave source :=
  ⟨filter_served h, fun _ _ _ _ hj => oneSlave_of_done h hj, slaveMem_served h,
    fun _ m0 _ hsb => slaveMem_dataPort h m0 hsb⟩

/-! ## Two masters at the IRAM -/

/-- The core stores to the IRAM and fetches from it in the same cycle. The
fetch waits for the store. -/
def contending : Masters where
  instr t := ⟨t == 0, 0x20000004, 0, t != 1⟩
  data t := ⟨t == 0, true, 0xf, 0x20000000, 0xCAFE, 0, true⟩
  sb _ := ⟨false, false, 0, 0, 0, 0, true⟩

def iram : Fin 6 := ⟨3, by decide⟩

/-- A slave that is not selected. -/
def unselected (bus : Outputs) : Outputs := { bus with hselO := false, hreadyO := true }

/-- The IRAM is shown the store, and then the fetch. -/
def contendedSlave (k : Fin 6) (t : Nat) : Outputs :=
  if k = iram ∧ t = 0 then contending.bus ahbMap .data 0
  else if k = iram ∧ t = 1 then
    { contending.bus ahbMap .instr 0 with hwdataO := (contending.bus ahbMap .data 1).hwdataO }
  else unselected (contending.bus ahbMap .instr t)

def contendedSource (_ : Fin 6) (a : Nat) : Master × Nat :=
  if a = 0 then (.data, 0) else (.instr, 0)

theorem hreadyO_contendedSlave (k : Fin 6) (t : Nat) : busReady (contendedSlave k) t = true := by
  rw [busReady, contendedSlave]
  split
  · rfl
  · split <;> rfl

theorem accepts_contendedSlave {k : Fin 6} {a : Nat}
    (h : Pipeline.accepts (busReady (contendedSlave k)) (offered (contendedSlave k)) a = true) :
    k = iram ∧ (a = 0 ∨ a = 1) := by
  have hoff := (Bool.and_eq_true_iff.mp h).2
  rw [offered, contendedSlave] at hoff
  split at hoff
  · rename_i hk
    exact ⟨hk.1, .inl hk.2⟩
  · split at hoff
    · rename_i hk
      exact ⟨hk.1, .inr hk.2⟩
    · exact absurd hoff Bool.false_ne_true

theorem owner_contendedSlave {k : Fin 6} {t a : Nat}
    (h : Pipeline.owner (busReady (contendedSlave k)) (offered (contendedSlave k)) t = some a) :
    k = iram ∧ t = a + 1 ∧ (a = 0 ∨ a = 1) := by
  obtain ⟨hacc, hlt, hwait⟩ := Pipeline.owner_eq_some_iff.mp h
  obtain ⟨hk, ha⟩ := accepts_contendedSlave hacc
  refine ⟨hk, ?_, ha⟩
  by_contra hne
  have hw := hwait (a + 1) (by omega) (by omega)
  rw [hreadyO_contendedSlave] at hw
  cases hw

theorem owner_contending {i : Master} {t j : Nat}
    (h : Pipeline.owner (busReady (contending.bus ahbMap i)) (offered (contending.bus ahbMap i)) t
      = some j) :
    j = 0 ∧ (i = .data ∧ t = 1 ∨ i = .instr ∧ (t = 1 ∨ t = 2)) := by
  obtain ⟨hacc, hlt, hwait⟩ := Pipeline.owner_eq_some_iff.mp h
  have hoff := (Bool.and_eq_true_iff.mp hacc).2
  rw [offered_bus] at hoff
  have hreq := (Bool.and_eq_true_iff.mp hoff).1
  cases i with
  | debug => cases hreq
  | data =>
      obtain rfl : j = 0 := beq_iff_eq.mp hreq
      refine ⟨rfl, .inl ⟨rfl, ?_⟩⟩
      by_contra hne
      have hw := hwait 1 (by omega) (by omega)
      cases hw
  | instr =>
      obtain rfl : j = 0 := beq_iff_eq.mp hreq
      refine ⟨rfl, .inr ⟨rfl, ?_⟩⟩
      by_contra hne
      have hw := hwait 2 (by omega) (by omega)
      cases hw

theorem contending_interconnect :
    Interconnect ahbMap (contending.bus ahbMap) contendedSlave contendedSource where
  select h := by
    obtain ⟨rfl, rfl | rfl⟩ := accepts_contendedSlave h <;> rfl
  address h := by
    obtain ⟨rfl, rfl | rfl⟩ := accepts_contendedSlave h <;> exact ⟨rfl, rfl, rfl⟩
  held h := by
    obtain ⟨rfl, rfl, rfl | rfl⟩ := owner_contendedSlave h <;> rfl
  datum h := by
    obtain ⟨rfl, rfl, rfl | rfl⟩ := owner_contendedSlave h <;> rfl
  ready {i t j k} h hdec := by
    have hiram : k = iram := by
      obtain ⟨rfl, ⟨rfl, _⟩ | ⟨rfl, _⟩⟩ := owner_contending h <;> revert k <;> decide
    subst hiram
    obtain ⟨rfl, ⟨rfl, rfl⟩ | ⟨rfl, rfl | rfl⟩⟩ := owner_contending h
    · exact iff_of_true rfl ⟨rfl, 0, rfl, rfl⟩
    · refine iff_of_false Bool.false_ne_true ?_
      rintro ⟨_, a, ha, hsource⟩
      obtain rfl : 0 = a := Option.some.inj ha
      cases hsource
    · exact iff_of_true rfl ⟨rfl, 1, rfl, rfl⟩

theorem masters_routed_contending : Routed ahbMap contending contendedSlave contendedSource :=
  masters_routed contending_interconnect

end RiscvSoc.Soc
