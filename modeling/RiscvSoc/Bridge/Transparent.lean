import RiscvSoc.Bridge.BackToBack

/-!
# Bridge — Transparent

The two bridges back to back are a memory port. Under the core's
one-at-a-time discipline the memory sees the granted requests, one each
and in order, and the core gets its answers in the order of its
requests, each read with what the memory answers to it after all the
requests before it.

`issued` names the cycle in which a granted request is on the memory
port, and `map_issued` is the lock step of the two bridges; the order of
the answers and their data follow from it.
-/

namespace RiscvSoc.BackToBack

open Sync Mem Ahb

/-! ## The two views of a request -/

/-- A request as both ports show it. A read carries no datum. -/
structure Access where
  addr : BitVec 32
  we : Bool
  wdata : BitVec 32
  deriving DecidableEq, Repr

/-- A request as the memory gets it. -/
structure MemReq where
  we : Bool
  be : BitVec 4
  addr : BitVec 32
  wdata : BitVec 32
  deriving DecidableEq, Repr

def MemReq.access (r : MemReq) : Access where
  addr := r.addr
  we := r.we
  wdata := if r.we then r.wdata else 0

/-- A memory with states `M`: what a request does to it and what it
answers to a read. -/
structure Memory (M : Type _) where
  apply : M → MemReq → M
  answer : M → BitVec 32 → BitVec 32

/-- The state after a list of requests. -/
def Memory.after {M : Type _} (mem : Memory M) (m0 : M) (reqs : List MemReq) : M :=
  reqs.foldl mem.apply m0

section Runs

variable (ins : Nat → Inputs)

/-- What the core means in cycle `k`: its write datum with the disabled
lanes zero. -/
def meant (k : Nat) : Access where
  addr := (ins k).addrI
  we := (ins k).weI
  wdata := if (ins k).weI then Ri5cyToAhb.hwmask (ins k).beI (ins k).wdataI else 0

/-- What the memory port shows in cycle `n`. -/
def memReq (n : Nat) : MemReq where
  we := (memPort ins n).weO
  be := (memPort ins n).beO
  addr := (memPort ins n).addrO
  wdata := (memPort ins n).wdataO

/-- The requests the memory got before cycle `n`. -/
def issuedReqs (n : Nat) : List MemReq := (cycles (requests ins) n).map (memReq ins)

/-- The cycle in which the request granted in cycle `k` is on the
memory port. -/
def issued (k : Nat) : Nat := if (ins k).weI then k + 1 else k

/-- A write is on the memory port. -/
def writes (n : Nat) : Bool := AhbToRi5cy.writes (slaveIns ins) n

variable {M : Type _} (mem : Memory M) (m0 : M)

/-- The memory is attached: in the cycle after a read request `rdata_i`
is its answer. -/
def Attached : Prop :=
  ∀ n, requests ins n = true → (memPort ins n).weO = false →
    (ins (n + 1)).rdataI
      = mem.answer (mem.after m0 (issuedReqs ins n)) (memPort ins n).addrO

/-- **A transparent memory port.** -/
structure Transparent : Prop where
  /-- Every request is granted in its own cycle. -/
  granted : ∀ n, (ins n).reqI = true → (corePort ins n).gntO = true
  /-- The memory requests are the granted ones, and lag by a cycle. -/
  sameRequests : ∀ n,
    (issuedReqs ins n).map MemReq.access <+: (cycles (grants ins) n).map (meant ins) ∧
    (cycles (grants ins) n).map (meant ins)
      <+: (issuedReqs ins (n + 1)).map MemReq.access
  /-- Every granted request is answered, within two cycles. -/
  allAnswered : ∀ n, (cycles (grants ins) n).length ≤ (cycles (answers ins) (n + 2)).length
  /-- The `k`-th answer is to the `k`-th request. All requests up to that
  one have then been issued, and a read gets what the memory answers
  after exactly the requests before it. -/
  inOrder : ∀ j, answers ins j = true →
    ∃ g, (cycles (grants ins) j)[(cycles (answers ins) j).length]? = some g ∧
      (cycles (answers ins) j).length < (issuedReqs ins j).length ∧
      ((ins g).weI = false → (corePort ins j).rdataO
        = mem.answer (mem.after m0
            ((issuedReqs ins j).take (cycles (answers ins) j).length)) (ins g).addrI)

/-! ## Requests -/

theorem requests_of_writes {n : Nat} (h : writes ins n = true) :
    requests ins n = true ∧ (memPort ins n).weO = true := by
  rw [requests, memPort_eq]
  rwa [writes, AhbToRi5cy.writes, Bool.and_eq_true] at h

/-- Outside `WRITE_REQ` the memory port shows the core's reads. -/
theorem requests_of_not_writes {n : Nat} (h : writes ins n = false) :
    requests ins n = ((ins n).reqI && !(ins n).weI) := by
  have hs : AhbToRi5cy.fsmAt (slaveIns ins) n ≠ .writeReq := by
    rw [Ne, ← AhbToRi5cy.writes_iff, ← writes, h]
    exact Bool.false_ne_true
  rw [requests, memPort_eq]
  exact AhbToRi5cy.reqO_of_ne_writeReq hs _

/-- Outside `WRITE_REQ` the memory port shows the core's address phase. -/
theorem memReq_of_not_writes {n : Nat} (h : writes ins n = false) :
    (memPort ins n).weO = (ins n).weI ∧ (memPort ins n).addrO = (ins n).addrI := by
  have hs : ¬ (AhbToRi5cy.ahbToRi5cy.stateAt (slaveIns ins) n).fsmSt = .writeReq := by
    rw [← AhbToRi5cy.fsmAt, ← AhbToRi5cy.writes_iff, ← writes, h]
    exact Bool.false_ne_true
  rw [memPort_eq]
  simp only [AhbToRi5cy.outputsAt, AhbToRi5cy.outputs, beq_eq_false_iff_ne.mpr hs]
  exact ⟨rfl, rfl⟩

variable {ins}

/-- **Lock step**: at every time the granted requests have been issued,
but for a write that is on the memory port just now. -/
theorem map_issued (h : ∀ n, SpacedTo ins n) (n : Nat) :
    (cycles (grants ins) n).map (issued ins)
      = cycles (requests ins) n ++ if writes ins n then [n] else [] := by
  induction n with
  | zero => simp [writes, AhbToRi5cy.writes_iff]
  | succ n ih =>
      have hnext : writes ins (n + 1) = ((ins n).reqI && (ins n).weI) := (h n).writes_succ
      rw [cycles_succ, List.map_append, ih, cycles_succ (requests ins), hnext, grants_eq]
      cases hw : writes ins n
      · -- a granted read is issued at once, a granted write in the next cycle
        rw [requests_of_not_writes ins hw]
        cases hq : (ins n).reqI <;> cases hwe : (ins n).weI <;> simp [issued, hwe]
      · -- the pending write is issued, and there is no request beside it
        have hq : (ins n).reqI = false := by
          rw [← Bool.not_eq_true]
          intro hq
          rw [writes, (h n).not_writes hq] at hw
          cases hw
        simp [(requests_of_writes ins hw).1, hq]

/-- The datum of a granted request is on the memory port in the next
cycle. -/
theorem wdataO_succ (h : ∀ n, SpacedTo ins n) {k : Nat} (hk : grants ins k = true) :
    (memPort ins (k + 1)).wdataO = Ri5cyToAhb.hwmask (ins k).beI (ins k).wdataI := by
  rw [← (h k).accepted_eq_grants] at hk
  have hm := Ri5cyToAhb.hwdataAt_of_dataPhase _ hk (DataPhase.start _ k)
  rw [Ri5cyToAhb.hwdataAt, ← regsAt_master] at hm
  exact hm

/-- What is issued for a granted request is what the core meant. -/
theorem access_issued (h : ∀ n, SpacedTo ins n) {k : Nat} (hk : grants ins k = true) :
    (memReq ins (issued ins k)).access = meant ins k := by
  have hreq := hk
  rw [grants_eq] at hreq
  cases hwe : (ins k).weI
  · have hw : writes ins k = false := (h k).not_writes hreq
    have hport := memReq_of_not_writes ins hw
    simp [issued, memReq, MemReq.access, meant, hwe, hport]
  · have hw : writes ins (k + 1) = true := by
      rw [writes, (h k).writes_succ, hreq, hwe]; rfl
    have hport := (requests_of_writes ins hw).2
    have haddr : (memPort ins (k + 1)).addrO = (ins k).addrI := by
      rw [memPort_eq]
      exact (AhbToRi5cy.outputs_of_writes _ hw).1
    simp [issued, memReq, MemReq.access, meant, hwe, hport, haddr, wdataO_succ h hk]

/-! ## Answers -/

/-- The read datum goes through to the core. -/
theorem rdataO_eq (ins : Nat → Inputs) (n : Nat) :
    (corePort ins n).rdataO = (ins n).rdataI := by
  have hlock : (regsAt ins n).slave.lock = false := by
    rw [regsAt_slave]
    refine AhbToRi5cy.lock_eq_false _ (fun k => ?_) n
    rw [← hreadyout_eq]; rfl
  simp [corePort, masterOut, Ri5cyToAhb.outputs, masterIn, AhbToRi5cy.hrdataO, hlock]

theorem hreadyout_eq_not_writes (ins : Nat → Inputs) (n : Nat) :
    Ri5cyToAhb.hreadyout (masterIns ins) n = !writes ins n := by
  have hiff := hreadyout_eq_false_iff ins n
  rw [← writes] at hiff
  cases hw : writes ins n <;> simp [hw] at hiff <;> simp [hiff]

/-- A wait state lasts one cycle. -/
theorem not_writes_succ {n : Nat} (h : writes ins n = true) :
    writes ins (n + 1) = false := by
  rw [← Bool.not_eq_true, writes, AhbToRi5cy.writes_succ_iff]
  rintro ⟨hne, _⟩
  exact hne ((AhbToRi5cy.writes_iff _ _).mp h)

/-- The grants are the captures of the master bridge. -/
theorem cycles_grants (h : ∀ n, SpacedTo ins n) (n : Nat) :
    cycles (grants ins) n = cycles (Ri5cyToAhb.accepted (masterIns ins)) n :=
  cycles_congr fun k _ => ((h k).accepted_eq_grants).symm

theorem length_cycles_grants (h : ∀ n, SpacedTo ins n) (n : Nat) :
    (cycles (grants ins) n).length = (cycles (answers ins) n).length
      + (Ri5cyToAhb.owner (masterIns ins) n).toList.length := by
  rw [cycles_grants h, Ri5cyToAhb.accepted_eq_answered, Ri5cyToAhb.outstanding_eq,
    cycles_congr fun k _ => answers_eq ins k]

/-- The outstanding request is the first one not answered yet. -/
theorem getElem_of_owner (h : ∀ n, SpacedTo ins n) {j g : Nat}
    (ho : Ri5cyToAhb.owner (masterIns ins) j = some g) :
    (cycles (grants ins) j)[(cycles (answers ins) j).length]? = some g := by
  have hlen := Ri5cyToAhb.length_completed (masterIns ins) j
  rw [Ri5cyToAhb.owner] at ho
  rw [cycles_grants h, ← Ri5cyToAhb.accepts_eq, Pipeline.accepted_eq, ho,
    cycles_congr fun k _ => answers_eq ins k, ← hlen]
  exact List.getElem?_concat_length

/-- A request is answered one cycle after it is issued. -/
theorem answered_of_owner (h : ∀ n, SpacedTo ins n) {j g : Nat}
    (hans : answers ins j = true) (ho : Ri5cyToAhb.owner (masterIns ins) j = some g) :
    grants ins g = true ∧ j = issued ins g + 1 := by
  obtain ⟨hacc, hlt, hwait⟩ := Pipeline.owner_eq_some_iff.mp ho
  rw [Ri5cyToAhb.accepts_eq, (h g).accepted_eq_grants] at hacc
  rw [answers_eq, Ri5cyToAhb.answered_iff, hreadyout_eq_not_writes] at hans
  have hnext : writes ins (g + 1) = (ins g).weI := by
    rw [grants_eq] at hacc
    rw [writes, (h g).writes_succ, hacc, Bool.true_and]
  refine ⟨hacc, ?_⟩
  rw [issued]
  cases hwe : (ins g).weI
  · -- a read: no wait state
    by_contra hne
    have hw := hwait (g + 1) (by omega) (by simp at hne; omega)
    rw [hreadyout_eq_not_writes, hnext, hwe] at hw
    cases hw
  · -- a write: one wait state
    rw [hwe] at hnext
    by_contra hne
    have hgj : g + 1 ≠ j := by
      rintro rfl
      simp [hnext] at hans
    have hw := hwait (g + 2) (by omega) (by simp at hne; omega)
    rw [hreadyout_eq_not_writes, not_writes_succ hnext] at hw
    cases hw

/-! ## The port -/

/-- The granted requests are the issued ones and the write on the memory
port. -/
theorem map_meant (h : ∀ n, SpacedTo ins n) (n : Nat) :
    (cycles (grants ins) n).map (meant ins)
      = (issuedReqs ins n ++ if writes ins n then [memReq ins n] else []).map
          MemReq.access := by
  have hissued : (cycles (grants ins) n).map (meant ins)
      = ((cycles (grants ins) n).map (issued ins)).map
          fun k => (memReq ins k).access := by
    rw [List.map_map]
    exact List.map_congr_left fun k hk => (access_issued h (mem_cycles.mp hk).2).symm
  rw [hissued, map_issued h, issuedReqs]
  cases writes ins n <;> simp

theorem sameRequests (h : ∀ n, SpacedTo ins n) (n : Nat) :
    (issuedReqs ins n).map MemReq.access <+: (cycles (grants ins) n).map (meant ins) ∧
    (cycles (grants ins) n).map (meant ins)
      <+: (issuedReqs ins (n + 1)).map MemReq.access := by
  rw [map_meant h, List.map_append, issuedReqs, issuedReqs, cycles_succ]
  refine ⟨List.prefix_append _ _, ?_⟩
  cases hw : writes ins n
  · simp
  · simp [(requests_of_writes ins hw).1]

theorem allAnswered (h : ∀ n, SpacedTo ins n) (n : Nat) :
    (cycles (grants ins) n).length ≤ (cycles (answers ins) (n + 2)).length := by
  rw [length_cycles_grants h, length_cycles_succ, length_cycles_succ]
  cases ho : Ri5cyToAhb.owner (masterIns ins) n with
  | none => simp; omega
  | some g =>
      cases hw : writes ins n
      · have hans : answers ins n = true := by
          rw [answers_eq, Ri5cyToAhb.answered_iff, hreadyout_eq_not_writes, hw]
          exact ⟨rfl, g, ho⟩
        simp [hans]
      · -- in the wait state the request stays outstanding
        have hnext : Ri5cyToAhb.owner (masterIns ins) (n + 1) = some g := by
          rw [← ho]
          refine Pipeline.owner_succ_of_wait ?_
          rw [hreadyout_eq_not_writes, hw]; rfl
        have hans : answers ins (n + 1) = true := by
          rw [answers_eq, Ri5cyToAhb.answered_iff, hreadyout_eq_not_writes,
            not_writes_succ hw]
          exact ⟨rfl, g, hnext⟩
        simp [hans]

/-- At an answer all requests up to the answered one have been issued. -/
theorem length_issuedReqs (h : ∀ n, SpacedTo ins n) {j g : Nat}
    (hans : answers ins j = true) (ho : Ri5cyToAhb.owner (masterIns ins) j = some g) :
    (issuedReqs ins j).length = (cycles (answers ins) j).length + 1 := by
  rw [answers_eq, Ri5cyToAhb.answered_iff, hreadyout_eq_not_writes] at hans
  have hw : writes ins j = false := by simpa using hans.1
  have hgrants := length_cycles_grants h j
  have hmap := congrArg List.length (map_issued h j)
  simp only [ho, hw, List.length_map, Option.toList_some, List.length_singleton] at hgrants hmap
  simp only [issuedReqs, List.length_map]
  simp at hmap
  omega

theorem read_data (h : ∀ n, SpacedTo ins n) (hmem : Attached ins mem m0) {j g : Nat}
    (hans : answers ins j = true) (ho : Ri5cyToAhb.owner (masterIns ins) j = some g)
    (hread : (ins g).weI = false) :
    (corePort ins j).rdataO
      = mem.answer (mem.after m0
          ((issuedReqs ins j).take (cycles (answers ins) j).length)) (ins g).addrI := by
  have hlen := length_issuedReqs h hans ho
  obtain ⟨hg, rfl⟩ := answered_of_owner h hans ho
  have hissued : issued ins g = g := by simp [issued, hread]
  rw [hissued] at hlen ⊢
  rw [grants_eq] at hg
  have hw : writes ins g = false := (h g).not_writes hg
  have hport := memReq_of_not_writes ins hw
  have hreq : requests ins g = true := by
    rw [requests_of_not_writes ins hw, hg, hread]; rfl
  have hlast : issuedReqs ins (g + 1) = issuedReqs ins g ++ [memReq ins g] := by
    rw [issuedReqs, cycles_succ_of_high hreq, List.map_append]; rfl
  rw [hlast, List.length_append, List.length_singleton] at hlen
  rw [rdataO_eq, hmem g hreq (hport.1.trans hread), hport.2, hlast,
    List.take_left' (Nat.succ.inj hlen)]

/-- **The bridges back to back are a transparent memory port.** -/
theorem transparent (hcore : OneAtATime ins) (hmem : Attached ins mem m0) :
    Transparent ins mem m0 := by
  have h := hcore.spaced
  refine ⟨fun n hreq => ?_, sameRequests h, allAnswered h, fun j hans => ?_⟩
  · have hgrant := grants_eq ins n
    rw [grants, hreq, Bool.true_and] at hgrant
    exact hgrant
  obtain ⟨g, ho⟩ := ((Ri5cyToAhb.answered_iff _ _).mp (answers_eq ins j ▸ hans)).2
  refine ⟨g, getElem_of_owner h ho, ?_, read_data mem m0 h hmem hans ho⟩
  rw [length_issuedReqs h hans ho]
  exact Nat.lt_succ_self _

end Runs

/-- A memory of whole words. -/
def wordMemory : Memory (BitVec 32 → BitVec 32) where
  apply m r := fun a => if r.we && a == r.addr then r.wdata else m a
  answer m a := m a

/-- A write, and a read of the same word in the cycle of its answer. -/
def writeThenRead (n : Nat) : Inputs where
  reqI := n == 0 || n == 2
  weI := n == 0
  beI := 0b1111
  addrI := 0x1A100100
  wdataI := 0xCAFE
  rdataI := if n = 3 then 0xCAFE else 0

theorem writeThenRead_oneAtATime : OneAtATime writeThenRead := by
  intro n hq
  have hn : n = 0 ∨ n = 2 := by simpa [writeThenRead] using hq
  rcases hn with rfl | rfl <;> decide

theorem writeThenRead_attached : Attached writeThenRead wordMemory fun _ => 0 := by
  intro n hreq hread
  have hw : writes writeThenRead n = false := by
    rw [← Bool.not_eq_true]
    intro hw
    rw [(requests_of_writes _ hw).2] at hread
    cases hread
  rw [requests_of_not_writes _ hw] at hreq
  have hn : n = 2 := by
    simp [writeThenRead] at hreq
    omega
  subst hn
  decide

theorem transparent_writeThenRead :
    Transparent writeThenRead wordMemory fun _ => 0 :=
  transparent wordMemory _ writeThenRead_oneAtATime writeThenRead_attached

end RiscvSoc.BackToBack
