import RiscvSoc.BootRom.RomReads
import RiscvSoc.Soc.Fabric

/-!
# Soc — BootFetch

The core fetches the boot image: the instruction port with its bridge and
its filter, the interconnect, the ROM slave, and the ROM that the scripts
have made of the image. The interconnect is not part of the repository; it
is any that shows the slave the fetches that it takes for it, and passes
its answers on. What else it shows the slave, reads of the data port say,
does not matter.

The ROM has no wait states. So a fetch is answered in the cycle behind it,
and nothing can come between it and its word.
-/

namespace RiscvSoc.Soc

open Sync Mem Ri5cyToAhb BootRom

/-! ## The instruction port at the ROM -/

/-- The inputs of the bridge of the instruction port. -/
def fetchIns (f : Nat → Fetch) (n : Nat) : Inputs := (f n).inputs

/-- A fetch from the region of the ROM is taken. -/
def romFetch (rom : Region 32) (f : Nat → Fetch) (n : Nat) : Bool :=
  accepted (fetchIns f) n && decide (rom.contains (f n).instrAddr)

/-- The interconnect between the instruction port and the ROM slave with
the inputs `slave` and the outputs `out`. -/
structure Attached (rom : Region 32) (f : Nat → Fetch) (slave : Nat → AhbRi5cyRom.Inputs)
    (out : Nat → AhbRi5cyRom.Outputs) : Prop where
  shown : ∀ k, romFetch rom f k = true →
    AhbRi5cyRom.acceptedRead slave k = true ∧ (slave k).haddrI = (f k).instrAddr
  answer : ∀ k, romFetch rom f k = true →
    (f (k + 1)).hreadyoutI = (out (k + 1)).hreadyoutO ∧
      (f (k + 1)).hrdataI = (out (k + 1)).hrdataO

/-- The outputs of the slave with the ROM of a text. -/
def romOut (text : List Char) (mem0 : BitVec 32) (slave : Nat → AhbRi5cyRom.Inputs) (n : Nat) :
    AhbRi5cyRom.Outputs :=
  AhbRi5cyRom.outputs ((romSlave text mem0).stateAt slave n)

/-- The words of an image that can be fetched: what is left of an address
in the ROM fits its port. -/
def Reaches (image : List (BitVec 8)) (rom : Region 32) (addr : BitVec 32) : Prop :=
  4 ∣ addr.toNat ∧ (addr - rom.base).toNat < 2 ^ 16 ∧
    (addr - rom.base).toNat < 2 ^ romWidth image

/-- The word of an image that is fetched. -/
def fetchedWord (image : List (BitVec 8)) (rom : Region 32) (addr : BitVec 32) : BitVec 32 :=
  imageWord image (addr - rom.base).toNat

/-- **The image is fetched**: each fetch is answered in the next cycle with
its word, and a core that only fetches from the ROM is handed, in order,
the words it has asked for. -/
structure Fetched (image : List (BitVec 8)) (rom : Region 32) (f : Nat → Fetch) : Prop where
  each : ∀ k, romFetch rom f k = true → Reaches image rom (f k).instrAddr →
    (outputsAt (fetchIns f) (k + 1)).rvalidO = true ∧
      (outputsAt (fetchIns f) (k + 1)).rdataO = fetchedWord image rom (f k).instrAddr
  inOrder : ∀ n, (∀ k, k < n → accepted (fetchIns f) k = true →
      rom.contains (f k).instrAddr ∧ Reaches image rom (f k).instrAddr) →
    (cycles (answered (fetchIns f)) (n + 1)).map (fun k => (outputsAt (fetchIns f) k).rdataO)
      = (cycles (accepted (fetchIns f)) n).map fun k => fetchedWord image rom (f k).instrAddr

/-- The ROM of a text has the image for the core, on every run. -/
def FetchesImage (image : List (BitVec 8)) (text : List Char) : Prop :=
  ∀ (mem0 : BitVec 32) (rom : Region 32) (f : Nat → Fetch) (slave : Nat → AhbRi5cyRom.Inputs),
    2 ^ 16 ∣ rom.base.toNat → Attached rom f slave (romOut text mem0 slave) →
      Fetched image rom f

/-! ## The fabric -/

/-- The ROM slave on a bus. -/
def romPort (bus : Nat → Outputs) (n : Nat) : AhbRi5cyRom.Inputs where
  hselI := (bus n).hselO
  haddrI := (bus n).haddrO
  hwriteI := (bus n).hwriteO
  hreadyI := (bus n).hreadyO

/-- **The interconnect attaches the ROM**, if it shows each fetch from its
region at once and passes its data on. -/
theorem attached_of_interconnect {n : Nat} {m : AddrMap n} {p : Masters}
    {slave : Fin n → Nat → Outputs} {source : Fin n → Nat → Master × Nat}
    (h : Interconnect m (p.bus m) slave source) {k : Fin n} {out : Nat → AhbRi5cyRom.Outputs}
    (hnow : ∀ j, romFetch (m.region k) p.instr j = true →
      Pipeline.accepts (busReady (slave k)) (offered (slave k)) j = true ∧
        source k j = (.instr, j))
    (hready : ∀ j, (slave k j).hreadyO = (out j).hreadyoutO)
    (hdata : ∀ j, romFetch (m.region k) p.instr j = true →
      (p.instr (j + 1)).hrdataI = (out (j + 1)).hrdataO) :
    Attached (m.region k) p.instr (romPort (slave k)) out := by
  refine ⟨fun j hj => ?_, fun j hj => ⟨?_, hdata j hj⟩⟩
  · obtain ⟨hacc, hsource⟩ := hnow j hj
    obtain ⟨haddr, hwrite, _⟩ := h.address hacc
    obtain ⟨hsready, hoffer⟩ := Bool.and_eq_true_iff.mp hacc
    rw [hsource] at haddr hwrite
    refine ⟨?_, haddr⟩
    have hread : (slave k j).hwriteO = false := hwrite
    have hsel : (slave k j).hselO = true := (Bool.and_eq_true_iff.mp hoffer).1
    simp only [AhbRi5cyRom.acceptedRead, romPort, hsel, hread, Bool.true_and, Bool.not_false,
      Bool.and_true]
    exact hsready
  · obtain ⟨hacc, hsource⟩ := hnow j hj
    have hslave : Pipeline.owner (busReady (slave k)) (offered (slave k)) (j + 1) = some j :=
      Pipeline.owner_eq_some_iff.mpr ⟨hacc, DataPhase.start _ j⟩
    have hmaster := h.held hslave
    have hdec := h.select hacc
    rw [hsource] at hmaster hdec
    -- the fetch ends at the port of the core when it ends at the slave
    have hiff := h.ready hmaster hdec
    have hend : busReady (slave k) (j + 1) = true ∧
        (∃ a, Pipeline.owner (busReady (slave k)) (offered (slave k)) (j + 1) = some a ∧
          source k a = (.instr, j)) ↔ (out (j + 1)).hreadyoutO = true := by
      rw [busReady, hready]
      exact and_iff_left ⟨j, hslave, hsource⟩
    rw [Bool.eq_iff_iff]
    exact hiff.trans hend

/-! ## Addresses -/

/-- The address at the port of the ROM is the offset. -/
theorem toNat_raddr {rom : Region 32} {image : List (BitVec 8)} {i : AhbRi5cyRom.Inputs}
    (hbase : 2 ^ 16 ∣ rom.base.toNat) (h : Reaches image rom i.haddrI) :
    (AhbRi5cyRom.raddr i).toNat = (i.haddrI - rom.base).toNat := by
  obtain ⟨_, hlt, _⟩ := h
  have hsum : i.haddrI = rom.base + (i.haddrI - rom.base) := by
    rw [BitVec.add_comm, BitVec.sub_add_cancel]
  have hlow : (AhbRi5cyRom.raddr i).toNat = i.haddrI.toNat % 2 ^ 16 := by
    rw [AhbRi5cyRom.raddr, BitVec.extractLsb'_toNat, Nat.shiftRight_zero]
  obtain ⟨b, hb⟩ := hbase
  rw [hlow]
  generalize i.haddrI - rom.base = off at hlt hsum
  rw [hsum, BitVec.toNat_add, Nat.mod_mod_of_dvd _ (by decide : 2 ^ 16 ∣ 2 ^ 32), hb,
    Nat.mul_add_mod, Nat.mod_eq_of_lt hlt]

/-- What the ROM finds there is the word of the image. -/
theorem found_raddr {rom : Region 32} {image : List (BitVec 8)} {i : AhbRi5cyRom.Inputs}
    (hbase : 2 ^ 16 ∣ rom.base.toNat) (hmany : 1 < romWords image)
    (h : Reaches image rom i.haddrI) :
    found image (AhbRi5cyRom.raddr i).toNat = some (fetchedWord image rom i.haddrI) := by
  have haligned : 4 ∣ (AhbRi5cyRom.raddr i).toNat := by
    rw [AhbRi5cyRom.raddr, BitVec.extractLsb'_toNat, Nat.shiftRight_zero,
      Nat.dvd_mod_iff (by decide : 4 ∣ 2 ^ 16)]
    exact h.1
  rw [found, if_pos ⟨haligned, hmany⟩, toNat_raddr hbase h, Nat.mod_eq_of_lt h.2.2]
  rfl

/-! ## Fetches -/

section Runs

variable {rom : Region 32} {f : Nat → Fetch} {slave : Nat → AhbRi5cyRom.Inputs}
  {out : Nat → AhbRi5cyRom.Outputs}

/-- A fetch that is taken is answered in the next ready cycle. -/
theorem answered_succ {k : Nat} (h : accepted (fetchIns f) k = true)
    (hready : (f (k + 1)).hreadyoutI = true) : answered (fetchIns f) (k + 1) = true := by
  rw [answered_iff]
  refine ⟨hready, k, ?_⟩
  rw [owner, Pipeline.owner_eq_some_iff, accepts_eq]
  exact ⟨h, DataPhase.start _ k⟩

/-- Up to cycle `n` the ready cycles behind the fetches are the answers. -/
theorem answered_succ_eq {n : Nat}
    (hready : ∀ k, k < n → accepted (fetchIns f) k = true → (f (k + 1)).hreadyoutI = true)
    {k : Nat} (hk : k < n) : answered (fetchIns f) (k + 1) = accepted (fetchIns f) k := by
  rw [Bool.eq_iff_iff]
  constructor
  · intro hans
    obtain ⟨_, j, hj⟩ := (answered_iff _ _).mp hans
    rw [owner, Pipeline.owner_eq_some_iff, accepts_eq] at hj
    obtain ⟨hacc, hlt, hwait⟩ := hj
    by_cases hjk : j = k
    · exact hjk ▸ hacc
    · -- an older fetch was answered in the cycle behind it
      have hr := hready j (by omega) hacc
      have hw := hwait (j + 1) (by omega) (by omega)
      rw [hreadyout, fetchIns, Fetch.inputs, hr] at hw
      cases hw
  · exact fun h => answered_succ h (hready k hk h)

end Runs

/-- **The core fetches the boot image** that the scripts have put into the
ROM, as far as the port of the ROM reaches. -/
theorem boot_fetched {image : List (BitVec 8)} (hmany : 1 < romWords image) :
    ∃ text, genRomXilinx (Nat.clog 2) (convert 32 image) = some text ∧
      FetchesImage image text := by
  have hne : image ≠ [] := by
    rintro rfl
    exact absurd hmany (by decide)
  refine ⟨_, genRomXilinx_eq _ (convert_ne_nil hne), fun mem0 rom f slave hbase h => ?_⟩
  have hready : ∀ k, romFetch rom f k = true → (f (k + 1)).hreadyoutI = true := fun k hk =>
    (h.answer k hk).1
  have hdata : ∀ k, romFetch rom f k = true → Reaches image rom (f k).instrAddr →
      (f (k + 1)).hrdataI = fetchedWord image rom (f k).instrAddr := by
    intro k hk hreach
    obtain ⟨hread, haddr⟩ := h.shown k hk
    rw [← haddr] at hreach ⊢
    rw [(h.answer k hk).2]
    show hrdataAt _ mem0 slave (k + 1) = _
    rw [hrdataAt_succ hread (DataPhase.start _ k),
      assigned_eq hne (genRomXilinx_eq _ (convert_ne_nil hne)), found_raddr hbase hmany hreach]
    rfl
  refine ⟨fun k hk hreach => ⟨?_, hdata k hk hreach⟩, fun n hall => ?_⟩
  · exact answered_succ (Bool.and_eq_true_iff.mp hk).1 (hready k hk)
  · have hrom : ∀ k, k < n → accepted (fetchIns f) k = true → romFetch rom f k = true := by
      intro k hk hacc
      rw [romFetch, hacc, decide_eq_true (hall k hk hacc).1]
      rfl
    have hzero : answered (fetchIns f) 0 = false := rfl
    rw [cycles_delay_of_lt hzero fun k hk =>
      answered_succ_eq (fun j hj hacc => hready j (hrom j hj hacc)) hk, List.map_map]
    refine List.map_congr_left fun k hk => ?_
    obtain ⟨hlt, hacc⟩ := mem_cycles.mp hk
    exact hdata k (hrom k hlt hacc) (hall k hlt hacc).2

/-- Two fetches one behind the other, the slave on the port of the
bridge. -/
def twoFetches (n : Nat) : AhbRi5cyRom.Inputs :=
  ⟨n < 2, 0x1A000000 + BitVec.ofNat 32 (4 * n), false, true⟩

def fetchTwo (text : List Char) (n : Nat) : Fetch :=
  ⟨n < 2, 0x1A000000 + BitVec.ofNat 32 (4 * n), (romOut text 0 twoFetches n).hrdataO, true⟩

theorem boot_fetched_twoWords :
    ∃ text, genRomXilinx (Nat.clog 2) (convert 32 twoWords) = some text ∧
      Fetched twoWords (ahbMap.region ⟨0, by decide⟩) (fetchTwo text) := by
  obtain ⟨text, htext, h⟩ := boot_fetched (by decide : 1 < romWords twoWords)
  refine ⟨text, htext, h 0 _ _ twoFetches (by decide) ⟨fun k hk => ?_, fun k _ => ⟨rfl, rfl⟩⟩⟩
  obtain ⟨hacc, _⟩ := Bool.and_eq_true_iff.mp hk
  obtain ⟨hreq, _⟩ := Bool.and_eq_true_iff.mp hacc
  refine ⟨?_, rfl⟩
  have hsel : (twoFetches k).hselI = true := hreq
  rw [AhbRi5cyRom.acceptedRead, hsel]
  rfl

end RiscvSoc.Soc
