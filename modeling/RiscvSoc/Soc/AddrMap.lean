import RiscvSoc.Mem.Region

/-!
# Soc — AddrMap

The address map of the SoC and the two places that decode it. The
interconnect is given a base and a mask for each slave and selects by
comparing masked bits; `filter_oor` compares the address with the bounds
of each region. On a map of aligned, disjoint regions the two agree.
-/

namespace RiscvSoc.Soc

open Mem

/-! ## Maps -/

/-- The regions of `n` slaves, no address in two of them. -/
structure AddrMap (n : Nat) where
  region : Fin n → Region 32
  disjoint : ∀ i j, i ≠ j → ∀ a, ¬ ((region i).contains a ∧ (region j).contains a)

variable {n : Nat}

namespace AddrMap

/-- `ahb_slv_addr_mask`: `~(FINAL ADDRESS - BASE ADDRESS)`. -/
def slvAddrMask (m : AddrMap n) (k : Fin n) : BitVec 32 :=
  ~~~((m.region k).last - (m.region k).base)

/-- The rule assumed of the interconnect: slave `k` is selected. -/
def decoded (m : AddrMap n) (addr : BitVec 32) (k : Fin n) : Bool :=
  (addr &&& m.slvAddrMask k) == ((m.region k).base &&& m.slvAddrMask k)

end AddrMap

/-! ## filter_oor -/

structure FilterOutputs where
  validO : Bool
  errorO : Bool
  deriving DecidableEq, Repr

def enAddr (m : AddrMap n) (addrI : BitVec 32) (i : Fin n) : Bool :=
  if addrI ≥ (m.region i).base ∧ addrI ≤ (m.region i).last then true else false

def filterOor (m : AddrMap n) (addrI : BitVec 32) (inputSelI : Bool) : FilterOutputs :=
  let enableValid := if inputSelI && (List.finRange n).any (enAddr m addrI) then true else false
  { validO := if enableValid then inputSelI else false
    errorO := inputSelI && !enableValid }

/-! ## Agreement -/

theorem decoded_iff (m : AddrMap n) (addr : BitVec 32) (k : Fin n) :
    m.decoded addr k = true ↔ (m.region k).contains addr := by
  rw [AddrMap.decoded, beq_iff_eq]
  exact (m.region k).and_mask_eq_iff addr

theorem enAddr_iff (m : AddrMap n) (addr : BitVec 32) (k : Fin n) :
    enAddr m addr k = true ↔ (m.region k).contains addr := by
  simp [enAddr, Region.contains]

/-- At most one slave is selected. -/
theorem decoded_unique (m : AddrMap n) {addr : BitVec 32} {i j : Fin n}
    (hi : m.decoded addr i = true) (hj : m.decoded addr j = true) : i = j := by
  by_contra hne
  exact m.disjoint i j hne addr ⟨(decoded_iff m addr i).mp hi, (decoded_iff m addr j).mp hj⟩

/-- The filter sees an address in range iff the interconnect selects. -/
theorem any_enAddr_iff (m : AddrMap n) (addr : BitVec 32) :
    (List.finRange n).any (enAddr m addr) = true ↔ ∃ k, m.decoded addr k = true := by
  simp [enAddr_iff, decoded_iff]

/-- The two outputs of the filter. -/
theorem filterOor_iff (m : AddrMap n) (addr : BitVec 32) (sel : Bool) :
    ((filterOor m addr sel).validO = true ↔ sel = true ∧ ∃ k, m.decoded addr k = true) ∧
    ((filterOor m addr sel).errorO = true ↔
      sel = true ∧ ¬ ∃ k, m.decoded addr k = true) := by
  rw [← any_enAddr_iff, filterOor]
  cases sel <;> cases (List.finRange n).any (enAddr m addr) <;> simp

/-- What agreement of the two decoders means on a map. -/
def Agree (m : AddrMap n) : Prop :=
  ∀ (addr : BitVec 32) (sel : Bool),
    (∀ i j, m.decoded addr i = true → m.decoded addr j = true → i = j) ∧
    ((filterOor m addr sel).validO = true ↔
      sel = true ∧ ∃ k, m.decoded addr k = true ∧ ∀ j, m.decoded addr j = true → j = k) ∧
    ((filterOor m addr sel).errorO = true ↔
      sel = true ∧ ∀ k, m.decoded addr k = false)

/-! ## The SoC's tables -/

/-- `ahb_addr`: base and end address of each AHB slave. -/
def ahbAddr : Fin 6 → BitVec 32 × BitVec 32
  | 0 => (0x1A000000, 0x1A00FFFF)
  | 1 => (0x1B000000, 0x1B00FFFF)
  | 2 => (0x1C000000, 0x1C00FFFF)
  | 3 => (0x20000000, 0x200FFFFF)
  | 4 => (0x30000000, 0x300FFFFF)
  | 5 => (0x40000000, 0x400FFFFF)

def apbBaseAddrAll : BitVec 32 := 0x40000000

/-- `apb_addr`, for the APB slaves. -/
def apbAddr : Fin 5 → BitVec 32 × BitVec 32
  | 0 => (apbBaseAddrAll + 0x00000000, apbBaseAddrAll + 0x0000FFFF)
  | 1 => (apbBaseAddrAll + 0x00010000, apbBaseAddrAll + 0x0001FFFF)
  | 2 => (apbBaseAddrAll + 0x00020000, apbBaseAddrAll + 0x0002FFFF)
  | 3 => (apbBaseAddrAll + 0x00030000, apbBaseAddrAll + 0x0003FFFF)
  | 4 => (apbBaseAddrAll + 0x00040000, apbBaseAddrAll + 0x0004FFFF)

/-- Bounds in order are disjoint. -/
theorem disjoint_of_bounds {r s : Region 32} (h : r.last < s.base ∨ s.last < r.base)
    (a : BitVec 32) : ¬ (r.contains a ∧ s.contains a) := by
  rintro ⟨⟨h1, h2⟩, h3, h4⟩
  rw [BitVec.le_def] at h1 h2 h3 h4
  rw [BitVec.lt_def, BitVec.lt_def] at h
  omega

def ahbMap : AddrMap 6 where
  region i :=
    { base := (ahbAddr i).1
      last := (ahbAddr i).2
      aligned := ⟨if i < 3 then 16 else 20, by revert i; decide⟩ }
  disjoint i j hij := disjoint_of_bounds (by revert i j; decide)

def apbMap : AddrMap 5 where
  region i :=
    { base := (apbAddr i).1
      last := (apbAddr i).2
      aligned := ⟨16, by revert i; decide⟩ }
  disjoint i j hij := disjoint_of_bounds (by revert i j; decide)

/-- **The filter and the interconnect agree** on every map, and so on
the two of the SoC. -/
theorem filter_agrees :
    (∀ (n : Nat) (m : AddrMap n), Agree m) ∧ Agree ahbMap ∧ Agree apbMap := by
  have hall : ∀ (n : Nat) (m : AddrMap n), Agree m := by
    intro n m addr sel
    obtain ⟨hvalid, herror⟩ := filterOor_iff m addr sel
    refine ⟨fun i j => decoded_unique m, ?_, ?_⟩
    · rw [hvalid]
      refine and_congr_right fun _ => exists_congr fun k => ?_
      constructor
      · intro hk
        exact ⟨hk, fun j hj => decoded_unique m hj hk⟩
      · exact And.left
    · rw [herror]
      simp only [not_exists, Bool.not_eq_true]
  exact ⟨hall, hall 6 ahbMap, hall 5 apbMap⟩

end RiscvSoc.Soc
