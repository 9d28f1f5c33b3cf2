import RiscvSoc.Mem.Lanes

/-!
# Bridge — Ahb

The AHB-Lite vocabulary the two bridges share: the `localparam` codes
both modules declare, how a byte address splits into a word and a lane,
and which lanes a transfer of a given size covers.
-/

namespace RiscvSoc.Ahb

open Mem

def idleHtrans : BitVec 2 := 0b00
def busyHtrans : BitVec 2 := 0b01
def nonseqHtrans : BitVec 2 := 0b10
def seqHtrans : BitVec 2 := 0b11

def byte : BitVec 3 := 0b000
def halfword : BitVec 3 := 0b001
def word : BitVec 3 := 0b010

/-- `NONSEQ` and `SEQ` request a transfer, `IDLE` and `BUSY` do not. -/
def transferring (htrans : BitVec 2) : Bool :=
  htrans == nonseqHtrans || htrans == seqHtrans

/-- A byte memory, as words of four byte lanes. -/
abbrev ByteMem := LaneMem (BitVec 30) (Fin 4) (BitVec 8)

def wordAddr (addr : BitVec 32) : BitVec 30 := addr.extractLsb' 2 30

def byteOffset (addr : BitVec 32) : BitVec 2 := addr.extractLsb' 0 2

/-- The lanes of a transfer of `2 ^ hsize` bytes from lane `offset` on,
cut off at the end of the word. -/
def sizeLanes (hsize : BitVec 3) (offset : BitVec 2) : BitVec 4 :=
  BitVec.ofNat 4 ((2 ^ 2 ^ hsize.toNat - 1) <<< offset.toNat)

/-- `be` is a non-empty run of lanes whose lowest is lane `offset`: the
byte enables of an aligned access and of either half of a misaligned
one. -/
def LaneRun (be : BitVec 4) (offset : BitVec 2) : Prop :=
  ∃ len, len < 5 ∧ 0 < len ∧ offset.toNat + len ≤ 4 ∧
    be = BitVec.ofNat 4 ((2 ^ len - 1) <<< offset.toNat)

instance (be : BitVec 4) (offset : BitVec 2) : Decidable (LaneRun be offset) :=
  inferInstanceAs (Decidable (∃ len, len < 5 ∧ _))

/-- One byte-enabled store of the datum `wdata` to `addr`. -/
def storeTo (addr : BitVec 32) (be : BitVec 4) (wdata : BitVec 32) :
    Store (BitVec 30) (Fin 4) (BitVec 8) where
  word := wordAddr addr
  enable := enables be
  data := lane wdata

/-! ## A background for telling stores apart

A memory, and data, of one byte everywhere: `stores_const` keeps it
still, and a datum of another byte shows up on it. -/

def backgroundWord : BitVec 32 := 0x55555555
def probeWord : BitVec 32 := 0xFFFFFFFF

def background : ByteMem := fun _ _ => 0x55

theorem lane_backgroundWord : ∀ l, lane backgroundWord l = 0x55 := by decide

theorem lane_probeWord : ∀ l, lane probeWord l = 0xFF := by decide

/-- The data that shows store `k` on the background. -/
def probeData (k n : Nat) : BitVec 32 :=
  if n = k then probeWord else backgroundWord

/-- The other stores do not show. -/
theorem stores_background {f : Nat → Store (BitVec 30) (Fin 4) (BitVec 8)} {k : Nat}
    {done : List Nat} (h : k ∉ done) (hf : ∀ j, (f j).data = lane (probeData k j)) :
    background.stores (done.map f) = background := by
  refine stores_const fun s hs l => ?_
  obtain ⟨j, hj, rfl⟩ := List.mem_map.mp hs
  have hne : j ≠ k := fun he => h (he ▸ hj)
  rw [hf, probeData, if_neg hne]
  exact lane_backgroundWord l

/-- On the background, a masked store of the probe through `en` acts
like the store of the probe through `be` only if the enables agree. -/
theorem enables_eq_of_probe (addr : BitVec 32) {en be : BitVec 4}
    (h : background.store ⟨wordAddr addr, enables en,
          masked (enables be) 0 (lane probeWord)⟩
        = background.store (storeTo addr be probeWord)) : en = be := by
  refine enables_inj (enables_eq_of_store_masked_eq (fun l => ?_) (fun l => ?_) h)
  · simp [background]
  · rw [lane_probeWord]; simp [background]

end RiscvSoc.Ahb
