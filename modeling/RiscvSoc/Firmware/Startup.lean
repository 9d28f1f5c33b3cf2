import RiscvSoc.Control.While
import RiscvSoc.Mem.Bytes
import Mathlib.Data.BitVec

/-!
# Firmware — Startup

`_start` of the boot ROM, up to the call of `main`: it copies the stored
image of `.data` and then clears `.bss`, a word at a time.

The sections may start and end anywhere. The copy runs up to three bytes
past the end of `.data`, into `.bss` when that follows at once, and the
clearing that comes behind it writes these bytes again. The clearing
starts where `.bss` starts, so it never meets `.data`.
-/

namespace RiscvSoc.Startup

open Mem Control

/-! ## The code -/

/-- The linker's symbols for the memory sections. -/
structure Symbols where
  storedData : BitVec 32
  startData : BitVec 32
  endData : BitVec 32
  startBss : BitVec 32
  endBss : BitVec 32
  deriving DecidableEq, Repr

/-- The two pointers and the memory. -/
structure State where
  src : BitVec 32
  dst : BitVec 32
  mem : Bytes 32

/-- `*dst = *src; dst++; src++;` -/
def copyWord (s : State) : State where
  mem := storeWord s.mem s.dst (loadWord s.mem s.src)
  dst := s.dst + 4
  src := s.src + 4

/-- `*dst = 0U; dst++;` -/
def clearWord (s : State) : State where
  mem := storeWord s.mem s.dst 0
  dst := s.dst + 4
  src := s.src

variable (y : Symbols)

/-- Copy the `.data` section from flash to RAM. -/
def copyData (fuel : Nat) (s : State) : Option State :=
  whileLoop (fun s => decide (s.dst < y.endData)) copyWord fuel
    { s with src := y.storedData, dst := y.startData }

/-- Initialize the `.bss` section to 0. -/
def clearBss (fuel : Nat) (s : State) : Option State :=
  whileLoop (fun s => decide (s.dst < y.endBss)) clearWord fuel { s with dst := y.startBss }

def start (fuel : Nat) (s : State) : Option State :=
  (copyData y fuel s).bind fun s => clearBss y fuel s

/-! ## The layout -/

/-- The bytes that the start-up may write. -/
def Written (a : BitVec 32) : Prop :=
  y.startData.toNat ≤ a.toNat ∧ a.toNat < y.endBss.toNat + 3

/-- Where the image of the byte at `a` is stored. -/
def stored (a : BitVec 32) : BitVec 32 := y.storedData + (a - y.startData)

/-- The sections in their order, and the stored image off them. -/
structure Layout : Prop where
  data : y.startData ≤ y.endData
  dataBss : y.endData ≤ y.startBss
  bss : y.startBss ≤ y.endBss
  noWrap : y.endBss.toNat + 3 < 2 ^ 32
  image : ∀ a, y.startData ≤ a → a < y.endData → ¬ Written y (stored y a)

/-- **What the start-up makes of the memory `m`.** -/
structure Initialised (m m' : Bytes 32) : Prop where
  data : ∀ a, y.startData ≤ a → a < y.endData → m' a = m (stored y a)
  bss : ∀ a, y.startBss ≤ a → a < y.endBss → m' a = 0
  outside : ∀ a, ¬ Written y a → m' a = m a

/-- In the copy: what is behind `dst` has its image, the rest is as it
was. -/
structure Copying (m : Bytes 32) (s : State) : Prop where
  src : s.src = stored y s.dst
  start_le : y.startData.toNat ≤ s.dst.toNat
  le_end : s.dst.toNat ≤ y.endData.toNat + 3
  copied : ∀ a, y.startData ≤ a → a < y.endData → a < s.dst → s.mem a = m (stored y a)
  rest : ∀ a : BitVec 32, a.toNat < y.startData.toNat ∨ s.dst.toNat ≤ a.toNat → s.mem a = m a

/-- In the clearing: what is behind `dst` is 0, the rest is as it was. -/
structure Clearing (m : Bytes 32) (s : State) : Prop where
  start_le : y.startBss.toNat ≤ s.dst.toNat
  le_end : s.dst.toNat ≤ y.endBss.toNat + 3
  cleared : ∀ a, y.startBss ≤ a → a < s.dst → s.mem a = 0
  rest : ∀ a : BitVec 32, a.toNat < y.startBss.toNat ∨ s.dst.toNat ≤ a.toNat → s.mem a = m a

variable {y}

/-! ## One word -/

/-- A pointer below the end of a section moves on without wrapping. -/
theorem toNat_next {p e : BitVec 32} (hp : p < e) (he : e.toNat + 3 < 2 ^ 32) :
    (p + 4).toNat = p.toNat + 4 := by
  rw [BitVec.lt_def] at hp
  exact BitVec.toNat_add_of_lt (show p.toNat + 4 < 2 ^ 32 by omega)

/-- A word there lies on these four bytes. -/
theorem dist_lt_four_iff {p e : BitVec 32} (hp : p < e) (he : e.toNat + 3 < 2 ^ 32)
    (a : BitVec 32) : dist p a < 4 ↔ p.toNat ≤ a.toNat ∧ a.toNat < p.toNat + 4 := by
  rw [BitVec.lt_def] at hp
  exact dist_lt_iff (by omega)

theorem Layout.endData_no_wrap (hy : Layout y) : y.endData.toNat + 3 < 2 ^ 32 := by
  have hbss := BitVec.le_def.mp hy.dataBss
  have hle := BitVec.le_def.mp hy.bss
  have hwrap := hy.noWrap
  omega

section Copy

variable {m : Bytes 32} {s : State}

/-- The image of a byte is still as it was. -/
theorem Copying.mem_stored (hy : Layout y) (h : Copying y m s) {a : BitVec 32}
    (ha : y.startData ≤ a) (he : a < y.endData) : s.mem (stored y a) = m (stored y a) := by
  have hend := h.le_end
  have hbss := BitVec.le_def.mp hy.dataBss
  have hle := BitVec.le_def.mp hy.bss
  refine h.rest _ ?_
  by_contra hin
  exact hy.image a ha he ⟨by omega, by omega⟩

/-- The image is stored in the order of its bytes. -/
theorem stored_add (p a : BitVec 32) : stored y p + (a - p) = stored y a := by
  unfold stored
  rw [add_assoc, sub_add_sub_cancel']

/-- A round of the first loop. -/
theorem Copying.copyWord (hy : Layout y) (h : Copying y m s) (hc : s.dst < y.endData) :
    Copying y m (copyWord s) := by
  have hnext := toNat_next hc hy.endData_no_wrap
  have hword := dist_lt_four_iff hc hy.endData_no_wrap
  have hstart := h.start_le
  have hlt := BitVec.lt_def.mp hc
  refine ⟨?_, ?_, ?_, fun a ha he hd => ?_, fun a ha => ?_⟩
  · show s.src + 4 = stored y (s.dst + 4)
    rw [h.src, ← stored_add s.dst (s.dst + 4), BitVec.add_comm s.dst, BitVec.add_sub_cancel]
  · show _ ≤ (s.dst + 4).toNat
    omega
  · show (s.dst + 4).toNat ≤ _
    omega
  · show storeWord s.mem s.dst (loadWord s.mem s.src) a = _
    by_cases hin : dist s.dst a < 4
    · rw [storeWord_of_lt _ _ hin, lane_loadWord, h.src, stored_add]
      exact h.mem_stored hy ha he
    · have hbelow : (a : BitVec 32).toNat < (s.dst + 4).toNat := BitVec.lt_def.mp hd
      rw [storeWord_of_ge _ _ (by omega)]
      exact h.copied a ha he (BitVec.lt_def.mpr (by have := (hword a).not.mp hin; omega))
  · show storeWord s.mem s.dst (loadWord s.mem s.src) a = _
    change a.toNat < _ ∨ (s.dst + 4).toNat ≤ a.toNat at ha
    have hout := hword a
    rw [storeWord_of_ge _ _ (by omega)]
    exact h.rest a (by omega)

/-- A round of the second loop. -/
theorem Clearing.clearWord (hy : Layout y) (h : Clearing y m s) (hc : s.dst < y.endBss) :
    Clearing y m (clearWord s) := by
  have hnext := toNat_next hc hy.noWrap
  have hword := dist_lt_four_iff hc hy.noWrap
  have hstart := h.start_le
  have hlt := BitVec.lt_def.mp hc
  refine ⟨?_, ?_, fun a ha hd => ?_, fun a ha => ?_⟩
  · show _ ≤ (s.dst + 4).toNat
    omega
  · show (s.dst + 4).toNat ≤ _
    omega
  · show storeWord s.mem s.dst 0 a = 0
    by_cases hin : dist s.dst a < 4
    · exact storeWord_zero_of_lt _ hin
    · have hbelow : a.toNat < (s.dst + 4).toNat := BitVec.lt_def.mp hd
      have hout := hword a
      rw [storeWord_of_ge _ _ (by omega)]
      exact h.cleared a ha (BitVec.lt_def.mpr (by omega))
  · show storeWord s.mem s.dst 0 a = _
    change a.toNat < _ ∨ (s.dst + 4).toNat ≤ a.toNat at ha
    have hout := hword a
    rw [storeWord_of_ge _ _ (by omega)]
    exact h.rest a (by omega)

end Copy

/-! ## The loops -/

/-- How far the pointer still is from the end. -/
theorem sub_next_lt {p e : BitVec 32} (hp : p < e) (he : e.toNat + 3 < 2 ^ 32) :
    e.toNat - (p + 4).toNat < e.toNat - p.toNat := by
  have hnext := toNat_next hp he
  have hlt := BitVec.lt_def.mp hp
  omega

/-- **The first loop ends, with the whole of `.data` copied.** -/
theorem copyData_ends (hy : Layout y) (s : State) :
    ∃ s', Ends (fun f => copyData y f s) s' ∧ Copying y s.mem s' ∧ ¬ s'.dst < y.endData := by
  have hle := BitVec.le_def.mp hy.data
  have h0 : Copying y s.mem { s with src := y.storedData, dst := y.startData } := by
    refine ⟨?_, Nat.le_refl _, show y.startData.toNat ≤ _ by omega, fun a ha _ hd => ?_,
      fun _ _ => rfl⟩
    · show y.storedData = stored y y.startData
      rw [stored, BitVec.sub_self, BitVec.add_zero]
    · exact absurd (BitVec.lt_def.mp hd) (Nat.not_lt.mpr (BitVec.le_def.mp ha))
  obtain ⟨s', hend, hinv, hout⟩ := whileLoop_total
    (fun s => decide (s.dst < y.endData)) copyWord (Copying y s.mem)
    (fun s => y.endData.toNat - s.dst.toNat)
    (fun t ht hc => ⟨ht.copyWord hy (of_decide_eq_true hc),
      sub_next_lt (of_decide_eq_true hc) hy.endData_no_wrap⟩) h0
  exact ⟨s', hend, hinv, of_decide_eq_false hout⟩

/-- **The second loop ends, with the whole of `.bss` cleared.** -/
theorem clearBss_ends (hy : Layout y) (s : State) :
    ∃ s', Ends (fun f => clearBss y f s) s' ∧ Clearing y s.mem s' ∧ ¬ s'.dst < y.endBss := by
  have hle := BitVec.le_def.mp hy.bss
  have h0 : Clearing y s.mem { s with dst := y.startBss } := by
    refine ⟨Nat.le_refl _, show y.startBss.toNat ≤ _ by omega, fun a ha hd => ?_,
      fun _ _ => rfl⟩
    exact absurd (BitVec.lt_def.mp hd) (Nat.not_lt.mpr (BitVec.le_def.mp ha))
  obtain ⟨s', hend, hinv, hout⟩ := whileLoop_total
    (fun s => decide (s.dst < y.endBss)) clearWord (Clearing y s.mem)
    (fun s => y.endBss.toNat - s.dst.toNat)
    (fun t ht hc => ⟨ht.clearWord hy (of_decide_eq_true hc),
      sub_next_lt (of_decide_eq_true hc) hy.noWrap⟩) h0
  exact ⟨s', hend, hinv, of_decide_eq_false hout⟩

/-! ## The start-up -/

/-- What the two loops leave together. -/
theorem initialised_of_loops (hy : Layout y) {m : Bytes 32} {s s' : State}
    (hcopy : Copying y m s) (hdata : ¬ s.dst < y.endData) (hclear : Clearing y s.mem s')
    (hbss : ¬ s'.dst < y.endBss) : Initialised y m s'.mem := by
  have hd := hcopy.le_end
  have hb := hclear.le_end
  have hle := BitVec.le_def.mp hy.bss
  have hgap := BitVec.le_def.mp hy.dataBss
  have hsec := BitVec.le_def.mp hy.data
  rw [BitVec.lt_def] at hdata hbss
  refine ⟨fun a ha he => ?_, fun a ha he => ?_, fun a hout => ?_⟩
  · -- the clearing starts behind `.data`
    have hlt := BitVec.lt_def.mp he
    rw [hclear.rest a (by omega)]
    exact hcopy.copied a ha he (BitVec.lt_def.mpr (by omega))
  · have hlt := BitVec.lt_def.mp he
    exact hclear.cleared a ha (BitVec.lt_def.mpr (by omega))
  · unfold Written at hout
    rw [hclear.rest a (by omega)]
    exact hcopy.rest a (by omega)

/-- **The start-up ends and initialises the memory.** -/
theorem start_initialises (hy : Layout y) (s : State) :
    ∃ s', Ends (fun f => start y f s) s' ∧ Initialised y s.mem s'.mem := by
  obtain ⟨t, hcopyEnds, hcopy, hdata⟩ := copyData_ends hy s
  obtain ⟨s', hclearEnds, hclear, hbss⟩ := clearBss_ends hy t
  exact ⟨s', hcopyEnds.bind hclearEnds, initialised_of_loops hy hcopy hdata hclear hbss⟩

/-- Five bytes of data, and at once three bytes to clear. -/
def smallSections : Symbols where
  storedData := 0x1A000400
  startData := 0x30000000
  endData := 0x30000005
  startBss := 0x30000005
  endBss := 0x30000008

theorem smallSections_layout : Layout smallSections := by
  refine ⟨by decide, by decide, by decide, by decide, fun a ha he => ?_⟩
  unfold Written stored smallSections at *
  bv_omega

theorem start_initialises_smallSections :
    ∃ s', Ends (fun f => start smallSections f ⟨0, 0, fun a => a.setWidth 8⟩) s' ∧
      Initialised smallSections (fun a => a.setWidth 8) s'.mem :=
  start_initialises smallSections_layout ⟨0, 0, fun a => a.setWidth 8⟩

end RiscvSoc.Startup
