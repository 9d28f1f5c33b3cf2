import Mathlib.Logic.Function.Basic
import RiscvSoc.Mem.Lanes
import RiscvSoc.Mem.Overlay

/-!
# Testbench — LoadElf

`loadELF`, the testbench's ELF loader. What it does to the simulated
SoC is the row of calls it makes of the SoC's public functions; the
model returns that row together with the result.

The loader writes every segment from word 0 of a RAM on, and it looks
at neither the type of a program header nor at its address, but to pick
the RAM.
-/

namespace RiscvSoc.LoadElf

open Mem

/-! ## The SoC's public functions -/

/-- The sizes the simulator is built with. -/
structure Config where
  iramKbSize : Nat
  dramKbSize : Nat

inductive Ram where
  | iram
  | dram
  deriving DecidableEq, Repr

def Ram.base : Ram → Nat
  | .iram => 0x20000000
  | .dram => 0x30000000

def Config.kbSize (cfg : Config) : Ram → Nat
  | .iram => cfg.iramKbSize
  | .dram => cfg.dramKbSize

/-- The words of a RAM: `IRAM_SIZE`, `DRAM_SIZE`. -/
def Config.depth (cfg : Config) (R : Ram) : Nat := cfg.kbSize R * 1024 / 4

/-- The state the loader writes to. -/
structure Soc where
  iram : Nat → BitVec 32
  dram : Nat → BitVec 32
  rstAddr : BitVec 32

def Soc.ram (soc : Soc) : Ram → Nat → BitVec 32
  | .iram => soc.iram
  | .dram => soc.dram

inductive Call where
  | writeWordIRAM (addrVal : Nat) (wordVal : BitVec 32)
  | writeWordDRAM (addrVal : Nat) (wordVal : BitVec 32)
  | writeRstAddr (bootAddr : BitVec 32)
  deriving DecidableEq, Repr

/-- `mem_array[addr_val] = word_val`; outside the array it has no
effect. -/
def setWord (depth : Nat) (mem : Nat → BitVec 32) (addrVal : Nat) (wordVal : BitVec 32) :
    Nat → BitVec 32 :=
  if addrVal < depth then Function.update mem addrVal wordVal else mem

def Soc.call (cfg : Config) (soc : Soc) : Call → Soc
  | .writeWordIRAM a w => { soc with iram := setWord (cfg.depth .iram) soc.iram a w }
  | .writeWordDRAM a w => { soc with dram := setWord (cfg.depth .dram) soc.dram a w }
  | .writeRstAddr a => { soc with rstAddr := a }

def Soc.calls (cfg : Config) (soc : Soc) (cs : List Call) : Soc := cs.foldl (Soc.call cfg) soc

/-! ## The file -/

/-- The fields of a program header, as the loader casts them. `type` is
the one it does not read. -/
structure Header where
  type : BitVec 32
  physicalAddress : BitVec 32
  memorySize : BitVec 32
  fileSize : BitVec 32
  deriving DecidableEq, Repr

/-- A loaded file. `data i` is `segments[i]->get_data()`, and behind its
end whatever the loader reads there. -/
structure ElfFile where
  elfClass : BitVec 8
  machine : BitVec 16
  entry : BitVec 32
  headers : List Header
  data : Nat → Nat → BitVec 8

def elfclass32 : BitVec 8 := 1
def emRiscv : BitVec 16 := 0xf3
def ptLoad : BitVec 32 := 1

/-! ## The loader -/

/-- Four bytes from `p` on, as the loader adds them up. -/
def wordLine (data : Nat → BitVec 8) (p : Nat) : BitVec 32 :=
  ((data (p + 3)).setWidth 32 <<< 24) + ((data (p + 2)).setWidth 32 <<< 16)
    + ((data (p + 1)).setWidth 32 <<< 8) + (data p).setWidth 32

/-- The size check, against the size of the IRAM for both RAMs. -/
def tooBig (cfg : Config) (h : Header) : Bool :=
  h.memorySize.toNat ≥ cfg.iramKbSize * 1024

def inIram (lmaAddr : BitVec 32) : Bool :=
  lmaAddr ≥ 0x20000000 && lmaAddr < 0x30000000

/-- `for (p = 0; p < mem_size; p += 4)`. A size that passed the size
check is too small for `p` to wrap. -/
def steps (memSize : Nat) : List Nat := List.range' 0 ((memSize + 3) / 4) 4

/-- One pass through the segment loop, after the size check. -/
def segmentCalls (h : Header) (data : Nat → BitVec 8) : List Call :=
  if inIram h.physicalAddress then
    (steps h.memorySize.toNat).map fun p => .writeWordIRAM (p / 4) (wordLine data p)
  else
    (steps h.memorySize.toNat).map fun p =>
      .writeWordDRAM (p / 4) (if p ≥ h.fileSize.toNat then 0 else wordLine data p)

/-- The segment loop from index `i` on. The index is a `uint8_t`; a run
that does not end within `fuel` passes gives `none`. -/
def segmentLoop (cfg : Config) (file : ElfFile) : Nat → BitVec 8 → Option (Bool × List Call)
  | 0, _ => none
  | fuel + 1, i =>
      match file.headers[i.toNat]? with
      | none => some (true, [])
      | some h =>
          if tooBig cfg h then some (false, [])
          else
            match segmentLoop cfg file fuel (i + 1) with
            | none => none
            | some (ok, cs) => some (ok, segmentCalls h (file.data i.toNat) ++ cs)

def loadELF (cfg : Config) (file : ElfFile) (fuel : Nat) : Option (Bool × List Call) :=
  if file.elfClass ≠ elfclass32 ∨ file.machine ≠ emRiscv then some (false, [])
  else
    match segmentLoop cfg file fuel 0 with
    | none => none
    | some (false, cs) => some (false, cs)
    | some (true, cs) => some (true, cs ++ [.writeRstAddr file.entry])

/-! ## One segment -/

/-- The word is the little-endian one. -/
theorem wordLine_eq (data : Nat → BitVec 8) (p : Nat) :
    wordLine data p = ofLanes fun l => data (p + l) := by
  have h0 := (data p).isLt
  have h1 := (data (p + 1)).isLt
  have h2 := (data (p + 2)).isLt
  have h3 := (data (p + 3)).isLt
  apply BitVec.eq_of_toNat_eq
  rw [toNat_ofLanes]
  simp only [wordLine, BitVec.toNat_add, BitVec.toNat_shiftLeft, BitVec.toNat_setWidth,
    Nat.shiftLeft_eq]
  simp
  omega

/-- The RAM the loader picks. -/
def Header.target (h : Header) : Ram := if inIram h.physicalAddress then .iram else .dram

/-- The words of that RAM the loader writes. -/
def Header.reach (cfg : Config) (h : Header) : Nat :=
  min ((h.memorySize.toNat + 3) / 4) (cfg.depth h.target)

/-- What it writes to word `k`. -/
def Header.word (h : Header) (data : Nat → BitVec 8) (k : Nat) : BitVec 32 :=
  if inIram h.physicalAddress then wordLine data (4 * k)
  else if 4 * k ≥ h.fileSize.toNat then 0 else wordLine data (4 * k)

def Call.writeWord : Ram → Nat → BitVec 32 → Call
  | .iram => .writeWordIRAM
  | .dram => .writeWordDRAM

theorem ram_writeWord (cfg : Config) (soc : Soc) (R S : Ram) (k : Nat) (w : BitVec 32) :
    (soc.call cfg (.writeWord R k w)).ram S =
      if R = S ∧ k < cfg.depth R then Function.update (soc.ram S) k w else soc.ram S := by
  cases R <;> cases S <;> simp [Call.writeWord, Soc.call, Soc.ram, setWord]

theorem calls_append (cfg : Config) (soc : Soc) (cs ds : List Call) :
    soc.calls cfg (cs ++ ds) = (soc.calls cfg cs).calls cfg ds :=
  List.foldl_append

theorem calls_singleton (cfg : Config) (soc : Soc) (c : Call) :
    soc.calls cfg [c] = soc.call cfg c := rfl

/-- A loop of calls that writes words `0` to `n - 1` of one RAM. -/
theorem ram_writeWords (cfg : Config) (soc : Soc) (R S : Ram) (w : Nat → BitVec 32)
    (n k : Nat) :
    (soc.calls cfg ((List.range n).map fun k => .writeWord R k (w k))).ram S k =
      if R = S ∧ k < min n (cfg.depth R) then w k else soc.ram S k := by
  induction n with
  | zero => simp [Soc.calls]
  | succ n ih =>
      rw [List.range_succ, List.map_append, List.map_singleton, calls_append,
        calls_singleton, ram_writeWord]
      by_cases hR : R = S ∧ n < cfg.depth R
      · rw [if_pos hR]
        by_cases hk : k = n
        · subst hk
          rw [Function.update_self, if_pos ⟨hR.1, by omega⟩]
        · rw [Function.update_of_ne hk, ih]
          have hiff : k < min n (cfg.depth R) ↔ k < min (n + 1) (cfg.depth R) := by omega
          simp only [hiff]
      · rw [if_neg hR, ih]
        have hiff : (R = S ∧ k < min n (cfg.depth R)) ↔
            (R = S ∧ k < min (n + 1) (cfg.depth R)) := by
          refine and_congr_right fun hS => ?_
          have hn : ¬ n < cfg.depth R := fun hn => hR ⟨hS, hn⟩
          omega
        simp only [hiff]

theorem steps_eq (n : Nat) : steps n = (List.range ((n + 3) / 4)).map (4 * ·) := by
  unfold steps
  apply List.ext_getElem <;> simp

theorem segmentCalls_eq (h : Header) (data : Nat → BitVec 8) :
    segmentCalls h data = (List.range ((h.memorySize.toNat + 3) / 4)).map fun k =>
      .writeWord h.target k (h.word data k) := by
  have hdiv : ∀ k, 4 * k / 4 = k := fun k => Nat.mul_div_cancel_left k (by decide)
  unfold segmentCalls Header.target Header.word
  rw [steps_eq]
  split <;> simp [Call.writeWord, hdiv, Function.comp_def]

/-- **What one pass of the loop does**: it fills the first words of a
RAM with the first words of the segment. -/
theorem ram_segmentCalls (cfg : Config) (soc : Soc) (h : Header) (data : Nat → BitVec 8)
    (R : Ram) (k : Nat) :
    (soc.calls cfg (segmentCalls h data)).ram R k =
      if h.target = R ∧ k < h.reach cfg then h.word data k else soc.ram R k := by
  rw [segmentCalls_eq, ram_writeWords, Header.reach]

/-! ## The headers -/

section Headers

variable (cfg : Config) (file : ElfFile)

/-- Segment `i` writes word `k` of `R`. -/
def hits (R : Ram) (i k : Nat) : Bool :=
  match file.headers[i]? with
  | none => false
  | some h => h.target == R && k < h.reach cfg

theorem hits_iff {cfg : Config} {file : ElfFile} {R : Ram} {i k : Nat} {h : Header}
    (hi : file.headers[i]? = some h) :
    hits cfg file R i k = true ↔ h.target = R ∧ k < h.reach cfg := by
  simp [hits, hi]

/-- What segment `i` writes to word `k`. -/
def val (i k : Nat) : BitVec 32 :=
  match file.headers[i]? with
  | none => 0
  | some h => h.word (file.data i) k

/-- Every header passes the size check. -/
def Accepted : Prop := ∀ h ∈ file.headers, tooBig cfg h = false

variable {cfg file}

theorem exists_header {i : Nat} (hi : i < file.headers.length) :
    ∃ h, file.headers[i]? = some h :=
  ⟨_, List.getElem?_eq_getElem hi⟩

/-- Up to 255 the index is what it counts. -/
theorem toNat_index {i : Nat} (hi : i ≤ 255) : (BitVec.ofNat 8 i).toNat = i := by
  rw [BitVec.toNat_ofNat]
  omega

theorem index_succ (i : Nat) : BitVec.ofNat 8 i + 1 = BitVec.ofNat 8 (i + 1) := by
  apply BitVec.eq_of_toNat_eq
  simp

end Headers

end RiscvSoc.LoadElf
