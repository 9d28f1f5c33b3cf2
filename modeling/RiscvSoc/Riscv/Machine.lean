import RiscvSoc.Mem.Bytes
import Mathlib.Logic.Function.Basic

/-!
# Riscv — Machine

Straight-line RV32I code over the integer registers and a byte memory,
with calls to functions that are given by what they do. The second half
is about register save areas on the stack: what a row of stores to one
keeps, and what a row of loads from it brings back.
-/

namespace RiscvSoc.Riscv

open Mem

/-! ## The machine -/

/-- The integer registers but `zero`, by their ABI names. -/
inductive Reg where
  | ra | sp | gp | tp
  | t0 | t1 | t2
  | s0 | s1
  | a0 | a1 | a2 | a3 | a4 | a5 | a6 | a7
  | s2 | s3 | s4 | s5 | s6 | s7 | s8 | s9 | s10 | s11
  | t3 | t4 | t5 | t6
  deriving DecidableEq, Repr

structure State where
  regs : Reg → BitVec 32
  mem : Bytes 32

def State.setReg (s : State) (r : Reg) (x : BitVec 32) : State :=
  { s with regs := Function.update s.regs r x }

@[simp] theorem regs_setReg_self (s : State) (r : Reg) (x : BitVec 32) :
    (s.setReg r x).regs r = x := by
  show Function.update s.regs r x r = x
  rw [Function.update_self]

theorem regs_setReg_of_ne (s : State) {r r' : Reg} (x : BitVec 32) (h : r' ≠ r) :
    (s.setReg r x).regs r' = s.regs r' := by
  show Function.update s.regs r x r' = s.regs r'
  rw [Function.update_of_ne h]

@[simp] theorem mem_setReg (s : State) (r : Reg) (x : BitVec 32) : (s.setReg r x).mem = s.mem :=
  rfl

/-- Instructions that go on behind themselves, with calls of the functions
`F`. -/
inductive Instr (F : Type _) where
  | addi (rd rs : Reg) (imm : BitVec 12)
  | sw (rs : Reg) (imm : BitVec 12) (base : Reg)
  | lw (rd : Reg) (imm : BitVec 12) (base : Reg)
  | jal (f : F)

/-- What is around the code: the return address of each call and what the
called function does until it returns. -/
structure Env (F : Type _) where
  link : F → BitVec 32
  call : F → State → State

variable {F : Type _} (env : Env F)

/-- The address of a load or store. -/
def State.addr (s : State) (base : Reg) (imm : BitVec 12) : BitVec 32 :=
  s.regs base + imm.signExtend 32

def exec (s : State) : Instr F → State
  | .addi rd rs imm => s.setReg rd (s.regs rs + imm.signExtend 32)
  | .sw rs imm base => { s with mem := storeWord s.mem (s.addr base imm) (s.regs rs) }
  | .lw rd imm base => s.setReg rd (loadWord s.mem (s.addr base imm))
  | .jal f => env.call f (s.setReg .ra (env.link f))

/-- A row of instructions. -/
def block (s : State) (is : List (Instr F)) : State := is.foldl (exec env) s

@[simp] theorem block_nil (s : State) : block env s [] = s := rfl

theorem block_cons (s : State) (i : Instr F) (is : List (Instr F)) :
    block env s (i :: is) = block env (exec env s i) is := rfl

theorem block_append (s : State) (is js : List (Instr F)) :
    block env s (is ++ js) = block env (block env s is) js := List.foldl_append

/-! ## Save areas -/

/-- A register and its offset from the stack pointer. -/
abbrev Slot := Reg × BitVec 12

/-- The offset as it is added. -/
def Slot.offset (p : Slot) : BitVec 32 := p.2.signExtend 32

def save (p : Slot) : Instr F := .sw p.1 p.2 .sp

def restore (p : Slot) : Instr F := .lw p.1 p.2 .sp

/-- `size` bytes from the stack pointer on, with a word for each of some
registers. -/
structure SaveArea (size : Nat) where
  slots : List Slot
  size_le : size ≤ 2 ^ 32
  fits : ∀ p ∈ slots, p.offset.toNat + 4 ≤ size
  apart : slots.Pairwise fun p q =>
    p.offset.toNat + 4 ≤ q.offset.toNat ∨ q.offset.toNat + 4 ≤ p.offset.toNat
  regs_nodup : (slots.map Prod.fst).Nodup
  sp_notMem : .sp ∉ slots.map Prod.fst

/-- A row of stores changes no register and only the bytes stored to. -/
theorem block_save (s : State) (slots : List Slot) :
    (block env s (slots.map save)).regs = s.regs ∧
      ∀ b, (∀ p ∈ slots, 4 ≤ dist (s.addr .sp p.2) b) →
        (block env s (slots.map save)).mem b = s.mem b := by
  induction slots generalizing s with
  | nil => exact ⟨rfl, fun _ _ => rfl⟩
  | cons p ps ih =>
      obtain ⟨hregs, hmem⟩ := ih (exec env s (save p))
      refine ⟨hregs, fun b hb => ?_⟩
      rw [List.map_cons, block_cons, hmem b fun q hq => hb q (List.mem_cons_of_mem p hq)]
      exact storeWord_of_ge _ _ (hb p List.mem_cons_self)

/-- A row of loads changes no memory and only the registers loaded. -/
theorem block_restore (s : State) (slots : List Slot) :
    (block env s (slots.map restore)).mem = s.mem ∧
      ∀ r, r ∉ slots.map Prod.fst → (block env s (slots.map restore)).regs r = s.regs r := by
  induction slots generalizing s with
  | nil => exact ⟨rfl, fun _ _ => rfl⟩
  | cons p ps ih =>
      obtain ⟨hmem, hregs⟩ := ih (exec env s (restore p))
      refine ⟨hmem, fun r hr => ?_⟩
      rw [List.map_cons, List.mem_cons, not_or] at hr
      rw [List.map_cons, block_cons, hregs r hr.2]
      exact regs_setReg_of_ne s _ hr.1

/-- The rest of a row of stores does not touch the first one's word. -/
theorem loadWord_block_save (s : State) {p : Slot} {slots : List Slot}
    (hfit : ∀ q ∈ p :: slots, q.offset.toNat + 4 ≤ 2 ^ 32)
    (hapart : ∀ q ∈ slots,
      p.offset.toNat + 4 ≤ q.offset.toNat ∨ q.offset.toNat + 4 ≤ p.offset.toNat) :
    loadWord (block env s ((p :: slots).map save)).mem (s.addr .sp p.2) = s.regs p.1 := by
  have hkeep := (block_save env (exec env s (save p)) slots).2
  have hword : loadWord (block env (exec env s (save p)) (slots.map save)).mem (s.addr .sp p.2)
      = loadWord (exec env s (save p)).mem (s.addr .sp p.2) :=
    loadWord_congr fun b hb => hkeep b fun q hq =>
      four_le_dist_add (hfit p List.mem_cons_self) (hfit q (List.mem_cons_of_mem p hq))
        (hapart q hq) hb
  rw [List.map_cons, block_cons, hword]
  exact loadWord_storeWord (by decide) _ _ _

/-- Every word of a row of stores is there in the end. -/
theorem saved_of_mem (s : State) {slots : List Slot}
    (hfit : ∀ q ∈ slots, q.offset.toNat + 4 ≤ 2 ^ 32)
    (hapart : slots.Pairwise fun p q =>
      p.offset.toNat + 4 ≤ q.offset.toNat ∨ q.offset.toNat + 4 ≤ p.offset.toNat)
    {p : Slot} (hp : p ∈ slots) :
    loadWord (block env s (slots.map save)).mem (s.addr .sp p.2) = s.regs p.1 := by
  induction slots generalizing s with
  | nil => cases hp
  | cons q qs ih =>
      obtain ⟨hq, hqs⟩ := List.pairwise_cons.mp hapart
      rcases List.mem_cons.mp hp with rfl | htail
      · exact loadWord_block_save env s hfit hq
      · exact ih (exec env s (save q)) (fun r hr => hfit r (List.mem_cons_of_mem q hr)) hqs htail

/-- Every register of a row of loads has its word in the end. -/
theorem restored_of_mem (s : State) {slots : List Slot} (hnodup : (slots.map Prod.fst).Nodup)
    (hsp : .sp ∉ slots.map Prod.fst) {p : Slot} (hp : p ∈ slots) :
    (block env s (slots.map restore)).regs p.1 = loadWord s.mem (s.addr .sp p.2) := by
  induction slots generalizing s with
  | nil => cases hp
  | cons q qs ih =>
      rw [List.map_cons, List.nodup_cons] at hnodup
      rw [List.map_cons, List.mem_cons, not_or] at hsp
      rw [List.map_cons, block_cons]
      rcases List.mem_cons.mp hp with rfl | htail
      · rw [(block_restore env _ qs).2 _ hnodup.1]
        exact regs_setReg_self s _ _
      · -- the stack pointer is the same for the loads that follow
        have haddr : (exec env s (restore q)).addr .sp p.2 = s.addr .sp p.2 :=
          congrArg (· + _) (regs_setReg_of_ne s _ hsp.1)
        rw [ih _ hnodup.2 hsp.2 htail, haddr]
        rfl

namespace SaveArea

variable {size : Nat} (area : SaveArea size)

/-- Outside the area the stores change nothing. -/
theorem save_outside (s : State) {b : BitVec 32} (hb : size ≤ dist (s.regs .sp) b) :
    (block env s (area.slots.map save)).mem b = s.mem b := by
  refine (block_save env s area.slots).2 b fun p hp => ?_
  have hfit := area.fits p hp
  have hsize := area.size_le
  by_contra hlt
  have hin := (dist_add_lt_iff (p := s.regs .sp) (b := b) (n := 4)
    (show p.offset.toNat + 4 ≤ 2 ^ 32 by omega)).mp (Nat.lt_of_not_le hlt)
  omega

/-- **The loads bring the stored registers back**, from any state that has
kept the stack pointer and the area. -/
theorem restore_saved {s s' : State} (hsp : s'.regs .sp = s.regs .sp)
    (harea : ∀ b, dist (s.regs .sp) b < size →
      s'.mem b = (block env s (area.slots.map save)).mem b)
    {r : Reg} (hr : r ∈ area.slots.map Prod.fst) :
    (block env s' (area.slots.map restore)).regs r = s.regs r := by
  obtain ⟨p, hp, rfl⟩ := List.mem_map.mp hr
  have hsize := area.size_le
  have hfit : ∀ q ∈ area.slots, q.offset.toNat + 4 ≤ 2 ^ 32 := fun q hq => by
    have := area.fits q hq
    omega
  have haddr : s'.addr .sp p.2 = s.addr .sp p.2 := congrArg (· + _) hsp
  rw [restored_of_mem env s' area.regs_nodup area.sp_notMem hp, haddr,
    ← saved_of_mem env s hfit area.apart hp]
  refine loadWord_congr fun b hb => harea b ?_
  have hin := (dist_add_lt_iff (p := s.regs .sp) (b := b) (n := 4) (hfit p hp)).mp hb
  have := area.fits p hp
  omega

end SaveArea

end RiscvSoc.Riscv
