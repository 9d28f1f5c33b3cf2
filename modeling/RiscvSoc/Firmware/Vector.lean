import RiscvSoc.Riscv.Machine

/-!
# Firmware — Vector

The trap paths of the two interrupt vectors: `trap_entry` stores the
registers that a C function may change below the stack pointer, the
service routine is called, and `trap_exit` loads them again.

The two macros list their register and offset pairs each by itself; both
lists are the rows of one save area. Together with what the routine
keeps by the calling convention these are all registers.
-/

namespace RiscvSoc.Vector

open Mem Riscv

/-! ## The code -/

/-- The service routines. -/
inductive Isr where
  | isrSynctrap
  | isrMExternal
  | isrMTimer
  | isrUart
  | isrGpio
  deriving DecidableEq, Repr

def trapEntry : List (Instr Isr) :=
  [ .addi .sp .sp (-64),
    .sw .ra 0 .sp,
    .sw .t0 4 .sp,
    .sw .t1 8 .sp,
    .sw .t2 12 .sp,
    .sw .a0 16 .sp,
    .sw .a1 20 .sp,
    .sw .a2 24 .sp,
    .sw .a3 28 .sp,
    .sw .a4 32 .sp,
    .sw .a5 36 .sp,
    .sw .a6 40 .sp,
    .sw .a7 44 .sp,
    .sw .t3 48 .sp,
    .sw .t4 52 .sp,
    .sw .t5 56 .sp,
    .sw .t6 60 .sp ]

/-- `trap_exit`, up to its `mret`. -/
def trapExit : List (Instr Isr) :=
  [ .lw .ra 0 .sp,
    .lw .t0 4 .sp,
    .lw .t1 8 .sp,
    .lw .t2 12 .sp,
    .lw .a0 16 .sp,
    .lw .a1 20 .sp,
    .lw .a2 24 .sp,
    .lw .a3 28 .sp,
    .lw .a4 32 .sp,
    .lw .a5 36 .sp,
    .lw .a6 40 .sp,
    .lw .a7 44 .sp,
    .lw .t3 48 .sp,
    .lw .t4 52 .sp,
    .lw .t5 56 .sp,
    .lw .t6 60 .sp,
    .addi .sp .sp 64 ]

/-- The trap paths. The boot ROM has the first two. -/
inductive Label where
  | synctrap
  | trapMachineExternalInt
  | machineTimerTrap
  | uartTrap
  | gpioTrap
  deriving DecidableEq, Repr

/-- The routine a trap path calls. -/
def Label.isr : Label → Isr
  | synctrap => .isrSynctrap
  | trapMachineExternalInt => .isrMExternal
  | machineTimerTrap => .isrMTimer
  | uartTrap => .isrUart
  | gpioTrap => .isrGpio

def Label.code (l : Label) : List (Instr Isr) := trapEntry ++ .jal l.isr :: trapExit

/-! ## The save area -/

/-- The sixteen words below the stack pointer. -/
def trapFrame : SaveArea 64 where
  slots :=
    [ (.ra, 0), (.t0, 4), (.t1, 8), (.t2, 12), (.a0, 16), (.a1, 20), (.a2, 24), (.a3, 28),
      (.a4, 32), (.a5, 36), (.a6, 40), (.a7, 44), (.t3, 48), (.t4, 52), (.t5, 56), (.t6, 60) ]
  size_le := by decide
  fits := by decide
  apart := by decide
  regs_nodup := by decide
  sp_notMem := by decide

/-- **Both macros go by the one save area.** -/
theorem trapEntry_eq : trapEntry = .addi .sp .sp (-64) :: trapFrame.slots.map save := rfl

theorem trapExit_eq : trapExit = trapFrame.slots.map restore ++ [.addi .sp .sp 64] := rfl

/-- The registers that a function keeps for its caller. -/
def calleeSaved : List Reg :=
  [ .sp, .gp, .tp, .s0, .s1, .s2, .s3, .s4, .s5, .s6, .s7, .s8, .s9, .s10, .s11 ]

/-- **Each register is in the save area or kept by the routine.** -/
theorem mem_slots_or_calleeSaved (r : Reg) :
    r ∈ trapFrame.slots.map Prod.fst ∨ r ∈ calleeSaved := by
  cases r <;> decide

/-! ## A trap -/

variable (env : Env Isr) (l : Label) (s : State)

/-- Where the service routine starts. -/
def atCall : State := (block env s trapEntry).setReg .ra (env.link l.isr)

/-- Where it returns. -/
def returned : State := env.call l.isr (atCall env l s)

/-- At the `mret`. -/
def atMret : State := block env s l.code

/-- `a` is in the 64 bytes below the stack pointer. -/
def InFrame (a : BitVec 32) : Prop :=
  (s.regs .sp).toNat - 64 ≤ a.toNat ∧ a.toNat < (s.regs .sp).toNat

/-- **The calling convention** for the service routine of a trap. -/
structure Conforms : Prop where
  regs : ∀ r ∈ calleeSaved, (returned env l s).regs r = (atCall env l s).regs r
  frame : ∀ a, InFrame s a → (returned env l s).mem a = (atCall env l s).mem a

/-- **A trap that the interrupted program does not see**, but for what the
service routine does to the memory. -/
structure Transparent : Prop where
  registers : ∀ r, (atMret env l s).regs r = s.regs r
  entry : ∀ a, ¬ InFrame s a → (atCall env l s).mem a = s.mem a
  exit : ∀ a, (atMret env l s).mem a = (returned env l s).mem a

/-- The frame is allocated. -/
def allocated : State := s.setReg .sp (s.regs .sp - 64)

variable {env l s}

theorem exec_allocate : exec env s (.addi .sp .sp (-64)) = allocated s := by
  have himm : (-64 : BitVec 12).signExtend 32 = -64 := by decide
  show s.setReg .sp (s.regs .sp + (-64 : BitVec 12).signExtend 32) = _
  rw [himm, ← BitVec.sub_eq_add_neg]
  rfl

/-- The frame is deallocated. -/
theorem add_sub_frame (x : BitVec 32) : x - 64 + (64 : BitVec 12).signExtend 32 = x := by
  have himm : (64 : BitVec 12).signExtend 32 = 64 := by decide
  rw [himm, BitVec.sub_add_cancel]

theorem regs_allocated {r : Reg} (h : r ≠ .sp) : (allocated s).regs r = s.regs r :=
  regs_setReg_of_ne s _ h

theorem sp_allocated : (allocated s).regs .sp = s.regs .sp - 64 := regs_setReg_self s _ _

/-- The frame is what lies behind the new stack pointer. -/
theorem dist_allocated_iff (hsp : 64 ≤ (s.regs .sp).toNat) (a : BitVec 32) :
    dist ((allocated s).regs .sp) a < 64 ↔ InFrame s a := by
  have hlt := (s.regs .sp).isLt
  have hsub : ((allocated s).regs .sp).toNat = (s.regs .sp).toNat - 64 := by
    rw [sp_allocated]
    exact BitVec.toNat_sub_of_le (BitVec.le_def.mpr hsp)
  rw [dist_lt_iff (by omega), hsub, InFrame]
  omega

/-! ## The three parts of a path -/

theorem block_trapEntry :
    block env s trapEntry = block env (allocated s) (trapFrame.slots.map save) := by
  rw [trapEntry_eq, block_cons, exec_allocate]

/-- A register other than `ra` at the call. -/
theorem regs_atCall {r : Reg} (h : r ≠ .ra) :
    (atCall env l s).regs r = (allocated s).regs r := by
  rw [atCall, regs_setReg_of_ne _ _ h, block_trapEntry, (block_save _ _ _).1]

theorem mem_atCall :
    (atCall env l s).mem = (block env (allocated s) (trapFrame.slots.map save)).mem := by
  rw [atCall, mem_setReg, block_trapEntry]

/-- The registers are loaded behind the call. -/
def restored (env : Env Isr) (l : Label) (s : State) : State :=
  block env (returned env l s) (trapFrame.slots.map restore)

theorem atMret_eq :
    atMret env l s = (restored env l s).setReg .sp
      ((restored env l s).regs .sp + (64 : BitVec 12).signExtend 32) := by
  have hjal : exec env (block env s trapEntry) (.jal l.isr) = returned env l s := rfl
  rw [atMret, Label.code, block_append, block_cons, hjal, trapExit_eq, block_append, ← restored,
    block_cons, block_nil]
  rfl

theorem mem_restored : (restored env l s).mem = (returned env l s).mem :=
  (block_restore _ _ _).1

theorem regs_restored {r : Reg} (h : r ∉ trapFrame.slots.map Prod.fst) :
    (restored env l s).regs r = (returned env l s).regs r :=
  (block_restore _ _ _).2 r h

/-- At the `mret` the stack pointer is as before the trap. -/
theorem sp_atMret (hc : Conforms env l s) : (atMret env l s).regs .sp = s.regs .sp := by
  rw [atMret_eq, regs_setReg_self, regs_restored trapFrame.sp_notMem, hc.regs .sp (by decide),
    regs_atCall (by decide), sp_allocated, add_sub_frame]

/-- The registers of the save area are loaded as they were stored. -/
theorem regs_restored_of_mem (hsp : 64 ≤ (s.regs .sp).toNat) (hc : Conforms env l s) {r : Reg}
    (h : r ∈ trapFrame.slots.map Prod.fst) :
    (restored env l s).regs r = (allocated s).regs r := by
  have hkept : (returned env l s).regs .sp = (allocated s).regs .sp := by
    rw [hc.regs .sp (by decide), regs_atCall (by decide)]
  refine trapFrame.restore_saved env hkept (fun b hb => ?_) h
  rw [hc.frame b ((dist_allocated_iff hsp b).mp hb), mem_atCall]

/-! ## The trap -/

/-- **All registers are as before the trap.** -/
theorem regs_atMret (hsp : 64 ≤ (s.regs .sp).toNat) (hc : Conforms env l s) :
    (atMret env l s).regs = s.regs := by
  funext r
  by_cases hr : r = .sp
  · rw [hr]
    exact sp_atMret hc
  · rw [atMret_eq, regs_setReg_of_ne _ _ hr]
    by_cases hslot : r ∈ trapFrame.slots.map Prod.fst
    · rw [regs_restored_of_mem hsp hc hslot, regs_allocated hr]
    · -- a register that the routine keeps
      have hsaved := (mem_slots_or_calleeSaved r).resolve_left hslot
      have hra : r ≠ .ra := fun h => hslot (h ▸ by decide)
      rw [regs_restored hslot, hc.regs r hsaved, regs_atCall hra, regs_allocated hr]

/-- Behind the call the memory stays. -/
theorem mem_atMret : (atMret env l s).mem = (returned env l s).mem := by
  rw [atMret_eq, mem_setReg, mem_restored]

/-- Before it only the frame is written. -/
theorem mem_atCall_of_not_inFrame (hsp : 64 ≤ (s.regs .sp).toNat) {a : BitVec 32}
    (h : ¬ InFrame s a) : (atCall env l s).mem a = s.mem a := by
  have hout : 64 ≤ dist ((allocated s).regs .sp) a := by
    rw [← Nat.not_lt, dist_allocated_iff hsp]
    exact h
  rw [mem_atCall]
  exact trapFrame.save_outside env (allocated s) hout

/-- **Traps are transparent**: with a service routine that keeps to the
calling convention and to its own memory, on any trap path. -/
theorem trap_transparent (hsp : 64 ≤ (s.regs .sp).toNat) (hc : Conforms env l s) :
    Transparent env l s := by
  refine ⟨fun r => ?_, fun a ha => mem_atCall_of_not_inFrame hsp ha, fun a => ?_⟩
  · rw [regs_atMret hsp hc]
  · rw [mem_atMret]

/-- A routine that counts in memory and changes an argument register. -/
def countingIsr : Env Isr where
  link _ := 0x1A000120
  call _ t := { t.setReg .a0 0xFFFFFFFF with
    mem := Function.update t.mem 0x30000000 (t.mem 0x30000000 + 1) }

/-- A program with its stack at the end of the memory. -/
def interrupted : State where
  regs r := if r = .sp then 0x30008000 else 7
  mem _ := 0

theorem countingIsr_conforms : Conforms countingIsr .uartTrap interrupted := by
  refine ⟨fun r hr => ?_, fun a ha => ?_⟩
  · have hne : r ≠ .a0 := fun h => by
      rw [h] at hr
      revert hr
      decide
    exact regs_setReg_of_ne _ _ hne
  · have hne : a ≠ 0x30000000 := fun h => by
      rw [h] at ha
      exact absurd ha.1 (by decide)
    show Function.update (atCall countingIsr .uartTrap interrupted).mem _ _ a = _
    rw [Function.update_of_ne hne]

theorem trap_transparent_interrupted : Transparent countingIsr .uartTrap interrupted :=
  trap_transparent (by decide) countingIsr_conforms

end RiscvSoc.Vector
