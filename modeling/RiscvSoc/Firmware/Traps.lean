import RiscvSoc.Control.Disturb
import RiscvSoc.Firmware.Vector
import Mathlib.Data.Set.Basic

/-!
# Firmware — Traps

Programs with interrupts on. Between any two instructions any number of
traps may be taken, on any of the trap paths. The stack grows down from
`_start_stack` to `_end_stack`; what lies below the stack pointer there
belongs to whoever runs next, so the trap paths and the service routines
use it, and the routines have some memory of their own besides.

A program goes by its live memory: the bytes that it has written, or that
were there for it, and that it has not given up. Two states that agree on
the registers and on the live memory are the same to it.
-/

namespace RiscvSoc.Traps

open Mem Riscv RiscvSoc.Vector Control

variable {Ctl : Type _}

/-! ## Programs and their memory -/

/-- A program, by what the core does next and by its live memory. -/
structure Program (Ctl : Type _) where
  step : Ctl × State → Option (Ctl × State)
  live : Ctl × State → Set (BitVec 32)

/-- The memory of the service routines: `own`, and the stack down to
`endStack`. -/
structure Layout where
  own : Set (BitVec 32)
  endStack : Nat

/-- `a` is in the part of the stack that is not in use. -/
def Layout.Free (m : Layout) (s : State) (a : BitVec 32) : Prop :=
  m.endStack ≤ a.toNat ∧ a.toNat < (s.regs .sp).toNat

/-- There is room for a trap. -/
def Layout.Room (m : Layout) (s : State) : Prop := m.endStack + 64 ≤ (s.regs .sp).toNat

instance (m : Layout) (s : State) : Decidable (m.Room s) := Nat.decLe _ _

/-- **Service routines in their place**: they keep to the calling
convention, to the free part of the stack and to their own memory. -/
def InPlace (env : Env Isr) (m : Layout) : Prop :=
  ∀ l s, m.Room s → Conforms env l s ∧
    ∀ a, a ∉ m.own → ¬ m.Free s a → (returned env l s).mem a = (atCall env l s).mem a

variable (P : Program Ctl) (m : Layout)

/-- `x` is the same as `y` to a program at `y`. -/
structure Seen (x y : Ctl × State) : Prop where
  ctl : x.1 = y.1
  regs : x.2.regs = y.2.regs
  mem : ∀ a ∈ P.live y, x.2.mem a = y.2.mem a

theorem Seen.refl (x : Ctl × State) : Seen P x x := ⟨rfl, rfl, fun _ _ => rfl⟩

/-- What a program does at `y` for itself: it leaves room for a trap, keeps
its live memory apart from the routines', and goes by nothing else. -/
structure Local (y : Ctl × State) : Prop where
  room : m.Room y.2
  apart : ∀ a ∈ P.live y, a ∉ m.own ∧ ¬ m.Free y.2 a
  reads : ∀ x, Seen P x y → Option.Rel (Seen P) (P.step x) (P.step y)

/-- A program that is local on the whole of its own run. -/
def Confined (y : Ctl × State) : Prop :=
  ∀ n z, steps P.step n y = some z → Local P m z

variable {P m}

/-! ## One trap -/

/-- A service routine is run between two instructions. -/
def trap (env : Env Isr) (l : Label) (x : Ctl × State) : Ctl × State := (x.1, atMret env l x.2)

variable {env : Env Isr} {l : Label}

/-- Outside the free stack and the routines' memory nothing has changed. -/
theorem mem_atMret_of_not_free {s : State} (hroom : m.Room s) (henv : InPlace env m)
    {a : BitVec 32} (hown : a ∉ m.own) (hfree : ¬ m.Free s a) :
    (atMret env l s).mem a = s.mem a := by
  have hsp : 64 ≤ (s.regs .sp).toNat := Nat.le_trans (Nat.le_add_left _ _) hroom
  have hframe : ¬ InFrame s a := by
    rintro ⟨hlow, hhigh⟩
    refine hfree ⟨?_, hhigh⟩
    have : m.endStack + 64 ≤ (s.regs .sp).toNat := hroom
    omega
  calc (atMret env l s).mem a = (returned env l s).mem a := by rw [mem_atMret]
    _ = (atCall env l s).mem a := (henv l s hroom).2 a hown hfree
    _ = s.mem a := mem_atCall_of_not_inFrame hsp hframe

/-- A program does not see a trap. -/
theorem Seen.trap {x y : Ctl × State} (h : Seen P x y) (hy : Local P m y)
    (henv : InPlace env m) : Seen P (trap env l x) y := by
  have hroom : m.Room x.2 := by
    rw [Layout.Room, h.regs]
    exact hy.room
  refine ⟨h.ctl, (regs_atMret ?_ (henv l x.2 hroom).1).trans h.regs, fun a ha => ?_⟩
  · exact Nat.le_trans (Nat.le_add_left _ _) hroom
  · obtain ⟨hown, hfree⟩ := hy.apart a ha
    rw [Layout.Free, ← h.regs] at hfree
    exact (mem_atMret_of_not_free hroom henv hown hfree).trans (h.mem a ha)

/-! ## Straight-line code -/

/-- The code that is still to run, and its live memory. -/
abbrev Point := List (Instr Empty) × Set (BitVec 32)

def noCalls : Env Empty where
  link := Empty.elim
  call f := f.elim

/-- The bytes that an instruction reads. -/
def Reads (s : State) : Instr Empty → Set (BitVec 32)
  | .lw _ imm base => {a | dist (s.addr base imm) a < 4}
  | _ => ∅

/-- The bytes that it writes. -/
def Writes (s : State) : Instr Empty → Set (BitVec 32)
  | .sw _ imm base => {a | dist (s.addr base imm) a < 4}
  | _ => ∅

/-- Straight-line code. What it stores is live, and what it leaves below
the stack pointer is not. -/
def straightLine (m : Layout) : Program Point where
  step
    | (([], _), _) => none
    | ((i :: is, live), s) =>
        let s' := exec noCalls s i
        some ((is, {a | (a ∈ live ∨ a ∈ Writes s i) ∧ ¬ m.Free s' a}), s')
  live y := y.1.2

/-- What the code has to keep to at each of its points. -/
structure Safe (m : Layout) (y : Point × State) : Prop where
  room : m.Room y.2
  reads : ∀ i ∈ y.1.1.head?, Reads y.2 i ⊆ y.1.2
  writes : ∀ i ∈ y.1.1.head?, ∀ a ∈ Writes y.2 i, a ∉ m.own

/-- The live memory is not the routines'. -/
def Apart (m : Layout) (y : Point × State) : Prop :=
  ∀ a ∈ y.1.2, a ∉ m.own ∧ ¬ m.Free y.2 a

/-- States that agree on what an instruction reads have agreeing effects. -/
theorem exec_congr {s t : State} {i : Instr Empty} {live : Set (BitVec 32)}
    (hregs : s.regs = t.regs) (hmem : ∀ a ∈ live, s.mem a = t.mem a) (hreads : Reads t i ⊆ live) :
    (exec noCalls s i).regs = (exec noCalls t i).regs ∧
      ∀ a, a ∈ live ∨ a ∈ Writes t i →
        (exec noCalls s i).mem a = (exec noCalls t i).mem a := by
  have haddr : ∀ base imm, s.addr base imm = t.addr base imm := fun base imm =>
    congrArg (fun regs : Reg → BitVec 32 => regs base + imm.signExtend 32) hregs
  cases i with
  | jal f => exact f.elim
  | addi rd rs imm =>
      refine ⟨?_, fun a ha => hmem a (ha.resolve_right id)⟩
      show Function.update s.regs rd (s.regs rs + _) = Function.update t.regs rd (t.regs rs + _)
      rw [hregs]
  | lw rd imm base =>
      refine ⟨?_, fun a ha => hmem a (ha.resolve_right id)⟩
      have hword : loadWord s.mem (t.addr base imm) = loadWord t.mem (t.addr base imm) :=
        loadWord_congr fun b hb => hmem b (hreads hb)
      show Function.update s.regs rd (loadWord s.mem (s.addr base imm))
        = Function.update t.regs rd (loadWord t.mem (t.addr base imm))
      rw [hregs, haddr, hword]
  | sw rs imm base =>
      refine ⟨hregs, fun a ha => ?_⟩
      show storeWord s.mem (s.addr base imm) (s.regs rs) a
        = storeWord t.mem (t.addr base imm) (t.regs rs) a
      rw [haddr, hregs]
      by_cases hin : dist (t.addr base imm) a < 4
      · rw [storeWord_of_lt _ _ hin, storeWord_of_lt _ _ hin]
      · rw [storeWord_of_ge _ _ (by omega), storeWord_of_ge _ _ (by omega)]
        exact hmem a (ha.resolve_right hin)

theorem safe_addi {rd rs : Reg} {imm : BitVec 12} {is : List (Instr Empty)}
    {live : Set (BitVec 32)} {s : State} (h : m.Room s) :
    Safe m ((.addi rd rs imm :: is, live), s) := by
  refine ⟨h, fun i hi => ?_, fun i hi => ?_⟩
  · obtain rfl := Option.some.inj hi
    exact Set.empty_subset _
  · obtain rfl := Option.some.inj hi
    exact fun a ha => ha.elim

theorem safe_nil {live : Set (BitVec 32)} {s : State} (h : m.Room s) :
    Safe m (([], live), s) := by
  refine ⟨h, fun i hi => ?_, fun i hi => ?_⟩ <;> cases hi

theorem writes_congr {s t : State} (hregs : s.regs = t.regs) (i : Instr Empty) :
    Writes s i = Writes t i := by
  cases i with
  | sw rs imm base =>
      show {a | dist (s.regs base + _) a < 4} = {a | dist (t.regs base + _) a < 4}
      rw [hregs]
  | _ => rfl

theorem Safe.toLocal {y : Point × State} (h : Safe m y) (hapart : Apart m y) :
    Local (straightLine m) m y := by
  refine ⟨h.room, hapart, fun x hx => ?_⟩
  obtain ⟨⟨is, live⟩, t⟩ := y
  obtain ⟨c, s⟩ := x
  obtain rfl : c = (is, live) := hx.ctl
  cases is with
  | nil => exact .none
  | cons i is =>
      obtain ⟨hregs, hmem⟩ := exec_congr hx.regs hx.mem (h.reads i rfl)
      refine .some ⟨?_, hregs, fun a ha => hmem a ha.1⟩
      show (is, {a | (a ∈ live ∨ a ∈ Writes s i) ∧ ¬ m.Free (exec noCalls s i) a})
        = (is, {a | (a ∈ live ∨ a ∈ Writes t i) ∧ ¬ m.Free (exec noCalls t i) a})
      rw [writes_congr hx.regs]
      unfold Layout.Free
      rw [hregs]

theorem Apart.next {y z : Point × State} (h : Apart m y) (hsafe : Safe m y)
    (hz : (straightLine m).step y = some z) : Apart m z := by
  obtain ⟨⟨is, live⟩, s⟩ := y
  cases is with
  | nil => cases hz
  | cons i is =>
      obtain rfl := Option.some.inj hz
      rintro a ⟨hlive | hwrites, hfree⟩
      · exact ⟨(h a hlive).1, hfree⟩
      · exact ⟨hsafe.writes i rfl a hwrites, hfree⟩

/-- **Code that is safe at each of its points is confined.** -/
theorem confined_of_safe {y : Point × State} (h : Apart m y)
    (hsafe : ∀ n z, steps (straightLine m).step n y = some z → Safe m z) :
    Confined (straightLine m) m y := by
  intro n z hz
  induction n generalizing y with
  | zero =>
      obtain rfl := Option.some.inj hz
      exact (hsafe 0 y rfl).toLocal h
  | succ n ih =>
      cases hy : (straightLine m).step y with
      | none =>
          rw [steps, hy] at hz
          cases hz
      | some x =>
          rw [steps_succ_of_step hy] at hz
          refine ih (h.next (hsafe 0 y rfl) hy) (fun k u hu => ?_) hz
          exact hsafe (k + 1) u ((steps_succ_of_step hy k).trans hu)

/-! ## Whole runs -/

/-- **Interrupts are transparent.** With traps anywhere, in any number and
on any paths, a program goes through the steps of its own run, each with
the same control, registers and live memory, and ends where that ends. -/
theorem interrupted_seen (henv : InPlace env m) {y : Ctl × State} (hy : Confined P m y)
    (es : List (Option Label)) :
    Option.Rel (Seen P) (disturbed P.step (trap env) es y)
      (steps P.step (es.countP Option.isNone) y) := by
  refine disturbed_rel (fun x z hz h => hz.reads x h) (fun l x z hz h => ?_) es hy (Seen.refl P y)
  exact h.trap hz henv

/-! ## A call frame -/

/-- The routines count in the first word of the memory and have the stack
from `_end_stack` on. -/
def hostLayout : Layout where
  own := {0x30000000}
  endStack := 0x30006000

theorem countingIsr_inPlace : InPlace countingIsr hostLayout := by
  intro l s hroom
  have hroom' : 0x30006000 + 64 ≤ (s.regs .sp).toNat := hroom
  refine ⟨⟨fun r hr => ?_, fun a ha => ?_⟩, fun a hown _ => ?_⟩
  · have hne : r ≠ .a0 := fun h => by
      rw [h] at hr
      revert hr
      decide
    exact regs_setReg_of_ne _ _ hne
  · have hne : a ≠ 0x30000000 := fun h => by
      have hlow : (s.regs .sp).toNat - 64 ≤ (0x30000000 : BitVec 32).toNat := h ▸ ha.1
      have : (0x30000000 : BitVec 32).toNat = 0x30000000 := rfl
      omega
    show Function.update (atCall countingIsr l s).mem _ _ a = _
    rw [Function.update_of_ne hne]
  · show Function.update (atCall countingIsr l s).mem _ _ a = _
    rw [Function.update_of_ne hown]

/-- A function that keeps a register in its frame. -/
def frameCode : List (Instr Empty) :=
  [ .addi .sp .sp (-16), .sw .ra 12 .sp, .lw .a0 12 .sp, .addi .sp .sp 16 ]

theorem frameCode_apart : Apart hostLayout ((frameCode, ∅), interrupted) :=
  fun a ha => absurd ha (Set.notMem_empty a)

/-- The word of the frame. -/
theorem frameWord_ge {a : BitVec 32} (h : dist 0x30007FFC a < 4) : 0x30007FFC ≤ a.toNat :=
  ((dist_lt_iff (a := 0x30007FFC) (by decide)).mp h).1

theorem frameCode_safe (n : Nat) (z : Point × State)
    (h : steps (straightLine hostLayout).step n ((frameCode, ∅), interrupted) = some z) :
    Safe hostLayout z := by
  match n with
  | 0 =>
      obtain rfl := Option.some.inj h
      exact safe_addi (by decide)
  | 1 =>
      obtain rfl := Option.some.inj h
      refine ⟨by decide, fun i hi => ?_, fun i hi a ha hown => ?_⟩
      · obtain rfl := Option.some.inj hi
        exact Set.empty_subset _
      · obtain rfl := Option.some.inj hi
        have hge := frameWord_ge ha
        rw [Set.mem_singleton_iff.mp hown] at hge
        exact absurd hge (by decide)
  | 2 =>
      obtain rfl := Option.some.inj h
      refine ⟨by decide, fun i hi a ha => ?_, fun i hi a ha => ?_⟩
      · obtain rfl := Option.some.inj hi
        refine ⟨.inr ha, fun hfree => ?_⟩
        have hge := frameWord_ge ha
        have hlt : a.toNat < 0x30007FF0 := hfree.2
        omega
      · obtain rfl := Option.some.inj hi
        exact ha.elim
  | 3 =>
      obtain rfl := Option.some.inj h
      exact safe_addi (by decide)
  | 4 =>
      obtain rfl := Option.some.inj h
      exact safe_nil (by decide)
  | n + 5 => cases h

theorem interrupted_seen_frameCode :
    Option.Rel (Seen (straightLine hostLayout))
      (disturbed (straightLine hostLayout).step (trap countingIsr)
        [some .uartTrap, none, none, some .gpioTrap, some .machineTimerTrap, none]
        ((frameCode, ∅), interrupted))
      (steps (straightLine hostLayout).step 3 ((frameCode, ∅), interrupted)) :=
  interrupted_seen countingIsr_inPlace
    (confined_of_safe frameCode_apart frameCode_safe) _

end RiscvSoc.Traps
