import RiscvSoc.Sync.Circuit
import RiscvSoc.Mem.Ring
import Mathlib.Data.Nat.Log

/-!
# Soc — IoGenericFifo

`io_generic_fifo`, the buffer between a bus and a serial port: a ring of
slots with two pointers and an occupancy counter, each updated by a
clocked block of its own.

A cycle with `clr_i` still writes the buffer, but empties the ring. In
the others the three blocks agree on which entry is added and which is
taken, so the buffer is a bounded queue.
-/

namespace RiscvSoc.IoGenericFifo

open Sync Mem

/-! ## The module -/

section Module

variable (dataWidth bufferDepth : Nat)

/-- `LOG_BUFFER_DEPTH`. -/
abbrev logBufferDepth : Nat := Nat.clog 2 bufferDepth

structure Inputs where
  clrI : Bool
  readyI : Bool
  validI : Bool
  dataI : BitVec dataWidth
  deriving DecidableEq, Repr

structure Outputs where
  elementsO : BitVec (logBufferDepth bufferDepth + 1)
  dataO : BitVec dataWidth
  validO : Bool
  readyO : Bool
  deriving DecidableEq, Repr

/-- `buffer` by index, of which those below `BUFFER_DEPTH` exist. -/
structure Regs where
  pointerIn : BitVec (logBufferDepth bufferDepth)
  pointerOut : BitVec (logBufferDepth bufferDepth)
  elements : BitVec (logBufferDepth bufferDepth + 1)
  buffer : Nat → BitVec dataWidth

variable {dataWidth bufferDepth}

def full (r : Regs dataWidth bufferDepth) : Bool := r.elements.toNat == bufferDepth

def validO (r : Regs dataWidth bufferDepth) : Bool := r.elements != 0

def outputs (r : Regs dataWidth bufferDepth) : Outputs dataWidth bufferDepth where
  elementsO := r.elements
  dataO := r.buffer r.pointerOut.toNat
  validO := validO r
  readyO := !full r

/-- `elements_sequential`. -/
def elementsN (r : Regs dataWidth bufferDepth) (i : Inputs dataWidth) :
    BitVec (logBufferDepth bufferDepth + 1) :=
  if i.clrI then 0
  else if i.readyI && validO r && (!i.validI || full r) then r.elements - 1
  else if (!validO r || !i.readyI) && i.validI && !full r then r.elements + 1
  else r.elements

/-- `buffers_sequential`. -/
def bufferN (r : Regs dataWidth bufferDepth) (i : Inputs dataWidth) : Nat → BitVec dataWidth :=
  if i.validI && !full r then Function.update r.buffer r.pointerIn.toNat i.dataI else r.buffer

/-- `sequential`, the input side. -/
def pointerInN (r : Regs dataWidth bufferDepth) (i : Inputs dataWidth) :
    BitVec (logBufferDepth bufferDepth) :=
  if i.clrI then 0
  else if i.validI && !full r then
    if r.pointerIn.toNat = bufferDepth - 1 then 0 else r.pointerIn + 1
  else r.pointerIn

/-- `sequential`, the output side. -/
def pointerOutN (r : Regs dataWidth bufferDepth) (i : Inputs dataWidth) :
    BitVec (logBufferDepth bufferDepth) :=
  if i.clrI then 0
  else if i.readyI && validO r then
    if r.pointerOut.toNat = bufferDepth - 1 then 0 else r.pointerOut + 1
  else r.pointerOut

variable (dataWidth bufferDepth)

/-- The three clocked blocks. The reset clears sixteen words of the
buffer, however many there are; the others are as they were. -/
def ioGenericFifo (powerUp : Nat → BitVec dataWidth) :
    Circuit (Inputs dataWidth) (Regs dataWidth bufferDepth) where
  reset :=
    { pointerIn := 0
      pointerOut := 0
      elements := 0
      buffer := fun k => if k < 16 then 0 else powerUp k }
  next r i :=
    { pointerIn := pointerInN r i
      pointerOut := pointerOutN r i
      elements := elementsN r i
      buffer := bufferN r i }

end Module

/-! ## The queue -/

section Queue

variable {dataWidth bufferDepth : Nat}

/-- An entry is added. -/
def enqueues (i : Inputs dataWidth) (o : Outputs dataWidth bufferDepth) : Bool :=
  i.validI && o.readyO

/-- The head is taken. -/
def dequeues (i : Inputs dataWidth) (o : Outputs dataWidth bufferDepth) : Bool :=
  i.readyI && o.validO

/-- What a cycle does to the queue. -/
def queueNext (q : List (BitVec dataWidth)) (i : Inputs dataWidth)
    (o : Outputs dataWidth bufferDepth) : List (BitVec dataWidth) :=
  if i.clrI then []
  else (if dequeues i o then q.tail else q) ++ if enqueues i o then [i.dataI] else []

variable (bufferDepth) (powerUp : Nat → BitVec dataWidth) (ins : Nat → Inputs dataWidth)

def regsAt (n : Nat) : Regs dataWidth bufferDepth :=
  (ioGenericFifo dataWidth bufferDepth powerUp).stateAt ins n

def outputsAt (n : Nat) : Outputs dataWidth bufferDepth :=
  outputs (regsAt bufferDepth powerUp ins n)

/-- The queue in cycle `n` of the run from reset. -/
def queueAt : Nat → List (BitVec dataWidth)
  | 0 => []
  | n + 1 => queueNext (queueAt n) (ins n) (outputsAt bufferDepth powerUp ins n)

end Queue

/-! ## The ring behind it -/

section Refinement

variable {dataWidth bufferDepth : Nat}

/-- The registers hold the ring `g`. -/
structure Holds (r : Regs dataWidth bufferDepth) (g : Ring (BitVec dataWidth) bufferDepth) :
    Prop where
  buffer : r.buffer = g.buffer
  pointerOut : r.pointerOut.toNat = g.out
  pointerIn : r.pointerIn.toNat = g.slot g.len
  elements : r.elements.toNat = g.len

/-- The slots and the occupancies have a number in the pointers and in the
counter. -/
theorem bufferDepth_le : bufferDepth ≤ 2 ^ logBufferDepth bufferDepth :=
  Nat.le_pow_clog Nat.one_lt_two bufferDepth

/-- A pointer goes to the next slot. -/
theorem toNat_pointer_succ {p : BitVec (logBufferDepth bufferDepth)}
    (hp : p.toNat < bufferDepth) :
    (if p.toNat = bufferDepth - 1 then 0 else p + 1).toNat = nextSlot bufferDepth p.toNat := by
  have hpow : bufferDepth ≤ 2 ^ logBufferDepth bufferDepth := bufferDepth_le
  unfold nextSlot
  by_cases hlast : p.toNat = bufferDepth - 1
  · rw [if_pos hlast, if_pos hlast]
    exact BitVec.toNat_zero
  · have hone : (1 : BitVec (logBufferDepth bufferDepth)).toNat = 1 :=
      BitVec.toNat_one (Nat.clog_pos Nat.one_lt_two (by omega))
    rw [if_neg hlast, if_neg hlast, BitVec.toNat_add_of_lt (by rw [hone]; omega), hone]

variable {r : Regs dataWidth bufferDepth} {g : Ring (BitVec dataWidth) bufferDepth}

theorem full_iff (h : Holds r g) : full r = true ↔ g.len = bufferDepth := by
  rw [full, beq_iff_eq, h.elements]

theorem validO_iff (h : Holds r g) : validO r = true ↔ 0 < g.len := by
  have hz : r.elements = 0 ↔ g.len = 0 := by
    rw [← h.elements, ← BitVec.toNat_inj]
    exact Iff.of_eq (congrArg _ BitVec.toNat_zero)
  rw [validO, bne_iff_ne, Ne, hz]
  omega

/-- **The three blocks agree**: the counter goes up and down in the cycles
in which one pointer moves and the other does not. -/
theorem elementsN_eq {i : Inputs dataWidth} (hclr : i.clrI = false) :
    elementsN r i =
      if dequeues i (outputs r) && !enqueues i (outputs r) then r.elements - 1
      else if !dequeues i (outputs r) && enqueues i (outputs r) then r.elements + 1
      else r.elements := by
  show _ = if i.readyI && validO r && !(i.validI && !full r) then r.elements - 1
    else if !(i.readyI && validO r) && (i.validI && !full r) then r.elements + 1
    else r.elements
  rw [elementsN, hclr, if_neg Bool.false_ne_true]
  congr 1
  · cases i.validI <;> cases full r <;> rfl
  · congr 1
    cases i.readyI <;> cases validO r <;> cases i.validI <;> cases full r <;> rfl

theorem toNat_elements_succ (h : Holds r g) (hroom : g.len < bufferDepth) :
    (r.elements + 1).toNat = g.len + 1 := by
  have hpow : bufferDepth ≤ 2 ^ logBufferDepth bufferDepth := bufferDepth_le
  have hone : (1 : BitVec (logBufferDepth bufferDepth + 1)).toNat = 1 :=
    BitVec.toNat_one (Nat.succ_pos _)
  have hlen := h.elements
  rw [BitVec.toNat_add_of_lt (by rw [hone, Nat.pow_succ]; omega), hone, hlen]

theorem toNat_elements_pred (h : Holds r g) (hsome : 0 < g.len) :
    (r.elements - 1).toNat = g.len - 1 := by
  have hone : (1 : BitVec (logBufferDepth bufferDepth + 1)).toNat = 1 :=
    BitVec.toNat_one (Nat.succ_pos _)
  have hlen := h.elements
  rw [BitVec.toNat_sub_of_le (by rw [BitVec.le_def, hone]; omega), hone, hlen]

/-- The input pointer goes to the slot behind the added entry. -/
theorem toNat_pointerIn_succ (h : Holds r g) (hd : 2 ≤ bufferDepth) :
    (if r.pointerIn.toNat = bufferDepth - 1 then 0 else r.pointerIn + 1).toNat
      = g.slot (g.len + 1) := by
  have hlt : g.slot g.len < bufferDepth := Nat.mod_lt _ (by omega)
  rw [toNat_pointer_succ (by rw [h.pointerIn]; exact hlt), h.pointerIn, nextSlot_eq_mod hlt,
    Ring.slot, Nat.mod_add_mod, Ring.slot, Nat.add_assoc]

/-- The output pointer goes to the slot of the second entry. -/
theorem toNat_pointerOut_succ (h : Holds r g) :
    (if r.pointerOut.toNat = bufferDepth - 1 then 0 else r.pointerOut + 1).toNat
      = g.pop.out := by
  rw [toNat_pointer_succ (by rw [h.pointerOut]; exact g.out_lt), h.pointerOut]
  rfl

theorem len_pos_of_dequeues (h : Holds r g) {i : Inputs dataWidth}
    (hdeq : dequeues i (outputs r) = true) : 0 < g.len :=
  (validO_iff h).mp (Bool.and_eq_true_iff.mp hdeq).2

theorem len_lt_of_enqueues (h : Holds r g) {i : Inputs dataWidth}
    (henq : enqueues i (outputs r) = true) : g.len < bufferDepth := by
  have hroom : (!full r) = true := (Bool.and_eq_true_iff.mp henq).2
  have hne : ¬ g.len = bufferDepth := fun heq => by
    rw [(full_iff h).mpr heq] at hroom
    cases hroom
  have hle := g.len_le
  omega

/-- The registers of the next cycle, but for a clear. -/
theorem next_of_not_clr {i : Inputs dataWidth} (powerUp : Nat → BitVec dataWidth)
    (hclr : i.clrI = false) :
    (ioGenericFifo dataWidth bufferDepth powerUp).next r i =
      { pointerIn :=
          if enqueues i (outputs r) then
            if r.pointerIn.toNat = bufferDepth - 1 then 0 else r.pointerIn + 1
          else r.pointerIn
        pointerOut :=
          if dequeues i (outputs r) then
            if r.pointerOut.toNat = bufferDepth - 1 then 0 else r.pointerOut + 1
          else r.pointerOut
        elements :=
          if dequeues i (outputs r) && !enqueues i (outputs r) then r.elements - 1
          else if !dequeues i (outputs r) && enqueues i (outputs r) then r.elements + 1
          else r.elements
        buffer :=
          if enqueues i (outputs r) then
            Function.update r.buffer r.pointerIn.toNat i.dataI
          else r.buffer } := by
  rw [← elementsN_eq hclr]
  show Regs.mk (pointerInN r i) (pointerOutN r i) (elementsN r i) (bufferN r i) = _
  rw [pointerInN, pointerOutN, hclr, if_neg Bool.false_ne_true, if_neg Bool.false_ne_true]
  rfl

/-- With both pointers and the counter at 0 the ring is empty, whatever is
in the buffer. -/
theorem holds_empty (hd : 0 < bufferDepth) (hin : r.pointerIn = 0) (hout : r.pointerOut = 0)
    (helements : r.elements = 0) : Holds r (Ring.empty r.buffer hd) := by
  refine ⟨rfl, ?_, ?_, ?_⟩
  · rw [hout]
    exact BitVec.toNat_zero
  · show r.pointerIn.toNat = 0 % bufferDepth
    rw [hin, Nat.zero_mod]
    exact BitVec.toNat_zero
  · rw [helements]
    exact BitVec.toNat_zero

/-- The registers of an entry added. -/
theorem Holds.push (h : Holds r g) (hd : 2 ≤ bufferDepth) (x : BitVec dataWidth)
    (hroom : g.len < bufferDepth) :
    Holds
      { pointerIn := if r.pointerIn.toNat = bufferDepth - 1 then 0 else r.pointerIn + 1
        pointerOut := r.pointerOut
        elements := r.elements + 1
        buffer := Function.update r.buffer r.pointerIn.toNat x } (g.push x hroom) where
  buffer := by
    rw [h.buffer, h.pointerIn]
    rfl
  pointerOut := h.pointerOut
  pointerIn := toNat_pointerIn_succ h hd
  elements := toNat_elements_succ h hroom

/-- The registers of an entry taken. -/
theorem Holds.pop (h : Holds r g) (hsome : 0 < g.len) :
    Holds
      { pointerIn := r.pointerIn
        pointerOut := if r.pointerOut.toNat = bufferDepth - 1 then 0 else r.pointerOut + 1
        elements := r.elements - 1
        buffer := r.buffer } g.pop where
  buffer := h.buffer
  pointerOut := toNat_pointerOut_succ h
  pointerIn := by
    have hlen : g.pop.len + 1 = g.len := Nat.sub_add_cancel hsome
    rw [Ring.slot_pop, hlen]
    exact h.pointerIn
  elements := toNat_elements_pred h hsome

/-- The registers of both. The slot behind the others is the same when the
head is gone. -/
theorem Holds.popPush (h : Holds r g) (hd : 2 ≤ bufferDepth) (x : BitVec dataWidth)
    (hsome : 0 < g.len) (hroom : g.pop.len < bufferDepth) :
    Holds
      { pointerIn := if r.pointerIn.toNat = bufferDepth - 1 then 0 else r.pointerIn + 1
        pointerOut := if r.pointerOut.toNat = bufferDepth - 1 then 0 else r.pointerOut + 1
        elements := r.elements
        buffer := Function.update r.buffer r.pointerIn.toNat x } (g.pop.push x hroom) := by
  have hlen : g.pop.len + 1 = g.len := Nat.sub_add_cancel hsome
  refine ⟨?_, toNat_pointerOut_succ h, ?_, ?_⟩
  · show _ = Function.update g.buffer (g.pop.slot g.pop.len) x
    rw [h.buffer, h.pointerIn, Ring.slot_pop, hlen]
  · show _ = g.pop.slot (g.pop.len + 1)
    rw [Ring.slot_pop, hlen]
    exact toNat_pointerIn_succ h hd
  · show r.elements.toNat = g.pop.len + 1
    rw [hlen]
    exact h.elements

/-- A cycle without a clear. -/
theorem holds_next_of_not_clr (hd : 2 ≤ bufferDepth) (powerUp : Nat → BitVec dataWidth)
    (h : Holds r g) {i : Inputs dataWidth} (hclr : i.clrI = false) :
    ∃ g', Holds ((ioGenericFifo dataWidth bufferDepth powerUp).next r i) g' ∧
      g'.entries = queueNext g.entries i (outputs r) := by
  rw [next_of_not_clr powerUp hclr, queueNext, hclr, if_neg Bool.false_ne_true]
  cases hdeq : dequeues i (outputs r) with
  | false =>
      cases henq : enqueues i (outputs r) with
      | false => exact ⟨g, h, (List.append_nil _).symm⟩
      | true =>
          have hroom := len_lt_of_enqueues h henq
          exact ⟨g.push i.dataI hroom, h.push hd i.dataI hroom, g.entries_push _ hroom⟩
  | true =>
      have hsome := len_pos_of_dequeues h hdeq
      cases henq : enqueues i (outputs r) with
      | false =>
          refine ⟨g.pop, h.pop hsome, ?_⟩
          rw [Ring.entries_pop g hsome]
          exact (List.append_nil _).symm
      | true =>
          have hroom : g.pop.len < bufferDepth :=
            Nat.lt_of_le_of_lt (Nat.sub_le g.len 1) (len_lt_of_enqueues h henq)
          refine ⟨g.pop.push i.dataI hroom, h.popPush hd i.dataI hsome hroom, ?_⟩
          rw [Ring.entries_push, Ring.entries_pop g hsome]
          rfl

/-- **One cycle of the buffer is one step of the queue.** -/
theorem holds_next (hd : 2 ≤ bufferDepth) (powerUp : Nat → BitVec dataWidth) (h : Holds r g)
    (i : Inputs dataWidth) :
    ∃ g', Holds ((ioGenericFifo dataWidth bufferDepth powerUp).next r i) g' ∧
      g'.entries = queueNext g.entries i (outputs r) := by
  cases hclr : i.clrI with
  | true =>
      refine ⟨_, holds_empty (by omega) (if_pos hclr) (if_pos hclr) (if_pos hclr), ?_⟩
      rw [queueNext, if_pos hclr]
      rfl
  | false => exact holds_next_of_not_clr hd powerUp h hclr

end Refinement

/-! ## Runs -/

section Runs

variable {dataWidth : Nat} (bufferDepth : Nat) (powerUp : Nat → BitVec dataWidth)
  (ins : Nat → Inputs dataWidth)

/-- **A bounded queue**, in cycle `n`. -/
structure IsQueue (n : Nat) : Prop where
  elements : (outputsAt bufferDepth powerUp ins n).elementsO.toNat
    = (queueAt bufferDepth powerUp ins n).length
  bounded : (queueAt bufferDepth powerUp ins n).length ≤ bufferDepth
  validO : (outputsAt bufferDepth powerUp ins n).validO = true ↔
    0 < (queueAt bufferDepth powerUp ins n).length
  readyO : (outputsAt bufferDepth powerUp ins n).readyO = true ↔
    (queueAt bufferDepth powerUp ins n).length < bufferDepth
  dataO : ∀ x, (queueAt bufferDepth powerUp ins n).head? = some x →
    (outputsAt bufferDepth powerUp ins n).dataO = x
  pointers : (regsAt bufferDepth powerUp ins n).pointerIn.toNat
    = ((regsAt bufferDepth powerUp ins n).pointerOut.toNat
        + (regsAt bufferDepth powerUp ins n).elements.toNat) % bufferDepth

variable {bufferDepth}

/-- **The buffer holds the queue in every cycle.** -/
theorem holds_queueAt (hd : 2 ≤ bufferDepth) (n : Nat) :
    ∃ g, Holds (regsAt bufferDepth powerUp ins n) g ∧
      g.entries = queueAt bufferDepth powerUp ins n := by
  induction n with
  | zero => exact ⟨_, holds_empty (by omega) rfl rfl rfl, rfl⟩
  | succ n ih =>
      obtain ⟨g, hg, hq⟩ := ih
      obtain ⟨g', hg', hq'⟩ := holds_next hd powerUp hg (ins n)
      refine ⟨g', hg', ?_⟩
      rw [hq', hq]
      rfl

/-- **The buffer is a bounded queue.** -/
theorem isQueue (hd : 2 ≤ bufferDepth) (n : Nat) : IsQueue bufferDepth powerUp ins n := by
  obtain ⟨g, hg, hq⟩ := holds_queueAt powerUp ins hd n
  have hlen : (queueAt bufferDepth powerUp ins n).length = g.len := by
    rw [← hq, Ring.length_entries]
  refine ⟨hg.elements.trans hlen.symm, ?_, ?_, ?_, fun x hx => ?_, ?_⟩
  · rw [hlen]
    exact g.len_le
  · rw [hlen]
    exact validO_iff hg
  · have hfull := full_iff hg
    have hle := g.len_le
    show (!full _) = true ↔ _
    rw [Bool.not_eq_true', ← Bool.not_eq_true, hfull, hlen]
    omega
  · have hpos : 0 < g.len := by
      rw [← hlen]
      exact List.length_pos_of_ne_nil fun hnil => by rw [hnil] at hx; cases hx
    rw [← hq, Ring.entries_eq_cons g hpos, List.head?_cons, Option.some.injEq] at hx
    show (regsAt bufferDepth powerUp ins n).buffer _ = x
    rw [hg.buffer, hg.pointerOut, hx]
  · rw [hg.pointerIn, hg.pointerOut, hg.elements]
    rfl

/-- A push in every cycle, a pop in every other, and a clear now and
then. -/
def busyPort (n : Nat) : Inputs 8 where
  clrI := n % 7 == 6
  readyI := n % 2 == 1
  validI := true
  dataI := BitVec.ofNat 8 n

theorem isQueue_busyPort : IsQueue 3 (fun _ => 0) busyPort 9 := isQueue _ _ (by decide) 9

end Runs

end RiscvSoc.IoGenericFifo
