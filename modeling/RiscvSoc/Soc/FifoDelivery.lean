import RiscvSoc.Soc.IoGenericFifo
import RiscvSoc.Sync.Delivery

/-!
# Soc — FifoDelivery

What the two sides of `io_generic_fifo` see of each other: the words of
the cycles with `valid_i` and `ready_o` on the one side, and of those with
`valid_o` and `ready_i` on the other, from any cycle on until the buffer
is cleared again.
-/

namespace RiscvSoc.IoGenericFifo

open Sync Mem

variable {dataWidth : Nat} (bufferDepth : Nat) (powerUp : Nat → BitVec dataWidth)
  (ins : Nat → Inputs dataWidth)

/-- The word accepted in cycle `n`. -/
def accepted (n : Nat) : Option (BitVec dataWidth) :=
  if enqueues (ins n) (outputsAt bufferDepth powerUp ins n) then some (ins n).dataI else none

/-- The word handed over in cycle `n`. -/
def handedOver (n : Nat) : Option (BitVec dataWidth) :=
  if dequeues (ins n) (outputsAt bufferDepth powerUp ins n) then
    some (outputsAt bufferDepth powerUp ins n).dataO
  else none

/-- **Delivery** in the `n` cycles from `m` on. -/
structure Delivers (m n : Nat) : Prop where
  /-- The words come out in the order they were put in, each once. -/
  order : queueAt bufferDepth powerUp ins m
      ++ words (fun k => accepted bufferDepth powerUp ins (m + k)) n
    = words (fun k => handedOver bufferDepth powerUp ins (m + k)) n
      ++ queueAt bufferDepth powerUp ins (m + n)
  /-- The receiver is handed the front word in each cycle in which it is
  ready and there is one. -/
  prompt : ∀ k, k < n → handedOver bufferDepth powerUp ins (m + k)
    = if (ins (m + k)).readyI then (queueAt bufferDepth powerUp ins (m + k)).head? else none
  /-- A word waits for the words before it only. -/
  progress : (queueAt bufferDepth powerUp ins m).length
      ≤ (cycles (fun k => (ins (m + k)).readyI) n).length →
    queueAt bufferDepth powerUp ins m
      <+: words (fun k => handedOver bufferDepth powerUp ins (m + k)) n

variable {bufferDepth} {powerUp ins}

/-- `valid_o` and `data_o` are about the head of the queue. -/
theorem handshake (hd : 2 ≤ bufferDepth) (n : Nat) :
    ((outputsAt bufferDepth powerUp ins n).validO = true ↔
        queueAt bufferDepth powerUp ins n ≠ []) ∧
      ((outputsAt bufferDepth powerUp ins n).validO = true →
        queueAt bufferDepth powerUp ins n
          = (outputsAt bufferDepth powerUp ins n).dataO
            :: (queueAt bufferDepth powerUp ins n).tail) := by
  obtain ⟨g, hg, hq⟩ := holds_queueAt powerUp ins hd n
  have hvalid : (outputsAt bufferDepth powerUp ins n).validO = true ↔ 0 < g.len := validO_iff hg
  rw [hvalid, ← hq]
  refine ⟨?_, fun hpos => ?_⟩
  · rw [← List.length_pos_iff, Ring.length_entries]
  · have hhead : (outputsAt bufferDepth powerUp ins n).dataO = g.buffer g.out := by
      show (regsAt bufferDepth powerUp ins n).buffer _ = _
      rw [hg.buffer, hg.pointerOut]
    rw [hhead, g.entries_eq_cons hpos, List.tail_cons]

/-- A ready receiver takes the front of the queue. -/
theorem handedOver_eq (hd : 2 ≤ bufferDepth) (n : Nat) :
    handedOver bufferDepth powerUp ins n
      = if (ins n).readyI then (queueAt bufferDepth powerUp ins n).head? else none := by
  have hvalid : (outputsAt bufferDepth powerUp ins n).validO = true ↔
      queueAt bufferDepth powerUp ins n ≠ [] := (handshake hd n).1
  rw [handedOver, dequeues]
  cases (ins n).readyI with
  | false => rfl
  | true =>
      cases hv : (outputsAt bufferDepth powerUp ins n).validO with
      | false =>
          have hnil : queueAt bufferDepth powerUp ins n = [] := by
            rw [hv] at hvalid
            exact not_not.mp (mt hvalid.mpr Bool.false_ne_true)
          rw [hnil]
          rfl
      | true =>
          rw [(handshake hd n).2 hv]
          rfl

/-- One cycle without a clear. -/
theorem queueAt_append (hd : 2 ≤ bufferDepth) {n : Nat} (hclr : (ins n).clrI = false) :
    queueAt bufferDepth powerUp ins n ++ (accepted bufferDepth powerUp ins n).toList
      = (handedOver bufferDepth powerUp ins n).toList
        ++ queueAt bufferDepth powerUp ins (n + 1) := by
  have hnext : queueAt bufferDepth powerUp ins (n + 1)
      = (if dequeues (ins n) (outputsAt bufferDepth powerUp ins n) then
          (queueAt bufferDepth powerUp ins n).tail else queueAt bufferDepth powerUp ins n)
        ++ (accepted bufferDepth powerUp ins n).toList := by
    rw [queueAt, queueNext, hclr, if_neg Bool.false_ne_true, accepted]
    cases enqueues (ins n) (outputsAt bufferDepth powerUp ins n) <;> rfl
  rw [hnext, handedOver]
  cases hdeq : dequeues (ins n) (outputsAt bufferDepth powerUp ins n) with
  | false => rfl
  | true =>
      have hhead := (handshake hd n).2 (Bool.and_eq_true_iff.mp hdeq).2
      rw [if_pos rfl, if_pos rfl, Option.toList_some, ← List.append_assoc, List.singleton_append,
        ← hhead]

/-- **The buffer delivers** until it is cleared. -/
theorem delivers (hd : 2 ≤ bufferDepth) (m n : Nat)
    (hclr : ∀ k, k < n → (ins (m + k)).clrI = false) : Delivers bufferDepth powerUp ins m n := by
  have hnext : ∀ k, k < n → queueAt bufferDepth powerUp ins (m + k)
      ++ (accepted bufferDepth powerUp ins (m + k)).toList
      = (handedOver bufferDepth powerUp ins (m + k)).toList
        ++ queueAt bufferDepth powerUp ins (m + (k + 1)) :=
    fun k hk => queueAt_append hd (hclr k hk)
  refine ⟨append_words (fun k => queueAt bufferDepth powerUp ins (m + k)) hnext,
    fun k _ => handedOver_eq hd (m + k),
    prefix_words (fun k => queueAt bufferDepth powerUp ins (m + k)) hnext
      fun k _ hready hsome => ?_⟩
  rw [handedOver_eq hd, if_pos hready]
  exact List.isSome_head?.mpr hsome

theorem delivers_busyPort : Delivers 3 (fun _ => 0) busyPort 0 6 :=
  delivers (by decide) 0 6 (by decide)

end RiscvSoc.IoGenericFifo
