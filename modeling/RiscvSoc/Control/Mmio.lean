import RiscvSoc.Control.While
import Mathlib.Data.List.Basic
import Mathlib.Logic.Function.Iterate

/-!
# Control — Mmio

Programs and the devices they read and write. All that is known of the
devices is the accesses that have reached them, in order, so what they
answer to a read may depend on those in any way. A busy wait reads one
register until it is ready; it has a budget, and ends if the device gets
ready at last.

A trace is guarded if each of its writes comes right behind a read that
allows it.
-/

namespace RiscvSoc.Control

variable {α ν : Type _}

/-- An access; a read with what it gave. -/
inductive Access (α ν : Type _) where
  | read (a : α) (x : ν)
  | write (a : α) (x : ν)
  deriving DecidableEq, Repr

/-- The accesses so far. -/
abbrev Trace (α ν : Type _) := List (Access α ν)

/-- What the devices answer to a read. -/
abbrev Devices (α ν : Type _) := Trace α ν → α → ν

/-- What is written, and where. -/
def Access.written : Access α ν → Option (α × ν)
  | .read _ _ => none
  | .write a x => some (a, x)

/-- The writes of a trace. -/
def writes (t : Trace α ν) : List (α × ν) := t.filterMap Access.written

@[simp] theorem writes_append (t u : Trace α ν) : writes (t ++ u) = writes t ++ writes u :=
  List.filterMap_append

@[simp] theorem writes_write (a : α) (x : ν) : writes [Access.write a x] = [(a, x)] := rfl

/-- A trace without writes. -/
theorem writes_eq_nil {t : Trace α ν} (h : ∀ e ∈ t, ∃ a x, e = .read a x) : writes t = [] := by
  refine List.filterMap_eq_nil_iff.mpr fun e he => ?_
  obtain ⟨a, x, rfl⟩ := h e he
  rfl

/-! ## Guarded traces -/

/-- Each write comes right behind a read that `allows` it. -/
def Guarded (allows : α → ν → Prop) (t : Trace α ν) : Prop :=
  ∀ pre a x post, t = pre ++ .write a x :: post →
    ∃ pre' b y, pre = pre' ++ [.read b y] ∧ allows b y

/-- Nothing is written. -/
theorem guarded_reads {allows : α → ν → Prop} {t : Trace α ν}
    (h : ∀ e ∈ t, ∃ a x, e = .read a x) : Guarded allows t := by
  rintro pre a x post rfl
  obtain ⟨b, y, hread⟩ := h (.write a x) (List.mem_append_right _ List.mem_cons_self)
  cases hread

/-- A read that allows a write, and the write. -/
theorem guarded_pair {allows : α → ν → Prop} {b : α} {y : ν} (h : allows b y) (c : α) (z : ν) :
    Guarded allows [.read b y, .write c z] := by
  intro pre a x post heq
  match pre with
  | [] => cases heq
  | [e] =>
      obtain ⟨rfl, _⟩ := List.cons.inj heq
      exact ⟨[], b, y, rfl, h⟩
  | e :: e' :: es =>
      obtain ⟨_, htail⟩ := List.cons.inj heq
      obtain ⟨_, hnil⟩ := List.cons.inj htail
      exact absurd hnil.symm (List.append_ne_nil_of_right_ne_nil _ (List.cons_ne_nil _ _))

theorem Guarded.append {allows : α → ν → Prop} {t u : Trace α ν} (ht : Guarded allows t)
    (hu : Guarded allows u) : Guarded allows (t ++ u) := by
  intro pre a x post h
  rcases List.append_eq_append_iff.mp h with ⟨mid, rfl, hmid⟩ | ⟨mid, htail, hmid⟩
  · -- the write is in the second part
    obtain ⟨pre', b, y, rfl, hallow⟩ := hu mid a x post hmid
    exact ⟨t ++ pre', b, y, (List.append_assoc _ _ _).symm, hallow⟩
  · cases mid with
    | nil =>
        obtain ⟨pre', b, y, hnil, _⟩ := hu [] a x post (by rw [hmid]; rfl)
        exact absurd hnil.symm (List.append_ne_nil_of_right_ne_nil _ (List.cons_ne_nil _ _))
    | cons e es =>
        obtain ⟨rfl, rfl⟩ := List.cons.inj hmid
        exact ht pre a x es htail

/-! ## Drivers -/

/-- One write. -/
def writeReg (a : α) (x : ν) (h : Trace α ν) : Trace α ν := h ++ [.write a x]

variable (d : Devices α ν) (a : α) (ready : ν → Bool)

/-- One read. -/
def readReg (h : Trace α ν) : Trace α ν := h ++ [.read a (d h a)]

/-- `while (!ready(*a));`, in at most `fuel` reads. -/
def waitUntil : Nat → Trace α ν → Option (Trace α ν)
  | 0, _ => none
  | fuel + 1, h =>
      if ready (d h a) then some (readReg d a h) else waitUntil fuel (readReg d a h)

/-- The device gets ready, when it is read often enough. -/
def Responsive : Prop := ∀ h, ∃ n, ready (d ((readReg d a)^[n] h) a) = true

variable {d a ready}

/-- **What a busy wait reads**: the register, until it is ready. -/
theorem waitUntil_spec {fuel : Nat} {h h' : Trace α ν} (hw : waitUntil d a ready fuel h = some h') :
    ∃ t x, h' = h ++ t ++ [.read a x] ∧ ready x = true ∧
      ∀ e ∈ t, ∃ y, e = .read a y ∧ ready y = false := by
  induction fuel generalizing h with
  | zero => cases hw
  | succ fuel ih =>
      cases hr : ready (d h a) with
      | true =>
          rw [waitUntil, hr, if_pos rfl] at hw
          refine ⟨[], d h a, ?_, hr, fun e he => absurd he List.not_mem_nil⟩
          rw [← Option.some.inj hw, List.append_nil]
          rfl
      | false =>
          rw [waitUntil, hr, if_neg Bool.false_ne_true] at hw
          obtain ⟨t, x, hh, hx, hbefore⟩ := ih hw
          refine ⟨.read a (d h a) :: t, x, ?_, hx, fun e he => ?_⟩
          · rw [hh, readReg, List.append_assoc h]
            rfl
          · rcases List.mem_cons.mp he with rfl | htail
            · exact ⟨_, rfl, hr⟩
            · exact hbefore e htail

/-- **A busy wait for a device that gets ready ends.** -/
theorem waitUntil_ends (hd : Responsive d a ready) (h : Trace α ν) :
    ∃ h', Ends (fun f => waitUntil d a ready f h) h' := by
  obtain ⟨n, hn⟩ := hd h
  induction n generalizing h with
  | zero =>
      refine ⟨readReg d a h, 1, fun f hf => ?_⟩
      obtain ⟨g, rfl⟩ : ∃ g, f = g + 1 := ⟨f - 1, by omega⟩
      exact if_pos hn
  | succ n ih =>
      cases hr : ready (d h a) with
      | true =>
          refine ⟨readReg d a h, 1, fun f hf => ?_⟩
          obtain ⟨g, rfl⟩ : ∃ g, f = g + 1 := ⟨f - 1, by omega⟩
          exact if_pos hr
      | false =>
          obtain ⟨h', m, hm⟩ := ih (readReg d a h) hn
          refine ⟨h', m + 1, fun f hf => ?_⟩
          obtain ⟨g, rfl⟩ : ∃ g, f = g + 1 := ⟨f - 1, by omega⟩
          show waitUntil d a ready (g + 1) h = some h'
          rw [waitUntil, hr, if_neg Bool.false_ne_true]
          exact hm g (by omega)

end RiscvSoc.Control
