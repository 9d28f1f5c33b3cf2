import Mathlib.Logic.Function.Basic
import Mathlib.Data.Nat.ModEq

/-!
# Mem — Ring

Queues in a ring of slots. The entries lie in consecutive slots from
`out` on, the slot behind the last one is slot 0 again. An entry is
added in the slot behind the others and taken from the first; as long as
the ring is not overfilled, neither touches another entry.
-/

namespace RiscvSoc.Mem

/-- The slot behind slot `p`. -/
def nextSlot (depth p : Nat) : Nat := if p = depth - 1 then 0 else p + 1

theorem nextSlot_eq_mod {depth p : Nat} (h : p < depth) :
    nextSlot depth p = (p + 1) % depth := by
  unfold nextSlot
  by_cases hlast : p = depth - 1
  · have hfull : p + 1 = depth := by omega
    rw [if_pos hlast, hfull, Nat.mod_self]
  · rw [if_neg hlast, Nat.mod_eq_of_lt (by omega)]

/-- `len` entries in the slots from `out` on. -/
structure Ring (α : Type _) (depth : Nat) where
  buffer : Nat → α
  out : Nat
  len : Nat
  out_lt : out < depth
  len_le : len ≤ depth

namespace Ring

variable {α : Type _} {depth : Nat}

/-- The slot of the `j`-th entry. -/
def slot (r : Ring α depth) (j : Nat) : Nat := (r.out + j) % depth

/-- The entries, in the order they were added. -/
def entries (r : Ring α depth) : List α :=
  (List.range r.len).map fun j => r.buffer (r.slot j)

@[simp] theorem length_entries (r : Ring α depth) : r.entries.length = r.len := by
  rw [entries, List.length_map, List.length_range]

/-- Different entries lie in different slots. -/
theorem slot_inj (r : Ring α depth) {j k : Nat} (hj : j < depth) (hk : k < depth)
    (h : r.slot j = r.slot k) : j = k := by
  have hmod : j ≡ k [MOD depth] := Nat.ModEq.add_left_cancel' r.out h
  rw [Nat.ModEq, Nat.mod_eq_of_lt hj, Nat.mod_eq_of_lt hk] at hmod
  exact hmod

/-- The ring without entries. -/
def empty (buffer : Nat → α) (h : 0 < depth) : Ring α depth where
  buffer := buffer
  out := 0
  len := 0
  out_lt := h
  len_le := Nat.zero_le depth

/-- An entry is added in the first free slot. -/
def push (r : Ring α depth) (x : α) (h : r.len < depth) : Ring α depth where
  buffer := Function.update r.buffer (r.slot r.len) x
  out := r.out
  len := r.len + 1
  out_lt := r.out_lt
  len_le := h

/-- **What is added is behind the other entries.** -/
theorem entries_push (r : Ring α depth) (x : α) (h : r.len < depth) :
    (r.push x h).entries = r.entries ++ [x] := by
  show (List.range (r.len + 1)).map (fun j => Function.update r.buffer _ x (r.slot j)) = _
  rw [List.range_succ, List.map_append, entries]
  congr 1
  · refine List.map_congr_left fun j hj => ?_
    have hlt : j < r.len := List.mem_range.mp hj
    refine Function.update_of_ne (fun heq => ?_) x r.buffer
    have := r.slot_inj (by omega) h heq
    omega
  · show [Function.update r.buffer (r.slot r.len) x (r.slot r.len)] = [x]
    rw [Function.update_self]

/-- The first entry is taken. -/
def pop (r : Ring α depth) : Ring α depth where
  buffer := r.buffer
  out := nextSlot depth r.out
  len := r.len - 1
  out_lt := by
    rw [nextSlot_eq_mod r.out_lt]
    exact Nat.mod_lt _ (Nat.zero_lt_of_lt r.out_lt)
  len_le := Nat.le_trans (Nat.sub_le r.len 1) r.len_le

/-- Behind the first entry the slots are the old ones. -/
theorem slot_pop (r : Ring α depth) (j : Nat) : r.pop.slot j = r.slot (j + 1) := by
  show (nextSlot depth r.out + j) % depth = _
  rw [nextSlot_eq_mod r.out_lt, Nat.mod_add_mod, slot]
  congr 1
  omega

/-- The first entry is in slot `out`. -/
theorem entries_eq_cons (r : Ring α depth) (h : 0 < r.len) :
    r.entries = r.buffer r.out :: r.pop.entries := by
  obtain ⟨n, hn⟩ : ∃ n, r.len = n + 1 := ⟨r.len - 1, by omega⟩
  have hpop : r.pop.len = n := by
    show r.len - 1 = n
    omega
  have hfirst : r.slot 0 = r.out := Nat.mod_eq_of_lt r.out_lt
  rw [entries, entries, hpop, hn, List.range_succ_eq_map, List.map_cons, List.map_map, hfirst]
  congr 1
  refine List.map_congr_left fun j _ => ?_
  rw [slot_pop]
  rfl

/-- **What is taken is the head.** -/
theorem entries_pop (r : Ring α depth) (h : 0 < r.len) : r.pop.entries = r.entries.tail := by
  rw [entries_eq_cons r h, List.tail_cons]

end Ring

end RiscvSoc.Mem
