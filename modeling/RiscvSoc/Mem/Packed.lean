import Mathlib.Data.Nat.Digits.Lemmas

/-!
# Mem — Packed

Packed arrays of words with ascending indices, `[0:depth-1]`: one long
vector, word 0 at its most significant end. A concatenation assigned to
one lists its words from that end as well, but the vector it makes is put
at the LEAST significant end, with zeros above it. So a row of fewer words
than the array holds comes to lie behind as many zeros as are missing.
-/

namespace RiscvSoc.Mem

variable {w : Nat}

/-- The vector a concatenation makes, its first word the most
significant. -/
def concat (ws : List (BitVec w)) : Nat := Nat.ofDigits (2 ^ w) (ws.reverse.map BitVec.toNat)

/-- Word `i` of a packed array of `depth` words. -/
def packedWord (w depth vector i : Nat) : BitVec w :=
  BitVec.ofNat w (vector / (2 ^ w) ^ (depth - 1 - i))

/-- The least significant word of a vector. -/
theorem ofNat_ofDigits (ws : List (BitVec w)) :
    BitVec.ofNat w (Nat.ofDigits (2 ^ w) (ws.map BitVec.toNat)) = ws.head?.getD 0 := by
  cases ws with
  | nil => rfl
  | cons x ws =>
      apply BitVec.eq_of_toNat_eq
      rw [List.map_cons, Nat.ofDigits_cons, BitVec.toNat_ofNat, Nat.add_mul_mod_self_left,
        Nat.mod_eq_of_lt x.isLt]
      rfl

/-- Word `j` of a vector, from its low end on. -/
theorem ofNat_ofDigits_div (ws : List (BitVec w)) (j : Nat) :
    BitVec.ofNat w (Nat.ofDigits (2 ^ w) (ws.map BitVec.toNat) / (2 ^ w) ^ j)
      = ws[j]?.getD 0 := by
  have hdigits : ∀ d ∈ ws.map BitVec.toNat, d < 2 ^ w := by
    intro d hd
    obtain ⟨x, _, rfl⟩ := List.mem_map.mp hd
    exact x.isLt
  rw [Nat.ofDigits_div_pow_eq_ofDigits_drop _ (Nat.two_pow_pos w) _ hdigits, ← List.map_drop,
    ofNat_ofDigits, List.head?_drop]

/-- **Where the words come to lie**: behind the zeros, in their order. -/
theorem packedWord_concat {depth : Nat} {ws : List (BitVec w)} (hfits : ws.length ≤ depth)
    {i : Nat} (hi : i < depth) :
    packedWord w depth (concat ws) i =
      if i < depth - ws.length then 0 else ws[i - (depth - ws.length)]?.getD 0 := by
  have hdigits : ∀ d ∈ ws.reverse.map BitVec.toNat, d < 2 ^ w := by
    intro d hd
    obtain ⟨x, _, rfl⟩ := List.mem_map.mp hd
    exact x.isLt
  rw [packedWord, concat,
    Nat.ofDigits_div_pow_eq_ofDigits_drop _ (Nat.two_pow_pos w) _ hdigits, ← List.map_drop,
    ofNat_ofDigits, List.head?_drop]
  split
  · rename_i hzero
    rw [List.getElem?_eq_none (by rw [List.length_reverse]; omega)]
    rfl
  · rw [List.getElem?_reverse (by omega)]
    congr 2
    omega

/-- A row that is its own shift by `k > 0`, zeros first, is all zeros. -/
theorem eq_zero_of_shift {ws : List (BitVec w)} {k : Nat} (hk : 0 < k)
    (hshift : ∀ i, i < ws.length → ws[i]? = some (if i < k then 0 else ws[i - k]?.getD 0))
    {i : Nat} (hi : i < ws.length) : ws[i]? = some 0 := by
  induction i using Nat.strongRecOn with
  | ind i ih =>
      rw [hshift i hi]
      split
      · rfl
      · rw [ih (i - k) (by omega) (by omega)]
        rfl

/-- **The words lie at their own indices iff none is missing**, or there
is no telling them from the zeros. -/
theorem packedWord_indexes_iff {depth : Nat} {ws : List (BitVec w)}
    (hfits : ws.length ≤ depth) :
    (∀ i, i < ws.length → ws[i]? = some (packedWord w depth (concat ws) i)) ↔
      ws.length = depth ∨ ∀ x ∈ ws, x = 0 := by
  constructor
  · intro hindex
    rcases Nat.eq_or_lt_of_le hfits with hfull | hshort
    · exact .inl hfull
    · right
      intro x hx
      obtain ⟨i, hi, rfl⟩ := List.getElem_of_mem hx
      have hmissing : 0 < depth - ws.length := by omega
      have hshift : ∀ j, j < ws.length → ws[j]? =
          some (if j < depth - ws.length then 0 else ws[j - (depth - ws.length)]?.getD 0) := by
        intro j hj
        rw [hindex j hj, packedWord_concat hfits (by omega)]
      have hzero := eq_zero_of_shift hmissing hshift hi
      rw [List.getElem?_eq_getElem hi] at hzero
      exact Option.some.inj hzero
  · rintro (hfull | hzeros) i hi
    · rw [packedWord_concat hfits (by omega), if_neg (by omega), ← hfull, Nat.sub_self,
        Nat.sub_zero, List.getElem?_eq_getElem hi]
      rfl
    · have hget : ∀ j : Nat, ws[j]?.getD 0 = 0 := by
        intro j
        cases hj : ws[j]? with
        | none => rfl
        | some x => exact hzeros x (List.mem_of_getElem? hj)
      rw [packedWord_concat hfits (by omega), hget, ite_self, List.getElem?_eq_getElem hi,
        hzeros _ (List.getElem_mem hi)]

end RiscvSoc.Mem
