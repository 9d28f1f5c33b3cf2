import RiscvSoc.Mem.Lanes

/-!
# Mem — Bytes

Byte-addressed memories with word accesses. A word takes the four bytes
from its address on, the least significant first, wherever the address
lies; addresses are counted around the end of the address space.
-/

namespace RiscvSoc.Mem

variable {w : Nat}

/-- The contents of every address. -/
abbrev Bytes (w : Nat) := BitVec w → BitVec 8

/-- How far `b` lies behind `a`. -/
def dist (a b : BitVec w) : Nat := (b - a).toNat

theorem dist_of_le {a b : BitVec w} (h : a.toNat ≤ b.toNat) :
    dist a b = b.toNat - a.toNat :=
  BitVec.toNat_sub_of_le (BitVec.le_def.mpr h)

/-- What lies behind `a`, up to the end of the address space. -/
theorem dist_lt_iff {a b : BitVec w} {n : Nat} (h : a.toNat + n ≤ 2 ^ w) :
    dist a b < n ↔ a.toNat ≤ b.toNat ∧ b.toNat < a.toNat + n := by
  have ha := a.isLt
  have hb := b.isLt
  by_cases hle : a.toNat ≤ b.toNat
  · rw [dist_of_le hle]
    omega
  · have hwrap : dist a b = 2 ^ w - a.toNat + b.toNat := by
      rw [dist, BitVec.toNat_sub, Nat.mod_eq_of_lt (by omega)]
    omega

/-- The same, counted from a point before both. -/
theorem dist_add_lt_iff {p o b : BitVec w} {n : Nat} (h : o.toNat + n ≤ 2 ^ w) :
    dist (p + o) b < n ↔ o.toNat ≤ dist p b ∧ dist p b < o.toNat + n := by
  have hsub : dist (p + o) b = dist o (b - p) := by
    rw [dist, dist, BitVec.sub_sub]
  rw [hsub, dist_lt_iff h, dist]

/-- Words at offsets that are four apart have no byte in common. -/
theorem four_le_dist_add {p o q b : BitVec w} (ho : o.toNat + 4 ≤ 2 ^ w)
    (hq : q.toNat + 4 ≤ 2 ^ w) (h : o.toNat + 4 ≤ q.toNat ∨ q.toNat + 4 ≤ o.toNat)
    (hb : dist (p + o) b < 4) : 4 ≤ dist (p + q) b := by
  have hin := (dist_add_lt_iff ho).mp hb
  by_contra hlt
  have hin' := (dist_add_lt_iff (p := p) (b := b) (n := 4) hq).mp (by omega)
  omega

theorem dist_add (a x : BitVec w) : dist a (a + x) = x.toNat := by
  rw [dist, BitVec.add_comm, BitVec.add_sub_cancel]

theorem dist_add_ofNat_lt (a : BitVec w) (l : Fin 4) : dist a (a + BitVec.ofNat w l) < 4 := by
  rw [dist_add, BitVec.toNat_ofNat]
  exact Nat.lt_of_le_of_lt (Nat.mod_le _ _) l.isLt

/-- The word at an address. -/
def loadWord (m : Bytes w) (a : BitVec w) : BitVec 32 :=
  ofLanes fun l => m (a + BitVec.ofNat w l)

/-- A word is stored. -/
def storeWord (m : Bytes w) (a : BitVec w) (x : BitVec 32) : Bytes w :=
  fun b => if h : dist a b < 4 then lane x ⟨dist a b, h⟩ else m b

theorem storeWord_of_lt (m : Bytes w) {a b : BitVec w} (x : BitVec 32) (h : dist a b < 4) :
    storeWord m a x b = lane x ⟨dist a b, h⟩ := dif_pos h

/-- A cleared word. -/
theorem storeWord_zero_of_lt (m : Bytes w) {a b : BitVec w} (h : dist a b < 4) :
    storeWord m a 0 b = 0 := by
  rw [storeWord_of_lt m 0 h, lane]
  exact BitVec.extractLsb'_zero

/-- A store changes no other byte. -/
theorem storeWord_of_ge (m : Bytes w) {a b : BitVec w} (x : BitVec 32) (h : 4 ≤ dist a b) :
    storeWord m a x b = m b := dif_neg (by omega)

/-- The byte of a loaded word that comes from address `b`. -/
theorem lane_loadWord (m : Bytes w) (a b c : BitVec w) (h : dist a b < 4) :
    lane (loadWord m c) ⟨dist a b, h⟩ = m (c + (b - a)) := by
  rw [loadWord, lane_ofLanes]
  show m (c + BitVec.ofNat w (b - a).toNat) = _
  rw [BitVec.ofNat_toNat, BitVec.setWidth_eq]

/-- A word depends on its own bytes. -/
theorem loadWord_congr {m m' : Bytes w} {a : BitVec w} (h : ∀ b, dist a b < 4 → m b = m' b) :
    loadWord m a = loadWord m' a :=
  congrArg ofLanes (funext fun l => h _ (dist_add_ofNat_lt a l))

/-- **What is stored is loaded.** -/
theorem loadWord_storeWord (hw : 2 ≤ w) (m : Bytes w) (a : BitVec w) (x : BitVec 32) :
    loadWord (storeWord m a x) a = x := by
  have hlane : ∀ l : Fin 4, storeWord m a x (a + BitVec.ofNat w l) = lane x l := by
    intro l
    have hpow : 2 ^ 2 ≤ 2 ^ w := Nat.pow_le_pow_right (by omega) hw
    have hl : dist a (a + BitVec.ofNat w l) = l := by
      rw [dist_add, BitVec.toNat_ofNat, Nat.mod_eq_of_lt (by omega)]
    rw [storeWord_of_lt m x (dist_add_ofNat_lt a l)]
    exact congrArg (lane x) (Fin.ext hl)
  rw [loadWord, funext hlane, ofLanes_lane]

end RiscvSoc.Mem
