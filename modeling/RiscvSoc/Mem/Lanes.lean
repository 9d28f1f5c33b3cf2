import Mathlib.Algebra.Group.Nat.Defs
import Mathlib.Data.Fintype.Basic
import Mathlib.Tactic.FinCases

/-!
# Mem — Lanes

Memories that are written through byte enables. A memory is a map from
words `W` and lanes `L` to contents `B`; a store names one word, a set
of lanes and one datum per lane. The second half splits a 32-bit word
into its four byte lanes and puts it together again.
-/

namespace RiscvSoc.Mem

/-! ## Memories and stores -/

/-- The contents of every lane of every word. -/
abbrev LaneMem (W L B : Type _) := W → L → B

/-- One store: the enabled lanes of one word are replaced. -/
structure Store (W L B : Type _) where
  word : W
  enable : L → Bool
  data : L → B

/-- The datum with the lanes outside `be` replaced by `z`. -/
def masked {L B : Type _} (be : L → Bool) (z : B) (d : L → B) : L → B :=
  fun l => if be l then d l else z

section Stores

variable {W L B : Type _} [DecidableEq W]

/-- Perform one store. -/
def LaneMem.store (m : LaneMem W L B) (s : Store W L B) : LaneMem W L B :=
  fun w l => if w = s.word ∧ s.enable l = true then s.data l else m w l

/-- Perform stores in order. -/
def LaneMem.stores (m : LaneMem W L B) (ss : List (Store W L B)) :
    LaneMem W L B :=
  ss.foldl LaneMem.store m

@[simp] theorem stores_nil (m : LaneMem W L B) : m.stores [] = m := rfl

theorem stores_append (m : LaneMem W L B) (ss ts : List (Store W L B)) :
    m.stores (ss ++ ts) = (m.stores ss).stores ts :=
  List.foldl_append

theorem stores_concat (m : LaneMem W L B) (ss : List (Store W L B))
    (s : Store W L B) : m.stores (ss ++ [s]) = (m.stores ss).store s := by
  rw [stores_append]; rfl

/-- A store is its effect on the enabled lanes. -/
theorem store_congr (m : LaneMem W L B) {s t : Store W L B}
    (hw : s.word = t.word) (he : s.enable = t.enable)
    (hd : ∀ l, s.enable l = true → s.data l = t.data l) :
    m.store s = m.store t := by
  funext w l
  simp only [LaneMem.store, ← hw, ← he]
  split
  · rename_i h
    exact hd l h.2
  · rfl

/-- Stores that act alike one by one act alike in a row. -/
theorem stores_map_congr {ι : Type _} {f g : ι → Store W L B} {ks : List ι}
    (h : ∀ k ∈ ks, ∀ m : LaneMem W L B, m.store (f k) = m.store (g k))
    (m : LaneMem W L B) : m.stores (ks.map f) = m.stores (ks.map g) := by
  induction ks generalizing m with
  | nil => rfl
  | cons k ks ih =>
      simp only [LaneMem.stores, List.map_cons, List.foldl_cons]
      rw [h k List.mem_cons_self]
      exact ih (fun j hj => h j (List.mem_cons_of_mem k hj)) _

/-- Masking a datum with its own enables does not show. -/
theorem store_masked (m : LaneMem W L B) (w : W) (be : L → Bool) (z : B)
    (d : L → B) :
    m.store ⟨w, be, masked be z d⟩ = m.store ⟨w, be, d⟩ := by
  refine store_congr m rfl rfl fun l hl => ?_
  simp only at hl
  simp [masked, hl]

/-- **A masked datum shows its enables**: on a word that holds neither
the filler nor the datum, a masked store through `en` acts like the
store through `be` only if the two enable the same lanes. -/
theorem enables_eq_of_store_masked_eq {m : LaneMem W L B} {w : W}
    {en be : L → Bool} {z : B} {d : L → B} (hz : ∀ l, m w l ≠ z)
    (hd : ∀ l, m w l ≠ d l)
    (h : m.store ⟨w, en, masked be z d⟩ = m.store ⟨w, be, d⟩) :
    en = be := by
  funext l
  have hl := congrFun (congrFun h w) l
  simp only [LaneMem.store, true_and, masked] at hl
  cases hen : en l <;> cases hbe : be l <;> simp only [hen, hbe] at hl
  · rfl
  · exact absurd hl (hd l)
  · exact absurd hl.symm (hz l)
  · rfl

/-- Stores of one value leave a memory of that value alone. -/
theorem stores_const {b : B} {ss : List (Store W L B)}
    (h : ∀ s ∈ ss, ∀ l, s.data l = b) :
    LaneMem.stores (fun _ _ => b) ss = fun _ _ => b := by
  induction ss with
  | nil => rfl
  | cons s ss ih =>
      have hs : LaneMem.store (fun _ _ => b) s = fun _ _ => b := by
        funext w l
        simp only [LaneMem.store, h s (by simp) l, ite_self]
      rw [LaneMem.stores, List.foldl_cons, hs]
      exact ih fun t ht => h t (by simp [ht])

end Stores

/-! ## The byte lanes of a 32-bit word -/

/-- Byte lane `l` of a word, lane `0` the least significant. -/
def lane (w : BitVec 32) (l : Fin 4) : BitVec 8 :=
  w.extractLsb' (8 * l) 8

/-- The word with the given byte lanes. -/
def ofLanes (f : Fin 4 → BitVec 8) : BitVec 32 :=
  f 3 ++ f 2 ++ f 1 ++ f 0

theorem getLsbD_ofLanes (f : Fin 4 → BitVec 8) (i : Nat) :
    (ofLanes f).getLsbD i =
      if i < 8 then (f 0).getLsbD i
      else if i < 16 then (f 1).getLsbD (i - 8)
      else if i < 24 then (f 2).getLsbD (i - 16)
      else (f 3).getLsbD (i - 24) := by
  change BitVec.getLsbD (w := 8 + 8 + 8 + 8) (f 3 ++ f 2 ++ f 1 ++ f 0) i = _
  simp only [BitVec.getLsbD_append, Nat.sub_sub]
  split
  · rfl
  · have h1 : (i - 8 < 8) = (i < 16) := by grind
    have h2 : (i - (8 + 8) < 8) = (i < 24) := by grind
    simp [h1, h2]

theorem toNat_ofLanes (f : Fin 4 → BitVec 8) :
    (ofLanes f).toNat =
      (f 3).toNat * 2 ^ 24 + (f 2).toNat * 2 ^ 16 + (f 1).toNat * 2 ^ 8 + (f 0).toNat := by
  change BitVec.toNat (w := 8 + 8 + 8 + 8) (f 3 ++ f 2 ++ f 1 ++ f 0) = _
  rw [BitVec.toNat_append, ← Nat.shiftLeft_add_eq_or_of_lt (f 0).isLt, BitVec.toNat_append,
    ← Nat.shiftLeft_add_eq_or_of_lt (f 1).isLt, BitVec.toNat_append,
    ← Nat.shiftLeft_add_eq_or_of_lt (f 2).isLt]
  simp only [Nat.shiftLeft_eq]
  omega

@[simp] theorem lane_ofLanes (f : Fin 4 → BitVec 8) (l : Fin 4) :
    lane (ofLanes f) l = f l := by
  apply BitVec.eq_of_getLsbD_eq
  intro i hi
  rw [lane, BitVec.getLsbD_extractLsb', getLsbD_ofLanes]
  fin_cases l <;> grind

@[simp] theorem ofLanes_lane (w : BitVec 32) : ofLanes (lane w) = w := by
  apply BitVec.eq_of_getLsbD_eq
  intro i hi
  simp only [getLsbD_ofLanes, lane, BitVec.getLsbD_extractLsb']
  grind

/-- The lanes a four-bit enable vector names. -/
def enables (be : BitVec 4) (l : Fin 4) : Bool :=
  be.getLsbD l

theorem enables_inj {b c : BitVec 4} (h : enables b = enables c) : b = c := by
  apply BitVec.eq_of_getLsbD_eq
  intro i hi
  exact congrFun h ⟨i, hi⟩

end RiscvSoc.Mem
