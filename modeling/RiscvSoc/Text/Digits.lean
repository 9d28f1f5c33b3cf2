import Mathlib.Data.Nat.Digits.Lemmas

/-!
# Text — Digits

Numbers as text, in a base up to 16 with lower-case digits: `render`
prints one, `zeroPad` fills it up to a width, `number` reads the longest
run of digits at the head of a text. Reading what was printed gives the
number back, whatever the padding, as long as no digit follows.
-/

namespace RiscvSoc.Text

def digitChars : List Char :=
  ['0', '1', '2', '3', '4', '5', '6', '7', '8', '9', 'a', 'b', 'c', 'd', 'e', 'f']

def digitChar (d : Nat) : Char := digitChars.getD d '0'

/-- The value of a digit; 16 for every other character. -/
def digitVal (c : Char) : Nat := digitChars.idxOf c

def isDigit (b : Nat) (c : Char) : Bool := digitVal c < b

/-- `n` in base `b`. -/
def render (b n : Nat) : List Char :=
  if n = 0 then ['0'] else (Nat.digits b n).reverse.map digitChar

/-- Zeros in front, up to width `w`. -/
def zeroPad (w : Nat) (cs : List Char) : List Char :=
  List.replicate (w - cs.length) '0' ++ cs

/-- The number a row of digits stands for. -/
def value (b : Nat) (cs : List Char) : Nat := Nat.ofDigits b (cs.reverse.map digitVal)

/-- Read a number: its value and the rest of the text. -/
def number (b : Nat) (cs : List Char) : Option (Nat × List Char) :=
  if cs.takeWhile (isDigit b) = [] then none
  else some (value b (cs.takeWhile (isDigit b)), cs.dropWhile (isDigit b))

/-! ## Digits -/

theorem digitVal_digitChar : ∀ d, d < 16 → digitVal (digitChar d) = d := by decide

theorem digitVal_zero : digitVal '0' = 0 := by decide

theorem isDigit_digitChar {b d : Nat} (hb : b ≤ 16) (hd : d < b) :
    isDigit b (digitChar d) = true := by
  simp only [isDigit, digitVal_digitChar d (by omega), hd, decide_true]

/-! ## Values -/

theorem value_append (b : Nat) (xs ys : List Char) :
    value b (xs ++ ys) = value b xs * b ^ ys.length + value b ys := by
  rw [value, List.reverse_append, List.map_append, Nat.ofDigits_append, value, value]
  simp [Nat.mul_comm, Nat.add_comm]

theorem value_zeroPad (b w : Nat) (cs : List Char) : value b (zeroPad w cs) = value b cs := by
  simp [value, zeroPad, digitVal_zero, Nat.ofDigits_append_replicate_zero]

/-- **Printing and reading back.** -/
theorem value_render {b : Nat} (hb : 1 < b) (hb16 : b ≤ 16) (n : Nat) :
    value b (render b n) = n := by
  rw [render]
  split
  · rename_i hn
    rw [hn]
    simp [value, digitVal_zero]
  · have hdigits : ((Nat.digits b n).map digitChar).map digitVal = Nat.digits b n := by
      rw [List.map_map]
      refine (List.map_congr_left fun d hd => ?_).trans (List.map_id _)
      have hlt := Nat.digits_lt_base hb hd
      exact digitVal_digitChar d (by omega)
    rw [value, ← List.map_reverse, List.reverse_reverse, hdigits, Nat.ofDigits_digits]

/-! ## Printed text -/

theorem render_ne_nil {b : Nat} (n : Nat) : render b n ≠ [] := by
  rw [render]
  split
  · simp
  · rename_i hn
    simpa using Nat.digits_ne_nil_iff_ne_zero.mpr hn

theorem isDigit_of_mem_render {b : Nat} (hb : 1 < b) (hb16 : b ≤ 16) {n : Nat} {c : Char}
    (hc : c ∈ render b n) : isDigit b c = true := by
  rw [render] at hc
  split at hc
  · obtain rfl : c = '0' := by simpa using hc
    simp only [isDigit, digitVal_zero, decide_eq_true_eq]
    omega
  · obtain ⟨d, hd, rfl⟩ := List.mem_map.mp hc
    exact isDigit_digitChar hb16 (Nat.digits_lt_base hb (List.mem_reverse.mp hd))

theorem isDigit_of_mem_zeroPad {b w : Nat} (hb : 0 < b) {cs : List Char}
    (hcs : ∀ c ∈ cs, isDigit b c = true) {c : Char} (hc : c ∈ zeroPad w cs) :
    isDigit b c = true := by
  rcases List.mem_append.mp hc with h | h
  · obtain rfl := List.eq_of_mem_replicate h
    simp only [isDigit, digitVal_zero, decide_eq_true_eq]
    omega
  · exact hcs c h

/-- A number that fits is printed at the width it is padded to. -/
theorem length_zeroPad_render {b w n : Nat} (hb : 1 < b) (hw : 0 < w) (hn : n < b ^ w) :
    (zeroPad w (render b n)).length = w := by
  have hle : (render b n).length ≤ w := by
    rw [render]
    split
    · exact hw
    · simpa using (Nat.digits_length_le_iff hb n).mpr hn
  simp only [zeroPad, List.length_append, List.length_replicate]
  omega

/-! ## Reading -/

/-- A number ends where no digit follows. -/
def NoDigitHead (b : Nat) (rest : List Char) : Prop :=
  ∀ c ∈ rest.head?, isDigit b c = false

theorem noDigitHead_cons {b : Nat} (c : Char) (h : isDigit b c = false) (cs rest : List Char) :
    NoDigitHead b (c :: cs ++ rest) := by
  intro d hd
  obtain rfl : c = d := by simpa using hd
  exact h

/-- A row of digits is read as a whole. -/
theorem number_append {b : Nat} {cs rest : List Char} (hne : cs ≠ [])
    (hcs : ∀ c ∈ cs, isDigit b c = true) (hrest : NoDigitHead b rest) :
    number b (cs ++ rest) = some (value b cs, rest) := by
  have htake : (cs ++ rest).takeWhile (isDigit b) = cs := by
    rw [List.takeWhile_append_of_pos hcs]
    cases rest with
    | nil => simp
    | cons c rest => simp [hrest c rfl]
  have hdrop : (cs ++ rest).dropWhile (isDigit b) = rest := by
    rw [List.dropWhile_append_of_pos hcs]
    cases rest with
    | nil => rfl
    | cons c rest => simp [hrest c rfl]
  rw [number, htake, hdrop, if_neg hne]

end RiscvSoc.Text
