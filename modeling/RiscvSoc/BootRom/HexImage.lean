import RiscvSoc.BootRom.GenRom
import RiscvSoc.Mem.Packed

/-!
# BootRom — HexImage

`freedom-bin2hex` at every bit width: what `main` makes of its option, and
what a `$readmemh` finds in the file that it writes. The bytes of a row
stand in the file with the last one first, so the number on a line has
the first byte at its low end.
-/

namespace RiscvSoc.BootRom

open Mem Text

/-- `main`, for the option `--bit-width`; `none` is the exit with an error.
A row of no bytes or less is never filled: nothing is written. -/
def bin2hex (bitWidth : Int) (infile : List (BitVec 8)) : Option (List Char) :=
  if bitWidth % 8 ≠ 0 then none else some (convert bitWidth.toNat infile)

/-! ## Reading the file -/

/-- The `n` bytes of the word on a line, from its low end on. -/
def lineBytes (n : Nat) (line : List Char) : List (BitVec 8) :=
  (List.range n).map fun j => BitVec.ofNat 8 (value 16 (rstrip line) / (2 ^ 8) ^ j)

/-- The bytes of a memory of `n`-byte words that is loaded with a file. -/
def readmemh (n : Nat) (text : List Char) : List (BitVec 8) :=
  (readlines text).flatMap (lineBytes n)

/-- **A hex file of an image**, in words of `n` bytes: lines of as many
digits as a word has, and no line more than it takes, from which the image
is read back with zeros behind it. -/
structure HexImage (n : Nat) (image : List (BitVec 8)) (text : List Char) : Prop where
  digits : ∀ line ∈ readlines text, ∃ row, line = row ++ ['\n'] ∧ row.length = 2 * n ∧
    ∀ c ∈ row, isDigit 16 c = true
  lines : (readlines text).length = (image.length + n - 1) / n
  bytes : readmemh n text =
    image ++ List.replicate ((readlines text).length * n - image.length) 0

/-! ## Rows -/

/-- A range in blocks of `n`. -/
theorem flatMap_range_blocks {α : Type _} (f : Nat → α) (n c : Nat) :
    ((List.range c).flatMap fun i => (List.range n).map fun j => f (i * n + j))
      = (List.range (c * n)).map f := by
  induction c with
  | zero => rw [Nat.zero_mul]; rfl
  | succ c ih =>
      rw [List.range_succ, List.flatMap_append, ih, Nat.succ_mul, List.range_add, List.map_append,
        List.flatMap_singleton, List.map_map]
      rfl

/-- Reading past the end of a list fills it up. -/
theorem map_getD_range {α : Type _} (xs : List α) (d : α) {m : Nat} (h : xs.length ≤ m) :
    ((List.range m).map fun k => xs.getD k d) = xs ++ List.replicate (m - xs.length) d := by
  apply List.ext_getElem
  · simp only [List.length_map, List.length_range, List.length_append, List.length_replicate]
    omega
  · intro k h1 h2
    rw [List.getElem_map, List.getElem_range, List.getElem_append]
    split
    · rename_i hk
      rw [List.getD_eq_getElem?_getD, List.getElem?_eq_getElem hk, Option.getD_some]
    · rename_i hk
      rw [List.getElem_replicate, List.getD_eq_getElem?_getD,
        List.getElem?_eq_none (Nat.le_of_not_lt hk), Option.getD_none]

/-- The rows one after the other. -/
theorem flatten_grouper (xs : List (BitVec 8)) {n : Nat} (hn : 0 < n) (d : BitVec 8) :
    (grouper xs n d).flatten =
      xs ++ List.replicate ((xs.length + n - 1) / n * n - xs.length) d := by
  have hle : xs.length ≤ (xs.length + n - 1) / n * n := by
    have := Nat.div_add_mod (xs.length + n - 1) n
    have hmod := Nat.mod_lt (xs.length + n - 1) hn
    rw [Nat.mul_comm] at this
    omega
  rw [grouper, ← List.flatMap_def, flatMap_range_blocks fun k => xs.getD k d,
    map_getD_range xs d hle]

theorem length_of_mem_grouper {xs row : List (BitVec 8)} {n : Nat} {d : BitVec 8}
    (h : row ∈ grouper xs n d) : row.length = n := by
  obtain ⟨i, _, rfl⟩ := List.mem_map.mp h
  rw [List.length_map, List.length_range]

theorem length_hexRow (row : List (BitVec 8)) : (hexRow row).length = 2 * row.length := by
  induction row with
  | nil => rfl
  | cons b row ih =>
      rw [hexRow, List.reverse_cons, List.flatMap_append, List.flatMap_singleton,
        List.length_append, length_hexByte, List.length_cons]
      rw [hexRow] at ih
      omega

/-- The number of a row has its first byte for its lowest digit. -/
theorem value_hexRow_eq (row : List (BitVec 8)) :
    value 16 (hexRow row) = Nat.ofDigits (2 ^ 8) (row.map BitVec.toNat) := by
  induction row with
  | nil => rfl
  | cons b row ih =>
      rw [List.map_cons, Nat.ofDigits_cons, ← ih, hexRow, List.reverse_cons, List.flatMap_append,
        List.flatMap_singleton, value_append, length_hexByte, value_hexByte, ← hexRow]
      omega

/-- **A row is read back.** -/
theorem lineBytes_hexRow (row : List (BitVec 8)) :
    lineBytes row.length (hexRow row ++ ['\n']) = row := by
  have hstrip : rstrip (hexRow row ++ ['\n']) = hexRow row :=
    rstrip_line fun c hc => isSpace_of_isDigit (isDigit_of_mem_hexRow hc)
  rw [lineBytes, hstrip, value_hexRow_eq]
  apply List.ext_getElem
  · rw [List.length_map, List.length_range]
  · intro j _ hj
    rw [List.getElem_map, List.getElem_range, ofNat_ofDigits_div, List.getElem?_eq_getElem hj,
      Option.getD_some]

/-! ## The file -/

theorem readlines_convert_rows (bitWidth : Nat) (image : List (BitVec 8)) :
    readlines (convert bitWidth image)
      = ((grouper image (bitWidth / 8) 0).map hexRow).map (· ++ ['\n']) := by
  have hrows : ∀ r ∈ (grouper image (bitWidth / 8) 0).map hexRow, '\n' ∉ r := by
    intro r hr
    obtain ⟨row, _, rfl⟩ := List.mem_map.mp hr
    exact newline_not_mem (by omega) fun c hc => isDigit_of_mem_hexRow hc
  rw [← readlines_flatMap hrows, List.flatMap_map]
  rfl

theorem readmemh_convert {bitWidth : Nat} (h : 0 < bitWidth / 8) (image : List (BitVec 8)) :
    HexImage (bitWidth / 8) image (convert bitWidth image) := by
  have hlines : (readlines (convert bitWidth image)).length
      = (image.length + bitWidth / 8 - 1) / (bitWidth / 8) := by
    rw [readlines_convert_rows, List.length_map, List.length_map, grouper, List.length_map,
      List.length_range]
  refine ⟨fun line hline => ?_, hlines, ?_⟩
  · rw [readlines_convert_rows] at hline
    obtain ⟨_, hr, rfl⟩ := List.mem_map.mp hline
    obtain ⟨row, hrow, rfl⟩ := List.mem_map.mp hr
    refine ⟨hexRow row, rfl, ?_, fun c hc => isDigit_of_mem_hexRow hc⟩
    rw [length_hexRow, length_of_mem_grouper hrow]
  · have hrow : ∀ row ∈ grouper image (bitWidth / 8) 0,
        lineBytes (bitWidth / 8) (hexRow row ++ ['\n']) = row := by
      intro row hr
      have hread := lineBytes_hexRow row
      rwa [length_of_mem_grouper hr] at hread
    rw [hlines, ← flatten_grouper image h, readmemh, readlines_convert_rows, List.map_map,
      List.flatMap_map, ← List.flatMap_id]
    exact List.flatMap_congr hrow

theorem convert_of_no_bytes {bitWidth : Nat} (h : bitWidth / 8 = 0) (image : List (BitVec 8)) :
    convert bitWidth image = [] := by
  rw [convert, grouper, h, Nat.div_zero]
  rfl

/-- **What `freedom-bin2hex` writes**, for any width and any image: nothing
for a width that is no multiple of 8 or not positive, and else a file from
which the image is read back. -/
theorem bin2hex_reads_back (bitWidth : Int) (image : List (BitVec 8)) :
    (bin2hex bitWidth image = none ↔ bitWidth % 8 ≠ 0) ∧
      ∀ text ∈ bin2hex bitWidth image,
        if 0 < bitWidth then HexImage (bitWidth.toNat / 8) image text else text = [] := by
  rw [bin2hex]
  by_cases hdvd : bitWidth % 8 ≠ 0
  · rw [if_pos hdvd]
    simp [hdvd]
  · rw [if_neg hdvd]
    refine ⟨by simp [not_not.mp hdvd], fun text htext => ?_⟩
    obtain rfl := Option.mem_some_iff.mp htext
    split
    · exact readmemh_convert (by omega) image
    · exact convert_of_no_bytes (by omega) image

end RiscvSoc.BootRom
