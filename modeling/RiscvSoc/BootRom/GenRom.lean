import RiscvSoc.Mem.Lanes
import RiscvSoc.Text.Digits
import RiscvSoc.Text.Lines

/-!
# BootRom — GenRom

The scripts between the boot program and its ROM: `convert` of
`freedom-bin2hex` turns the image into a hex file of one word a line,
`gen_rom_xilinx` that file into a Verilog case table. Both are modelled
on the text they write.

`gen_rom_xilinx` writes its items for `readlines()[:-1]`, as `gen_rom`
does, but not the item for the last line that `gen_rom` adds after them.
-/

namespace RiscvSoc.BootRom

open Mem Text

/-! ## freedom-bin2hex -/

/-- `grouper`: rows of `n`, the last one filled up. -/
def grouper (xs : List (BitVec 8)) (n : Nat) (fillvalue : BitVec 8) : List (List (BitVec 8)) :=
  (List.range ((xs.length + n - 1) / n)).map fun i =>
    (List.range n).map fun j => xs.getD (i * n + j) fillvalue

/-- `'{:02x}'.format(b)`. -/
def hexByte (b : BitVec 8) : List Char := zeroPad 2 (render 16 b.toNat)

def hexRow (row : List (BitVec 8)) : List Char := row.reverse.flatMap hexByte

def convert (bitWidth : Nat) (infile : List (BitVec 8)) : List Char :=
  (grouper infile (bitWidth / 8) 0).flatMap fun row => hexRow row ++ ['\n']

/-! ## gen_rom_xilinx -/

def preamble : String :=
  "// -----------------------------------------------------\n" ++
  "// Please don't edit this code, its automatic generated!\n" ++
  "// -> Check: gen_rom.py                                 \n" ++
  "// -----------------------------------------------------\n" ++
  "module boot_rom_generic (\n" ++
  "  input   rst_n,\n" ++
  "  input   clk,\n" ++
  "  input   en,\n"

def raddrPort (addressWidth : Nat) : List Char :=
  "  input   [".toList ++ render 10 (addressWidth - 1) ++ ":0] raddr_i,\n".toList

def opening : String :=
  "  output  [31:0] dout_o\n" ++
  ");\n\n" ++
  "  (*rom_style = \"block\" *) reg [31:0] mem;\n\n" ++
  "  assign dout_o = mem;\n" ++
  "  always @(posedge clk)\n" ++
  "     if(en)\n" ++
  "         case(raddr_i)\n"

/-- One item, without its newline. -/
def item (addressWidth addressIndex : Nat) (line : List Char) : List Char :=
  "         ".toList ++ render 10 addressWidth ++ "'d".toList
    ++ zeroPad 6 (render 10 (addressIndex * 4)) ++ ": mem <= 32'h".toList
    ++ rstrip line ++ ";".toList

/-- The loop over `hex_lines`, from `address_index` on. -/
def items (addressWidth : Nat) : Nat → List (List Char) → List Char
  | _, [] => []
  | addressIndex, line :: lines =>
      item addressWidth addressIndex line ++ ['\n']
        ++ items addressWidth (addressIndex + 1) lines

def closing : String := "         endcase\n\n" ++ "endmodule\n"

/-- `log2 n` stands for `math.ceil(math.log(n, 2))`. The script ends
with an error on a file without lines, as `math.log` does on 0. -/
def genRomXilinx (log2 : Nat → Nat) (hex : List Char) : Option (List Char) :=
  let lines := readlines hex
  if lines.length = 0 then none
  else
    let addressWidth := log2 lines.length + 1
    some (preamble.toList ++ raddrPort addressWidth ++ opening.toList
      ++ items addressWidth 0 lines.dropLast ++ closing.toList)

/-! ## The case table of a file -/

def expect (p cs : List Char) : Option (List Char) :=
  if p.isPrefixOf cs then some (cs.drop p.length) else none

/-- A line that is a case item: the number printed as its label and the
one assigned. -/
def caseItem (line : List Char) : Option (Nat × Nat) :=
  (number 10 (line.dropWhile (· == ' '))).bind fun (_, cs) =>
  (expect "'d".toList cs).bind fun cs =>
  (number 10 cs).bind fun (label, cs) =>
  (expect ": mem <= 32'h".toList cs).bind fun cs =>
  (number 16 cs).bind fun (word, cs) =>
  (expect ";".toList cs).map fun _ => (label, word)

def caseTable (text : List Char) : List (Nat × Nat) := (readlines text).filterMap caseItem

/-- **The table to be emitted**: for every word of the image its byte
address and its little-endian value, the image padded with zeros. -/
def romTable (image : List (BitVec 8)) : List (Nat × Nat) :=
  (List.range ((image.length + 3) / 4)).map fun i =>
    (4 * i, (ofLanes fun l => image.getD (4 * i + l) 0).toNat)

/-! ## Lines that are no items -/

/-- What a case item begins with: the width and the number of its label,
and the text behind `: mem <= 32'h`. -/
def itemHead (line : List Char) : Option (Nat × Nat × List Char) :=
  (number 10 (line.dropWhile (· == ' '))).bind fun (width, cs) =>
  (expect "'d".toList cs).bind fun cs =>
  (number 10 cs).bind fun (label, cs) =>
  (expect ": mem <= 32'h".toList cs).map fun cs => (width, label, cs)

theorem caseItem_eq (line : List Char) :
    caseItem line = (itemHead line).bind fun (_, label, cs) =>
      (number 16 cs).bind fun (word, cs) =>
      (expect ";".toList cs).map fun _ => (label, word) := by
  simp only [itemHead, caseItem, Option.bind_assoc, Option.bind_map, Function.comp_def]

/-- No line of the text begins with a number. -/
def Plain (text : List Char) : Prop :=
  ∀ line ∈ readlines text, number 10 (line.dropWhile (· == ' ')) = none

instance (text : List Char) : Decidable (Plain text) :=
  inferInstanceAs (Decidable (∀ line ∈ readlines text, _))

theorem itemHead_of_plain {text line : List Char} (h : Plain text)
    (hl : line ∈ readlines text) : itemHead line = none := by
  rw [itemHead, h line hl]
  rfl

theorem caseTable_of_plain {text : List Char} (h : Plain text) : caseTable text = [] :=
  scan_eq_nil fun line hl => by
    rw [caseItem_eq, itemHead_of_plain h hl]
    rfl

-- `rewrite` throughout: `rw` would try to close the goals by evaluating the literals
theorem preamble_plain :
    preamble.toList.getLast? = some '\n' ∧ Plain preamble.toList := by
  unfold preamble
  simp only [String.toList_append]
  rewrite [toList_of_eq rfl, toList_of_eq rfl, toList_of_eq rfl, toList_of_eq rfl,
    toList_of_eq rfl, toList_of_eq rfl, toList_of_eq rfl]
  exact ⟨rfl, by decide +kernel⟩

theorem opening_plain :
    opening.toList.getLast? = some '\n' ∧ Plain opening.toList := by
  unfold opening
  simp only [String.toList_append]
  rewrite [toList_of_eq rfl, toList_of_eq rfl, toList_of_eq rfl, toList_of_eq rfl,
    toList_of_eq rfl, toList_of_eq rfl, toList_of_eq rfl]
  exact ⟨rfl, by decide +kernel⟩

theorem closing_plain : Plain closing.toList := by
  unfold closing
  simp only [String.toList_append]
  rewrite [toList_of_eq rfl, toList_of_eq rfl]
  decide +kernel

/-- Digits are no newlines. -/
theorem newline_not_mem {b : Nat} (hb : b ≤ 16) {cs : List Char}
    (h : ∀ c ∈ cs, isDigit b c = true) : '\n' ∉ cs := by
  intro hn
  have hd := h _ hn
  have hv : digitVal '\n' = 16 := by decide
  simp only [isDigit, hv, decide_eq_true_eq] at hd
  omega

theorem isDigit_of_mem_decimal {n : Nat} {c : Char} (hc : c ∈ render 10 n) :
    isDigit 10 c = true :=
  isDigit_of_mem_render (by omega) (by omega) hc

theorem value_decimal (n : Nat) : value 10 (render 10 n) = n :=
  value_render (by omega) (by omega) n

/-- A printed number is on one line. -/
theorem newline_not_mem_decimal (n : Nat) : '\n' ∉ render 10 n :=
  newline_not_mem (by omega) fun _ => isDigit_of_mem_decimal

theorem isDigit_of_mem_label {n : Nat} {c : Char} (hc : c ∈ zeroPad 6 (render 10 n)) :
    isDigit 10 c = true :=
  isDigit_of_mem_zeroPad (by omega) (fun _ => isDigit_of_mem_decimal) hc

/-- The port declaration is one line. -/
theorem raddrPort_line (addressWidth : Nat) :
    (raddrPort addressWidth).getLast? = some '\n' ∧
      '\n' ∉ (raddrPort addressWidth).dropLast := by
  have hnum := newline_not_mem_decimal (addressWidth - 1)
  unfold raddrPort
  rewrite [toList_of_eq rfl, toList_of_eq rfl]
  refine ⟨?_, ?_⟩
  · rw [List.getLast?_append]
    rfl
  · rw [List.dropLast_append_of_ne_nil (by simp)]
    simp [hnum]

theorem raddrPort_plain (addressWidth : Nat) : Plain (raddrPort addressWidth) := by
  obtain ⟨hlast, hline⟩ := raddrPort_line addressWidth
  intro line hl
  rw [readlines_single hlast hline, List.mem_singleton] at hl
  subst hl
  unfold raddrPort
  rewrite [toList_of_eq rfl, toList_of_eq rfl]
  rfl

/-! ## Items -/

theorem length_hexByte (b : BitVec 8) : (hexByte b).length = 2 :=
  length_zeroPad_render (by omega) (by omega) b.isLt

theorem value_hexByte (b : BitVec 8) : value 16 (hexByte b) = b.toNat := by
  rw [hexByte, value_zeroPad, value_render (by omega) (by omega)]

theorem isDigit_of_mem_hexRow {row : List (BitVec 8)} {c : Char} (hc : c ∈ hexRow row) :
    isDigit 16 c = true := by
  obtain ⟨b, _, hb⟩ := List.mem_flatMap.mp hc
  exact isDigit_of_mem_zeroPad (by omega)
    (fun c hc => isDigit_of_mem_render (by omega) (by omega) hc) hb

/-- **A row is the little-endian word.** -/
theorem value_hexRow (f : Fin 4 → BitVec 8) :
    value 16 (hexRow [f 0, f 1, f 2, f 3]) = (ofLanes f).toNat := by
  have hrow : hexRow [f 0, f 1, f 2, f 3]
      = hexByte (f 3) ++ hexByte (f 2) ++ hexByte (f 1) ++ hexByte (f 0) := by
    simp [hexRow]
  rw [hrow, value_append, value_append, value_append, toNat_ofLanes]
  simp only [length_hexByte, value_hexByte]
  omega

/-- Digits are no white space. -/
theorem isSpace_of_isDigit {c : Char} (h : isDigit 16 c = true) : isSpace c = false := by
  rw [← Bool.not_eq_true]
  intro hs
  simp only [isSpace, List.mem_cons, List.not_mem_nil, or_false, decide_eq_true_eq] at hs
  rcases hs with rfl | rfl | rfl | rfl | rfl | rfl <;> revert h <;> decide

theorem expect_append (p rest : List Char) : expect p (p ++ rest) = some rest := by
  simp [expect]

/-- The indentation goes, and nothing of the number behind it. -/
theorem dropWhile_indent (n : Nat) {cs : List Char} (hne : cs ≠ [])
    (hcs : ∀ c ∈ cs, isDigit 10 c = true) (rest : List Char) :
    (List.replicate n ' ' ++ (cs ++ rest)).dropWhile (· == ' ') = cs ++ rest := by
  rw [List.dropWhile_append_of_pos (by simp +contextual)]
  obtain ⟨c, cs, rfl⟩ := List.exists_cons_of_ne_nil hne
  have hc : (c == ' ') = false := by
    rw [beq_eq_false_iff_ne]
    rintro rfl
    exact absurd (hcs ' ' List.mem_cons_self) (by decide)
  rw [List.cons_append, List.dropWhile_cons_of_neg (by simp [hc])]

/-- **An item is read back**: its label as printed, and the text of its
line. -/
theorem itemHead_item (addressWidth addressIndex : Nat) (line : List Char) :
    itemHead (item addressWidth addressIndex line ++ ['\n'])
      = some (addressWidth, addressIndex * 4, rstrip line ++ [';', '\n']) := by
  have hwidth : ∀ c ∈ render 10 addressWidth, isDigit 10 c = true := fun _ =>
    isDigit_of_mem_decimal
  have hlabel : ∀ c ∈ zeroPad 6 (render 10 (addressIndex * 4)), isDigit 10 c = true :=
    fun _ => isDigit_of_mem_label
  have hlabelNe : zeroPad 6 (render 10 (addressIndex * 4)) ≠ [] := by
    simp [zeroPad, render_ne_nil]
  have hindent : [' ', ' ', ' ', ' ', ' ', ' ', ' ', ' ', ' '] = List.replicate 9 ' ' := rfl
  unfold item itemHead
  rewrite [toList_of_eq rfl, toList_of_eq rfl, toList_of_eq rfl, toList_of_eq rfl, hindent]
  simp only [List.append_assoc]
  -- indentation and width, then the label
  rewrite [dropWhile_indent 9 (render_ne_nil _) hwidth,
    number_append (render_ne_nil _) hwidth (noDigitHead_cons '\'' (by decide) _ _)]
  simp only [Option.bind_some, expect_append]
  rewrite [number_append hlabelNe hlabel (noDigitHead_cons ':' (by decide) _ _)]
  simp only [Option.bind_some, expect_append, Option.map_some]
  rewrite [value_decimal, value_zeroPad, value_decimal]
  rfl

/-- The word of a line of hex digits. -/
theorem caseItem_item (addressWidth addressIndex : Nat) {row : List Char} (hne : row ≠ [])
    (hrow : ∀ c ∈ row, isDigit 16 c = true) :
    caseItem (item addressWidth addressIndex (row ++ ['\n']) ++ ['\n'])
      = some (addressIndex * 4, value 16 row) := by
  have hstrip : rstrip (row ++ ['\n']) = row :=
    rstrip_line fun c hc => isSpace_of_isDigit (hrow c hc)
  have hend : [';', '\n'] = [';'] ++ ['\n'] := rfl
  rw [caseItem_eq, itemHead_item, hstrip, hend]
  simp only [Option.bind_some]
  rewrite [number_append hne hrow (noDigitHead_cons ';' (by decide) [] _), toList_of_eq rfl]
  simp only [Option.bind_some, expect_append, Option.map_some]

theorem newline_not_mem_item (addressWidth addressIndex : Nat) {line : List Char}
    (h : '\n' ∉ rstrip line) : '\n' ∉ item addressWidth addressIndex line := by
  have hpad : ∀ n, '\n' ∉ zeroPad 6 (render 10 n) := fun n =>
    newline_not_mem (by omega) fun _ => isDigit_of_mem_label
  unfold item
  rewrite [toList_of_eq rfl, toList_of_eq rfl, toList_of_eq rfl, toList_of_eq rfl]
  simp [newline_not_mem_decimal, hpad, h]

/-- **The items of the loop**, one a line, whatever reads them. -/
theorem scan_items {α : Type _} {f : List Char → Option α} {g : Nat → List Char → α}
    (addressWidth addressIndex : Nat) {lines : List (List Char)}
    (hlines : ∀ line ∈ lines, '\n' ∉ rstrip line ∧
      ∀ k, f (item addressWidth k line ++ ['\n']) = some (g k line))
    (rest : List Char) :
    scan f (items addressWidth addressIndex lines ++ rest)
      = (lines.zipIdx addressIndex).map (fun (line, i) => g i line) ++ scan f rest := by
  induction lines generalizing addressIndex with
  | nil => rfl
  | cons line lines ih =>
      obtain ⟨hn, hf⟩ := hlines line List.mem_cons_self
      rw [items, List.append_assoc, scan_append f (by simp),
        scan_line f (by simp) (by rw [List.dropLast_concat]; exact newline_not_mem_item _ _ hn),
        hf, ih _ fun l hl => hlines l (List.mem_cons_of_mem line hl)]
      rfl

/-- **The emitted text line by line**: only the items are read by what
reads no plain line. -/
theorem scan_text {α : Type _} {f : List Char → Option α} {g : Nat → List Char → α}
    (hplain : ∀ text, Plain text → scan f text = []) (addressWidth : Nat)
    {lines : List (List Char)}
    (hlines : ∀ line ∈ lines, '\n' ∉ rstrip line ∧
      ∀ k, f (item addressWidth k line ++ ['\n']) = some (g k line)) :
    scan f (preamble.toList ++ raddrPort addressWidth ++ opening.toList
      ++ items addressWidth 0 lines ++ closing.toList)
      = lines.zipIdx.map fun (line, i) => g i line := by
  simp only [List.append_assoc]
  rw [scan_append f preamble_plain.1, hplain _ preamble_plain.2,
    scan_append f (raddrPort_line _).1, hplain _ (raddrPort_plain _),
    scan_append f opening_plain.1, hplain _ opening_plain.2,
    scan_items addressWidth 0 hlines, hplain _ closing_plain]
  simp

/-! ## The pipeline -/

/-- The rows of the hex file. -/
def hexRows (image : List (BitVec 8)) : List (List Char) := (grouper image 4 0).map hexRow

theorem hexRows_eq (image : List (BitVec 8)) :
    hexRows image = (List.range ((image.length + 3) / 4)).map fun i =>
      hexRow ((List.range 4).map fun j => image.getD (4 * i + j) 0) := by
  simp [hexRows, grouper, Nat.mul_comm]

theorem isDigit_of_mem_hexRows {image : List (BitVec 8)} {r : List Char}
    (hr : r ∈ hexRows image) : ∀ c ∈ r, isDigit 16 c = true := by
  obtain ⟨row, _, rfl⟩ := List.mem_map.mp hr
  exact fun c hc => isDigit_of_mem_hexRow hc

theorem readlines_convert (image : List (BitVec 8)) :
    readlines (convert 32 image) = (hexRows image).map (· ++ ['\n']) := by
  rw [← readlines_flatMap fun r hr => newline_not_mem (by omega) (isDigit_of_mem_hexRows hr)]
  simp [convert, hexRows, List.flatMap_map]

theorem romTable_eq (image : List (BitVec 8)) :
    romTable image = (hexRows image).zipIdx.map fun (r, i) => (i * 4, value 16 r) := by
  rw [hexRows_eq, romTable]
  apply List.ext_getElem
  · simp
  · intro i _ _
    have hword := value_hexRow fun l => image.getD (4 * i + l) 0
    simp only [List.getElem_map, List.getElem_range, List.getElem_zipIdx, Nat.zero_add,
      Nat.mul_comm i 4, ← hword]
    rfl

theorem dropLast_zipIdx {α : Type _} (xs : List α) : xs.dropLast.zipIdx = xs.zipIdx.dropLast := by
  apply List.ext_getElem <;> simp

/-- **What the pipeline emits**: the table without its last word. -/
theorem caseTable_genRomXilinx (log2 : Nat → Nat) {image : List (BitVec 8)} (h : image ≠ []) :
    ∃ text, genRomXilinx log2 (convert 32 image) = some text ∧
      caseTable text = (romTable image).dropLast := by
  have hlen : (readlines (convert 32 image)).length ≠ 0 := by
    have hpos := List.length_pos_iff.mpr h
    rw [readlines_convert, hexRows_eq]
    simp only [List.length_map, List.length_range]
    omega
  refine ⟨_, by rw [genRomXilinx]; exact if_neg hlen, ?_⟩
  have hlines : (readlines (convert 32 image)).dropLast
      = (hexRows image).dropLast.map (· ++ ['\n']) := by
    rw [readlines_convert, List.map_dropLast]
  have hrow : ∀ r ∈ (hexRows image).dropLast, r ≠ [] ∧ ∀ c ∈ r, isDigit 16 c = true := by
    intro r hr
    refine ⟨?_, isDigit_of_mem_hexRows (List.mem_of_mem_dropLast hr)⟩
    rw [hexRows_eq] at hr
    obtain ⟨i, _, rfl⟩ := List.mem_map.mp (List.mem_of_mem_dropLast hr)
    rw [← List.length_pos_iff]
    simp [hexRow, List.range_succ, length_hexByte]
  rw [hlines]
  refine (scan_text (g := fun i line => (i * 4, value 16 (rstrip line)))
    (fun text h => caseTable_of_plain h) _ fun line hline => ?_).trans ?_
  · obtain ⟨r, hr, rfl⟩ := List.mem_map.mp hline
    obtain ⟨hne, hdig⟩ := hrow r hr
    have hstrip : rstrip (r ++ ['\n']) = r :=
      rstrip_line fun c hc => isSpace_of_isDigit (hdig c hc)
    rw [hstrip]
    exact ⟨newline_not_mem (by omega) hdig, fun k => caseItem_item _ k hne hdig⟩
  · rw [romTable_eq, ← List.map_dropLast, ← dropLast_zipIdx, List.zipIdx_map, List.map_map]
    refine List.map_congr_left fun p hp => ?_
    have hdig := (hrow p.1 (List.fst_mem_of_mem_zipIdx hp)).2
    have hstrip : rstrip (p.1 ++ ['\n']) = p.1 :=
      rstrip_line fun c hc => isSpace_of_isDigit (hdig c hc)
    simp [hstrip]

/-- **The pipeline loses no word**: the case table has exactly the
entries of the image. -/
def Lossless (log2 : Nat → Nat) (image : List (BitVec 8)) : Prop :=
  ∃ text, genRomXilinx log2 (convert 32 image) = some text ∧
    (caseTable text).Perm (romTable image)

/-- A table without its last entry is not the table. -/
theorem not_lossless_of_dropLast {log2 : Nat → Nat} {image : List (BitVec 8)}
    (h : image ≠ []) {text : List Char}
    (htext : genRomXilinx log2 (convert 32 image) = some text)
    (htable : caseTable text = (romTable image).dropLast) : ¬ Lossless log2 image := by
  rintro ⟨text', htext', hperm⟩
  obtain rfl : text = text' := Option.some.inj (htext.symm.trans htext')
  have hlen := hperm.length_eq
  have hpos := List.length_pos_iff.mpr h
  rw [htable] at hlen
  simp only [romTable, List.length_dropLast, List.length_map, List.length_range] at hlen
  omega

/-- **The last word is always lost**: whatever the image, the table is
the one to be emitted without its last entry. -/
theorem genRomXilinx_loses_last (log2 : Nat → Nat) {image : List (BitVec 8)}
    (h : image ≠ []) :
    (∃ text, genRomXilinx log2 (convert 32 image) = some text ∧
        caseTable text = (romTable image).dropLast) ∧
      ¬ Lossless log2 image := by
  obtain ⟨text, htext, htable⟩ := caseTable_genRomXilinx log2 h
  exact ⟨⟨text, htext, htable⟩, not_lossless_of_dropLast h htext htable⟩

/-- Two instructions, `nop` and `j .`. -/
def twoWords : List (BitVec 8) := [0x13, 0, 0, 0, 0x6f, 0, 0, 0]

theorem genRomXilinx_loses_last_twoWords :
    (∃ text, genRomXilinx (Nat.clog 2) (convert 32 twoWords) = some text ∧
        caseTable text = (romTable twoWords).dropLast) ∧
      ¬ Lossless (Nat.clog 2) twoWords :=
  genRomXilinx_loses_last (Nat.clog 2) (by decide)

/-- The jump is not in the table. -/
theorem twoWords_not_lossless : ¬ Lossless (Nat.clog 2) twoWords := by
  obtain ⟨text, htext, htable⟩ := caseTable_genRomXilinx (Nat.clog 2)
    (by decide : twoWords ≠ [])
  exact not_lossless_of_dropLast (by decide) htext htable

end RiscvSoc.BootRom
