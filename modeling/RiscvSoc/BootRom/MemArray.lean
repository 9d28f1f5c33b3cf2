import Mathlib.Data.Nat.Log
import RiscvSoc.BootRom.GenRom
import RiscvSoc.Mem.Packed

/-!
# BootRom — MemArray

The plain ROM generator, `gen_rom`, which two programs have each with a
copy of their own. It declares a packed array of as many words as the
address can tell apart and initialises it with a concatenation of the
lines of the hex file, and of nothing else. The text it writes is read
back as an array.
-/

namespace RiscvSoc.BootRom

open Mem Text

/-! ## gen_rom -/

/-- `"%d" % k`. -/
def decimal : Int → List Char
  | .ofNat n => render 10 n
  | .negSucc n => '-' :: render 10 (n + 1)

def arrayPreamble : String :=
  "module boot_rom_generic (\n" ++
  "  input   rst_n,\n" ++
  "  input   clk,\n"

/-- The port; its upper index is -1 for a single word. -/
def arrayPort (addressWidth : Nat) : List Char :=
  "  input   [".toList ++ decimal ((addressWidth : Int) - 1) ++ ":0] raddr_i,\n".toList

def arrayOpening : String :=
  "  output  reg [31:0] dout_o\n" ++
  ");\n\n"

/-- The declaration of `mem_array`. What stands before `logic` is where
the copies differ. -/
def arrayDecl (style : String) (addressWidth : Nat) : List Char :=
  style.toList ++ " logic [0:".toList ++ render 10 (2 ^ addressWidth - 1)
    ++ "] [31:0] mem_array = \x7b\n".toList

def arrayRow (line : List Char) : List Char := "    32'h".toList ++ rstrip line ++ ",\n".toList

/-- The loop over `hex_lines`. -/
def arrayRows : List (List Char) → List Char
  | [] => []
  | line :: lines => arrayRow line ++ arrayRows lines

def arrayLast (line : List Char) : List Char := "    32'h".toList ++ rstrip line ++ "\n".toList

def arrayClosing : String :=
  "  \x7d;\n\n" ++
  "  always @(posedge clk)\n" ++
  "    if (rst_n == 1'b0)\n" ++
  "      dout_o <= 32'd0;\n" ++
  "    else\n" ++
  "      dout_o <= mem_array[raddr_i];\n" ++
  "endmodule\n"

/-- Either copy of the script. `log2 n` stands for
`math.ceil(math.log(n, 2))`, and a file without lines is an error. -/
def genRomOf (style : String) (log2 : Nat → Nat) (hex : List Char) : Option (List Char) :=
  match (readlines hex).getLast? with
  | none => none
  | some lastLine =>
      let addressWidth := log2 (readlines hex).length
      some (arrayPreamble.toList ++ arrayPort addressWidth ++ arrayOpening.toList
        ++ arrayDecl style addressWidth ++ arrayRows (readlines hex).dropLast
        ++ arrayLast lastLine ++ arrayClosing.toList)

def bootRomStyle : String := "(*rom_style = \"block\" *) const"
def helloWorldStyle : String := "  const"

/-- The script of `boot_rom`. -/
def genRom : (Nat → Nat) → List Char → Option (List Char) := genRomOf bootRomStyle

/-- The script of `hello_world`. -/
def HelloWorld.genRom : (Nat → Nat) → List Char → Option (List Char) := genRomOf helloWorldStyle

/-! ## The array of a text -/

/-- A line that declares `mem_array`: its number of words. -/
def arrayDepth (line : List Char) : Option Nat :=
  let line := (expect "(*rom_style = \"block\" *)".toList line).getD line
  (expect "const logic [0:".toList (line.dropWhile (· == ' '))).bind fun cs =>
  (number 10 cs).bind fun (top, cs) =>
  (expect "] [31:0] mem_array = \x7b\n".toList cs).map fun _ => top + 1

/-- A line that is an element of the concatenation. -/
def arrayElement (line : List Char) : Option (BitVec 32) :=
  (expect "    32'h".toList line).bind fun cs =>
  (number 16 (cs.map Char.toLower)).bind fun (word, cs) =>
  if cs = [',', '\n'] ∨ cs = ['\n'] then some (BitVec.ofNat 32 word) else none

/-- `mem_array[i]`; there is none outside the array. -/
def memArray (text : List Char) (i : Nat) : Option (BitVec 32) :=
  (scan arrayDepth text).head?.bind fun depth =>
    if i < depth then some (packedWord 32 depth (concat (scan arrayElement text)) i) else none

/-! ## Indexing -/

/-- The word of a line. -/
def lineWord (line : List Char) : BitVec 32 :=
  BitVec.ofNat 32 (value 16 ((rstrip line).map Char.toLower))

/-- A line with a number on it, in digits of either case. -/
def IsHex (line : List Char) : Prop :=
  rstrip line ≠ [] ∧ ∀ c ∈ (rstrip line).map Char.toLower, isDigit 16 c = true

-- by the list of its digits: characters are finite, and would be gone through one by one
instance : DecidablePred IsHex := fun line =>
  decidable_of_iff (rstrip line ≠ [] ∧ ((rstrip line).map Char.toLower).all (isDigit 16) = true)
    (and_congr_right fun _ => List.all_eq_true)

/-- A hex file: one number a line. -/
structure HexFile (hex : List Char) : Prop where
  nonempty : hex ≠ []
  isHex : ∀ line ∈ readlines hex, IsHex line

/-- **Correct indexing**: word `i` of the array is that of line `i`. -/
def Indexes (text : List Char) (lines : List (List Char)) : Prop :=
  ∀ i, i < lines.length → memArray text i = lines[i]?.map lineWord

/-! ## What surrounds the words -/

/-- A text of whole lines that say nothing of the array. -/
structure Silent (text : List Char) : Prop where
  last : text.getLast? = some '\n'
  depth : scan arrayDepth text = []
  element : scan arrayElement text = []

-- `rewrite` again, not `rw`: the literals are not to be evaluated
theorem arrayPreamble_silent : Silent arrayPreamble.toList := by
  unfold arrayPreamble
  simp only [String.toList_append]
  rewrite [toList_of_eq rfl, toList_of_eq rfl, toList_of_eq rfl]
  exact ⟨rfl, by decide +kernel, by decide +kernel⟩

theorem arrayOpening_silent : Silent arrayOpening.toList := by
  unfold arrayOpening
  simp only [String.toList_append]
  rewrite [toList_of_eq rfl, toList_of_eq rfl]
  exact ⟨rfl, by decide +kernel, by decide +kernel⟩

theorem arrayClosing_silent : Silent arrayClosing.toList := by
  unfold arrayClosing
  simp only [String.toList_append]
  rewrite [toList_of_eq rfl, toList_of_eq rfl, toList_of_eq rfl, toList_of_eq rfl,
    toList_of_eq rfl, toList_of_eq rfl, toList_of_eq rfl]
  exact ⟨rfl, by decide +kernel, by decide +kernel⟩

theorem newline_not_mem_signed (k : Int) : '\n' ∉ decimal k := by
  cases k with
  | ofNat n => exact newline_not_mem_decimal n
  | negSucc n =>
      rw [decimal, List.mem_cons, not_or]
      exact ⟨by decide, newline_not_mem_decimal _⟩

theorem arrayPort_silent (addressWidth : Nat) : Silent (arrayPort addressWidth) := by
  have hnum := newline_not_mem_signed ((addressWidth : Int) - 1)
  have hlast : (arrayPort addressWidth).getLast? = some '\n' := by
    unfold arrayPort
    rewrite [toList_of_eq rfl, toList_of_eq rfl, List.getLast?_append]
    rfl
  have hline : '\n' ∉ (arrayPort addressWidth).dropLast := by
    unfold arrayPort
    rewrite [toList_of_eq rfl, toList_of_eq rfl]
    rw [List.dropLast_append_of_ne_nil (by simp)]
    simp [hnum]
  refine ⟨hlast, ?_, ?_⟩
  · rw [scan_line _ hlast hline]
    unfold arrayPort
    rewrite [toList_of_eq rfl, toList_of_eq rfl]
    rfl
  · rw [scan_line _ hlast hline]
    unfold arrayPort
    rewrite [toList_of_eq rfl, toList_of_eq rfl]
    rfl

/-! ## The declaration -/

/-- What stands before `logic` is read over, in either copy. -/
theorem arrayDepth_style {style : String} (hs : style ∈ [bootRomStyle, helloWorldStyle])
    (cs : List Char) :
    arrayDepth (style.toList ++ " logic [0:".toList ++ cs) =
      (number 10 cs).bind fun (top, cs) =>
        (expect "] [31:0] mem_array = \x7b\n".toList cs).map fun _ => top + 1 := by
  rw [List.mem_cons, List.mem_singleton] at hs
  rcases hs with rfl | rfl
  · unfold bootRomStyle arrayDepth
    rewrite [toList_of_eq rfl, toList_of_eq rfl, toList_of_eq rfl, toList_of_eq rfl]
    rfl
  · unfold helloWorldStyle arrayDepth
    rewrite [toList_of_eq rfl, toList_of_eq rfl, toList_of_eq rfl, toList_of_eq rfl]
    rfl

theorem arrayDepth_decl {style : String} (hs : style ∈ [bootRomStyle, helloWorldStyle])
    (addressWidth : Nat) : arrayDepth (arrayDecl style addressWidth) = some (2 ^ addressWidth) := by
  have hpos := Nat.two_pow_pos addressWidth
  have hbracket : NoDigitHead 10 ("] [31:0] mem_array = \x7b\n".toList) := by
    rewrite [toList_of_eq rfl]
    intro d hd
    obtain rfl : ']' = d := by simpa using hd
    decide
  rw [arrayDecl, List.append_assoc, arrayDepth_style hs,
    number_append (render_ne_nil _) (fun _ => isDigit_of_mem_decimal) hbracket,
    value_decimal]
  have hend : expect "] [31:0] mem_array = \x7b\n".toList
      "] [31:0] mem_array = \x7b\n".toList = some [] := by
    have h := expect_append "] [31:0] mem_array = \x7b\n".toList []
    rwa [List.append_nil] at h
  simp only [Option.bind_some, hend, Option.map_some]
  congr 1
  omega

theorem newline_not_mem_style {style : String} (hs : style ∈ [bootRomStyle, helloWorldStyle]) :
    '\n' ∉ style.toList := by
  rw [List.mem_cons, List.mem_singleton] at hs
  rcases hs with rfl | rfl
  · unfold bootRomStyle
    rewrite [toList_of_eq rfl]
    decide
  · unfold helloWorldStyle
    rewrite [toList_of_eq rfl]
    decide

/-- Neither copy begins the declaration as it does an element. -/
theorem arrayElement_style {style : String} (hs : style ∈ [bootRomStyle, helloWorldStyle])
    (cs : List Char) : arrayElement (style.toList ++ cs) = none := by
  rw [List.mem_cons, List.mem_singleton] at hs
  unfold arrayElement
  rcases hs with rfl | rfl
  · unfold bootRomStyle
    rewrite [toList_of_eq rfl, toList_of_eq rfl]
    rfl
  · unfold helloWorldStyle
    rewrite [toList_of_eq rfl, toList_of_eq rfl]
    rfl

/-- The declaration is a line, and no element. -/
theorem arrayDecl_line {style : String} (hs : style ∈ [bootRomStyle, helloWorldStyle])
    (addressWidth : Nat) :
    (arrayDecl style addressWidth).getLast? = some '\n' ∧
      '\n' ∉ (arrayDecl style addressWidth).dropLast ∧
      arrayElement (arrayDecl style addressWidth) = none := by
  have hnum := newline_not_mem_decimal (2 ^ addressWidth - 1)
  have hstyle := newline_not_mem_style hs
  refine ⟨?_, ?_, ?_⟩
  · unfold arrayDecl
    rewrite [toList_of_eq (s := "] [31:0] mem_array = \x7b\n") rfl, List.getLast?_append]
    rfl
  · unfold arrayDecl
    rewrite [toList_of_eq (s := " logic [0:") rfl,
      toList_of_eq (s := "] [31:0] mem_array = \x7b\n") rfl]
    rw [List.dropLast_append_of_ne_nil (by simp)]
    simp [hnum, hstyle]
  · unfold arrayDecl
    simp only [List.append_assoc]
    exact arrayElement_style hs _

/-! ## The words -/

/-- **An element is read back**, with a comma behind it or not. -/
theorem arrayElement_row {line : List Char} (h : IsHex line) {sep : List Char}
    (hsep : sep = [',', '\n'] ∨ sep = ['\n']) :
    arrayElement ("    32'h".toList ++ rstrip line ++ sep) = some (lineWord line) := by
  obtain ⟨hne, hdigits⟩ := h
  have hlower : sep.map Char.toLower = sep := by
    rcases hsep with rfl | rfl <;> decide
  have hhead : NoDigitHead 16 sep := by
    rcases hsep with rfl | rfl
    · exact noDigitHead_cons ',' (by decide) ['\n'] []
    · exact noDigitHead_cons '\n' (by decide) [] []
  rw [arrayElement, List.append_assoc, expect_append, Option.bind_some, List.map_append, hlower,
    number_append (by simpa using hne) hdigits hhead]
  exact if_pos hsep

theorem scan_arrayElement_row {line : List Char} (h : IsHex line) (hn : '\n' ∉ rstrip line)
    {sep : List Char} (hsep : sep = [',', '\n'] ∨ sep = ['\n']) (rest : List Char) :
    scan arrayElement ("    32'h".toList ++ rstrip line ++ sep ++ rest)
      = lineWord line :: scan arrayElement rest := by
  have hlast : ("    32'h".toList ++ rstrip line ++ sep).getLast? = some '\n' := by
    rw [List.getLast?_append]
    rcases hsep with rfl | rfl <;> rfl
  have hline : '\n' ∉ ("    32'h".toList ++ rstrip line ++ sep).dropLast := by
    rewrite [toList_of_eq rfl]
    rcases hsep with rfl | rfl
    · rw [List.dropLast_append_of_ne_nil (by simp)]
      simp [hn]
    · rw [List.dropLast_concat]
      simp [hn]
  rw [scan_append _ hlast, scan_line _ hlast hline, arrayElement_row h hsep]
  rfl

theorem scan_arrayRow {line : List Char} (h : IsHex line) (hn : '\n' ∉ rstrip line)
    (rest : List Char) :
    scan arrayElement (arrayRow line ++ rest) = lineWord line :: scan arrayElement rest :=
  scan_arrayElement_row h hn (.inl (toList_of_eq rfl)) rest

theorem scan_arrayLast {line : List Char} (h : IsHex line) (hn : '\n' ∉ rstrip line)
    (rest : List Char) :
    scan arrayElement (arrayLast line ++ rest) = lineWord line :: scan arrayElement rest :=
  scan_arrayElement_row h hn (.inr (toList_of_eq rfl)) rest

theorem scan_arrayRows {lines : List (List Char)}
    (hlines : ∀ line ∈ lines, IsHex line ∧ '\n' ∉ rstrip line) (rest : List Char) :
    scan arrayElement (arrayRows lines ++ rest)
      = lines.map lineWord ++ scan arrayElement rest := by
  induction lines with
  | nil => rfl
  | cons line lines ih =>
      obtain ⟨hhex, hn⟩ := hlines line List.mem_cons_self
      rw [arrayRows, List.append_assoc, scan_arrayRow hhex hn,
        ih fun l hl => hlines l (List.mem_cons_of_mem line hl)]
      rfl

/-! ## The array -/

section Array

variable {hex : List Char} {style : String}

theorem exists_getLast? (h : HexFile hex) :
    ∃ lastLine, (readlines hex).getLast? = some lastLine ∧
      (readlines hex).dropLast ++ [lastLine] = readlines hex := by
  have hne := readlines_ne_nil h.nonempty
  exact ⟨_, List.getLast?_eq_some_getLast hne, List.dropLast_append_getLast hne⟩

/-- **What the text declares**: as many words as the address can tell
apart, and the words of the lines for its concatenation. -/
theorem genRomOf_text (hs : style ∈ [bootRomStyle, helloWorldStyle]) (log2 : Nat → Nat)
    (h : HexFile hex) :
    ∃ text, genRomOf style log2 hex = some text ∧
      (scan arrayDepth text).head? = some (2 ^ log2 (readlines hex).length) ∧
      scan arrayElement text = (readlines hex).map lineWord := by
  obtain ⟨lastLine, hlast, hlines⟩ := exists_getLast? h
  have hline : ∀ line ∈ readlines hex, IsHex line ∧ '\n' ∉ rstrip line := fun line hl =>
    ⟨h.isHex line hl, newline_not_mem_rstrip (newline_not_mem_dropLast hl)⟩
  obtain ⟨hlastHex, hlastLine⟩ := hline lastLine (List.mem_of_getLast? hlast)
  obtain ⟨hdeclLast, hdeclLine, hdeclElement⟩ :=
    arrayDecl_line hs (log2 (readlines hex).length)
  refine ⟨_, by rw [genRomOf, hlast], ?_, ?_⟩
  · simp only [List.append_assoc]
    rw [scan_append _ arrayPreamble_silent.last, arrayPreamble_silent.depth,
      scan_append _ (arrayPort_silent _).last, (arrayPort_silent _).depth,
      scan_append _ arrayOpening_silent.last, arrayOpening_silent.depth,
      scan_append _ hdeclLast, scan_line _ hdeclLast hdeclLine, arrayDepth_decl hs]
    rfl
  · simp only [List.append_assoc]
    rw [scan_append _ arrayPreamble_silent.last, arrayPreamble_silent.element,
      scan_append _ (arrayPort_silent _).last, (arrayPort_silent _).element,
      scan_append _ arrayOpening_silent.last, arrayOpening_silent.element,
      scan_append _ hdeclLast, scan_line _ hdeclLast hdeclLine, hdeclElement,
      scan_arrayRows fun line hl => hline line (List.mem_of_mem_dropLast hl),
      scan_arrayLast hlastHex hlastLine, arrayClosing_silent.element]
    have hmap := congrArg (List.map lineWord) hlines
    rw [List.map_append] at hmap
    exact hmap

/-- **The array**: of as many words as the address tells apart, from the
concatenation of the lines. -/
theorem memArray_genRomOf (hs : style ∈ [bootRomStyle, helloWorldStyle]) (log2 : Nat → Nat)
    (h : HexFile hex) :
    ∃ text, genRomOf style log2 hex = some text ∧
      ∀ i, i < 2 ^ log2 (readlines hex).length → memArray text i =
        some (packedWord 32 (2 ^ log2 (readlines hex).length)
          (concat ((readlines hex).map lineWord)) i) := by
  obtain ⟨text, htext, hdepth, helements⟩ := genRomOf_text hs log2 h
  refine ⟨text, htext, fun i hi => ?_⟩
  rw [memArray, hdepth, helements, Option.bind_some, if_pos hi]

/-- The exact logarithm leaves no word over iff the number of lines is a
power of two. -/
theorem eq_pow_clog_iff (n : Nat) : n = 2 ^ Nat.clog 2 n ↔ ∃ m, n = 2 ^ m := by
  constructor
  · exact fun h => ⟨_, h⟩
  · rintro ⟨m, rfl⟩
    rw [Nat.clog_pow 2 m Nat.one_lt_two]

/-- **The array indexes correctly iff it is full**, or all its words are
zero: whichever the copy of the script. -/
theorem indexes_iff_of_style (hs : style ∈ [bootRomStyle, helloWorldStyle]) (h : HexFile hex) :
    ∃ text, genRomOf style (Nat.clog 2) hex = some text ∧
      (Indexes text (readlines hex) ↔ (∃ m, (readlines hex).length = 2 ^ m) ∨
        ∀ line ∈ readlines hex, lineWord line = 0) := by
  obtain ⟨text, htext, hmem⟩ := memArray_genRomOf hs (Nat.clog 2) h
  have hle := Nat.le_pow_clog Nat.one_lt_two (readlines hex).length
  have hfits : ((readlines hex).map lineWord).length ≤ 2 ^ Nat.clog 2 (readlines hex).length := by
    rw [List.length_map]
    exact hle
  have hiff := packedWord_indexes_iff hfits
  rw [List.length_map, eq_pow_clog_iff, List.forall_mem_map] at hiff
  refine ⟨text, htext, ?_⟩
  rw [← hiff, Indexes]
  refine forall_congr' fun i => forall_congr' fun hi => ?_
  rw [hmem i (Nat.lt_of_lt_of_le hi hle), List.getElem?_map]
  exact eq_comm

end Array

/-- **Either script places every word at its index iff the number of
lines is a power of two**, or there are none but zeros. -/
theorem genRom_indexes_iff {hex : List Char} (h : HexFile hex) :
    (∃ text, genRom (Nat.clog 2) hex = some text ∧
      (Indexes text (readlines hex) ↔ (∃ m, (readlines hex).length = 2 ^ m) ∨
        ∀ line ∈ readlines hex, lineWord line = 0)) ∧
    (∃ text, HelloWorld.genRom (Nat.clog 2) hex = some text ∧
      (Indexes text (readlines hex) ↔ (∃ m, (readlines hex).length = 2 ^ m) ∨
        ∀ line ∈ readlines hex, lineWord line = 0)) :=
  ⟨indexes_iff_of_style (by simp) h, indexes_iff_of_style (by simp) h⟩

/-- Three lines of one word each. -/
def threeLines : List Char := ['1', '\n', '2', '\n', '3', '\n']

theorem threeLines_hexFile : HexFile threeLines where
  nonempty := by decide
  isHex := by decide

theorem genRom_indexes_threeLines :
    (∃ text, genRom (Nat.clog 2) threeLines = some text ∧
      (Indexes text (readlines threeLines) ↔ (∃ m, (readlines threeLines).length = 2 ^ m) ∨
        ∀ line ∈ readlines threeLines, lineWord line = 0)) ∧
    (∃ text, HelloWorld.genRom (Nat.clog 2) threeLines = some text ∧
      (Indexes text (readlines threeLines) ↔ (∃ m, (readlines threeLines).length = 2 ^ m) ∨
        ∀ line ∈ readlines threeLines, lineWord line = 0)) :=
  genRom_indexes_iff threeLines_hexFile

/-- Word 0 of the array is zero, and word 1 that of line 0. -/
theorem threeLines_shifted :
    ∃ text, genRom (Nat.clog 2) threeLines = some text ∧
      memArray text 0 = some 0 ∧ memArray text 1 = some 1 ∧
      ¬ Indexes text (readlines threeLines) := by
  obtain ⟨text, htext, hmem⟩ :=
    memArray_genRomOf (by simp : bootRomStyle ∈ _) (Nat.clog 2) threeLines_hexFile
  have hdepth : 2 ^ Nat.clog 2 (readlines threeLines).length = 4 := by decide
  rw [hdepth] at hmem
  have h0 : memArray text 0 = some 0 := by
    rw [hmem 0 (by decide)]
    decide
  have h1 : memArray text 1 = some 1 := by
    rw [hmem 1 (by decide)]
    decide
  refine ⟨text, htext, h0, h1, fun hindex => ?_⟩
  have hfirst := hindex 0 (by decide)
  rw [h0] at hfirst
  revert hfirst
  decide

end RiscvSoc.BootRom
