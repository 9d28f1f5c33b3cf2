import Mathlib.Data.Nat.Log
import RiscvSoc.BootRom.GenRom

/-!
# BootRom — CaseDecode

The ROM that `gen_rom_xilinx` writes, as the hardware it describes: an
address is cut to the width of the port `raddr_i`, a label to its own,
and the first item with an equal label is taken.

The labels are byte addresses and need two bits more than the number of
words. The script adds one to its logarithm, so the items in the upper
half of the ROM repeat the labels of the lower one.
-/

namespace RiscvSoc.BootRom

open Text

/-! ## The case statement -/

/-- An item: the width and the number of its label, and the digits of the
word it assigns. -/
structure CaseItem where
  width : Nat
  label : Nat
  word : List Char
  deriving DecidableEq, Repr

/-- The text before the `;` that ends a line. -/
def untilEnd (cs : List Char) : Option (List Char) :=
  if [';', '\n'].isSuffixOf cs then some (cs.take (cs.length - 2)) else none

/-- A line that is a case item. -/
def sizedItem (line : List Char) : Option CaseItem :=
  (itemHead line).bind fun (width, label, cs) =>
    (untilEnd cs).map fun word => { width := width, label := label, word := word }

def caseItems (text : List Char) : List CaseItem := scan sizedItem text

/-- A line that declares the port `raddr_i`: its width. -/
def portWidth (line : List Char) : Option Nat :=
  (expect "  input   [".toList line).bind fun cs =>
  (number 10 cs).bind fun (top, cs) =>
  (expect ":0] raddr_i,\n".toList cs).map fun _ => top + 1

/-- The item an address selects: the first whose label equals it, either
cut to its width. -/
def selected (text : List Char) (addr : Nat) : Option Nat :=
  (scan portWidth text).head?.bind fun width =>
    (caseItems text).findIdx? fun item => item.label % 2 ^ item.width == addr % 2 ^ width

/-- **Decoding without aliasing**: the byte address of every emitted item
selects that item, and with it the word of its line. -/
def Decodes (text : List Char) (lines : List (List Char)) : Prop :=
  ∀ i, i < (caseItems text).length →
    selected text (4 * i) = some i ∧
      (caseItems text)[i]?.map CaseItem.word = lines[i]?.map rstrip

/-! ## What is emitted -/

theorem untilEnd_append (cs : List Char) : untilEnd (cs ++ [';', '\n']) = some cs := by
  rw [untilEnd, if_pos]
  · simp
  · simp

theorem sizedItem_item (addressWidth addressIndex : Nat) (line : List Char) :
    sizedItem (item addressWidth addressIndex line ++ ['\n'])
      = some ⟨addressWidth, addressIndex * 4, rstrip line⟩ := by
  rw [sizedItem, itemHead_item]
  simp only [Option.bind_some, untilEnd_append, Option.map_some]

theorem scan_sizedItem_of_plain {text : List Char} (h : Plain text) :
    scan sizedItem text = [] :=
  scan_eq_nil fun line hl => by
    rw [sizedItem, itemHead_of_plain h hl]
    rfl

/-- The port is found, with the width it was printed with. -/
theorem head_portWidth (addressWidth : Nat) (rest : List Char) (h : 0 < addressWidth) :
    (scan portWidth (preamble.toList ++ raddrPort addressWidth ++ rest)).head?
      = some addressWidth := by
  have hpre : scan portWidth preamble.toList = [] := by
    unfold preamble
    simp only [String.toList_append]
    rewrite [toList_of_eq rfl, toList_of_eq rfl, toList_of_eq rfl, toList_of_eq rfl,
      toList_of_eq rfl, toList_of_eq rfl, toList_of_eq rfl]
    decide +kernel
  have hport : portWidth (raddrPort addressWidth) = some addressWidth := by
    have hcolon : NoDigitHead 10
        [':', '0', ']', ' ', 'r', 'a', 'd', 'd', 'r', '_', 'i', ',', '\n'] :=
      noDigitHead_cons ':' (by decide) [] _
    unfold raddrPort portWidth
    rewrite [toList_of_eq rfl, toList_of_eq rfl]
    simp only [List.append_assoc, expect_append, Option.bind_some]
    rewrite [number_append (render_ne_nil _) (fun _ => isDigit_of_mem_decimal) hcolon,
      value_decimal]
    simp [expect]
    omega
  obtain ⟨hlast, hline⟩ := raddrPort_line addressWidth
  rw [List.append_assoc, scan_append _ preamble_plain.1, hpre, scan_append _ hlast,
    scan_line _ hlast hline, hport]
  rfl

/-- **The items of the text**: one for each line but the last. -/
theorem caseItems_eq (addressWidth : Nat) {hex : List Char} :
    caseItems (preamble.toList ++ raddrPort addressWidth ++ opening.toList
      ++ items addressWidth 0 (readlines hex).dropLast ++ closing.toList)
      = (readlines hex).dropLast.zipIdx.map fun (line, i) =>
        ⟨addressWidth, i * 4, rstrip line⟩ :=
  scan_text (g := fun i line => CaseItem.mk addressWidth (i * 4) (rstrip line))
    (fun _ => scan_sizedItem_of_plain) addressWidth fun line hl =>
    ⟨newline_not_mem_rstrip (newline_not_mem_dropLast (List.mem_of_mem_dropLast hl)),
      fun k => sizedItem_item addressWidth k line⟩

/-! ## Labels -/

/-- Multiples of 4 below `4 * e` are told apart by `w` bits iff there are
no more than `2 ^ (w - 2)` of them. -/
theorem labels_distinct_iff {e w : Nat} (hw : 2 ≤ w) :
    (∀ i, i < e → ∀ j, j < i → j * 4 % 2 ^ w ≠ i * 4 % 2 ^ w) ↔ e ≤ 2 ^ (w - 2) := by
  have hpow : 2 ^ w = 2 ^ (w - 2) * 4 := by
    have hsplit : w = w - 2 + 2 := by omega
    rw [hsplit, Nat.pow_add]
    rfl
  have hpos := Nat.two_pow_pos (w - 2)
  simp only [hpow, Nat.mul_mod_mul_right]
  constructor
  · intro h
    by_contra hlt
    have hzero := h (2 ^ (w - 2)) (by omega) 0 hpos
    rw [Nat.zero_mod, Nat.mod_self] at hzero
    exact hzero rfl
  · intro he i hi j hj heq
    rw [Nat.mod_eq_of_lt (by omega), Nat.mod_eq_of_lt (by omega)] at heq
    omega

/-- The width of the script suffices for all but the last of `n` words iff
one word less than `n` is a power of two. -/
theorem width_suffices_iff {n : Nat} (hn : 2 ≤ n) :
    n - 1 ≤ 2 ^ (Nat.clog 2 n + 1 - 2) ↔ ∃ m, n = 2 ^ m + 1 := by
  have hclog : 0 < Nat.clog 2 n := Nat.clog_pos Nat.one_lt_two hn
  have hbelow := Nat.pow_pred_clog_lt_self Nat.one_lt_two (by omega : 1 < n)
  rw [Nat.pred_eq_sub_one] at hbelow
  have hexp : Nat.clog 2 n + 1 - 2 = Nat.clog 2 n - 1 := by omega
  rw [hexp]
  constructor
  · intro hle
    exact ⟨Nat.clog 2 n - 1, by omega⟩
  · rintro ⟨m, hm⟩
    have hlt : m < Nat.clog 2 n := (Nat.lt_clog_iff_pow_lt Nat.one_lt_two).mpr (by omega)
    have hmono := Nat.pow_le_pow_right Nat.two_pos (by omega : m ≤ Nat.clog 2 n - 1)
    omega

/-! ## Decoding -/

theorem readlines_length_pos {hex : List Char} (h : hex ≠ []) : 0 < (readlines hex).length :=
  List.length_pos_iff.mpr (readlines_ne_nil h)

section Text

variable {hex text : List Char}

/-- The script writes a text, its port one bit wider than the logarithm. -/
theorem genRomXilinx_eq (log2 : Nat → Nat) (h : hex ≠ []) :
    genRomXilinx log2 hex =
      some (preamble.toList ++ raddrPort (log2 (readlines hex).length + 1) ++ opening.toList
        ++ items (log2 (readlines hex).length + 1) 0 (readlines hex).dropLast
        ++ closing.toList) := by
  have hpos := readlines_length_pos h
  rw [genRomXilinx]
  exact if_neg (by omega)

/-- Which item an address selects. -/
theorem selected_eq_some_iff (h : genRomXilinx (Nat.clog 2) hex = some text) (hne : hex ≠ [])
    {i : Nat} (hi : i < (readlines hex).length - 1) :
    selected text (4 * i) = some i ↔
      ∀ j, j < i → j * 4 % 2 ^ (Nat.clog 2 (readlines hex).length + 1)
        ≠ i * 4 % 2 ^ (Nat.clog 2 (readlines hex).length + 1) := by
  rw [genRomXilinx_eq _ hne] at h
  obtain rfl := Option.some.inj h
  rw [selected, caseItems_eq]
  simp only [List.append_assoc]
  rw [← List.append_assoc preamble.toList, head_portWidth _ _ (Nat.succ_pos _),
    Option.bind_some, List.findIdx?_eq_some_iff_getElem]
  simp only [List.length_map, List.length_zipIdx, List.length_dropLast, List.getElem_map,
    List.getElem_zipIdx, beq_iff_eq, Nat.zero_add, Nat.mul_comm 4 i, exists_prop, hi, true_and]

/-- Item `i` carries the word of line `i`. -/
theorem caseItems_word (h : genRomXilinx (Nat.clog 2) hex = some text) (hne : hex ≠ []) :
    (caseItems text).length = (readlines hex).length - 1 ∧
      ∀ i, i < (readlines hex).length - 1 →
        (caseItems text)[i]?.map CaseItem.word = (readlines hex)[i]?.map rstrip := by
  rw [genRomXilinx_eq _ hne] at h
  obtain rfl := Option.some.inj h
  rw [caseItems_eq]
  refine ⟨by simp, fun i hi => ?_⟩
  rw [List.getElem?_map, List.getElem?_zipIdx, List.getElem?_dropLast, if_pos hi]
  cases (readlines hex)[i]? <;> rfl

theorem decodes_iff_labels (h : genRomXilinx (Nat.clog 2) hex = some text) (hne : hex ≠ []) :
    Decodes text (readlines hex) ↔
      ∀ i, i < (readlines hex).length - 1 → ∀ j, j < i →
        j * 4 % 2 ^ (Nat.clog 2 (readlines hex).length + 1)
          ≠ i * 4 % 2 ^ (Nat.clog 2 (readlines hex).length + 1) := by
  obtain ⟨hlen, hword⟩ := caseItems_word h hne
  rw [Decodes, hlen]
  refine forall_congr' fun i => forall_congr' fun hi => ?_
  rw [selected_eq_some_iff h hne hi]
  exact and_iff_left (hword i hi)

/-- **The ROM decodes without aliasing iff it has one word, or one more
than a power of two.** -/
theorem decodes_iff (hne : hex ≠ []) :
    ∃ text, genRomXilinx (Nat.clog 2) hex = some text ∧
      (Decodes text (readlines hex) ↔
        (readlines hex).length = 1 ∨ ∃ m, (readlines hex).length = 2 ^ m + 1) := by
  have hpos := readlines_length_pos hne
  refine ⟨_, genRomXilinx_eq _ hne, ?_⟩
  rw [decodes_iff_labels (genRomXilinx_eq _ hne) hne]
  rcases Nat.eq_or_lt_of_le hpos with hone | hmany
  · -- one line: nothing is emitted
    have hlen : (readlines hex).length = 1 := hone.symm
    simp [hlen]
  · have hclog := Nat.clog_pos Nat.one_lt_two hmany
    rw [labels_distinct_iff (by omega), width_suffices_iff hmany]
    constructor
    · exact .inr
    · rintro (hone | hm)
      · omega
      · exact hm

end Text

/-- Four lines of one word each. -/
def fourLines : List Char :=
  ['1', '\n', '2', '\n', '3', '\n', '4', '\n']

theorem decodes_fourLines :
    ∃ text, genRomXilinx (Nat.clog 2) fourLines = some text ∧
      (Decodes text (readlines fourLines) ↔
        (readlines fourLines).length = 1 ∨ ∃ m, (readlines fourLines).length = 2 ^ m + 1) :=
  decodes_iff (by decide)

/-- Byte address 8, that of the third word, is cut to 0. -/
theorem fourLines_alias :
    ∃ text, genRomXilinx (Nat.clog 2) fourLines = some text ∧
      ¬ Decodes text (readlines fourLines) := by
  have hne : fourLines ≠ [] := by decide
  have hlen : (readlines fourLines).length = 4 := by decide
  have hclog : Nat.clog 2 4 = 2 := Nat.clog_pow 2 2 Nat.one_lt_two
  refine ⟨_, genRomXilinx_eq _ hne, fun hdec => ?_⟩
  have hthird := (decodes_iff_labels (genRomXilinx_eq _ hne) hne).mp hdec 2 (by omega) 0 (by omega)
  rw [hlen, hclog] at hthird
  exact hthird rfl

end RiscvSoc.BootRom
