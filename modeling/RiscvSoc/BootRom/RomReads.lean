import RiscvSoc.BootRom.CaseDecode
import RiscvSoc.Bridge.AhbRi5cyRom

/-!
# BootRom — RomReads

The boot image from the file to the bus: `freedom-bin2hex` and
`gen_rom_xilinx` write the ROM, `ahb_ri5cy_rom` puts it on the bus. The
case statement of the ROM has no default, so an address without an item
leaves the word of the read before in place.

The port of the ROM has one bit more than the logarithm of its words,
and so distinguishes fewer bytes than the image has, in general.
-/

namespace RiscvSoc.BootRom

open Mem Text Sync AhbRi5cyRom

/-! ## The ROM on the bus -/

/-- What the case statement assigns to `mem`, if anything. -/
def assigned (text : List Char) (addr : Nat) : Option (BitVec 32) :=
  (selected text addr).bind fun i =>
    (caseItems text)[i]?.map fun item => BitVec.ofNat 32 (value 16 item.word)

/-- The clocked blocks of `ahb_ri5cy_rom` and of the `boot_rom_generic` of
a text, whose register starts as `mem0`. -/
def romSlave (text : List Char) (mem0 : BitVec 32) : Circuit Inputs Regs where
  reset := { fsmSt := .idle, mem := mem0 }
  next r i :=
    { fsmSt := nextSt r.fsmSt i
      mem := if reqO r.fsmSt i then (assigned text (raddr i).toNat).getD r.mem else r.mem }

/-- `hrdata_o` in cycle `n`. -/
def hrdataAt (text : List Char) (mem0 : BitVec 32) (ins : Nat → Inputs) (n : Nat) : BitVec 32 :=
  (outputs ((romSlave text mem0).stateAt ins n)).hrdataO

/-- The words of an image. -/
def romWords (image : List (BitVec 8)) : Nat := (image.length + 3) / 4

/-- The width of `raddr_i`. -/
def romWidth (image : List (BitVec 8)) : Nat := Nat.clog 2 (romWords image) + 1

/-- The word of an image at a byte address, little-endian. -/
def imageWord (image : List (BitVec 8)) (addr : Nat) : BitVec 32 :=
  ofLanes fun l => image.getD (addr + l) 0

/-- What a read of an address finds in the ROM: the word of the image there,
with the address cut to the port. A ROM of one word has no items, and an
address within a word has none either. -/
def found (image : List (BitVec 8)) (addr : Nat) : Option (BitVec 32) :=
  if 4 ∣ addr ∧ 1 < romWords image then some (imageWord image (addr % 2 ^ romWidth image))
  else none

section Decode

variable {hex text : List Char}

/-- The item of an address is the first with an equal label. -/
theorem selected_eq_iff (h : genRomXilinx (Nat.clog 2) hex = some text) (hne : hex ≠ [])
    (addr i : Nat) :
    selected text addr = some i ↔ i < (readlines hex).length - 1 ∧
      i * 4 % 2 ^ (Nat.clog 2 (readlines hex).length + 1)
        = addr % 2 ^ (Nat.clog 2 (readlines hex).length + 1) ∧
      ∀ j, j < i → j * 4 % 2 ^ (Nat.clog 2 (readlines hex).length + 1)
        ≠ addr % 2 ^ (Nat.clog 2 (readlines hex).length + 1) := by
  rw [genRomXilinx_eq _ hne] at h
  obtain rfl := Option.some.inj h
  rw [selected, caseItems_eq]
  simp only [List.append_assoc]
  rw [← List.append_assoc preamble.toList, head_portWidth _ _ (Nat.succ_pos _), Option.bind_some,
    List.findIdx?_eq_some_iff_getElem]
  simp only [List.length_map, List.length_zipIdx, List.length_dropLast, List.getElem_map,
    List.getElem_zipIdx, beq_iff_eq, Nat.zero_add, exists_prop]

/-- All words that the port can tell apart are in the ROM. -/
theorem quarter_le {n : Nat} (hn : 1 < n) :
    2 ^ (Nat.clog 2 n + 1) = 4 * 2 ^ (Nat.clog 2 n - 1) ∧ 2 ^ (Nat.clog 2 n - 1) ≤ n - 1 := by
  have hclog : 0 < Nat.clog 2 n := Nat.clog_pos Nat.one_lt_two hn
  have hbelow := Nat.pow_pred_clog_lt_self Nat.one_lt_two hn
  have hsplit : Nat.clog 2 n + 1 = Nat.clog 2 n - 1 + 2 := by omega
  rw [Nat.pred_eq_sub_one] at hbelow
  refine ⟨?_, by omega⟩
  rw [hsplit, Nat.pow_add, Nat.mul_comm]

/-- **The item of an address**: that of the word it is aligned to, cut to
the port. -/
theorem selected_eq (h : genRomXilinx (Nat.clog 2) hex = some text) (hne : hex ≠ [])
    (addr : Nat) :
    selected text addr = if 4 ∣ addr ∧ 1 < (readlines hex).length
      then some (addr % 2 ^ (Nat.clog 2 (readlines hex).length + 1) / 4) else none := by
  have hsel := selected_eq_iff h hne addr
  split
  · rename_i hin
    obtain ⟨⟨q, rfl⟩, hmany⟩ := hin
    obtain ⟨hpow, hle⟩ := quarter_le hmany
    have hlt := Nat.mod_lt q (Nat.two_pow_pos (Nat.clog 2 (readlines hex).length - 1))
    rw [hsel, hpow, Nat.mul_mod_mul_left, Nat.mul_div_cancel_left _ (by decide), Nat.mul_comm _ 4,
      Nat.mul_mod_mul_left, Nat.mod_mod]
    refine ⟨by omega, rfl, fun j hj => ?_⟩
    rw [Nat.mul_comm, Nat.mul_mod_mul_left, Nat.mod_eq_of_lt (by omega)]
    omega
  · rename_i hout
    rw [Option.eq_none_iff_forall_ne_some]
    intro i hi
    obtain ⟨hin, heq, _⟩ := (hsel i).mp hi
    have hmany : 1 < (readlines hex).length := by omega
    refine hout ⟨?_, hmany⟩
    -- both sides of the comparison are multiples of 4
    rw [(quarter_le hmany).1, Nat.mul_comm i, Nat.mul_mod_mul_left] at heq
    have hdvd := (Nat.dvd_mod_iff (Nat.dvd_mul_right 4 _)).mp (heq ▸ Nat.dvd_mul_right 4 _)
    exact hdvd

end Decode

section Image

variable (image : List (BitVec 8))

theorem length_readlines_convert : (readlines (convert 32 image)).length = romWords image := by
  rw [readlines_convert, hexRows_eq, List.length_map, List.length_map, List.length_range, romWords]

variable {image}

theorem convert_ne_nil (h : image ≠ []) : convert 32 image ≠ [] := by
  intro hnil
  have hlen := length_readlines_convert image
  have hpos := List.length_pos_iff.mpr h
  rw [hnil, romWords] at hlen
  simp only [readlines, List.length_nil] at hlen
  omega

/-- The digits on line `i` are those of word `i`. -/
theorem value_line {i : Nat} (hi : i < romWords image) :
    ∃ line, (readlines (convert 32 image))[i]? = some line ∧
      BitVec.ofNat 32 (value 16 (rstrip line)) = imageWord image (4 * i) := by
  refine ⟨hexRow ((List.range 4).map fun j => image.getD (4 * i + j) 0) ++ ['\n'], ?_, ?_⟩
  · rw [romWords] at hi
    rw [readlines_convert, hexRows_eq, List.map_map, List.getElem?_map, List.getElem?_range hi]
    rfl
  · have hword := value_hexRow fun l => image.getD (4 * i + l) 0
    have hspace : ∀ c ∈ hexRow ((List.range 4).map fun j => image.getD (4 * i + j) 0),
        isSpace c = false := fun c hc => isSpace_of_isDigit (isDigit_of_mem_hexRow hc)
    rw [rstrip_line hspace]
    have hrow : ((List.range 4).map fun j => image.getD (4 * i + j) 0)
        = [image.getD (4 * i + 0) 0, image.getD (4 * i + 1) 0, image.getD (4 * i + 2) 0,
          image.getD (4 * i + 3) 0] := rfl
    rw [hrow]
    refine (congrArg (BitVec.ofNat 32) hword).trans ?_
    rw [BitVec.ofNat_toNat, BitVec.setWidth_eq]
    rfl

/-- **What the ROM of an image assigns** is what is found in the image. -/
theorem assigned_eq {text : List Char} (hne : image ≠ [])
    (h : genRomXilinx (Nat.clog 2) (convert 32 image) = some text) (addr : Nat) :
    assigned text addr = found image addr := by
  have hsel := selected_eq h (convert_ne_nil hne) addr
  obtain ⟨_, hitems⟩ := caseItems_word h (convert_ne_nil hne)
  rw [length_readlines_convert] at hsel hitems
  rw [assigned, hsel, found]
  split
  · rename_i hin
    obtain ⟨hpow, hle⟩ := quarter_le hin.2
    obtain ⟨q, rfl⟩ := hin.1
    have hlt := Nat.mod_lt q (Nat.two_pow_pos (Nat.clog 2 (romWords image) - 1))
    rw [Option.bind_some, romWidth, hpow, Nat.mul_mod_mul_left,
      Nat.mul_div_cancel_left _ (by decide)]
    generalize q % 2 ^ (Nat.clog 2 (romWords image) - 1) = i at hlt
    have hin' : i < romWords image := by omega
    obtain ⟨line, hline, hword⟩ := value_line hin'
    have hitem := hitems i (by omega)
    rw [hline, Option.map_some, Option.map_eq_some_iff] at hitem
    obtain ⟨item, hitem, hitemWord⟩ := hitem
    rw [hitem, Option.map_some, hitemWord, hword]
  · rfl

end Image

/-! ## What is read -/

section Runs

variable {text : List Char} {mem0 : BitVec 32} {ins : Nat → Inputs}

/-- The FSM goes on whatever is in the ROM. -/
theorem fsmSt_romSlave (rom : BitVec 16 → BitVec 32) (n : Nat) :
    ((romSlave text mem0).stateAt ins n).fsmSt = (regsAt rom mem0 ins n).fsmSt := by
  induction n with
  | zero => rfl
  | succ n ih =>
      show nextSt ((romSlave text mem0).stateAt ins n).fsmSt (ins n) = _
      rw [ih]
      rfl

/-- **One cycle** of the data phase of an accepted read. -/
theorem hrdataAt_succ {k n : Nat} (hk : acceptedRead ins k = true)
    (hd : DataPhase (hready ins) k (n + 1)) :
    hrdataAt text mem0 ins (n + 1)
      = (assigned text (raddr (ins n)).toNat).getD (hrdataAt text mem0 ins n) := by
  have hreq : reqO ((romSlave text mem0).stateAt ins n).fsmSt (ins n) = true := by
    rcases hd.succ_cases with rfl | ⟨hd', _⟩
    · exact reqO_of_acceptedRead hk _
    · simp only [acceptedRead, Bool.and_eq_true] at hk
      rw [fsmSt_romSlave fun _ => 0]
      exact reqO_of_busy (fsmSt_ne_idle _ mem0 hk.1.1 hk.1.2 hd') _
  exact if_pos hreq

end Runs

end RiscvSoc.BootRom
