import RiscvSoc.Testbench.LoadElf

/-!
# Testbench — SegmentBytes

The bytes one segment leaves in a RAM, and the bytes of the file the
loader looks at on the way. The format wants the file's bytes first and
zeros behind them, up to the memory size.

The loader works by words. It fills with zeros only where a whole word
lies behind the file's bytes, and only outside the IRAM; everywhere else
it reads all four bytes of a word from the file, be they there or not.
-/

namespace RiscvSoc.LoadElf

open Mem

/-! ## Reads and bytes -/

/-- The indices at which `word_line` evaluates `get_data()`. -/
def lineReads (p : Nat) : List Nat := [p + 3, p + 2, p + 1, p]

/-- The indices at which the loop of a segment does. -/
def segmentReads (h : Header) : List Nat :=
  if inIram h.physicalAddress then (steps h.memorySize.toNat).flatMap lineReads
  else
    (steps h.memorySize.toNat).flatMap fun p =>
      if p ≥ h.fileSize.toNat then [] else lineReads p

def Call.wordVal : Call → BitVec 32
  | .writeWordIRAM _ w => w
  | .writeWordDRAM _ w => w
  | .writeRstAddr w => w

/-- A word as little-endian bytes. -/
def wordBytes (w : BitVec 32) : List (BitVec 8) := List.ofFn (lane w)

/-- The words written for a segment, as bytes. -/
def segmentBytes (h : Header) (data : Nat → BitVec 8) : List (BitVec 8) :=
  ((segmentCalls h data).map Call.wordVal).flatMap wordBytes

/-- **What the format defines**: the bytes of the file, zeros up to the
memory size, and no look at what is behind the file's bytes. -/
structure WritesSegment (h : Header) (data : Nat → BitVec 8) : Prop where
  bytes : (segmentBytes h data).take h.memorySize.toNat =
    (List.range h.fileSize.toNat).map data
      ++ List.replicate (h.memorySize.toNat - h.fileSize.toNat) 0
  inFile : ∀ j ∈ segmentReads h, j < h.fileSize.toNat

/-- When the loader does so: an empty segment aside, in the IRAM a
segment of whole words that is all in the file, elsewhere one whose part
in the file is of whole words. -/
def WholeWords (h : Header) : Prop :=
  h.memorySize.toNat = 0 ∨
    if inIram h.physicalAddress then
      h.fileSize = h.memorySize ∧ h.memorySize.toNat % 4 = 0
    else h.fileSize.toNat % 4 = 0

/-! ## In the file -/

section Segment

variable {h : Header}

theorem mem_steps {n p : Nat} : p ∈ steps n ↔ ∃ k, k < (n + 3) / 4 ∧ p = 4 * k := by
  simp only [steps_eq, List.mem_map, List.mem_range]
  exact exists_congr fun k => and_congr_right fun _ => eq_comm

/-- A word is in the file if its last byte is. -/
theorem lineReads_lt {p n : Nat} : (∀ j ∈ lineReads p, j < n) ↔ p + 3 < n := by
  simp only [lineReads, List.mem_cons, List.not_mem_nil, or_false, forall_eq_or_imp, forall_eq]
  omega

/-- **No look behind the file's bytes iff they are whole words.** -/
theorem inFile_iff (hfile : h.fileSize.toNat ≤ h.memorySize.toNat) :
    (∀ j ∈ segmentReads h, j < h.fileSize.toNat) ↔ WholeWords h := by
  unfold segmentReads WholeWords
  by_cases hin : inIram h.physicalAddress = true
  · rw [if_pos hin, if_pos hin]
    constructor
    · intro hreads
      by_cases hz : h.memorySize.toNat = 0
      · exact .inl hz
      · -- the last word written is in the file
        right
        have hlast := lineReads_lt.mp fun j hj => hreads j (List.mem_flatMap.mpr
          ⟨4 * ((h.memorySize.toNat + 3) / 4 - 1), mem_steps.mpr ⟨_, by omega, rfl⟩, hj⟩)
        exact ⟨BitVec.eq_of_toNat_eq (by omega), by omega⟩
    · intro hw j hj
      obtain ⟨p, hp, hj⟩ := List.mem_flatMap.mp hj
      obtain ⟨k, hk, rfl⟩ := mem_steps.mp hp
      rcases hw with hz | ⟨heq, hmul⟩
      · omega
      · rw [heq]
        exact lineReads_lt.mpr (by omega) j hj
  · rw [if_neg hin, if_neg hin]
    constructor
    · intro hreads
      by_cases hz : h.fileSize.toNat = 0
      · exact .inr (by omega)
      · -- the word with the last byte of the file is in it
        right
        have hlast := lineReads_lt.mp fun j hj => hreads j (List.mem_flatMap.mpr
          ⟨4 * ((h.fileSize.toNat - 1) / 4), mem_steps.mpr ⟨_, by omega, rfl⟩,
            by rw [if_neg (by omega)]; exact hj⟩)
        omega
    · intro hw j hj
      obtain ⟨p, hp, hj⟩ := List.mem_flatMap.mp hj
      obtain ⟨k, hk, rfl⟩ := mem_steps.mp hp
      by_cases hge : 4 * k ≥ h.fileSize.toNat
      · rw [if_pos hge] at hj
        cases hj
      · rw [if_neg hge] at hj
        refine lineReads_lt.mpr ?_ j hj
        rcases hw with hz | hmul <;> omega

/-! ## The bytes -/

/-- Words laid out byte by byte. -/
theorem flatMap_wordBytes (w : Nat → BitVec 32) (n : Nat) :
    ((List.range n).map w).flatMap wordBytes
      = (List.range (4 * n)).map fun j => lane (w (j / 4)) (Fin.ofNat 4 j) := by
  induction n with
  | zero => rfl
  | succ n ih =>
      rw [List.range_succ, List.map_append, List.flatMap_append, ih, Nat.mul_succ,
        List.range_add, List.map_append]
      congr 1
      -- the four bytes of word `n`
      apply List.ext_getElem
      · simp [wordBytes]
      · intro i h1 _
        have hi : i < 4 := by simpa [wordBytes] using h1
        have hdiv : (4 * n + i) / 4 = n := by omega
        have hlane : Fin.ofNat 4 (4 * n + i) = ⟨i, hi⟩ := Fin.ext (by
          show (4 * n + i) % 4 = i
          omega)
        simp only [wordBytes, List.map_cons, List.map_nil, List.flatMap_cons, List.flatMap_nil,
          List.append_nil, List.getElem_ofFn, List.getElem_map, List.getElem_range, hdiv, hlane]

theorem segmentBytes_eq (h : Header) (data : Nat → BitVec 8) :
    segmentBytes h data = (List.range (4 * ((h.memorySize.toNat + 3) / 4))).map fun j =>
      lane (h.word data (j / 4)) (Fin.ofNat 4 j) := by
  have hval : ∀ k, (Call.writeWord h.target k (h.word data k)).wordVal = h.word data k := by
    intro k
    cases h.target <;> rfl
  rw [segmentBytes, segmentCalls_eq, List.map_map, ← flatMap_wordBytes]
  simp only [Function.comp_def, hval]

/-- Byte `j` of a segment of whole words. -/
theorem lane_word (hw : WholeWords h) (data : Nat → BitVec 8) {j : Nat}
    (hj : j < h.memorySize.toNat) :
    lane (h.word data (j / 4)) (Fin.ofNat 4 j)
      = if j < h.fileSize.toNat then data j else 0 := by
  have hline : lane (wordLine data (4 * (j / 4))) (Fin.ofNat 4 j) = data j := by
    rw [wordLine_eq, lane_ofLanes]
    show data (4 * (j / 4) + j % 4) = data j
    rw [Nat.div_add_mod]
  unfold WholeWords at hw
  unfold Header.word
  by_cases hin : inIram h.physicalAddress = true
  · rw [if_pos hin] at hw ⊢
    rcases hw with hz | ⟨heq, _⟩
    · omega
    · rw [hline, heq, if_pos hj]
  · rw [if_neg hin] at hw ⊢
    by_cases hge : 4 * (j / 4) ≥ h.fileSize.toNat
    · rw [if_pos hge, if_neg (by omega)]
      simp [lane]
    · rw [if_neg hge, hline, if_pos]
      rcases hw with hz | hmul <;> omega

theorem bytes_of_wholeWords (hfile : h.fileSize.toNat ≤ h.memorySize.toNat)
    (hw : WholeWords h) (data : Nat → BitVec 8) :
    (segmentBytes h data).take h.memorySize.toNat =
      (List.range h.fileSize.toNat).map data
        ++ List.replicate (h.memorySize.toNat - h.fileSize.toNat) 0 := by
  rw [segmentBytes_eq]
  apply List.ext_getElem
  · simp
    omega
  · intro j h1 _
    have hj : j < h.memorySize.toNat := by
      simp at h1
      omega
    rw [List.getElem_take, List.getElem_map, List.getElem_range, lane_word hw data hj,
      List.getElem_append]
    simp

/-- **The bytes of the format are written iff the segment is of whole
words**: for every segment whose part in the file is no larger than its
memory, whatever the file holds there and behind it. -/
theorem writesSegment_iff (hfile : h.fileSize.toNat ≤ h.memorySize.toNat)
    (data : Nat → BitVec 8) : WritesSegment h data ↔ WholeWords h := by
  rw [← inFile_iff hfile]
  refine ⟨WritesSegment.inFile, fun hreads => ⟨?_, hreads⟩⟩
  exact bytes_of_wholeWords hfile ((inFile_iff hfile).mp hreads) data

end Segment

/-- A segment for the IRAM: one instruction, and four bytes to be zero. -/
def zeroedTail : Header := ⟨ptLoad, 0x20000000, 8, 4⟩

theorem writesSegment_zeroedTail :
    WritesSegment zeroedTail (fun _ => 0x13) ↔ WholeWords zeroedTail :=
  writesSegment_iff (by decide) _

/-- The loader reads behind the instruction, and writes what is there. -/
theorem zeroed_tail_overread :
    (segmentBytes zeroedTail fun _ => 0x13).take 8 = List.replicate 8 0x13 ∧
      ¬ WritesSegment zeroedTail fun _ => 0x13 := by
  refine ⟨by decide, fun hw => ?_⟩
  have hread := hw.inFile 7 (by decide)
  revert hread
  decide

end RiscvSoc.LoadElf
