import RiscvSoc.Testbench.SegmentLoop

/-!
# Testbench — Placement

When `loadELF` places every segment at its address. As every segment is
written from word 0 of its RAM on and the last one written stays, that
comes to two conditions on the program header table: the loadable
segments are at the bases of their RAMs, and whatever another header
writes is overwritten by a loadable segment behind it.
-/

namespace RiscvSoc.LoadElf

open Mem

/-! ## The file as a whole -/

/-- The loader returns true and makes the calls `cs`. -/
def Loads (cfg : Config) (file : ElfFile) (cs : List Call) : Prop :=
  ∃ fuel, loadELF cfg file fuel = some (true, cs)

theorem loads_of_accepted (cfg : Config) (file : ElfFile)
    (helf : file.elfClass = elfclass32 ∧ file.machine = emRiscv)
    (hfew : file.headers.length ≤ 255) (hacc : Accepted cfg file) :
    ∃ cs, Loads cfg file cs := by
  refine ⟨(List.range file.headers.length).flatMap (callsOf file) ++ [.writeRstAddr file.entry],
    file.headers.length + 1, ?_⟩
  rw [loadELF, if_neg (by simp [helf]), segmentLoop_eq, passes_of_accepted hfew hacc]
  rfl

/-- The segments go one over the other. -/
theorem ram_callsOf (cfg : Config) (file : ElfFile) (soc : Soc) (R : Ram) {n : Nat}
    (hn : n ≤ file.headers.length) :
    (soc.calls cfg ((List.range n).flatMap (callsOf file))).ram R
      = overlays (hits cfg file R) (val file) (soc.ram R) n := by
  induction n with
  | zero => rfl
  | succ n ih =>
      obtain ⟨h, hh⟩ := exists_header (by omega : n < file.headers.length)
      have hcalls : callsOf file n = segmentCalls h (file.data n) := by
        rw [callsOf, hh]
      rw [List.range_succ, List.flatMap_append, List.flatMap_singleton, calls_append, hcalls]
      ext k : 1
      rw [ram_segmentCalls, overlays, ih (by omega), val, hh]
      simp only [hits_iff hh]

/-- **What the loader leaves in a RAM**: the segments, one over the
other. -/
theorem ram_of_loads (cfg : Config) (file : ElfFile) (hfew : file.headers.length ≤ 255)
    {cs : List Call} (hload : Loads cfg file cs) (soc : Soc) :
    Accepted cfg file ∧ ∀ R, (soc.calls cfg cs).ram R
      = overlays (hits cfg file R) (val file) (soc.ram R) file.headers.length := by
  obtain ⟨fuel, hrun⟩ := hload
  obtain ⟨m, hm, hpassed, ⟨_, rfl, rfl⟩ | ⟨hok, _⟩⟩ := loadELF_spec hfew hrun
  · refine ⟨fun h hh => ?_, fun R => ?_⟩
    · obtain ⟨j, hj⟩ := List.getElem?_of_mem hh
      exact hpassed j h (Nat.zero_le j) (List.getElem?_eq_some_iff.mp hj).1 hj
    · rw [calls_append, calls_singleton, ← ram_callsOf cfg file soc R hm]
      cases R <;> rfl
  · cases hok

/-! ## Placement -/

def Header.isLoad (h : Header) : Prop := h.type = ptLoad

/-- Byte address `x` lies in the segment. -/
def Header.covers (h : Header) (x : Nat) : Prop :=
  h.physicalAddress.toNat ≤ x ∧ x < h.physicalAddress.toNat + h.memorySize.toNat

/-- The segment lies in the window of `R`. -/
def InWindow (cfg : Config) (R : Ram) (h : Header) : Prop :=
  R.base ≤ h.physicalAddress.toNat ∧
    h.physicalAddress.toNat + h.memorySize.toNat ≤ R.base + cfg.kbSize R * 1024

/-- The ELF files in question: RISC-V files of at most 255 headers whose
loadable segments are whole words and lie side by side in the RAMs. The
window of either RAM ends before the next one and by `2 ^ 32`. -/
structure Admissible (cfg : Config) (file : ElfFile) : Prop where
  iram_fits : cfg.iramKbSize * 1024 ≤ 0x10000000
  dram_fits : cfg.dramKbSize * 1024 ≤ 0xD0000000
  elf : file.elfClass = elfclass32 ∧ file.machine = emRiscv
  few : file.headers.length ≤ 255
  words : ∀ h ∈ file.headers, h.isLoad → h.physicalAddress.toNat % 4 = 0 ∧
    h.memorySize.toNat % 4 = 0 ∧ h.fileSize = h.memorySize
  inside : ∀ h ∈ file.headers, h.isLoad → ∃ R, InWindow cfg R h
  disjoint : ∀ (i j : Nat) (g h : Header), i ≠ j →
    file.headers[i]? = some g → file.headers[j]? = some h →
    g.isLoad → h.isLoad → ∀ x, ¬ (g.covers x ∧ h.covers x)

/-- The same file with other segment data. -/
def ElfFile.withData (file : ElfFile) (d : Nat → Nat → BitVec 8) : ElfFile :=
  { file with data := d }

/-- **Every segment at its address**: whatever the data and the RAMs,
once the loader has returned true each word of a loadable segment is at
its own address, and a word in none of them is unchanged. -/
def Placed (cfg : Config) (file : ElfFile) : Prop :=
  ∀ (d : Nat → Nat → BitVec 8) (soc : Soc) (cs : List Call),
    Loads cfg (file.withData d) cs →
    (∀ R i h p, file.headers[i]? = some h → h.isLoad → InWindow cfg R h → p % 4 = 0 →
      p < h.memorySize.toNat →
      (soc.calls cfg cs).ram R ((h.physicalAddress.toNat + p - R.base) / 4)
        = ofLanes fun l => d i (p + l)) ∧
    ∀ R k, k < cfg.depth R → (∀ h ∈ file.headers, h.isLoad → ¬ h.covers (R.base + 4 * k)) →
      (soc.calls cfg cs).ram R k = soc.ram R k

/-- Every loadable segment that is not empty is at the base of its RAM. -/
def AtBase (file : ElfFile) : Prop :=
  ∀ h ∈ file.headers, h.isLoad → 0 < h.memorySize.toNat →
    h.physicalAddress.toNat = h.target.base

/-- What another header makes the loader write is overwritten: a
loadable segment for the same RAM follows and is at least as long. -/
def Overwritten (cfg : Config) (file : ElfFile) : Prop :=
  ∀ (i : Nat) (h : Header), file.headers[i]? = some h → ¬ h.isLoad → 0 < h.reach cfg →
    ∃ (j : Nat) (g : Header), i < j ∧ file.headers[j]? = some g ∧ g.isLoad ∧ g.target = h.target ∧
      h.reach cfg ≤ g.reach cfg

section Placement

variable {cfg : Config} {file : ElfFile}

theorem inIram_eq (a : BitVec 32) :
    inIram a = true ↔ Ram.base .iram ≤ a.toNat ∧ a.toNat < Ram.base .dram := by
  simp [inIram, Ram.base, BitVec.le_def, BitVec.lt_def]

/-- The loader picks the RAM of the window. -/
theorem target_of_inWindow (hadm : Admissible cfg file) {R : Ram} {h : Header}
    (hw : InWindow cfg R h) (hpos : 0 < h.memorySize.toNat) : h.target = R := by
  have hiff := inIram_eq h.physicalAddress
  have h1 := hadm.iram_fits
  obtain ⟨hlo, hhi⟩ := hw
  unfold Header.target
  cases R <;> simp only [Ram.base, Config.kbSize] at hiff hlo hhi
  · rw [if_pos (hiff.mpr ⟨hlo, by omega⟩)]
  · rw [if_neg fun hin => absurd (hiff.mp hin).2 (by omega)]

/-- The windows do not overlap. -/
theorem window_unique (hadm : Admissible cfg file) {R S : Ram} {h : Header} {k : Nat}
    (hw : InWindow cfg S h) (hk : k < cfg.depth R) (hcov : h.covers (R.base + 4 * k)) :
    S = R := by
  have h1 := hadm.iram_fits
  obtain ⟨hlo, hhi⟩ := hw
  obtain ⟨hclo, hchi⟩ := hcov
  cases R <;> cases S <;>
    simp only [Ram.base, Config.kbSize, Config.depth] at hlo hhi hclo hchi hk <;>
    first | rfl | omega

/-- A loadable segment at the base writes exactly the words it covers. -/
theorem hits_iff_covers (hadm : Admissible cfg file) (hbase : AtBase file) {R : Ram}
    {i k : Nat} {h : Header} (hi : file.headers[i]? = some h) (hl : h.isLoad)
    (hk : k < cfg.depth R) :
    hits cfg file R i k = true ↔ h.covers (R.base + 4 * k) := by
  have hmem := List.mem_of_getElem? hi
  obtain ⟨S, hw⟩ := hadm.inside h hmem hl
  obtain ⟨-, hmul, -⟩ := hadm.words h hmem hl
  rw [hits_iff hi]
  constructor
  · rintro ⟨rfl, hlt⟩
    unfold Header.reach at hlt
    have hpa := hbase h hmem hl (by omega)
    unfold Header.covers
    omega
  · intro hcov
    have hpos : 0 < h.memorySize.toNat := by
      unfold Header.covers at hcov
      omega
    obtain rfl := window_unique hadm hw hk hcov
    have htgt := target_of_inWindow hadm hw hpos
    have hpa := hbase h hmem hl hpos
    have hhi := hw.2
    rw [htgt] at hpa
    unfold Header.covers at hcov
    unfold Header.reach Config.depth
    rw [htgt]
    exact ⟨rfl, by omega⟩

theorem word_eq_zero (h : Header) {data : Nat → BitVec 8} {k : Nat}
    (hz : ∀ l : Fin 4, data (4 * k + l) = 0) : h.word data k = 0 := by
  have hline : wordLine data (4 * k) = 0 := by
    rw [wordLine_eq]
    simp only [hz]
    rfl
  unfold Header.word
  rw [hline]
  split <;> simp

theorem val_withData (d : Nat → Nat → BitVec 8) {i : Nat} {h : Header}
    (hi : file.headers[i]? = some h) (k : Nat) :
    val (file.withData d) i k = h.word (d i) k := by
  simp [val, ElfFile.withData, hi]

/-- The RAMs after a load, with other data. -/
theorem ram_withData (hfew : file.headers.length ≤ 255) {d : Nat → Nat → BitVec 8}
    {cs : List Call} (hload : Loads cfg (file.withData d) cs) (soc : Soc) :
    Accepted cfg file ∧ ∀ R, (soc.calls cfg cs).ram R
      = overlays (hits cfg file R) (val (file.withData d)) (soc.ram R) file.headers.length :=
  ram_of_loads cfg (file.withData d) hfew hload soc

/-- The RAMs of one word everywhere. -/
def filled (w : BitVec 32) : Soc where
  iram := fun _ => w
  dram := fun _ => w
  rstAddr := 0

theorem ram_filled (w : BitVec 32) (R : Ram) (k : Nat) : (filled w).ram R k = w := by
  cases R <;> rfl

/-- **What placement asks for**: segment `i` is at the base of its RAM
and the last to write any of its words. The probe is a file with one
word of segment `i` set and all others clear. -/
theorem lastHit_of_placed (hadm : Admissible cfg file) (hacc : Accepted cfg file)
    (hplaced : Placed cfg file) {R : Ram} {i k : Nat} {h : Header}
    (hi : file.headers[i]? = some h) (hl : h.isLoad) (hw : InWindow cfg R h)
    (hk : 4 * k < h.memorySize.toNat) :
    h.physicalAddress.toNat = R.base ∧
      LastHit (hits cfg file R) file.headers.length k i := by
  let d : Nat → Nat → BitVec 8 := fun j p => if j = i ∧ p / 4 = k then 1 else 0
  obtain ⟨cs, hload⟩ := loads_of_accepted cfg (file.withData d) hadm.elf hadm.few hacc
  have hram := (ram_withData hadm.few hload (filled 0)).2 R
  have hword := (hplaced d (filled 0) cs hload).1 R i h (4 * k) hi hl hw (by omega) hk
  have hset : (ofLanes fun l => d i (4 * k + l)) ≠ 0 := by
    have hd : ∀ l : Fin 4, d i (4 * k + l) = 1 := fun l => if_pos ⟨rfl, by omega⟩
    simp only [hd]
    decide
  obtain ⟨hpa, hmul, -⟩ := hadm.words h (List.mem_of_getElem? hi) hl
  have hlo := hw.1
  have hidx : (h.physicalAddress.toNat + 4 * k - R.base) / 4
      = (h.physicalAddress.toNat - R.base) / 4 + k := by omega
  rw [hidx, hram] at hword
  rcases exists_lastHit_or file.headers.length _ with ⟨j, hlast⟩ | hnone
  · rw [overlays_of_lastHit _ _ hlast] at hword
    obtain ⟨g, hg⟩ := exists_header hlast.1
    -- a word that is set can only come from segment `i`, at its own offset
    have hat : j = i ∧ (h.physicalAddress.toNat - R.base) / 4 = 0 := by
      by_contra hne
      refine hset ?_
      rw [← hword, val_withData d hg]
      refine word_eq_zero g fun l => if_neg ?_
      rintro ⟨rfl, hp⟩
      exact hne ⟨rfl, by omega⟩
    obtain ⟨rfl, hoff⟩ := hat
    rw [hoff, Nat.zero_add] at hlast
    have hbase : R.base % 4 = 0 := by cases R <;> rfl
    exact ⟨by omega, hlast⟩
  · rw [overlays_of_no_hit _ _ hnone, ram_filled] at hword
    exact absurd hword.symm hset

theorem atBase_of_placed (hadm : Admissible cfg file) (hacc : Accepted cfg file)
    (hplaced : Placed cfg file) : AtBase file := by
  intro h hmem hl hpos
  obtain ⟨i, hi⟩ := List.getElem?_of_mem hmem
  obtain ⟨R, hw⟩ := hadm.inside h hmem hl
  rw [target_of_inWindow hadm hw hpos]
  exact (lastHit_of_placed hadm hacc hplaced hi hl hw (k := 0) (by omega)).1

/-- A word that is written must be covered by a loadable segment: clear
data show on RAMs that are not. -/
theorem covers_of_placed (hadm : Admissible cfg file) (hacc : Accepted cfg file)
    (hplaced : Placed cfg file) {R : Ram} {i k : Nat} (hi : i < file.headers.length)
    (hk : k < cfg.depth R) (hhit : hits cfg file R i k = true) :
    ∃ g ∈ file.headers, g.isLoad ∧ g.covers (R.base + 4 * k) := by
  by_contra hnone
  obtain ⟨cs, hload⟩ := loads_of_accepted cfg (file.withData fun _ _ => 0)
    hadm.elf hadm.few hacc
  have hram := (ram_withData hadm.few hload (filled 1)).2 R
  have hkeep := (hplaced _ (filled 1) cs hload).2 R k hk fun g hg hgl hcov =>
    hnone ⟨g, hg, hgl, hcov⟩
  rw [hram, ram_filled] at hkeep
  rcases exists_lastHit_or file.headers.length k with ⟨j, hlast⟩ | hno
  · obtain ⟨g, hg⟩ := exists_header hlast.1
    have hclear : g.word (fun _ => 0) k = 0 := word_eq_zero g fun _ => rfl
    rw [overlays_of_lastHit _ _ hlast, val_withData _ hg, hclear] at hkeep
    exact absurd hkeep (by decide)
  · rw [hno i hi] at hhit
    cases hhit

/-- The last word that another header writes is covered by a segment,
and that segment comes later. -/
theorem overwritten_of_placed (hadm : Admissible cfg file) (hacc : Accepted cfg file)
    (hplaced : Placed cfg file) : Overwritten cfg file := by
  have hbase := atBase_of_placed hadm hacc hplaced
  intro i h hi hnl hpos
  have hle : h.reach cfg ≤ cfg.depth h.target := Nat.min_le_right _ _
  obtain ⟨k, hk⟩ : ∃ k, h.reach cfg = k + 1 := ⟨h.reach cfg - 1, by omega⟩
  have hlt : i < file.headers.length := (List.getElem?_eq_some_iff.mp hi).1
  have hhit : hits cfg file h.target i k = true := (hits_iff hi).mpr ⟨rfl, by omega⟩
  obtain ⟨g, hg, hgl, hcov⟩ := covers_of_placed hadm hacc hplaced hlt (by omega) hhit
  obtain ⟨j, hj⟩ := List.getElem?_of_mem hg
  obtain ⟨R, hw⟩ := hadm.inside g hg hgl
  obtain rfl := window_unique hadm hw (by omega) hcov
  obtain ⟨hgt, hgk⟩ := (hits_iff hj).mp
    ((hits_iff_covers hadm hbase hj hgl (by omega)).mpr hcov)
  have hmem : 4 * k < g.memorySize.toNat := by
    have hreach : g.reach cfg ≤ (g.memorySize.toNat + 3) / 4 := Nat.min_le_left _ _
    have hmul := (hadm.words g hg hgl).2.1
    omega
  have hlast := (lastHit_of_placed hadm hacc hplaced hj hgl hw hmem).2
  have hij := hlast.le hlt hhit
  have hne : i ≠ j := by
    rintro rfl
    obtain rfl : h = g := by simpa [hi] using hj
    exact hnl hgl
  exact ⟨j, g, by omega, hj, hgl, hgt, by omega⟩

/-- Two loadable segments that write to one RAM both cover its base, so
they are the same. -/
theorem load_unique (hadm : Admissible cfg file) (hbase : AtBase file) {R : Ram}
    {i j k l : Nat} {g h : Header} (hi : file.headers[i]? = some g)
    (hj : file.headers[j]? = some h) (hg : g.isLoad) (hh : h.isLoad)
    (hig : hits cfg file R i k = true) (hjh : hits cfg file R j l = true) : i = j := by
  obtain ⟨hgt, hgk⟩ := (hits_iff hi).mp hig
  obtain ⟨hht, hhl⟩ := (hits_iff hj).mp hjh
  have hdepth : 0 < cfg.depth R := by
    have hle : g.reach cfg ≤ cfg.depth g.target := Nat.min_le_right _ _
    rw [hgt] at hle
    omega
  by_contra hne
  refine hadm.disjoint i j g h hne hi hj hg hh (R.base + 4 * 0) ⟨?_, ?_⟩
  · exact (hits_iff_covers hadm hbase hi hg hdepth).mp ((hits_iff hi).mpr ⟨hgt, by omega⟩)
  · exact (hits_iff_covers hadm hbase hj hh hdepth).mp ((hits_iff hj).mpr ⟨hht, by omega⟩)

/-- Under the two conditions no block comes after a loadable segment. -/
theorem lastHit_of_overwritten (hadm : Admissible cfg file) (hbase : AtBase file)
    (hover : Overwritten cfg file) {R : Ram} {i k : Nat} {h : Header}
    (hi : file.headers[i]? = some h) (hl : h.isLoad) (hhit : hits cfg file R i k = true) :
    LastHit (hits cfg file R) file.headers.length k i := by
  refine ⟨(List.getElem?_eq_some_iff.mp hi).1, hhit, fun j hij hj => ?_⟩
  rw [← Bool.not_eq_true]
  intro hjhit
  obtain ⟨g, hg⟩ := exists_header hj
  by_cases hgl : g.isLoad
  · have hji := load_unique hadm hbase hg hi hgl hl hjhit hhit
    omega
  · -- the segment that overwrites `j` would be a second one in this RAM
    obtain ⟨hgt, hgk⟩ := (hits_iff hg).mp hjhit
    obtain ⟨j', g', hjj', hg', hgl', hgt', hreach⟩ := hover j g hg hgl (by omega)
    have hhit' : hits cfg file R j' k = true :=
      (hits_iff hg').mpr ⟨hgt'.trans hgt, by omega⟩
    have hji := load_unique hadm hbase hg' hi hgl' hl hhit' hhit
    omega

/-- Under the two conditions every word written is one of a loadable
segment. -/
theorem covers_of_hits (hadm : Admissible cfg file) (hbase : AtBase file)
    (hover : Overwritten cfg file) {R : Ram} {i k : Nat} (hi : i < file.headers.length)
    (hk : k < cfg.depth R) (hhit : hits cfg file R i k = true) :
    ∃ h ∈ file.headers, h.isLoad ∧ h.covers (R.base + 4 * k) := by
  obtain ⟨h, hh⟩ := exists_header hi
  by_cases hl : h.isLoad
  · exact ⟨h, List.mem_of_getElem? hh, hl, (hits_iff_covers hadm hbase hh hl hk).mp hhit⟩
  · obtain ⟨ht, hr⟩ := (hits_iff hh).mp hhit
    obtain ⟨j, g, _, hg, hgl, hgt, hreach⟩ := hover i h hh hl (by omega)
    exact ⟨g, List.mem_of_getElem? hg, hgl, (hits_iff_covers hadm hbase hg hgl hk).mp
      ((hits_iff hg).mpr ⟨hgt.trans ht, by omega⟩)⟩

theorem placed_of_overwritten (hadm : Admissible cfg file)
    (hcond : Accepted cfg file → AtBase file ∧ Overwritten cfg file) : Placed cfg file := by
  intro d soc cs hload
  obtain ⟨hacc, hram⟩ := ram_withData hadm.few hload soc
  obtain ⟨hbase, hover⟩ := hcond hacc
  constructor
  · intro R i h p hi hl hw hp4 hp
    have hmem := List.mem_of_getElem? hi
    have htgt := target_of_inWindow hadm hw (by omega)
    have hpa := hbase h hmem hl (by omega)
    obtain ⟨-, -, hfile⟩ := hadm.words h hmem hl
    obtain ⟨k, rfl⟩ : ∃ k, p = 4 * k := ⟨p / 4, by omega⟩
    have hhi := hw.2
    rw [htgt] at hpa
    have hhit : hits cfg file R i k = true := by
      rw [hits_iff hi, Header.reach, htgt, Config.depth]
      exact ⟨rfl, by omega⟩
    have hlast := lastHit_of_overwritten hadm hbase hover hi hl hhit
    rw [hpa, Nat.add_sub_cancel_left, Nat.mul_div_cancel_left k (by decide), hram,
      overlays_of_lastHit _ _ hlast, val_withData d hi, Header.word, hfile,
      if_neg (by omega : ¬ 4 * k ≥ h.memorySize.toNat), ite_self, wordLine_eq]
  · intro R k hk hnone
    rw [hram]
    refine overlays_of_no_hit _ _ fun i hi => ?_
    rw [← Bool.not_eq_true]
    intro hhit
    obtain ⟨h, hmem, hl, hcov⟩ := covers_of_hits hadm hbase hover hi hk hhit
    exact hnone h hmem hl hcov

/-- **Every segment is placed at its address iff** the loadable ones are
at the bases of their RAMs and what the other headers write is
overwritten. A file with a segment that fails the size check is not
loaded at all. -/
theorem placed_iff (hadm : Admissible cfg file) :
    Placed cfg file ↔ (Accepted cfg file → AtBase file ∧ Overwritten cfg file) := by
  constructor
  · intro hplaced hacc
    exact ⟨atBase_of_placed hadm hacc hplaced, overwritten_of_placed hadm hacc hplaced⟩
  · exact placed_of_overwritten hadm

end Placement

/-- A program of one word, linked 32 words above the base of the IRAM. -/
def shiftedProgram : ElfFile where
  elfClass := elfclass32
  machine := emRiscv
  entry := 0x20000080
  headers := [⟨ptLoad, 0x20000080, 4, 4⟩]
  data := fun _ _ => 0x13

def defaultConfig : Config where
  iramKbSize := 32
  dramKbSize := 32

theorem shiftedProgram_admissible : Admissible defaultConfig shiftedProgram where
  iram_fits := by decide
  dram_fits := by decide
  elf := ⟨rfl, rfl⟩
  few := by decide
  words := by
    intro h hmem _
    obtain rfl : h = ⟨ptLoad, 0x20000080, 4, 4⟩ := by simpa [shiftedProgram] using hmem
    decide
  inside := by
    intro h hmem _
    obtain rfl : h = ⟨ptLoad, 0x20000080, 4, 4⟩ := by simpa [shiftedProgram] using hmem
    exact ⟨.iram, by decide, by decide⟩
  disjoint := by
    intro i j g h hne hi hj
    have h1 := (List.getElem?_eq_some_iff.mp hi).1
    have h2 := (List.getElem?_eq_some_iff.mp hj).1
    simp only [shiftedProgram, List.length_singleton] at h1 h2
    omega

/-- A note, which the code overwrites, and code and data at the bases of
the RAMs. -/
def linkedProgram : ElfFile where
  elfClass := elfclass32
  machine := emRiscv
  entry := 0x20000000
  headers := [⟨4, 0x20000000, 4, 4⟩, ⟨ptLoad, 0x20000000, 8, 8⟩, ⟨ptLoad, 0x30000000, 4, 4⟩]
  data := fun i _ => BitVec.ofNat 8 i

theorem linkedProgram_load {h : Header} (hmem : h ∈ linkedProgram.headers) (hl : h.isLoad) :
    h = ⟨ptLoad, 0x20000000, 8, 8⟩ ∨ h = ⟨ptLoad, 0x30000000, 4, 4⟩ := by
  simp only [linkedProgram, List.mem_cons, List.not_mem_nil, or_false] at hmem
  rcases hmem with rfl | h | h
  · exact absurd hl (by decide : ¬ (4 : BitVec 32) = ptLoad)
  · exact .inl h
  · exact .inr h

theorem linkedProgram_admissible : Admissible defaultConfig linkedProgram where
  iram_fits := by decide
  dram_fits := by decide
  elf := ⟨rfl, rfl⟩
  few := by decide
  words := by
    intro h hmem hl
    rcases linkedProgram_load hmem hl with rfl | rfl <;> decide
  inside := by
    intro h hmem hl
    rcases linkedProgram_load hmem hl with rfl | rfl
    · exact ⟨.iram, by decide, by decide⟩
    · exact ⟨.dram, by decide, by decide⟩
  disjoint := by
    intro i j g h hne hi hj hg hh x hx
    have hbase : ∀ (k : Nat) (f : Header), linkedProgram.headers[k]? = some f → f.isLoad →
        k = 1 ∧ f = ⟨ptLoad, 0x20000000, 8, 8⟩ ∨ k = 2 ∧ f = ⟨ptLoad, 0x30000000, 4, 4⟩ := by
      intro k f hk hf
      match k with
      | 0 =>
          obtain rfl := Option.some.inj hk
          exact absurd hf (by decide : ¬ (4 : BitVec 32) = ptLoad)
      | 1 => exact .inl ⟨rfl, (Option.some.inj hk).symm⟩
      | 2 => exact .inr ⟨rfl, (Option.some.inj hk).symm⟩
      | k + 3 => cases hk
    have hcode : (0x20000000 : BitVec 32).toNat = 0x20000000 := rfl
    have hdata : (0x30000000 : BitVec 32).toNat = 0x30000000 := rfl
    have height : (8 : BitVec 32).toNat = 8 := rfl
    obtain ⟨⟨hglo, hghi⟩, hhlo, hhhi⟩ := hx
    rcases hbase i g hi hg with ⟨rfl, rfl⟩ | ⟨rfl, rfl⟩ <;>
      rcases hbase j h hj hh with ⟨rfl, rfl⟩ | ⟨rfl, rfl⟩ <;>
      simp only [hcode, hdata, height] at hglo hghi hhlo hhhi <;> omega

theorem placed_linkedProgram :
    Placed defaultConfig linkedProgram ↔
      (Accepted defaultConfig linkedProgram →
        AtBase linkedProgram ∧ Overwritten defaultConfig linkedProgram) :=
  placed_iff linkedProgram_admissible

/-- The program ends up at the base of the IRAM. -/
theorem shifted_program_misplaced :
    Admissible defaultConfig shiftedProgram ∧ Accepted defaultConfig shiftedProgram ∧
      ¬ Placed defaultConfig shiftedProgram := by
  have hacc : Accepted defaultConfig shiftedProgram := by
    intro h hmem
    obtain rfl : h = ⟨ptLoad, 0x20000080, 4, 4⟩ := by simpa [shiftedProgram] using hmem
    decide
  refine ⟨shiftedProgram_admissible, hacc, fun hplaced => ?_⟩
  have hbase := atBase_of_placed shiftedProgram_admissible hacc hplaced
    ⟨ptLoad, 0x20000080, 4, 4⟩ (by simp [shiftedProgram]) rfl (by decide)
  revert hbase
  decide

end RiscvSoc.LoadElf
