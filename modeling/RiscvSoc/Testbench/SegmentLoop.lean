import RiscvSoc.Testbench.LoadElf

/-!
# Testbench — SegmentLoop

The control flow of `loadELF`'s segment loop: which headers it visits,
whether it ends, and at which header it gives up.

The index of the loop is a `uint8_t`, the number of headers a 16-bit
number, so from 256 headers on the index wraps round below its bound and
the loop goes on for ever. And the size check compares every segment
with the size of the IRAM, whichever RAM the segment is for, and takes
one that just fits for too big.
-/

namespace RiscvSoc.LoadElf

/-! ## Passes -/

/-- The segment loop from index `i` on, without its calls: the indices
its body is entered with, and whether it ends behind the last header or,
with `false`, at a header it rejects. -/
def passes (cfg : Config) (file : ElfFile) : Nat → BitVec 8 → Option (Bool × List Nat)
  | 0, _ => none
  | fuel + 1, i =>
      match file.headers[i.toNat]? with
      | none => some (true, [])
      | some h =>
          if tooBig cfg h then some (false, [i.toNat])
          else (passes cfg file fuel (i + 1)).map fun (ok, is) => (ok, i.toNat :: is)

/-- The calls made for header `j`. -/
def callsOf (file : ElfFile) (j : Nat) : List Call :=
  match file.headers[j]? with
  | none => []
  | some h => segmentCalls h (file.data j)

section Loop

variable {cfg : Config} {file : ElfFile}

theorem passes_ne_nil {fuel : Nat} {i : BitVec 8} {is : List Nat}
    (h : passes cfg file fuel i = some (false, is)) : is ≠ [] := by
  cases fuel with
  | zero => cases h
  | succ fuel =>
      rw [passes] at h
      split at h
      · cases h
      · split at h
        · obtain rfl : [i.toNat] = is := by simpa using h
          simp
        · obtain ⟨p, _, heq⟩ := Option.map_eq_some_iff.mp h
          obtain ⟨_, rfl⟩ : p.1 = false ∧ i.toNat :: p.2 = is := by simpa using heq
          simp

/-- **The loop is its passes**: its calls are those of the headers it
passes, a rejected one left out. -/
theorem segmentLoop_eq (fuel : Nat) (i : BitVec 8) :
    segmentLoop cfg file fuel i = (passes cfg file fuel i).map fun (ok, is) =>
      (ok, (if ok then is else is.dropLast).flatMap (callsOf file)) := by
  induction fuel generalizing i with
  | zero => rfl
  | succ fuel ih =>
      rw [segmentLoop, passes]
      cases hh : file.headers[i.toNat]? with
      | none => rfl
      | some h =>
          simp only
          split
          · rfl
          · rw [ih]
            have hcalls : callsOf file i.toNat = segmentCalls h (file.data i.toNat) := by
              rw [callsOf, hh]
            cases hp : passes cfg file fuel (i + 1) with
            | none => rfl
            | some p =>
                obtain ⟨ok, is⟩ := p
                cases ok with
                | true => simp [hcalls]
                | false => simp [hcalls, List.dropLast_cons_of_ne_nil (passes_ne_nil hp)]

/-- No header from `i` up to `m` is rejected. -/
def PassedTo (cfg : Config) (file : ElfFile) (i m : Nat) : Prop :=
  ∀ (j : Nat) (h : Header), i ≤ j → j < m → file.headers[j]? = some h → tooBig cfg h = false

/-- **Where a run of the loop ends**: at header `m`, behind the last one
or at the first it rejects, having visited each header up to there once
and in order. -/
theorem passes_spec (hfew : file.headers.length ≤ 255) {fuel i : Nat} {ok : Bool}
    {is : List Nat} (hi : i ≤ file.headers.length)
    (hrun : passes cfg file fuel (BitVec.ofNat 8 i) = some (ok, is)) :
    ∃ m, i ≤ m ∧ m ≤ file.headers.length ∧ PassedTo cfg file i m ∧
      ((ok = true ∧ m = file.headers.length ∧ is = List.range' i (m - i)) ∨
        (ok = false ∧ (∃ h, file.headers[m]? = some h ∧ tooBig cfg h = true) ∧
          is = List.range' i (m - i) ++ [m])) := by
  induction fuel generalizing i ok is with
  | zero => cases hrun
  | succ fuel ih =>
      rw [passes, toNat_index (by omega)] at hrun
      rcases Nat.eq_or_lt_of_le hi with rfl | hlt
      · rw [List.getElem?_eq_none (Nat.le_refl _)] at hrun
        obtain ⟨rfl, rfl⟩ : true = ok ∧ [] = is := by simpa using hrun
        exact ⟨file.headers.length, hi, Nat.le_refl _, fun j h h1 h2 => by omega,
          .inl ⟨rfl, rfl, by simp⟩⟩
      · obtain ⟨h, hh⟩ := exists_header hlt
        rw [hh, index_succ] at hrun
        simp only at hrun
        split at hrun
        · rename_i hbig
          obtain ⟨rfl, rfl⟩ : false = ok ∧ [i] = is := by simpa using hrun
          exact ⟨i, Nat.le_refl i, hi, fun j h h1 h2 => by omega,
            .inr ⟨rfl, ⟨h, hh, hbig⟩, by simp⟩⟩
        · rename_i hsize
          obtain ⟨⟨ok', is'⟩, hrest, heq⟩ := Option.map_eq_some_iff.mp hrun
          obtain ⟨rfl, rfl⟩ : ok' = ok ∧ i :: is' = is := by simpa using heq
          obtain ⟨m, him, hmn, hpassed, hend⟩ := ih hlt hrest
          have hrange : List.range' i (m - i) = i :: List.range' (i + 1) (m - (i + 1)) := by
            have hlen : m - i = m - (i + 1) + 1 := by omega
            rw [hlen, List.range'_succ]
          refine ⟨m, by omega, hmn, fun j g h1 h2 hg => ?_, ?_⟩
          · rcases Nat.eq_or_lt_of_le h1 with rfl | h1'
            · obtain rfl : h = g := by simpa [hh] using hg
              exact Bool.not_eq_true _ ▸ hsize
            · exact hpassed j g h1' h2 hg
          · rw [hrange]
            rcases hend with ⟨hok, hm, his⟩ | ⟨hok, hbig, his⟩
            · exact .inl ⟨hok, hm, by rw [his]⟩
            · exact .inr ⟨hok, hbig, by rw [his]; rfl⟩

/-- Up to 255 headers the loop ends. -/
theorem passes_returns (hfew : file.headers.length ≤ 255) {n i : Nat}
    (hi : i + n = file.headers.length) :
    ∃ p, passes cfg file (n + 1) (BitVec.ofNat 8 i) = some p := by
  induction n generalizing i with
  | zero =>
      obtain rfl : i = file.headers.length := hi
      rw [passes, toNat_index hfew, List.getElem?_eq_none (Nat.le_refl _)]
      exact ⟨_, rfl⟩
  | succ n ih =>
      obtain ⟨p, hp⟩ := ih (i := i + 1) (by omega)
      obtain ⟨h, hh⟩ := exists_header (by omega : i < file.headers.length)
      rw [passes, toNat_index (by omega), hh, index_succ, hp]
      simp only
      split
      · exact ⟨_, rfl⟩
      · exact ⟨_, rfl⟩

theorem passes_exits (cfg : Config) (hfew : file.headers.length ≤ 255) :
    ∃ p, passes cfg file (file.headers.length + 1) 0 = some p :=
  passes_returns hfew (Nat.zero_add _)

/-- **From 256 headers on it does not**: the index is below the bound
whatever it is. -/
theorem passes_none (hmany : 256 ≤ file.headers.length) (hacc : Accepted cfg file)
    (fuel : Nat) (i : BitVec 8) : passes cfg file fuel i = none := by
  induction fuel generalizing i with
  | zero => rfl
  | succ fuel ih =>
      have hlt := i.isLt
      obtain ⟨h, hh⟩ := exists_header (by omega : i.toNat < file.headers.length)
      rw [passes, hh, ih]
      simp [hacc h (List.mem_of_getElem? hh)]

/-- If no header is rejected, the loop passes all of them. -/
theorem passes_of_accepted (hfew : file.headers.length ≤ 255) (hacc : Accepted cfg file) :
    passes cfg file (file.headers.length + 1) 0 = some (true, List.range file.headers.length) := by
  obtain ⟨⟨ok, is⟩, hrun⟩ := passes_exits cfg hfew
  obtain ⟨m, _, _, _, ⟨rfl, rfl, rfl⟩ | ⟨_, ⟨h, hh, hbig⟩, _⟩⟩ :=
    passes_spec hfew (Nat.zero_le _) hrun
  · rw [Nat.sub_zero, ← List.range_eq_range'] at hrun
    exact hrun
  · rw [hacc h (List.mem_of_getElem? hh)] at hbig
    cases hbig

/-- **What a run of the loader calls**: it goes through the headers up to
some `m`, and then to the entry point if these were all. -/
theorem loadELF_spec (hfew : file.headers.length ≤ 255) {fuel : Nat} {ok : Bool}
    {cs : List Call} (hrun : loadELF cfg file fuel = some (ok, cs)) :
    ∃ m, m ≤ file.headers.length ∧ PassedTo cfg file 0 m ∧
      ((ok = true ∧ m = file.headers.length ∧
          cs = (List.range m).flatMap (callsOf file) ++ [.writeRstAddr file.entry]) ∨
        (ok = false ∧ cs = (List.range m).flatMap (callsOf file))) := by
  unfold loadELF at hrun
  split at hrun
  · -- not an ELF file of the right kind: nothing is called
    obtain ⟨rfl, rfl⟩ : false = ok ∧ [] = cs := by simpa using hrun
    exact ⟨0, Nat.zero_le _, fun j h _ hj => by omega, .inr ⟨rfl, rfl⟩⟩
  · rw [segmentLoop_eq] at hrun
    cases hp : passes cfg file fuel 0 with
    | none => rw [hp] at hrun; cases hrun
    | some p =>
        obtain ⟨ok', is⟩ := p
        obtain ⟨m, _, hmn, hpassed, hend⟩ := passes_spec hfew (Nat.zero_le _) hp
        refine ⟨m, hmn, hpassed, ?_⟩
        simp only [hp, Option.map_some] at hrun
        rcases hend with ⟨rfl, hm, rfl⟩ | ⟨rfl, _, rfl⟩
        · left
          obtain ⟨rfl, rfl⟩ : true = ok ∧ _ = cs := by simpa using hrun
          exact ⟨rfl, hm, by rw [← List.range_eq_range']⟩
        · right
          obtain ⟨rfl, rfl⟩ : false = ok ∧ _ = cs := by simpa using hrun
          exact ⟨rfl, by rw [← List.range_eq_range']⟩

/-! ## Every header once -/

/-- The loop visits each header once, in order, and exits. -/
def VisitsOnce (cfg : Config) (file : ElfFile) : Prop :=
  ∃ fuel, passes cfg file fuel 0 = some (true, List.range file.headers.length)

/-- **Every header is visited once iff an 8-bit index can count them.** -/
theorem visitsOnce_iff (hacc : Accepted cfg file) :
    VisitsOnce cfg file ↔ file.headers.length ≤ 255 := by
  constructor
  · rintro ⟨fuel, hrun⟩
    by_contra hmany
    rw [passes_none (by omega) hacc] at hrun
    cases hrun
  · exact fun hfew => ⟨_, passes_of_accepted hfew hacc⟩

end Loop

/-- A file of `n` empty headers of type `PT_NULL`. -/
def nullHeaders (n : Nat) : ElfFile where
  elfClass := elfclass32
  machine := emRiscv
  entry := 0
  headers := List.replicate n ⟨0, 0, 0, 0⟩
  data := fun _ _ => 0

theorem nullHeaders_accepted (n : Nat) : Accepted ⟨32, 32⟩ (nullHeaders n) := by
  intro h hmem
  obtain rfl := List.eq_of_mem_replicate hmem
  decide

theorem visitsOnce_nullHeaders :
    VisitsOnce ⟨32, 32⟩ (nullHeaders 2) ↔ (nullHeaders 2).headers.length ≤ 255 :=
  visitsOnce_iff (nullHeaders_accepted 2)

/-- With 256 headers the loop does not end. -/
theorem nullHeaders_loops :
    Accepted ⟨32, 32⟩ (nullHeaders 256) ∧ (nullHeaders 256).headers.length < 2 ^ 16 ∧
      ¬ VisitsOnce ⟨32, 32⟩ (nullHeaders 256) := by
  have hlen : (nullHeaders 256).headers.length = 256 := List.length_replicate
  refine ⟨nullHeaders_accepted 256, by omega, ?_⟩
  rintro ⟨fuel, hrun⟩
  rw [passes_none (Nat.le_of_eq hlen.symm) (nullHeaders_accepted 256)] at hrun
  cases hrun

/-! ## The size check -/

section SizeCheck

variable (cfg : Config) (file : ElfFile)

/-- The loop enters its body with header `i`. -/
def Reached (i : Nat) : Prop :=
  ∃ fuel ok is, passes cfg file fuel 0 = some (ok, is) ∧ i ∈ is

/-- `loadELF` returns false at header `i`. -/
def Rejected (i : Nat) : Prop :=
  ∃ fuel is cs, passes cfg file fuel 0 = some (false, is ++ [i]) ∧
    loadELF cfg file fuel = some (false, cs)

def Config.capacity (R : Ram) : Nat := cfg.kbSize R * 1024

/-- The index a call passes is one of the RAM's. -/
def Call.InRange : Call → Prop
  | .writeWordIRAM a _ => a < cfg.iramKbSize * 256
  | .writeWordDRAM a _ => a < cfg.dramKbSize * 256
  | .writeRstAddr _ => True

/-- **An exact size check**: a header the loop reaches is rejected iff
the segment does not fit its RAM, and so no index is out of range. -/
structure SizeCheckExact : Prop where
  rejected_iff : ∀ (i : Nat) (h : Header), file.headers[i]? = some h → Reached cfg file i →
    (Rejected cfg file i ↔ cfg.capacity h.target < h.memorySize.toNat)
  inRange : ∀ fuel ok cs, loadELF cfg file fuel = some (ok, cs) →
    ∀ c ∈ cs, c.InRange cfg

/-- The comparison with the size of the IRAM judges a segment as the size
of its own RAM does. -/
def Judged (h : Header) : Prop :=
  match h.target with
  | .iram => h.memorySize.toNat ≠ cfg.iramKbSize * 1024
  | .dram =>
      (h.memorySize.toNat < cfg.iramKbSize * 1024 ∧
        h.memorySize.toNat ≤ cfg.dramKbSize * 1024) ∨
      (cfg.iramKbSize * 1024 ≤ h.memorySize.toNat ∧
        cfg.dramKbSize * 1024 < h.memorySize.toNat)

variable {cfg file}

theorem tooBig_iff (h : Header) :
    tooBig cfg h = true ↔ cfg.iramKbSize * 1024 ≤ h.memorySize.toNat := by
  simp [tooBig]

theorem judged_iff (h : Header) :
    Judged cfg h ↔ (tooBig cfg h = true ↔ cfg.capacity h.target < h.memorySize.toNat) := by
  rw [tooBig_iff, Judged, Config.capacity]
  cases h.target <;> simp only [Config.kbSize] <;> omega

/-- The loop reaches the headers up to the first one it rejects. -/
theorem reached_iff (hfew : file.headers.length ≤ 255) {i : Nat} {h : Header}
    (hi : file.headers[i]? = some h) : Reached cfg file i ↔ PassedTo cfg file 0 i := by
  have hlt := (List.getElem?_eq_some_iff.mp hi).1
  constructor
  · rintro ⟨fuel, ok, is, hrun, hmem⟩
    obtain ⟨m, _, hmn, hpassed, hend⟩ := passes_spec hfew (Nat.zero_le _) hrun
    have him : i ≤ m := by
      rcases hend with ⟨_, _, rfl⟩ | ⟨_, _, rfl⟩
      · rw [List.mem_range'_1] at hmem
        omega
      · rw [List.mem_append, List.mem_range'_1, List.mem_singleton] at hmem
        omega
    exact fun j g h1 h2 => hpassed j g h1 (by omega)
  · intro hpassed
    obtain ⟨⟨ok, is⟩, hrun⟩ := passes_exits cfg hfew
    refine ⟨_, ok, is, hrun, ?_⟩
    obtain ⟨m, _, _, _, ⟨_, rfl, rfl⟩ | ⟨_, ⟨g, hg, hbig⟩, rfl⟩⟩ :=
      passes_spec hfew (Nat.zero_le _) hrun
    · rw [List.mem_range'_1]
      omega
    · have him : i ≤ m := by
        by_contra hlt'
        rw [hpassed m g (Nat.zero_le m) (by omega) hg] at hbig
        cases hbig
      rw [List.mem_append, List.mem_range'_1, List.mem_singleton]
      omega

theorem loadELF_of_passes (helf : file.elfClass = elfclass32 ∧ file.machine = emRiscv)
    {fuel : Nat} {is : List Nat} (hrun : passes cfg file fuel 0 = some (false, is)) :
    ∃ cs, loadELF cfg file fuel = some (false, cs) := by
  refine ⟨is.dropLast.flatMap (callsOf file), ?_⟩
  rw [loadELF, if_neg (by simp [helf]), segmentLoop_eq, hrun]
  rfl

/-- And rejects the first one that is too big. -/
theorem rejected_iff (helf : file.elfClass = elfclass32 ∧ file.machine = emRiscv)
    (hfew : file.headers.length ≤ 255) {i : Nat} {h : Header}
    (hi : file.headers[i]? = some h) :
    Rejected cfg file i ↔ PassedTo cfg file 0 i ∧ tooBig cfg h = true := by
  have hlt := (List.getElem?_eq_some_iff.mp hi).1
  constructor
  · rintro ⟨fuel, is, cs, hrun, _⟩
    obtain ⟨m, _, _, hpassed, ⟨hok, _⟩ | ⟨_, ⟨g, hg, hbig⟩, his⟩⟩ :=
      passes_spec hfew (Nat.zero_le _) hrun
    · cases hok
    · obtain rfl : i = m := by simpa using (List.append_inj' his rfl).2
      obtain rfl : h = g := by simpa [hi] using hg
      exact ⟨hpassed, hbig⟩
  · rintro ⟨hpassed, hbig⟩
    obtain ⟨⟨ok, is⟩, hrun⟩ := passes_exits cfg hfew
    obtain ⟨m, _, _, hpassed', ⟨_, rfl, _⟩ | ⟨rfl, ⟨g, hg, hbig'⟩, rfl⟩⟩ :=
      passes_spec hfew (Nat.zero_le _) hrun
    · rw [hpassed' i h (Nat.zero_le i) hlt hi] at hbig
      cases hbig
    · obtain rfl : i = m := by
        rcases Nat.lt_trichotomy i m with h1 | h1 | h1
        · rw [hpassed' i h (Nat.zero_le i) h1 hi] at hbig
          cases hbig
        · exact h1
        · rw [hpassed m g (Nat.zero_le m) h1 hg] at hbig'
          cases hbig'
      obtain ⟨cs, hcs⟩ := loadELF_of_passes helf hrun
      exact ⟨_, _, cs, hrun, hcs⟩

/-- The indices written for a segment that fits its RAM. -/
theorem inRange_of_fits {h : Header} (hfits : h.memorySize.toNat ≤ cfg.capacity h.target)
    (data : Nat → BitVec 8) {c : Call} (hc : c ∈ segmentCalls h data) : c.InRange cfg := by
  rw [segmentCalls_eq] at hc
  obtain ⟨k, hk, rfl⟩ := List.mem_map.mp hc
  rw [List.mem_range] at hk
  rw [Config.capacity] at hfits
  cases ht : h.target <;> rw [ht] at hfits <;>
    simp only [Call.writeWord, Call.InRange, Config.kbSize] at hfits ⊢ <;> omega

/-- The calls of a run are those of the headers it passes, and the entry
point. -/
theorem mem_calls (hfew : file.headers.length ≤ 255) {fuel : Nat} {ok : Bool}
    {cs : List Call} (hrun : loadELF cfg file fuel = some (ok, cs)) {c : Call} (hc : c ∈ cs) :
    c = .writeRstAddr file.entry ∨ ∃ j h, file.headers[j]? = some h ∧
      PassedTo cfg file 0 (j + 1) ∧ c ∈ segmentCalls h (file.data j) := by
  obtain ⟨m, _, hpassed, hcs⟩ := loadELF_spec hfew hrun
  have hmem : c ∈ (List.range m).flatMap (callsOf file) ∨ c = .writeRstAddr file.entry := by
    rcases hcs with ⟨_, _, rfl⟩ | ⟨_, rfl⟩
    · exact (List.mem_append.mp hc).imp_right List.mem_singleton.mp
    · exact .inl hc
  rcases hmem with hmem | hentry
  · right
    obtain ⟨j, hj, hcj⟩ := List.mem_flatMap.mp hmem
    rw [List.mem_range] at hj
    rw [callsOf] at hcj
    split at hcj
    · cases hcj
    · rename_i h hh
      exact ⟨j, h, hh, fun k g h1 h2 => hpassed k g h1 (by omega), hcj⟩
  · exact .inl hentry

/-- **The size check is exact iff it judges every header it reaches as
the header's own RAM would**: an IRAM segment is not just as large as the
IRAM, and a DRAM segment fits both RAMs, below the size of the IRAM, or
neither. -/
theorem sizeCheckExact_iff (helf : file.elfClass = elfclass32 ∧ file.machine = emRiscv)
    (hfew : file.headers.length ≤ 255) :
    SizeCheckExact cfg file ↔
      ∀ (i : Nat) (h : Header), file.headers[i]? = some h →
        (∀ (j : Nat) (g : Header), j < i → file.headers[j]? = some g →
          g.memorySize.toNat < cfg.iramKbSize * 1024) →
        Judged cfg h := by
  have hearlier : ∀ i : Nat, (∀ (j : Nat) (g : Header), j < i → file.headers[j]? = some g →
      g.memorySize.toNat < cfg.iramKbSize * 1024) ↔ PassedTo cfg file 0 i := by
    intro i
    have hsize : ∀ g : Header, g.memorySize.toNat < cfg.iramKbSize * 1024 ↔
        tooBig cfg g = false := by
      intro g
      rw [← Bool.not_eq_true, tooBig_iff, Nat.not_le]
    simp only [hsize]
    exact ⟨fun h j g _ h2 hg => h j g h2 hg, fun h j g h2 hg => h j g (Nat.zero_le j) h2 hg⟩
  simp only [hearlier, judged_iff]
  have hrej : ∀ {i : Nat} {h : Header}, file.headers[i]? = some h → PassedTo cfg file 0 i →
      (Rejected cfg file i ↔ tooBig cfg h = true) := fun hi hpassed => by
    rw [rejected_iff helf hfew hi]
    exact and_iff_right hpassed
  constructor
  · intro hexact i h hi hpassed
    rw [← hrej hi hpassed]
    exact hexact.rejected_iff i h hi ((reached_iff hfew hi).mpr hpassed)
  · intro hjudged
    refine ⟨fun i h hi hreached => ?_, fun fuel ok cs hrun c hc => ?_⟩
    · have hpassed := (reached_iff hfew hi).mp hreached
      rw [hrej hi hpassed]
      exact hjudged i h hi hpassed
    · rcases mem_calls hfew hrun hc with rfl | ⟨j, h, hj, hpassed, hcj⟩
      · trivial
      · -- a header the loop has passed fits its RAM
        have hsize := hpassed j h (Nat.zero_le j) (Nat.lt_succ_self j) hj
        have hj' := hjudged j h hj fun k g h1 h2 => hpassed k g h1 (by omega)
        rw [hsize] at hj'
        exact inRange_of_fits (Nat.not_lt.mp fun hbig => absurd (hj'.mpr hbig) (by simp)) _ hcj

end SizeCheck

/-- A program that fills the IRAM of 32 KiB. -/
def fullProgram : ElfFile where
  elfClass := elfclass32
  machine := emRiscv
  entry := 0x20000000
  headers := [⟨ptLoad, 0x20000000, 32768, 32768⟩]
  data := fun _ _ => 0x13

theorem sizeCheckExact_fullProgram :
    SizeCheckExact ⟨32, 32⟩ fullProgram ↔
      ∀ (i : Nat) (h : Header), fullProgram.headers[i]? = some h →
        (∀ (j : Nat) (g : Header), j < i → fullProgram.headers[j]? = some g →
          g.memorySize.toNat < 32 * 1024) →
        Judged ⟨32, 32⟩ h :=
  sizeCheckExact_iff ⟨rfl, rfl⟩ (by decide)

/-- It fits, and is rejected. -/
theorem full_program_rejected : ¬ SizeCheckExact ⟨32, 32⟩ fullProgram := by
  intro hexact
  have hpassed : PassedTo ⟨32, 32⟩ fullProgram 0 0 := fun j h _ h2 => absurd h2 (by omega)
  have hiff := hexact.rejected_iff 0 _ rfl ((reached_iff (by decide) rfl).mpr hpassed)
  have hrej := (rejected_iff ⟨rfl, rfl⟩ (by decide) rfl).mpr ⟨hpassed, by decide⟩
  have hlt := hiff.mp hrej
  revert hlt
  decide

end RiscvSoc.LoadElf
