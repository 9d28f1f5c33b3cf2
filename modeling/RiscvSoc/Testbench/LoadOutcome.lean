import RiscvSoc.Testbench.Placement
import RiscvSoc.Control.While

/-!
# Testbench — LoadOutcome

All that `loadELF` can come to, for any file. The segment loop stops at
the first index behind the headers or at a header that is too big. As the
index is a `uint8_t`, it does so below 256 or not at all.
-/

namespace RiscvSoc.LoadElf

open Mem Control

/-- The segment loop does not go on at index `i`. -/
def stops (cfg : Config) (file : ElfFile) (i : Nat) : Bool :=
  match file.headers[i]? with
  | none => true
  | some h => tooBig cfg h

/-- What becomes of a call of `loadELF`. -/
inductive Outcome where
  /-- It returns `ok`, with the segments of the first `m` headers loaded. -/
  | returns (ok : Bool) (m : Nat)
  | loops
  deriving DecidableEq, Repr

def outcome (cfg : Config) (file : ElfFile) : Outcome :=
  if file.elfClass ≠ elfclass32 ∨ file.machine ≠ emRiscv then .returns false 0
  else
    match (List.range 256).find? (stops cfg file) with
    | none => .loops
    | some m => .returns file.headers[m]?.isNone m

/-- The registers and RAMs of the SoC after a call that returned `ok`. -/
structure Loaded (cfg : Config) (file : ElfFile) (ok : Bool) (m : Nat) (soc soc' : Soc) : Prop where
  ram : ∀ R, soc'.ram R = overlays (hits cfg file R) (val file) (soc.ram R) m
  rstAddr : soc'.rstAddr = if ok then file.entry else soc.rstAddr

/-- **The call comes to the outcome.** -/
def ComesTo (cfg : Config) (file : ElfFile) : Outcome → Prop
  | .loops => ∀ fuel, loadELF cfg file fuel = none
  | .returns ok m => ∃ cs, Ends (loadELF cfg file) (ok, cs) ∧
      ∀ soc, Loaded cfg file ok m soc (soc.calls cfg cs)

section

variable {cfg : Config} {file : ElfFile}

theorem exists_of_not_stops {i : Nat} (h : stops cfg file i = false) :
    ∃ g, file.headers[i]? = some g ∧ tooBig cfg g = false := by
  rw [stops] at h
  cases hg : file.headers[i]? with
  | none =>
      rw [hg] at h
      cases h
  | some g =>
      rw [hg] at h
      exact ⟨g, rfl, h⟩

/-- **The passes up to a stop.** -/
theorem passes_of_stop {m : Nat} (hm : m < 256) (hstop : stops cfg file m = true) {n i fuel : Nat}
    (hi : i + n = m) (hbefore : ∀ j, i ≤ j → j < m → stops cfg file j = false)
    (hfuel : n < fuel) :
    passes cfg file fuel (BitVec.ofNat 8 i) = some (file.headers[m]?.isNone,
      List.range' i n ++ if file.headers[m]?.isNone then [] else [m]) := by
  obtain ⟨fuel, rfl⟩ : ∃ f, fuel = f + 1 := ⟨fuel - 1, by omega⟩
  rw [passes, toNat_index (by omega)]
  induction n generalizing i fuel with
  | zero =>
      obtain rfl : i = m := hi
      rw [stops] at hstop
      cases hg : file.headers[i]? with
      | none => rfl
      | some g =>
          rw [hg] at hstop
          exact if_pos hstop
  | succ n ih =>
      obtain ⟨g, hg, hsize⟩ := exists_of_not_stops (hbefore i (Nat.le_refl i) (by omega))
      obtain ⟨fuel, rfl⟩ : ∃ f, fuel = f + 1 := ⟨fuel - 1, by omega⟩
      have hrest := ih (i := i + 1) (by omega) (fun j h1 h2 => hbefore j (by omega) h2) fuel
        (by omega)
      rw [hg, index_succ, passes, toNat_index (by omega), hrest]
      show (if tooBig cfg g then _ else _) = _
      rw [hsize, List.range'_succ]
      rfl

/-- Without a stop there is no end. -/
theorem passes_of_no_stop (h : ∀ i, i < 256 → stops cfg file i = false) (fuel : Nat)
    (i : BitVec 8) : passes cfg file fuel i = none := by
  induction fuel generalizing i with
  | zero => rfl
  | succ fuel ih =>
      obtain ⟨g, hg, hsize⟩ := exists_of_not_stops (h i.toNat i.isLt)
      rw [passes, hg, ih]
      show (if tooBig cfg g then _ else _) = _
      rw [hsize]
      rfl

/-- The words of the segments leave the reset address alone. -/
theorem rstAddr_segmentCalls (soc : Soc) (h : Header) (data : Nat → BitVec 8) :
    (soc.calls cfg (segmentCalls h data)).rstAddr = soc.rstAddr := by
  rw [segmentCalls_eq]
  generalize List.range _ = ks
  induction ks generalizing soc with
  | nil => rfl
  | cons k ks ih =>
      rw [List.map_cons]
      refine (ih _).trans ?_
      cases h.target <;> rfl

theorem rstAddr_callsOf (soc : Soc) (m : Nat) :
    (soc.calls cfg ((List.range m).flatMap (callsOf file))).rstAddr = soc.rstAddr := by
  induction m with
  | zero => rfl
  | succ m ih =>
      rw [List.range_succ, List.flatMap_append, List.flatMap_singleton, calls_append, callsOf]
      split
      · exact ih
      · rw [rstAddr_segmentCalls, ih]

/-- The calls of a run that stops at `m`. -/
theorem loaded_of_stop {m : Nat} (hm : m ≤ file.headers.length) (ok : Bool) (soc : Soc) :
    Loaded cfg file ok m soc (soc.calls cfg ((List.range m).flatMap (callsOf file)
      ++ if ok then [.writeRstAddr file.entry] else [])) := by
  rw [calls_append]
  cases ok with
  | false => exact ⟨fun R => ram_callsOf cfg file soc R hm, rstAddr_callsOf soc m⟩
  | true =>
      refine ⟨fun R => ?_, rfl⟩
      rw [← ram_callsOf cfg file soc R hm]
      cases R <;> rfl

theorem loadELF_of_stop (helf : ¬ (file.elfClass ≠ elfclass32 ∨ file.machine ≠ emRiscv)) {m : Nat}
    (hm : m < 256) (hstop : stops cfg file m = true)
    (hbefore : ∀ j, j < m → stops cfg file j = false) {fuel : Nat} (hfuel : m < fuel) :
    loadELF cfg file fuel = some (file.headers[m]?.isNone,
      (List.range m).flatMap (callsOf file)
        ++ if file.headers[m]?.isNone then [.writeRstAddr file.entry] else []) := by
  have hpasses := passes_of_stop hm hstop (Nat.zero_add m) (fun j _ hj => hbefore j hj) hfuel
  rw [loadELF, if_neg helf, segmentLoop_eq]
  have hzero : (BitVec.ofNat 8 0) = 0 := rfl
  rw [← hzero, hpasses, Option.map_some]
  cases file.headers[m]?.isNone with
  | true => simp [List.range_eq_range']
  | false => simp [List.range_eq_range']

end

/-- **What `loadELF` comes to**, for every file and from every state of the
SoC. -/
theorem loadELF_comesTo (cfg : Config) (file : ElfFile) : ComesTo cfg file (outcome cfg file) := by
  unfold outcome
  by_cases helf : file.elfClass ≠ elfclass32 ∨ file.machine ≠ emRiscv
  · rw [if_pos helf]
    exact ⟨[], ⟨0, fun fuel _ => if_pos helf⟩, fun soc => ⟨fun R => rfl, rfl⟩⟩
  · rw [if_neg helf]
    cases hfind : (List.range 256).find? (stops cfg file) with
    | none =>
        have hno : ∀ i, i < 256 → stops cfg file i = false := fun i hi => by
          rw [← Bool.not_eq_true]
          exact List.find?_eq_none.mp hfind i (List.mem_range.mpr hi)
        intro fuel
        rw [loadELF, if_neg helf, segmentLoop_eq, passes_of_no_stop hno]
        rfl
    | some m =>
        obtain ⟨hstop, hmem, hbefore⟩ := List.find?_range_eq_some.mp hfind
        have hbefore' : ∀ j, j < m → stops cfg file j = false := fun j hj =>
          (Bool.not_eq_true' _).mp (hbefore j hj)
        have hm : m ≤ file.headers.length := by
          by_contra hlt
          obtain ⟨g, hg, _⟩ := exists_of_not_stops (hbefore' (m - 1) (by omega))
          have := (List.getElem?_eq_some_iff.mp hg).1
          omega
        refine ⟨_, ⟨m + 1, fun fuel hfuel => ?_⟩, loaded_of_stop hm _⟩
        exact loadELF_of_stop helf (List.mem_range.mp hmem) hstop hbefore' hfuel

end RiscvSoc.LoadElf
