import Mathlib.Data.List.Basic
import Mathlib.Data.BitVec

/-!
# Firmware — Gpio

The pin functions of the GPIO library, on the register they read and
write. The setter of the direction shifts by the pin number, the getter
by twice the pin number. So it reads the bit of another pin, and from
pin 16 on it shifts by more than the word has bits.
-/

namespace RiscvSoc.Gpio

/-! ## The functions -/

/-- `x << n` of an `int`. A count from the width on is undefined; into the
sign bit the compiler shifts like into any other. -/
def shl (x : BitVec 32) (n : Nat) : Option (BitVec 32) :=
  if n < 32 then some (x <<< n) else none

/-- `x >> n` of an `int`. -/
def shr (x : BitVec 32) (n : Nat) : Option (BitVec 32) :=
  if n < 32 then some (x.sshiftRight n) else none

/-- `set_gpio_pin_direction`, on the contents of `PADDIR`. -/
def setGpioPinDirection (paddir : BitVec 32) (pinnumber : Nat) (direction : Int) :
    Option (BitVec 32) := do
  let bit ← shl 1 pinnumber
  if direction = 0 then some (paddir &&& ~~~bit) else some (paddir ||| bit)

/-- `get_gpio_pin_direction`. -/
def getGpioPinDirection (paddir : BitVec 32) (pinnumber : Nat) : Option (BitVec 32) := do
  let oldDir ← shr paddir (pinnumber * 2)
  some (oldDir &&& 1)

/-- `get_gpio_pin_value`, on the contents of the register it reads. -/
def getGpioPinValue (padin : BitVec 32) (pinnumber : Nat) : Option (BitVec 32) := do
  let v ← shr padin pinnumber
  some (v &&& 1)

/-- The setter called for each of `calls`, pin and direction. -/
def setAll (paddir : BitVec 32) (calls : List (Nat × Int)) : Option (BitVec 32) :=
  calls.foldlM (fun r c => setGpioPinDirection r c.1 c.2) paddir

/-! ## What was set -/

/-- The direction of pin `q`: what the last call for it set, or else the
bit the register began with. -/
def lastSet (paddir : BitVec 32) (calls : List (Nat × Int)) (q : Nat) : Bool :=
  match (calls.filter fun c => c.1 = q).getLast? with
  | some c => c.2 ≠ 0
  | none => paddir.getLsbD q

/-- A bit as the getters return it. -/
def bitValue (b : Bool) : BitVec 32 := if b then 1 else 0

theorem bitValue_inj {a b : Bool} : bitValue a = bitValue b ↔ a = b := by
  cases a <;> cases b <;> decide

theorem lastSet_concat (paddir : BitVec 32) (calls : List (Nat × Int)) (c : Nat × Int) (q : Nat) :
    lastSet paddir (calls ++ [c]) q =
      if c.1 = q then decide (c.2 ≠ 0) else lastSet paddir calls q := by
  unfold lastSet
  by_cases h : c.1 = q
  · simp [List.filter_append, h]
  · simp [List.filter_append, h]

/-! ## One call -/

/-- A low bit of a shifted word. -/
theorem shr_and_one {x : BitVec 32} {n : Nat} (hn : n < 32) :
    x.sshiftRight n &&& 1 = bitValue (x.getLsbD n) := by
  have hbit : (x.sshiftRight n).getLsbD 0 = x.getLsbD n := by
    rw [BitVec.getLsbD_sshiftRight, Nat.add_zero, if_pos hn]
    rfl
  have hone : (1 : BitVec 32) = 1#32 := rfl
  rw [hone, BitVec.and_one_eq_setWidth_ofBool_getLsbD, hbit]
  cases x.getLsbD n <;> decide

/-- **The setter writes the bit of its pin**, and no other. -/
theorem setGpioPinDirection_eq (paddir : BitVec 32) {pinnumber : Nat} (hp : pinnumber < 32)
    (direction : Int) :
    ∃ r, setGpioPinDirection paddir pinnumber direction = some r ∧
      ∀ q, q < 32 → r.getLsbD q =
        if pinnumber = q then decide (direction ≠ 0) else paddir.getLsbD q := by
  have hbit : ∀ q, ((1 : BitVec 32) <<< pinnumber).getLsbD q = decide (pinnumber = q) := by
    intro q
    have htwo : (1 : BitVec 32) <<< pinnumber = BitVec.twoPow 32 pinnumber :=
      (BitVec.twoPow_eq 32 pinnumber).symm
    rw [htwo, BitVec.getLsbD_twoPow]
    simp [hp]
  have hshl : shl 1 pinnumber = some ((1 : BitVec 32) <<< pinnumber) := if_pos hp
  unfold setGpioPinDirection
  rw [hshl]
  by_cases hd : direction = 0
  · refine ⟨_, if_pos hd, fun q hq => ?_⟩
    rw [BitVec.getLsbD_and, BitVec.getLsbD_not, hbit]
    by_cases h : pinnumber = q <;> simp [h, hd, hq]
  · refine ⟨_, if_neg hd, fun q _ => ?_⟩
    rw [BitVec.getLsbD_or, hbit]
    by_cases h : pinnumber = q <;> simp [h, hd]

/-! ## Any number of calls -/

/-- **The register holds what was set last**, pin by pin. -/
theorem setAll_eq (paddir : BitVec 32) (calls : List (Nat × Int))
    (hcalls : ∀ c ∈ calls, c.1 < 32) :
    ∃ r, setAll paddir calls = some r ∧ ∀ q, q < 32 → r.getLsbD q = lastSet paddir calls q := by
  induction calls using List.reverseRecOn with
  | nil => exact ⟨paddir, rfl, fun _ _ => rfl⟩
  | append_singleton calls c ih =>
      obtain ⟨r, hr, hbits⟩ := ih fun d hd => hcalls d (List.mem_append_left _ hd)
      obtain ⟨r', hr', hbits'⟩ := setGpioPinDirection_eq r
        (hcalls c (List.mem_append_right _ (List.mem_singleton_self c))) c.2
      refine ⟨r', ?_, fun q hq => ?_⟩
      · have hrun : setAll paddir (calls ++ [c]) =
            (setAll paddir calls).bind fun r => setGpioPinDirection r c.1 c.2 := by
          unfold setAll
          rw [List.foldlM_append]
          simp
        rw [hrun, hr, Option.bind_some, hr']
      · rw [hbits' q hq, lastSet_concat, hbits q hq]

/-- What the getter of a direction returns, after any calls: the bit of
twice the pin number, where there is one. -/
theorem getGpioPinDirection_setAll (paddir : BitVec 32) {calls : List (Nat × Int)}
    (hcalls : ∀ c ∈ calls, c.1 < 32) (p : Nat) :
    (setAll paddir calls).bind (fun r => getGpioPinDirection r p) =
      if p < 16 then some (bitValue (lastSet paddir calls (p * 2))) else none := by
  obtain ⟨r, hr, hbits⟩ := setAll_eq paddir calls hcalls
  rw [hr, Option.bind_some, getGpioPinDirection, shr]
  by_cases hp : p < 16
  · have hlt : p * 2 < 32 := by omega
    rw [if_pos hp, if_pos hlt, ← hbits _ hlt, ← shr_and_one hlt]
    rfl
  · rw [if_neg hp, if_neg (by omega)]
    rfl

/-- **The direction reads back exactly if its pin is below 16 and the pin
of twice the number has the same direction.** -/
theorem direction_reads_back_iff (paddir : BitVec 32) {calls : List (Nat × Int)}
    (hcalls : ∀ c ∈ calls, c.1 < 32) (p : Nat) :
    (setAll paddir calls).bind (fun r => getGpioPinDirection r p)
        = some (bitValue (lastSet paddir calls p)) ↔
      p < 16 ∧ lastSet paddir calls (p * 2) = lastSet paddir calls p := by
  rw [getGpioPinDirection_setAll paddir hcalls p]
  by_cases hp : p < 16
  · rw [if_pos hp, Option.some.injEq, bitValue_inj]
    constructor
    · intro h
      exact ⟨hp, h⟩
    · intro h
      exact h.2
  · rw [if_neg hp]
    constructor
    · intro h
      cases h
    · intro h
      exact absurd h.1 hp

/-- Pins 2 and 5 are made outputs, pin 5 an input again. -/
def threeCalls : List (Nat × Int) := [(2, 1), (5, 1), (5, 0)]

theorem direction_reads_back_threeCalls :
    (setAll 0x10 threeCalls).bind (fun r => getGpioPinDirection r 2)
        = some (bitValue (lastSet 0x10 threeCalls 2)) ↔
      2 < 16 ∧ lastSet 0x10 threeCalls (2 * 2) = lastSet 0x10 threeCalls 2 :=
  direction_reads_back_iff 0x10 (by decide) 2

/-- Pin 1 is made an output and reads back as an input. -/
theorem output_reads_back_as_input :
    (setAll 0 [(1, 1)]).bind (fun r => getGpioPinDirection r 1) = some 0 ∧
      lastSet 0 [(1, 1)] 1 = true ∧
      ¬ ∀ (paddir : BitVec 32) (calls : List (Nat × Int)) (p : Nat),
        (∀ c ∈ calls, c.1 < 32) → p < 32 →
        (setAll paddir calls).bind (fun r => getGpioPinDirection r p)
          = some (bitValue (lastSet paddir calls p)) := by
  refine ⟨by decide, by decide, fun h => ?_⟩
  have hone := h 0 [(1, 1)] 1 (by decide) (by decide)
  revert hone
  decide

/-- The getter with the shift of the processor, which takes the count
modulo the width. -/
def getGpioPinDirectionSra (paddir : BitVec 32) (pinnumber : Nat) : BitVec 32 :=
  paddir.sshiftRight (pinnumber * 2 % 32) &&& 1

/-- With that shift the upper half of the pins read the bits of the even
pins again. -/
theorem getGpioPinDirectionSra_setAll (paddir : BitVec 32) {calls : List (Nat × Int)}
    (hcalls : ∀ c ∈ calls, c.1 < 32) (p : Nat) :
    (setAll paddir calls).map (fun r => getGpioPinDirectionSra r p)
      = some (bitValue (lastSet paddir calls (p * 2 % 32))) := by
  obtain ⟨r, hr, hbits⟩ := setAll_eq paddir calls hcalls
  have hlt : p * 2 % 32 < 32 := Nat.mod_lt _ (by decide)
  rw [hr, Option.map_some, getGpioPinDirectionSra, shr_and_one hlt, hbits _ hlt]

/-- The shift of the value getter reads the direction back for every
pin. -/
theorem getGpioPinValue_setAll (paddir : BitVec 32) {calls : List (Nat × Int)}
    (hcalls : ∀ c ∈ calls, c.1 < 32) {p : Nat} (hp : p < 32) :
    (setAll paddir calls).bind (fun r => getGpioPinValue r p)
      = some (bitValue (lastSet paddir calls p)) := by
  obtain ⟨r, hr, hbits⟩ := setAll_eq paddir calls hcalls
  rw [hr, Option.bind_some, getGpioPinValue, shr, if_pos hp, ← hbits p hp, ← shr_and_one hp]
  rfl

end RiscvSoc.Gpio
