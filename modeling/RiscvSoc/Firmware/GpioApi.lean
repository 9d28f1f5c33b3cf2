import RiscvSoc.Firmware.Gpio
import Mathlib.Logic.Function.Basic

/-!
# Firmware — GpioApi

The setters of the GPIO library over all the registers of the block. Each
of them reads whole registers, changes the bit of a pin and writes them
back; the interrupt type of a pin is in two registers. What comes of it is
a setting of its own for each pin, which no call for another pin and no
other kind of call touches.
-/

namespace RiscvSoc.Gpio

/-! ## The functions -/

/-- The registers that the library writes. -/
structure Regs where
  paddir : BitVec 32
  padout : BitVec 32
  inten : BitVec 32
  inttype0 : BitVec 32
  inttype1 : BitVec 32
  enpin : BitVec 32
  deriving DecidableEq, Repr

/-- `reg &= ~(1 << pinnumber)` where `value` is 0, and else
`reg |= 1 << pinnumber`. -/
def setPin (reg : BitVec 32) (pinnumber : Nat) (value : Int) : Option (BitVec 32) := do
  let bit ← shl 1 pinnumber
  if value = 0 then some (reg &&& ~~~bit) else some (reg ||| bit)

/-- `set_gpio_pin_value`. -/
def setGpioPinValue (r : Regs) (pinnumber : Nat) (value : Int) : Option Regs :=
  (setPin r.padout pinnumber value).map fun v => { r with padout := v }

/-- `set_gpio_pin_irq_en`. -/
def setGpioPinIrqEn (r : Regs) (pinnumber : Nat) (enable : Int) : Option Regs :=
  (setPin r.inten pinnumber enable).map fun v => { r with inten := v }

/-- `set_gpio_pin_irq_type`, with the two low bits of `type`. -/
def setGpioPinIrqType (r : Regs) (pinnumber : Nat) (type : BitVec 32) : Option Regs := do
  let type0 ← setPin r.inttype0 pinnumber (type &&& 0x1).toInt
  let type1 ← setPin r.inttype1 pinnumber (type &&& 0x2).toInt
  some { r with inttype0 := type0, inttype1 := type1 }

/-- `enable_gpio_pins_read`. -/
def enableGpioPinsRead (r : Regs) (pins : BitVec 32) : Regs := { r with enpin := pins }

/-- `read_enabled_irqs`. -/
def readEnabledIrqs (r : Regs) : BitVec 32 := r.inten

/-- The calls of a program to the library. -/
inductive Call where
  | direction (pinnumber : Nat) (direction : Int)
  | value (pinnumber : Nat) (value : Int)
  | irqEn (pinnumber : Nat) (enable : Int)
  | irqType (pinnumber : Nat) (type : BitVec 32)
  | pinsRead (pins : BitVec 32)
  deriving DecidableEq, Repr

def call (r : Regs) : Call → Option Regs
  | .direction p d => (setGpioPinDirection r.paddir p d).map fun v => { r with paddir := v }
  | .value p v => setGpioPinValue r p v
  | .irqEn p e => setGpioPinIrqEn r p e
  | .irqType p t => setGpioPinIrqType r p t
  | .pinsRead pins => some (enableGpioPinsRead r pins)

def callAll (r : Regs) (calls : List Call) : Option Regs := calls.foldlM call r

/-- The pins that a call names are there. -/
def Call.Valid : Call → Prop
  | .direction p _ | .value p _ | .irqEn p _ | .irqType p _ => p < 32
  | .pinsRead _ => True

instance : DecidablePred Call.Valid := fun c => by
  cases c <;> unfold Call.Valid <;> infer_instance

/-! ## Pins -/

/-- The settings of one pin. -/
structure Pin where
  output : Bool
  high : Bool
  irq : Bool
  irqType : Bool × Bool
  readable : Bool
  deriving DecidableEq, Repr

/-- What a call makes of the settings of pin `q`. -/
def Pin.set (pin : Pin) (q : Nat) : Call → Pin
  | .direction p d => if p = q then { pin with output := decide (d ≠ 0) } else pin
  | .value p v => if p = q then { pin with high := decide (v ≠ 0) } else pin
  | .irqEn p e => if p = q then { pin with irq := decide (e ≠ 0) } else pin
  | .irqType p t => if p = q then { pin with irqType := (t.getLsbD 0, t.getLsbD 1) } else pin
  | .pinsRead pins => { pin with readable := pins.getLsbD q }

/-- Pin `q` in the registers. -/
def Regs.pin (r : Regs) (q : Nat) : Pin where
  output := r.paddir.getLsbD q
  high := r.padout.getLsbD q
  irq := r.inten.getLsbD q
  irqType := (r.inttype0.getLsbD q, r.inttype1.getLsbD q)
  readable := r.enpin.getLsbD q

/-- The settings of a pin after some calls. -/
def Pin.setAll (pin : Pin) (q : Nat) (calls : List Call) : Pin :=
  calls.foldl (fun pin c => pin.set q c) pin

/-- A setter writes the bit of its pin, and no other. -/
theorem setPin_eq (reg : BitVec 32) {pinnumber : Nat} (hp : pinnumber < 32) (value : Int) :
    ∃ v, setPin reg pinnumber value = some v ∧
      ∀ q, q < 32 → v.getLsbD q = if pinnumber = q then decide (value ≠ 0) else reg.getLsbD q :=
  setGpioPinDirection_eq reg hp value

/-- A bit of the type, as the setter tests it. -/
theorem toInt_and_ne_zero (t : BitVec 32) :
    decide ((t &&& 0x1).toInt ≠ 0) = t.getLsbD 0 ∧
      decide ((t &&& 0x2).toInt ≠ 0) = t.getLsbD 1 := by
  have h0 : t &&& 0x1 = if t.getLsbD 0 then BitVec.twoPow 32 0 else 0#32 := BitVec.and_twoPow t 0
  have h1 : t &&& 0x2 = if t.getLsbD 1 then BitVec.twoPow 32 1 else 0#32 := BitVec.and_twoPow t 1
  rw [h0, h1]
  constructor
  · cases t.getLsbD 0 <;> rfl
  · cases t.getLsbD 1 <;> rfl

/-- **One call sets its pin.** -/
theorem pin_call (r : Regs) {c : Call} (hc : c.Valid) :
    ∃ r', call r c = some r' ∧ ∀ q, q < 32 → r'.pin q = (r.pin q).set q c := by
  cases c with
  | direction p d =>
      obtain ⟨v, hv, hbits⟩ := setGpioPinDirection_eq r.paddir hc d
      refine ⟨{ r with paddir := v }, ?_, fun q hq => ?_⟩
      · rw [call, hv, Option.map_some]
      · rw [Regs.pin, hbits q hq, Pin.set]
        split <;> rfl
  | value p d =>
      obtain ⟨v, hv, hbits⟩ := setPin_eq r.padout hc d
      refine ⟨{ r with padout := v }, ?_, fun q hq => ?_⟩
      · rw [call, setGpioPinValue, hv, Option.map_some]
      · rw [Regs.pin, hbits q hq, Pin.set]
        split <;> rfl
  | irqEn p d =>
      obtain ⟨v, hv, hbits⟩ := setPin_eq r.inten hc d
      refine ⟨{ r with inten := v }, ?_, fun q hq => ?_⟩
      · rw [call, setGpioPinIrqEn, hv, Option.map_some]
      · rw [Regs.pin, hbits q hq, Pin.set]
        split <;> rfl
  | irqType p t =>
      obtain ⟨v, hv, hbits⟩ := setPin_eq r.inttype0 hc (t &&& 0x1).toInt
      obtain ⟨w, hw, hbits'⟩ := setPin_eq r.inttype1 hc (t &&& 0x2).toInt
      refine ⟨{ r with inttype0 := v, inttype1 := w }, ?_, fun q hq => ?_⟩
      · rw [call, setGpioPinIrqType, hv, hw]
        rfl
      · rw [Regs.pin, hbits q hq, hbits' q hq, (toInt_and_ne_zero t).1, (toInt_and_ne_zero t).2,
          Pin.set]
        split <;> rfl
  | pinsRead pins => exact ⟨_, rfl, fun _ _ => rfl⟩

/-- The registers are the settings of the pins. -/
theorem callAll_eq (r : Regs) {calls : List Call} (hcalls : ∀ c ∈ calls, c.Valid) :
    ∃ r', callAll r calls = some r' ∧ ∀ q, q < 32 → r'.pin q = (r.pin q).setAll q calls := by
  induction calls generalizing r with
  | nil => exact ⟨r, rfl, fun _ _ => rfl⟩
  | cons c calls ih =>
      obtain ⟨r₁, hr₁, hpin⟩ := pin_call r (hcalls c List.mem_cons_self)
      obtain ⟨r', hr', hpins⟩ := ih r₁ fun d hd => hcalls d (List.mem_cons_of_mem c hd)
      refine ⟨r', ?_, fun q hq => ?_⟩
      · rw [callAll, List.foldlM_cons, hr₁]
        exact hr'
      · rw [hpins q hq, hpin q hq]
        rfl

/-- A call names pin `q`, or all pins. -/
def Call.names (q : Nat) : Call → Bool
  | .direction p _ | .value p _ | .irqEn p _ | .irqType p _ => p == q
  | .pinsRead _ => true

theorem set_of_not_names {q : Nat} {c : Call} (h : c.names q = false) (pin : Pin) :
    pin.set q c = pin := by
  cases c with
  | pinsRead pins => cases h
  | direction p d => exact if_neg (beq_eq_false_iff_ne.mp h)
  | value p v => exact if_neg (beq_eq_false_iff_ne.mp h)
  | irqEn p e => exact if_neg (beq_eq_false_iff_ne.mp h)
  | irqType p t => exact if_neg (beq_eq_false_iff_ne.mp h)

/-- The calls for other pins do not count. -/
theorem setAll_filter (pin : Pin) (q : Nat) (calls : List Call) :
    pin.setAll q (calls.filter (Call.names q)) = pin.setAll q calls := by
  induction calls generalizing pin with
  | nil => rfl
  | cons c calls ih =>
      cases hc : c.names q with
      | true =>
          rw [List.filter_cons_of_pos hc]
          exact ih (pin.set q c)
      | false =>
          have hkeep : pin.setAll q (c :: calls) = (pin.set q c).setAll q calls := rfl
          rw [List.filter_cons_of_neg (by rw [hc]; exact Bool.false_ne_true), ih, hkeep,
            set_of_not_names hc]

/-- **Each pin has its settings to itself**: after any calls they are what
the calls that name it have made of them, in each register. -/
theorem pin_callAll (r : Regs) {calls : List Call} (hcalls : ∀ c ∈ calls, c.Valid) :
    ∃ r', callAll r calls = some r' ∧
      ∀ q, q < 32 → r'.pin q = (r.pin q).setAll q (calls.filter (Call.names q)) := by
  obtain ⟨r', hr', hpins⟩ := callAll_eq r hcalls
  exact ⟨r', hr', fun q hq => (hpins q hq).trans (setAll_filter _ q calls).symm⟩

/-- So is what `read_enabled_irqs` shows of it. -/
theorem readEnabledIrqs_callAll (r : Regs) {calls : List Call} (hcalls : ∀ c ∈ calls, c.Valid) :
    ∃ r', callAll r calls = some r' ∧ ∀ q, q < 32 → (readEnabledIrqs r').getLsbD q
      = ((r.pin q).setAll q (calls.filter (Call.names q))).irq := by
  obtain ⟨r', hr', hpins⟩ := callAll_eq r hcalls
  refine ⟨r', hr', fun q hq => ?_⟩
  rw [setAll_filter, ← hpins q hq]
  rfl

/-- A pin set up as an input with an interrupt, between calls for others. -/
def switchCalls : List Call :=
  [.direction 28 0, .value 11 1, .irqEn 28 1, .irqType 31 3, .irqType 28 1, .pinsRead 0xF0000000]

theorem pin_callAll_switchCalls :
    ∃ r', callAll ⟨0xFFFFFFFF, 0, 0, 0, 0, 0⟩ switchCalls = some r' ∧ ∀ q, q < 32 →
      r'.pin q = (Regs.pin ⟨0xFFFFFFFF, 0, 0, 0, 0, 0⟩ q).setAll q
        (switchCalls.filter (Call.names q)) :=
  pin_callAll _ (by decide)

/-! ## The programs -/

/-- `for (int i = from; i < to; i += step)`. -/
def forRange (start stop step : Nat) : List Nat :=
  List.range' start ((stop - start + step - 1) / step) step

/-- `setup_gpios` of `hello_world`. -/
def setupGpios : List Call :=
  (forRange 0 12 1).map (.direction · 1) ++ (forRange 28 32 1).map (.direction · 0)
    ++ (forRange 0 12 1).map (.value · 0)
    ++ [.pinsRead (1 <<< 28 ||| 1 <<< 29 ||| 1 <<< 30 ||| 1 <<< 31)]

/-- The calls of `setup_irqs`, with `GPIO_IRQ_LEV1`. -/
def setupIrqs : List Call :=
  (forRange 28 32 1).map (.irqEn · 1) ++ (forRange 28 32 1).map (.irqType · 0x1)

/-- What the `main` of the boot ROM does before its loop. -/
def bootSetup : List Call :=
  (forRange 0 11 1).map (.direction · 1) ++ (forRange 12 16 1).map (.direction · 0)
    ++ (forRange 0 12 1).map (.value · 0)

theorem mem_forRange_one {start stop q : Nat} :
    q ∈ forRange start stop 1 ↔ start ≤ q ∧ q < stop := by
  rw [forRange, List.mem_range'_1]
  omega

theorem setAll_append (pin : Pin) (q : Nat) (calls calls' : List Call) :
    pin.setAll q (calls ++ calls') = (pin.setAll q calls).setAll q calls' := List.foldl_append

/-- **One setting for many pins.** -/
theorem setAll_map {f : Nat → Call} {g : Pin → Pin} {q : Nat}
    (hf : ∀ pin p, Pin.set pin q (f p) = if p = q then g pin else pin)
    (hg : ∀ pin, g (g pin) = g pin) (pins : List Nat) (pin : Pin) :
    pin.setAll q (pins.map f) = if q ∈ pins then g pin else pin := by
  induction pins generalizing pin with
  | nil => exact (if_neg List.not_mem_nil).symm
  | cons p pins ih =>
      rw [List.map_cons]
      show (Pin.set pin q (f p)).setAll q (pins.map f) = _
      rw [ih, hf]
      by_cases hp : p = q
      · have hmem : q ∈ p :: pins := hp ▸ List.mem_cons_self
        rw [if_pos hp, if_pos hmem, hg, ite_self]
      · have hmem : q ∈ p :: pins ↔ q ∈ pins := by
          rw [List.mem_cons]
          exact or_iff_right (Ne.symm hp)
        rw [if_neg hp]
        simp only [hmem]

theorem setAll_direction (pins : List Nat) (d : Int) (pin : Pin) (q : Nat) :
    pin.setAll q (pins.map (.direction · d))
      = if q ∈ pins then { pin with output := decide (d ≠ 0) } else pin :=
  setAll_map (g := fun pin => { pin with output := decide (d ≠ 0) }) (fun _ _ => rfl)
    (fun _ => rfl) pins pin

theorem setAll_value (pins : List Nat) (v : Int) (pin : Pin) (q : Nat) :
    pin.setAll q (pins.map (.value · v))
      = if q ∈ pins then { pin with high := decide (v ≠ 0) } else pin :=
  setAll_map (g := fun pin => { pin with high := decide (v ≠ 0) }) (fun _ _ => rfl)
    (fun _ => rfl) pins pin

theorem setAll_irqEn (pins : List Nat) (e : Int) (pin : Pin) (q : Nat) :
    pin.setAll q (pins.map (.irqEn · e))
      = if q ∈ pins then { pin with irq := decide (e ≠ 0) } else pin :=
  setAll_map (g := fun pin => { pin with irq := decide (e ≠ 0) }) (fun _ _ => rfl)
    (fun _ => rfl) pins pin

theorem setAll_irqType (pins : List Nat) (t : BitVec 32) (pin : Pin) (q : Nat) :
    pin.setAll q (pins.map (.irqType · t))
      = if q ∈ pins then { pin with irqType := (t.getLsbD 0, t.getLsbD 1) } else pin :=
  setAll_map (g := fun pin => { pin with irqType := (t.getLsbD 0, t.getLsbD 1) }) (fun _ _ => rfl)
    (fun _ => rfl) pins pin

/-- The pins of `hello_world` once they are set up: the LEDs are outputs,
dark, the switches inputs with an interrupt on a high level. -/
def helloPin (pin : Pin) (q : Nat) : Pin :=
  if q < 12 then { pin with output := true, high := false, readable := false }
  else if q < 28 then { pin with readable := false }
  else { pin with output := false, irq := true, irqType := (true, false), readable := true }

/-- Those of the boot ROM. The last LED is not made an output. -/
def bootPin (pin : Pin) (q : Nat) : Pin :=
  if q < 11 then { pin with output := true, high := false }
  else if q = 11 then { pin with high := false }
  else if q < 16 then { pin with output := false }
  else pin

/-- The pins that the program reads. -/
theorem getLsbD_switches : ∀ q, q < 32 →
    (1 <<< 28 ||| 1 <<< 29 ||| 1 <<< 30 ||| 1 <<< 31 : BitVec 32).getLsbD q = decide (28 ≤ q) := by
  decide

theorem setAll_hello (pin : Pin) {q : Nat} (hq : q < 32) :
    pin.setAll q (setupGpios ++ setupIrqs) = helloPin pin q := by
  have hlast : ∀ pin : Pin,
      pin.setAll q [.pinsRead (1 <<< 28 ||| 1 <<< 29 ||| 1 <<< 30 ||| 1 <<< 31)]
        = { pin with readable := decide (28 ≤ q) } := fun pin =>
    congrArg (fun b => { pin with readable := b }) (getLsbD_switches q hq)
  simp only [setupGpios, setupIrqs, setAll_append, setAll_direction, setAll_value, setAll_irqEn,
    setAll_irqType, mem_forRange_one, hlast, helloPin]
  rcases Nat.lt_or_ge q 12 with hlow | hmid
  · have h28 : ¬ 28 ≤ q := by omega
    simp [hlow, h28]
  · rcases Nat.lt_or_ge q 28 with h28 | h28
    · have hno : ¬ 28 ≤ q := by omega
      have h12 : ¬ q < 12 := by omega
      simp [hno, h12, h28]
    · have h12 : ¬ q < 12 := by omega
      have h28' : ¬ q < 28 := by omega
      simp [h12, h28, h28', hq]

theorem setAll_boot (pin : Pin) (q : Nat) : pin.setAll q bootSetup = bootPin pin q := by
  simp only [bootSetup, setAll_append, setAll_direction, setAll_value, mem_forRange_one, bootPin]
  rcases Nat.lt_or_ge q 11 with hlow | hhigh
  · have h12 : ¬ 12 ≤ q := by omega
    have h12' : q < 12 := by omega
    simp [hlow, h12, h12']
  · rcases Nat.eq_or_lt_of_le hhigh with rfl | hgt
    · simp
    · have h11 : ¬ q < 11 := by omega
      have h11' : ¬ q = 11 := by omega
      have h12 : ¬ q < 12 := by omega
      have h12' : 12 ≤ q := by omega
      by_cases h16 : q < 16 <;> simp [h11, h11', h12, h12', h16]

theorem setupCalls_valid : ∀ c ∈ setupGpios ++ setupIrqs, c.Valid := by decide

theorem bootSetup_valid : ∀ c ∈ bootSetup, c.Valid := by decide

/-- **The programs set up the pins**, from any contents of the registers. -/
theorem setup_pins (r : Regs) :
    (∃ r', callAll r (setupGpios ++ setupIrqs) = some r' ∧
        ∀ q, q < 32 → r'.pin q = helloPin (r.pin q) q) ∧
      ∃ r', callAll r bootSetup = some r' ∧ ∀ q, q < 32 → r'.pin q = bootPin (r.pin q) q := by
  constructor
  · obtain ⟨r', hr', hpins⟩ := callAll_eq r setupCalls_valid
    exact ⟨r', hr', fun q hq => (hpins q hq).trans (setAll_hello _ hq)⟩
  · obtain ⟨r', hr', hpins⟩ := callAll_eq r bootSetup_valid
    exact ⟨r', hr', fun q hq => (hpins q hq).trans (setAll_boot _ q)⟩

end RiscvSoc.Gpio
