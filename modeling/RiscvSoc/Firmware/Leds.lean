import RiscvSoc.Firmware.GpioApi

/-!
# Firmware — Leds

The LED show of both programs. The LEDs are in three colours, every third
pin one; the show lights those of one colour one after the other and then
puts them out in the same order, colour by colour. The boot ROM repeats it
for ever, `hello_world` once for each request.
-/

namespace RiscvSoc.Gpio

/-! ## The show -/

/-- The calls of `loop_leds`, and of one round in the `main` of the boot
ROM. -/
def loopLeds : List Call :=
  (forRange 0 3 1).flatMap fun j =>
    (forRange j 12 3).map (.value · 1) ++ (forRange j 12 3).map (.value · 0)

theorem length_loopLeds : loopLeds.length = 24 := by decide

/-- Call `n` of the rounds one after another. -/
def ledCall (n : Nat) : Call :=
  loopLeds.get ⟨n % 24, length_loopLeds ▸ Nat.mod_lt n (by decide)⟩

def ledCalls (n : Nat) : List Call := (List.range n).map ledCall

/-- The LED of call `m` of a round, by colour and place. -/
def ledPin (m : Nat) : Nat := m / 8 + 3 * (m % 4)

theorem loopLeds_get : ∀ m : Fin 24, loopLeds.get (m.cast length_loopLeds.symm)
    = .value (ledPin m) (if m.val % 8 < 4 then 1 else 0) := by
  decide

theorem ledCall_eq (n : Nat) :
    ledCall n = .value (ledPin (n % 24)) (if n % 24 % 8 < 4 then 1 else 0) :=
  loopLeds_get ⟨n % 24, Nat.mod_lt n (by decide)⟩

theorem ledPin_lt {m : Nat} (h : m < 24) : ledPin m < 12 := by
  unfold ledPin
  omega

/-- Call number `m` of a round is the next one. LED `q` is on since its
own call in the first half of its colour, up to that in the second. -/
def Lit (m q : Nat) : Prop := 8 * (q % 3) + q / 3 < m ∧ m ≤ 8 * (q % 3) + q / 3 + 4

instance (m q : Nat) : Decidable (Lit m q) := by
  unfold Lit
  infer_instance

/-- **LEDs that are on at a time are of one colour.** -/
theorem Lit.colour {m q : Nat} (h : Lit m q) (hq : q < 12) : m / 8 = q % 3 := by
  unfold Lit at h
  omega

theorem lit_succ_of_lt : ∀ m, m < 24 → ∀ q, q < 12 →
    (Lit ((m + 1) % 24) q ↔ if ledPin m = q then m % 8 < 4 else Lit m q) := by
  decide

/-- One call of the show. -/
theorem lit_succ {q : Nat} (hq : q < 12) (n : Nat) :
    Lit ((n + 1) % 24) q ↔
      if ledPin (n % 24) = q then n % 24 % 8 < 4 else Lit (n % 24) q := by
  rw [← Nat.mod_add_mod n 24 1]
  exact lit_succ_of_lt (n % 24) (Nat.mod_lt n (by decide)) q hq

theorem ledCalls_valid (n : Nat) : ∀ c ∈ ledCalls n, c.Valid := by
  intro c hc
  obtain ⟨m, _, rfl⟩ := List.mem_map.mp hc
  rw [ledCall_eq]
  have hlt := ledPin_lt (Nat.mod_lt m (by decide : 0 < 24))
  show ledPin (m % 24) < 32
  omega

theorem setAll_ledCalls_succ (pin : Pin) (q n : Nat) :
    pin.setAll q (ledCalls (n + 1))
      = if ledPin (n % 24) = q then
          { pin.setAll q (ledCalls n) with high := decide (n % 24 % 8 < 4) }
        else pin.setAll q (ledCalls n) := by
  have hvalue : decide ((if n % 24 % 8 < 4 then (1 : Int) else 0) ≠ 0)
      = decide (n % 24 % 8 < 4) := by
    split
    · rename_i h
      exact (decide_eq_true h).symm
    · rename_i h
      exact (decide_eq_false h).symm
  rw [ledCalls, List.range_succ, List.map_append, setAll_append, ← ledCalls]
  show Pin.set _ q (ledCall n) = _
  rw [ledCall_eq, Pin.set, hvalue]

/-- **A LED in the show.** -/
theorem setAll_ledCalls {pin : Pin} (hdark : pin.high = false) {q : Nat} (hq : q < 12) (n : Nat) :
    pin.setAll q (ledCalls n) = { pin with high := decide (Lit (n % 24) q) } := by
  induction n with
  | zero =>
      have hno : ¬ Lit (0 % 24) q := fun h => Nat.not_lt_zero _ h.1
      rw [decide_eq_false hno, ← hdark]
      rfl
  | succ n ih =>
      have hstep := lit_succ hq n
      rw [setAll_ledCalls_succ, ih]
      by_cases hp : ledPin (n % 24) = q
      · rw [if_pos hp] at hstep ⊢
        simp only [hstep]
      · rw [if_neg hp] at hstep ⊢
        simp only [hstep]

/-- Another pin is not touched. -/
theorem setAll_ledCalls_of_ge (pin : Pin) {q : Nat} (hq : 12 ≤ q) (n : Nat) :
    pin.setAll q (ledCalls n) = pin := by
  induction n with
  | zero => rfl
  | succ n ih =>
      have hlt := ledPin_lt (Nat.mod_lt n (by decide : 0 < 24))
      rw [setAll_ledCalls_succ, if_neg (by omega), ih]

/-! ## From power-up -/

/-- **The show**, `n` calls into it, with the pins set up as `pin` says. -/
structure Shows (pin : Nat → Pin) (n : Nat) (r : Regs) : Prop where
  leds : ∀ q, q < 12 → r.pin q = { pin q with high := decide (Lit (n % 24) q) }
  /-- The LEDs that are on are of the colour whose turn it is. -/
  colour : ∀ q, q < 12 → (r.pin q).high = true → q % 3 = n % 24 / 8
  others : ∀ q, 12 ≤ q → q < 32 → r.pin q = pin q

/-- The show after calls that leave the LEDs dark. -/
theorem shows_of_dark (r : Regs) {calls : List Call} (hcalls : ∀ c ∈ calls, c.Valid)
    {pin : Nat → Pin} (hpin : ∀ q, q < 32 → (r.pin q).setAll q calls = pin q)
    (hdark : ∀ q, q < 12 → (pin q).high = false) (n : Nat) :
    ∃ r', callAll r (calls ++ ledCalls n) = some r' ∧ Shows pin n r' := by
  have hvalid : ∀ c ∈ calls ++ ledCalls n, c.Valid := fun c hc => by
    rcases List.mem_append.mp hc with hc | hc
    · exact hcalls c hc
    · exact ledCalls_valid n c hc
  obtain ⟨r', hr', hpins⟩ := callAll_eq r hvalid
  have hleds : ∀ q, q < 12 → r'.pin q = { pin q with high := decide (Lit (n % 24) q) } := by
    intro q hq
    rw [hpins q (by omega), setAll_append, hpin q (by omega), setAll_ledCalls (hdark q hq) hq]
  refine ⟨r', hr', hleds, fun q hq hhigh => ?_, fun q hq hlt => ?_⟩
  · rw [hleds q hq] at hhigh
    exact ((of_decide_eq_true hhigh).colour hq).symm
  · rw [hpins q hlt, setAll_append, setAll_ledCalls_of_ge _ hq, hpin q hlt]

theorem high_bootPin (pin : Pin) {q : Nat} (hq : q < 12) : (bootPin pin q).high = false := by
  unfold bootPin
  by_cases h11 : q < 11
  · rw [if_pos h11]
  · rw [if_neg h11, if_pos (by omega)]

theorem high_helloPin (pin : Pin) {q : Nat} (hq : q < 12) : (helloPin pin q).high = false := by
  rw [helloPin, if_pos hq]

/-- **The show of both programs**, at any of its calls and from any
contents of the registers. -/
theorem shows (r : Regs) (n : Nat) :
    (∃ r', callAll r (bootSetup ++ ledCalls n) = some r' ∧
        Shows (fun q => bootPin (r.pin q) q) n r') ∧
      ∃ r', callAll r (setupGpios ++ setupIrqs ++ ledCalls n) = some r' ∧
        Shows (fun q => helloPin (r.pin q) q) n r' :=
  ⟨shows_of_dark r bootSetup_valid (fun q _ => setAll_boot _ q) (fun _ hq => high_bootPin _ hq) n,
    shows_of_dark r setupCalls_valid (fun _ hq => setAll_hello _ hq)
      (fun _ hq => high_helloPin _ hq) n⟩

end RiscvSoc.Gpio
