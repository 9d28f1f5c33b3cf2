import RiscvSoc.Firmware.Leds

/-!
# Firmware — RunLeds

The requests for the LED show of `hello_world`. The service routines set
`run_leds` at any time; the main loop tests it, and the show clears it
before its first call. So a request during the show, or between the test
and the clear, is not lost: a whole show begins after it.
-/

namespace RiscvSoc.RunLeds

open Gpio

/-! ## The main loop -/

/-- Where the main loop is: at the test of `run_leds`, before the clear in
`loop_leds`, or before call `k` of the show. -/
inductive Place where
  | test
  | clear
  | call (k : Fin loopLeds.length)
  deriving DecidableEq, Repr

structure State where
  place : Place
  runLeds : Bool
  deriving DecidableEq, Repr

/-- The main loop goes on, a service routine sets `run_leds`, `isr_gpio` or
`isr_uart` with an `'a'`, or something else happens. -/
inductive Event where
  | main
  | isr
  | other
  deriving DecidableEq, Repr

/-- The main loop goes on. -/
def State.next (s : State) : State :=
  match s.place with
  | .test => { s with place := if s.runLeds then .clear else .test }
  | .clear => ⟨.call ⟨0, by decide⟩, false⟩
  | .call k => { s with place := if h : k + 1 < loopLeds.length then .call ⟨k + 1, h⟩ else .test }

def State.step (s : State) : Event → State
  | .main => s.next
  | .isr => { s with runLeds := true }
  | .other => s

variable (e : Nat → Event)

/-- The state before event `n`. -/
def stateAt : Nat → State
  | 0 => ⟨.test, false⟩
  | n + 1 => (stateAt n).step (e n)

/-- The call of event `n` to the GPIO library. -/
def callAt (n : Nat) : Option Call :=
  match e n, (stateAt e n).place with
  | .main, .call k => some loopLeds[k]
  | _, _ => none

/-- The calls of the events `i` to `i + n`. -/
def calls (i : Nat) : Nat → List Call
  | 0 => []
  | n + 1 => (callAt e i).toList ++ calls (i + 1) n

/-- How often the main loop goes on in them. -/
def mainSteps (i : Nat) : Nat → Nat
  | 0 => 0
  | n + 1 => (if e i = .main then 1 else 0) + mainSteps (i + 1) n

/-! ## Requests -/

/-- How often the main loop goes on before the next clear, with a request
pending. -/
def Place.toClear : Place → Nat
  | .test => 1
  | .clear => 0
  | .call k => loopLeds.length - k + 1

variable {e}

theorem stateAt_succ (n : Nat) : stateAt e (n + 1) = (stateAt e n).step (e n) := rfl

theorem mainSteps_of_main {i : Nat} (h : e i = .main) (n : Nat) :
    mainSteps e i (n + 1) = mainSteps e (i + 1) n + 1 := by
  rw [mainSteps, if_pos h, Nat.add_comm]

theorem mainSteps_of_ne_main {i : Nat} (h : e i ≠ .main) (n : Nat) :
    mainSteps e i (n + 1) = mainSteps e (i + 1) n := by
  rw [mainSteps, if_neg h, Nat.zero_add]

/-- Nothing but the main loop moves the main loop, or takes a request back. -/
theorem stateAt_of_ne_main {i : Nat} (h : e i ≠ .main) :
    (stateAt e (i + 1)).place = (stateAt e i).place ∧
      ((stateAt e i).runLeds = true → (stateAt e (i + 1)).runLeds = true) := by
  rw [stateAt_succ]
  cases he : e i with
  | main => exact absurd he h
  | isr => exact ⟨rfl, fun _ => rfl⟩
  | other => exact ⟨rfl, id⟩

/-- With a request pending, the main loop gets nearer to the clear. -/
theorem next_toClear {s : State} (hpending : s.runLeds = true) (hplace : s.place ≠ .clear) :
    s.next.runLeds = true ∧ s.next.place.toClear + 1 ≤ s.place.toClear := by
  obtain ⟨place, runLeds⟩ := s
  obtain rfl : runLeds = true := hpending
  cases place with
  | clear => exact absurd rfl hplace
  | test => exact ⟨rfl, Nat.le_refl _⟩
  | call k =>
      refine ⟨rfl, ?_⟩
      have hk := k.isLt
      show (if h : k + 1 < loopLeds.length then Place.call ⟨k + 1, h⟩ else .test).toClear + 1
        ≤ loopLeds.length - k + 1
      split
      · show loopLeds.length - (k + 1) + 1 + 1 ≤ _
        omega
      · show 1 + 1 ≤ _
        omega

/-- **A pending request gets to a clear**, within `toClear` steps of the
main loop before it. -/
theorem exists_clear {i n r : Nat} (hpending : (stateAt e i).runLeds = true)
    (hn : (stateAt e i).place.toClear + 1 + r ≤ mainSteps e i n) :
    ∃ a b, n = a + 1 + b ∧ e (i + a) = .main ∧ (stateAt e (i + a)).place = .clear ∧
      r ≤ mainSteps e (i + a + 1) b := by
  induction n generalizing i with
  | zero =>
      rw [mainSteps] at hn
      omega
  | succ n ih =>
      -- the clear, if it is not the first of the events
      have hlater : (stateAt e (i + 1)).runLeds = true →
          (stateAt e (i + 1)).place.toClear + 1 + r ≤ mainSteps e (i + 1) n →
          ∃ a b, n + 1 = a + 1 + b ∧ e (i + a) = .main ∧ (stateAt e (i + a)).place = .clear ∧
            r ≤ mainSteps e (i + a + 1) b := by
        intro hp hs
        obtain ⟨a, b, hab, he, hclear, hr⟩ := ih hp hs
        have hshift : i + 1 + a = i + (a + 1) := by omega
        rw [hshift] at he hclear hr
        exact ⟨a + 1, b, by omega, he, hclear, hr⟩
      by_cases he : e i = .main
      · have hnext : stateAt e (i + 1) = (stateAt e i).next := by
          rw [stateAt_succ, he]
          rfl
        rw [mainSteps_of_main he] at hn
        by_cases hplace : (stateAt e i).place = .clear
        · exact ⟨0, n, by omega, he, hplace, by rw [Nat.add_zero]; omega⟩
        · obtain ⟨hp, hless⟩ := next_toClear hpending hplace
          refine hlater ?_ ?_
          · rw [hnext]
            exact hp
          · rw [hnext]
            omega
      · obtain ⟨hplace, hkeep⟩ := stateAt_of_ne_main he
        rw [mainSteps_of_ne_main he, ← hplace] at hn
        exact hlater (hkeep hpending) hn

theorem callAt_of_ne_main {i : Nat} (h : e i ≠ .main) : callAt e i = none := by
  rw [callAt]
  cases he : e i with
  | main => exact absurd he h
  | isr => rfl
  | other => rfl

theorem callAt_of_main {i : Nat} {k : Fin loopLeds.length} (h : e i = .main)
    (hplace : (stateAt e i).place = .call k) : callAt e i = some loopLeds[k] := by
  rw [callAt, h, hplace]

/-- **A show goes on to its end.** -/
theorem exists_show {i n : Nat} {k : Fin loopLeds.length} (hplace : (stateAt e i).place = .call k)
    (hn : loopLeds.length ≤ k + mainSteps e i n) :
    ∃ a, a ≤ n ∧ (stateAt e (i + a)).place = .test ∧ calls e i a = loopLeds.drop k := by
  have hk := k.isLt
  induction n generalizing i k with
  | zero =>
      rw [mainSteps] at hn
      omega
  | succ n ih =>
      by_cases he : e i = .main
      · have hnext : (stateAt e (i + 1)).place
            = if h : k + 1 < loopLeds.length then .call ⟨k + 1, h⟩ else .test := by
          rw [stateAt_succ, he]
          show (State.next _).place = _
          rw [State.next, hplace]
        have hdrop : loopLeds.drop k = loopLeds[k] :: loopLeds.drop (k + 1) :=
          List.drop_eq_getElem_cons hk
        rw [mainSteps_of_main he] at hn
        by_cases hlast : k + 1 < loopLeds.length
        · rw [dif_pos hlast] at hnext
          obtain ⟨a, ha, htest, hcalls⟩ := ih hnext (by show _ ≤ k.val + 1 + _; omega) hlast
          refine ⟨a + 1, by omega, ?_, ?_⟩
          · rw [Nat.add_comm a 1, ← Nat.add_assoc]
            exact htest
          · rw [calls, callAt_of_main he hplace, hcalls, hdrop]
            rfl
        · rw [dif_neg hlast] at hnext
          refine ⟨1, by omega, hnext, ?_⟩
          rw [calls, callAt_of_main he hplace, hdrop, List.drop_eq_nil_of_le (by omega)]
          rfl
      · have hnext : (stateAt e (i + 1)).place = .call k := (stateAt_of_ne_main he).1.trans hplace
        rw [mainSteps_of_ne_main he] at hn
        obtain ⟨a, ha, htest, hcalls⟩ := ih hnext hn hk
        refine ⟨a + 1, by omega, ?_, ?_⟩
        · rw [Nat.add_comm a 1, ← Nat.add_assoc]
          exact htest
        · rw [calls, callAt_of_ne_main he, hcalls]
          rfl

theorem toClear_le (p : Place) : p.toClear ≤ 25 := by
  have hlen := length_loopLeds
  cases p with
  | test => exact Nat.le_of_ble_eq_true rfl
  | clear => exact Nat.zero_le _
  | call k =>
      show loopLeds.length - k + 1 ≤ 25
      omega

/-- A show that begins after event `i` and ends before event `i + n`: the
clear, and then the calls. -/
def ShownIn (e : Nat → Event) (i n : Nat) : Prop :=
  ∃ a b, a + 1 + b ≤ n ∧ e (i + a) = .main ∧ (stateAt e (i + a)).place = .clear ∧
    calls e (i + a + 1) b = loopLeds ∧ (stateAt e (i + a + 1 + b)).place = .test

/-- A request that is pending leads to a show. -/
theorem shownIn_of_pending {i n : Nat} (hpending : (stateAt e i).runLeds = true)
    (hn : 50 ≤ mainSteps e i n) : ShownIn e i n := by
  have hlen := length_loopLeds
  have hnear := toClear_le (stateAt e i).place
  have hlong : (stateAt e i).place.toClear + 1 + loopLeds.length ≤ mainSteps e i n := by
    omega
  obtain ⟨a, b, rfl, hmain, hclear, hrest⟩ := exists_clear hpending hlong
  have hstart : (stateAt e (i + a + 1)).place = .call ⟨0, by decide⟩ := by
    rw [stateAt_succ, hmain]
    show (State.next _).place = _
    rw [State.next, hclear]
  obtain ⟨c, hc, htest, hcalls⟩ := exists_show hstart (Nat.le_trans hrest (Nat.le_add_left _ 0))
  exact ⟨a, c, by omega, hmain, hclear, hcalls, htest⟩

/-- **No request is lost.** Once the main loop has gone on 50 times after
it, it has cleared `run_leds` after it and then made all the calls of a
show. -/
theorem request_answered {i n : Nat} (hisr : e i = .isr) (hn : 50 ≤ mainSteps e (i + 1) n) :
    ShownIn e (i + 1) n := by
  have hpending : (stateAt e (i + 1)).runLeds = true := by
    rw [stateAt_succ, hisr]
    rfl
  exact shownIn_of_pending hpending hn

/-- Requests before the test, between the test and the clear, and during
the show. -/
def threeRequests (n : Nat) : Event := if n = 1 ∨ n = 3 ∨ n = 10 then .isr else .main

theorem request_answered_threeRequests : ShownIn threeRequests (10 + 1) 50 :=
  request_answered (by decide) (by decide)

end RiscvSoc.RunLeds
