import RiscvSoc.Testbench.JtagRbb

/-!
# Testbench — JtagSession

What the core's JTAG port makes of a session with the debugger. The port
goes by the levels of the pins: where they are as they were, nothing
happens to it, for however many ticks. Then the ticks between the commands
do not count, and a session is a fold over the bytes alone.
-/

namespace RiscvSoc.JtagRbb

open Sync

/-- A JTAG port, by what a change of the pins does to it. -/
structure Port (τ : Type) where
  init : τ
  /-- The pins go from the first levels to the second ones. -/
  step : Pins → Pins → τ → τ
  tdo : τ → BitVec 8
  still : ∀ p t, step p p t = t

namespace Port

variable {τ : Type} (port : Port τ) (pins : Pins)

/-- The pins and the port after some ticks, with the pins at `pins`
before. -/
def observe (ticks : List Pins) : Pins × τ :=
  ticks.foldl (fun x q => (q, port.step x.1 q x.2)) (pins, port.init)

theorem observe_append (ticks : List Pins) (q : Pins) :
    port.observe pins (ticks ++ [q]) = (q, port.step (port.observe pins ticks).1 q
      (port.observe pins ticks).2) := by
  rw [observe, List.foldl_append]
  rfl

/-- The output pin, by the pins at the ticks so far. -/
def output (ticks : List Pins) : BitVec 8 := port.tdo (port.observe pins ticks).2

end Port

/-- The pins, the port and what was sent. -/
structure Session (τ : Type) where
  pins : Pins
  port : τ
  sent : List Char
  deriving DecidableEq

section

variable {τ : Type} (port : Port τ) (pins : Pins)

/-- One byte from the debugger. -/
def Session.next (v : Session τ) (c : Char) : Option (Session τ) :=
  if c = 'Q' then none
  else
    some
      { pins := v.pins.switch c
        port := port.step v.pins (v.pins.switch c) v.port
        sent := v.sent ++ if c = 'R' then [if port.tdo v.port ≠ 0 then '1' else '0'] else [] }

/-- The bytes of a session; `none` is its end. -/
def session (bytes : List Char) : Option (Session τ) :=
  bytes.foldl (fun v c => v.bind fun v => v.next port c) (some ⟨pins, port.init, []⟩)

theorem session_append (bytes : List Char) (c : Char) :
    session port pins (bytes ++ [c])
      = (session port pins bytes).bind fun v => v.next port c := by
  rw [session, List.foldl_append]
  rfl

/-- What a state of the server shows. -/
def State.session (s : State) : Session τ := ⟨s.pins, (port.observe pins s.ticks).2, s.sent⟩

variable (stream : Nat → Char) (arrives : Nat → Bool)

/-- The bytes found by the first `n` polls. -/
def bytes (n : Nat) : List Char := (List.range (cycles arrives n).length).map stream

/-- The server is where the bytes alone lead. -/
structure InSession (n : Nat) (s : State) : Prop where
  quit : s.quit = false
  received : s.received = (cycles arrives n).length
  levels : (port.observe pins s.ticks).1 = s.pins
  session : session port pins (bytes stream arrives n) = some (s.session port pins)

variable {port pins stream arrives}

theorem bytes_succ_of_high {n : Nat} (h : arrives n = true) :
    bytes stream arrives (n + 1)
      = bytes stream arrives n ++ [stream (cycles arrives n).length] := by
  rw [bytes, cycles_succ_of_high h, List.length_append, List.length_singleton, List.range_succ,
    List.map_append]
  rfl

theorem bytes_succ_of_low {n : Nat} (h : arrives n = false) :
    bytes stream arrives (n + 1) = bytes stream arrives n := by
  rw [bytes, cycles_succ_of_low h, bytes]

/-- A tick shows the port the pins as they are. -/
theorem session_tick (s : State) :
    (tick s).session port pins = ⟨s.pins, port.step (port.observe pins s.ticks).1 s.pins
      (port.observe pins s.ticks).2, s.sent⟩ := by
  show Session.mk s.pins (port.observe pins (s.ticks ++ [s.pins])).2 s.sent = _
  rw [port.observe_append]

theorem levels_tick (s : State) : (port.observe pins (tick s).ticks).1 = (tick s).pins := by
  show (port.observe pins (s.ticks ++ [s.pins])).1 = s.pins
  rw [port.observe_append]

/-- A round without a byte is a tick with the pins as they were. -/
theorem InSession.idle {n : Nat} {s : State} (h : InSession port pins stream arrives n s)
    (ha : arrives n = false) : InSession port pins stream arrives (n + 1) (tick s) := by
  refine ⟨h.quit, ?_, levels_tick s, ?_⟩
  · rw [cycles_succ_of_low ha]
    exact h.received
  · rw [bytes_succ_of_low ha, h.session, session_tick, h.levels, port.still]
    rfl

/-- A round with a byte is the next step of the session. -/
theorem InSession.round {n : Nat} {s : State} (h : InSession port pins stream arrives n s)
    (ha : arrives n = true) (hq : stream s.received ≠ 'Q') :
    ∃ t, readCmd (port.output pins) (some (stream s.received)) s = some t ∧
      InSession port pins stream arrives (n + 1) (tick t) := by
  obtain ⟨t, hread, hquit, hrec, hpins, hticks, hsent⟩ :=
    readCmd_eq (port.output pins) h.quit fun hsome => hq (Option.some.inj hsome)
  refine ⟨t, hread, hquit, ?_, levels_tick t, ?_⟩
  · show t.received = _
    rw [hrec, h.received, cycles_succ_of_high ha, List.length_append]
    rfl
  · have hpins' : t.pins = s.pins.switch (stream s.received) := hpins
    have hreply : t.sent = s.sent ++ if stream s.received = 'R' then
        [if port.output pins s.ticks ≠ 0 then '1' else '0'] else [] := by
      rw [hsent]
      by_cases hr : stream s.received = 'R'
      · rw [if_pos hr, if_pos (congrArg some hr)]
      · rw [if_neg hr, if_neg fun hsome => hr (Option.some.inj hsome)]
    rw [bytes_succ_of_high ha, session_append, h.session, Option.bind_some, ← h.received,
      Session.next, if_neg hq, session_tick, hticks, h.levels, hpins', hreply]
    rfl

variable (port pins stream arrives)

end

/-! ## The clock -/

/-- What the commands come to at a test access port: `tms` and `tdi` at the
rising edges of `tck`, since the last falling edge of `trstn`. -/
def clockedPort : Port (List (BitVec 8 × BitVec 8)) where
  init := []
  step p q edges :=
    if p.trstn ≠ 0 ∧ q.trstn = 0 then []
    else if q.trstn ≠ 0 ∧ p.tck = 0 ∧ q.tck ≠ 0 then edges ++ [(q.tms, q.tdi)]
    else edges
  tdo edges := BitVec.ofNat 8 edges.length
  still p edges := by
    rw [if_neg fun h => h.1 h.2, if_neg fun h => h.2.2 h.2.1]

/-- Two clock cycles and a read, whatever the polls in between find. -/
example : session clockedPort pinsLow ['2', '6', '2', '0', '5', 'R']
    = some ⟨⟨1, 0, 1, 0, 0, 1⟩, [(1, 0), (0, 1)], ['1']⟩ := by decide

end RiscvSoc.JtagRbb
