import RiscvSoc.Sync.Cycles
import RiscvSoc.Sync.Latest
import Mathlib.Data.List.Basic
import Mathlib.Tactic.Tauto

/-!
# Testbench — JtagRbb

The remote-bitbang server of the simulator, `jtag_rbb`, in the main loop
of the testbench: poll the socket for one command, then tick the core.

A command sets some of the pins, which stay until another command sets
them; a poll that finds nothing leaves everything as it is, also the
command byte of the last one. The next tick is always between two
commands. So each command has a tick of its own, in the order of the
stream, and a reply is sampled behind the ticks of all commands before
it.
-/

namespace RiscvSoc.JtagRbb

open Sync

/-! ## The server -/

/-- The pins that the server drives. -/
structure Pins where
  tck : BitVec 8
  tms : BitVec 8
  tdi : BitVec 8
  trst : BitVec 8
  srst : BitVec 8
  trstn : BitVec 8
  deriving DecidableEq, Repr

/-- The server, its socket and the core: the last command byte, how many
bytes were read, the pins, the pins at each tick so far, and the bytes
sent. -/
structure State where
  cmdBb : Char
  quit : Bool
  received : Nat
  pins : Pins
  ticks : List Pins
  sent : List Char

def Pins.reset (p : Pins) (trst srst : BitVec 8) : Pins :=
  { p with trst := trst, srst := srst, trstn := if trst = 1 then 0 else 1 }

def Pins.setPins (p : Pins) (tck tms tdi : BitVec 8) : Pins :=
  { p with tck := tck, tms := tms, tdi := tdi }

/-- What a command does to the pins. -/
def Pins.switch (p : Pins) (cmdBb : Char) : Pins :=
  match cmdBb with
  | 'r' => p.reset 0 0
  | 's' => p.reset 0 1
  | 't' => p.reset 1 0
  | 'u' => p.reset 1 1
  | '0' => p.setPins 0 0 0
  | '1' => p.setPins 0 0 1
  | '2' => p.setPins 0 1 0
  | '3' => p.setPins 0 1 1
  | '4' => p.setPins 1 0 0
  | '5' => p.setPins 1 0 1
  | '6' => p.setPins 1 1 0
  | '7' => p.setPins 1 1 1
  | _ => p

section Server

/- The core's output pin, by the pins at the ticks so far. -/
variable (tdo : List Pins → BitVec 8)

/-- The byte a command sends back. -/
def tosend (s : State) (cmdBb : Char) : List Char :=
  if cmdBb = 'R' then [if tdo s.ticks ≠ 0 then '1' else '0'] else []

/-- `read_cmd(false)`, with what `read` gives; `none` is the exit of the
process. -/
def readCmd (byte : Option Char) (s : State) : Option State :=
  match byte with
  | none => some s
  | some c =>
    let s' : State :=
      { cmdBb := c
        quit := if c = 'Q' then true else s.quit
        received := s.received + 1
        pins := s.pins.switch c
        ticks := s.ticks
        sent := s.sent ++ tosend tdo s c }
    if s'.quit then none else some s'

/-- `tick`, as the JTAG port sees it. -/
def tick (s : State) : State := { s with ticks := s.ticks ++ [s.pins] }

/- The bytes from the debugger, and the polls that find one. -/
variable (stream : Nat → Char) (arrives : Nat → Bool)

/-- What poll `n` reads. -/
def poll (n : Nat) (s : State) : Option Char :=
  if arrives n then some (stream s.received) else none

/-- The main loop, `n` times. -/
def mainLoop (s : State) : Nat → Option State
  | 0 => some s
  | n + 1 => (mainLoop s n).bind fun s => (readCmd tdo (poll stream arrives n s) s).map tick

end Server

/-! ## The commands -/

/-- A command `'0'` .. `'7'` names the levels of `tck`, `tms` and `tdi` by
the bits of its digit. -/
def jtagCommand (c : Char) : Option (BitVec 8 × BitVec 8 × BitVec 8) :=
  (['0', '1', '2', '3', '4', '5', '6', '7'].idxOf? c).map fun d =>
    (BitVec.ofNat 8 (d / 4 % 2), BitVec.ofNat 8 (d / 2 % 2), BitVec.ofNat 8 (d % 2))

/-- A command `'r'` .. `'u'` those of `trst`, `srst` and `trstn`, which is
not `trst`. -/
def resetCommand (c : Char) : Option (BitVec 8 × BitVec 8 × BitVec 8) :=
  (['r', 's', 't', 'u'].idxOf? c).map fun d =>
    (BitVec.ofNat 8 (d / 2), BitVec.ofNat 8 (d % 2), BitVec.ofNat 8 (1 - d / 2))

def Pins.jtag (p : Pins) : BitVec 8 × BitVec 8 × BitVec 8 := (p.tck, p.tms, p.tdi)

def Pins.resets (p : Pins) : BitVec 8 × BitVec 8 × BitVec 8 := (p.trst, p.srst, p.trstn)

/-- **A command sets its pins and leaves the others.** -/
theorem switch_eq (p : Pins) (c : Char) :
    (p.switch c).jtag = (jtagCommand c).getD p.jtag ∧
      (p.switch c).resets = (resetCommand c).getD p.resets := by
  unfold Pins.switch
  split
  case h_13 =>
      have hjtag : jtagCommand c = none := by
        rw [jtagCommand, Option.map_eq_none_iff, List.idxOf?_eq_none_iff]
        simp only [List.mem_cons, List.not_mem_nil, or_false, not_or]
        tauto
      have hreset : resetCommand c = none := by
        rw [resetCommand, Option.map_eq_none_iff, List.idxOf?_eq_none_iff]
        simp only [List.mem_cons, List.not_mem_nil, or_false, not_or]
        tauto
      rw [hjtag, hreset]
      exact ⟨rfl, rfl⟩
  all_goals exact ⟨rfl, rfl⟩

section Runs

variable (tdo : List Pins → BitVec 8) (stream : Nat → Char) (arrives : Nat → Bool)

/-- Before the first poll. The command byte and the pins hold anything. -/
def start (cmdBb : Char) (pins : Pins) : State where
  cmdBb := cmdBb
  quit := false
  received := 0
  pins := pins
  ticks := []
  sent := []

/-- The command that poll `n` finds, one behind those found before. -/
def command (n : Nat) : Option Char :=
  if arrives n then some (stream (cycles arrives n).length) else none

/-- The pins that the commands `cmd` set: at tick `k` they are as the last
such command up to `k` set them, and before the first one as they were. -/
structure Drives {τ : Type} (get : Pins → τ) (cmd : Char → Option τ) (pins : Pins)
    (ticks : List Pins) : Prop where
  set : ∀ j k x, j ≤ k → k < ticks.length → (command stream arrives j).bind cmd = some x →
    (∀ i, j < i → i ≤ k → (command stream arrives i).bind cmd = none) →
    ticks[k]?.map get = some x
  initially : ∀ k, k < ticks.length →
    (∀ i, i ≤ k → (command stream arrives i).bind cmd = none) →
    ticks[k]?.map get = some (get pins)

/-- What is sent back for a command `'R'` in poll `k`: the output of the
core as it stands after the ticks before. -/
def reply (ticks : List Pins) (k : Nat) : Char := if tdo (ticks.take k) ≠ 0 then '1' else '0'

/-- **No command is lost, merged or reordered** in the first `n` rounds,
which end in state `s`. -/
structure Faithful (pins : Pins) (n : Nat) (s : State) : Prop where
  oneTick : s.ticks.length = n
  /-- The polls with a command find the stream, byte by byte. -/
  inOrder : (cycles arrives n).map (command stream arrives)
    = (List.range s.received).map fun m => some (stream m)
  jtag : Drives stream arrives Pins.jtag jtagCommand pins s.ticks
  resets : Drives stream arrives Pins.resets resetCommand pins s.ticks
  sent : s.sent = (cycles (fun k => command stream arrives k == some 'R') n).map
    (reply tdo s.ticks)

/-! ## One round -/

/-- **What one poll does**, unless it finds the command to quit. -/
theorem readCmd_eq {s : State} (hquit : s.quit = false) {byte : Option Char}
    (hbyte : byte ≠ some 'Q') :
    ∃ s', readCmd tdo byte s = some s' ∧ s'.quit = false ∧
      s'.received = s.received + byte.isSome.toNat ∧
      s'.pins = (byte.map s.pins.switch).getD s.pins ∧ s'.ticks = s.ticks ∧
      s'.sent = s.sent
        ++ if byte = some 'R' then [if tdo s.ticks ≠ 0 then '1' else '0'] else [] := by
  cases byte with
  | none => exact ⟨s, rfl, hquit, rfl, rfl, rfl, (List.append_nil _).symm⟩
  | some c =>
      have hc : c ≠ 'Q' := fun h => hbyte (congrArg some h)
      have hstay : (if c = 'Q' then true else s.quit) = false := by rw [if_neg hc, hquit]
      refine ⟨_, if_neg (by rw [hstay]; exact Bool.false_ne_true), hstay, rfl, rfl, rfl, ?_⟩
      show s.sent ++ tosend tdo s c = _
      rw [tosend]
      by_cases hr : c = 'R'
      · rw [if_pos hr, if_pos (congrArg some hr)]
      · rw [if_neg hr, if_neg fun h => hr (Option.some.inj h)]

/-- The pins and the ticks show the latest of the commands `cmd`. -/
structure Tracks {τ : Type} (get : Pins → τ) (cmd : Char → Option τ) (pins : Pins) (n : Nat)
    (s : State) : Prop where
  now : get s.pins = latest (fun k => (command stream arrives k).bind cmd) (get pins) n
  past : ∀ k, k < n → s.ticks[k]?.map get
    = some (latest (fun k => (command stream arrives k).bind cmd) (get pins) (k + 1))

section Round

variable {tdo stream arrives}

variable {τ : Type} {get : Pins → τ} {cmd : Char → Option τ} {pins : Pins} {n : Nat}
  {s s' : State}

/-- A round with command `command n` keeps them up to date. -/
theorem Tracks.tick (h : Tracks stream arrives get cmd pins n s)
    (hget : ∀ p c, get (Pins.switch p c) = (cmd c).getD (get p)) (hlen : s.ticks.length = n)
    (hpins : s'.pins = ((command stream arrives n).map s.pins.switch).getD s.pins)
    (hticks : s'.ticks = s.ticks) : Tracks stream arrives get cmd pins (n + 1) (tick s') := by
  have hnow : get s'.pins
      = latest (fun k => (command stream arrives k).bind cmd) (get pins) (n + 1) := by
    rw [latest_succ, ← h.now, hpins]
    cases command stream arrives n with
    | none => rfl
    | some c => exact hget s.pins c
  refine ⟨hnow, fun k hk => ?_⟩
  show (s'.ticks ++ [s'.pins])[k]?.map get = _
  rw [hticks]
  rcases Nat.lt_succ_iff_lt_or_eq.mp hk with hlt | rfl
  · rw [List.getElem?_append_left (by omega)]
    exact h.past k hlt
  · rw [List.getElem?_append_right (by omega), hlen, Nat.sub_self]
    exact congrArg some hnow

/-- What is tracked is driven. -/
theorem Tracks.drives (h : Tracks stream arrives get cmd pins n s) (hlen : s.ticks.length = n) :
    Drives stream arrives get cmd pins s.ticks where
  set j k x hjk hk hx hno := by
    rw [h.past k (hlen ▸ hk)]
    exact congrArg some (latest_of_last (Nat.lt_succ_of_le hjk) hx
      fun i hj hi => hno i hj (Nat.le_of_lt_succ hi))
  initially k hk hno := by
    rw [h.past k (hlen ▸ hk)]
    exact congrArg some (latest_of_none fun i hi => hno i (Nat.le_of_lt_succ hi))

end Round

/-- A later tick does not show in a reply. -/
theorem reply_append {ticks : List Pins} {k : Nat} (hk : k ≤ ticks.length) (p : Pins) :
    reply tdo (ticks ++ [p]) k = reply tdo ticks k := by
  rw [reply, List.take_append_of_le_length hk, ← reply]

/-! ## The main loop -/

/-- The invariant of the main loop. -/
structure Served (pins : Pins) (n : Nat) (s : State) : Prop where
  quit : s.quit = false
  received : s.received = (cycles arrives n).length
  oneTick : s.ticks.length = n
  jtag : Tracks stream arrives Pins.jtag jtagCommand pins n s
  resets : Tracks stream arrives Pins.resets resetCommand pins n s
  sent : s.sent = (cycles (fun k => command stream arrives k == some 'R') n).map
    (reply tdo s.ticks)

variable {tdo stream arrives}

theorem served_start (cmdBb : Char) (pins : Pins) :
    Served tdo stream arrives pins 0 (start cmdBb pins) where
  quit := rfl
  received := rfl
  oneTick := rfl
  jtag := ⟨rfl, fun _ hk => absurd hk (Nat.not_lt_zero _)⟩
  resets := ⟨rfl, fun _ hk => absurd hk (Nat.not_lt_zero _)⟩
  sent := rfl

theorem command_ne_quit (hq : ∀ m, stream m ≠ 'Q') (n : Nat) :
    command stream arrives n ≠ some 'Q' := by
  unfold command
  split
  · exact fun hsome => hq _ (Option.some.inj hsome)
  · exact fun hnone => by cases hnone

/-- One more tick keeps the replies and may call for one more. -/
theorem map_reply_append {ticks : List Pins} {n : Nat} (hlen : ticks.length = n) (p : Pins) :
    (cycles (fun k => command stream arrives k == some 'R') (n + 1)).map
        (reply tdo (ticks ++ [p]))
      = (cycles (fun k => command stream arrives k == some 'R') n).map (reply tdo ticks) ++
        if command stream arrives n = some 'R' then [if tdo ticks ≠ 0 then '1' else '0']
        else [] := by
  have hbefore : ∀ k ∈ cycles (fun k => command stream arrives k == some 'R') n,
      reply tdo (ticks ++ [p]) k = reply tdo ticks k := by
    intro k hk
    have hlt := (mem_cycles.mp hk).1
    exact reply_append tdo (by omega) p
  have hlast : reply tdo (ticks ++ [p]) n = if tdo ticks ≠ 0 then '1' else '0' := by
    rw [reply, List.take_left' hlen]
  rw [cycles_succ, List.map_append, List.map_congr_left hbefore]
  congr 1
  by_cases hr : command stream arrives n = some 'R'
  · rw [if_pos hr, if_pos (beq_iff_eq.mpr hr), List.map_singleton, hlast]
  · rw [if_neg hr, if_neg fun hb => hr (beq_iff_eq.mp hb), List.map_nil]

/-- **One round of the main loop.** -/
theorem Served.round {pins : Pins} {n : Nat} {s : State}
    (h : Served tdo stream arrives pins n s) (hq : ∀ m, stream m ≠ 'Q') :
    ∃ s', (readCmd tdo (poll stream arrives n s) s).map tick = some s' ∧
      Served tdo stream arrives pins (n + 1) s' := by
  have hpoll : poll stream arrives n s = command stream arrives n := by
    rw [poll, command, h.received]
  obtain ⟨t, hread, hquit, hrec, hpins, hticks, hsent⟩ :=
    readCmd_eq tdo h.quit (command_ne_quit hq n)
  refine ⟨tick t, ?_, hquit, ?_, ?_, ?_, ?_, ?_⟩
  · rw [hpoll, hread]
    rfl
  · show t.received = _
    rw [hrec, h.received, length_cycles_succ]
    congr 1
    unfold command
    cases arrives n <;> rfl
  · show (t.ticks ++ [t.pins]).length = n + 1
    rw [hticks, List.length_append, h.oneTick]
    rfl
  · exact h.jtag.tick (fun p c => (switch_eq p c).1) h.oneTick hpins hticks
  · exact h.resets.tick (fun p c => (switch_eq p c).2) h.oneTick hpins hticks
  · show t.sent = (cycles _ (n + 1)).map (reply tdo (t.ticks ++ [t.pins]))
    rw [hsent, hticks, map_reply_append h.oneTick, h.sent]

theorem mainLoop_served (hq : ∀ m, stream m ≠ 'Q') (cmdBb : Char) (pins : Pins) (n : Nat) :
    ∃ s, mainLoop tdo stream arrives (start cmdBb pins) n = some s ∧
      Served tdo stream arrives pins n s := by
  induction n with
  | zero => exact ⟨_, rfl, served_start cmdBb pins⟩
  | succ n ih =>
      obtain ⟨s, hrun, hs⟩ := ih
      obtain ⟨s', hround, hs'⟩ := hs.round hq
      refine ⟨s', ?_, hs'⟩
      rw [mainLoop, hrun, Option.bind_some, hround]

/-- The polls find the stream in order. -/
theorem map_command_cycles (n : Nat) :
    (cycles arrives n).map (command stream arrives)
      = (List.range (cycles arrives n).length).map fun m => some (stream m) := by
  induction n with
  | zero => rfl
  | succ n ih =>
      cases ha : arrives n with
      | false => rw [cycles_succ_of_low ha, ih]
      | true =>
          rw [cycles_succ_of_high ha, List.map_append, ih, List.length_append,
            List.length_singleton, List.range_succ, List.map_append, List.map_singleton,
            List.map_singleton, command, if_pos ha]

/-- **The server is faithful to the stream of commands**, however they
arrive. -/
theorem mainLoop_faithful (hq : ∀ m, stream m ≠ 'Q') (cmdBb : Char) (pins : Pins) (n : Nat) :
    ∃ s, mainLoop tdo stream arrives (start cmdBb pins) n = some s ∧
      Faithful tdo stream arrives pins n s := by
  have hserved : ∃ s, mainLoop tdo stream arrives (start cmdBb pins) n = some s ∧
      Served tdo stream arrives pins n s := mainLoop_served hq cmdBb pins n
  obtain ⟨s, hrun, hs⟩ := hserved
  refine ⟨s, hrun, hs.oneTick, ?_, hs.jtag.drives hs.oneTick, hs.resets.drives hs.oneTick,
    hs.sent⟩
  rw [map_command_cycles, hs.received]

end Runs

/-- A rising and a falling clock edge, and then reads. -/
def clockThenRead (m : Nat) : Char := if m = 0 then '4' else if m = 1 then '0' else 'R'

theorem clockThenRead_ne (m : Nat) : clockThenRead m ≠ 'Q' := by
  unfold clockThenRead
  split
  · decide
  · split
    · decide
    · decide

/-- The pins at power-up. -/
def pinsLow : Pins := ⟨0, 0, 0, 0, 0, 1⟩

/-- A command in every other poll, to a core that counts its ticks. -/
theorem mainLoop_faithful_clockThenRead :
    ∃ s, mainLoop (fun ticks => BitVec.ofNat 8 ticks.length) clockThenRead (fun n => n % 2 == 0)
        (start '?' pinsLow) 6 = some s ∧
      Faithful (fun ticks => BitVec.ofNat 8 ticks.length) clockThenRead (fun n => n % 2 == 0)
        pinsLow 6 s :=
  mainLoop_faithful clockThenRead_ne '?' pinsLow 6

end RiscvSoc.JtagRbb
