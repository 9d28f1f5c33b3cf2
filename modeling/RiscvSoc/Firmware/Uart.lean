import RiscvSoc.Control.Mmio
import Mathlib.Data.List.Induction

/-!
# Firmware — Uart

The UART driver and the two `_write` functions behind `printf` that use
it. The UART itself may be anything that answers to reads: the driver is
shown by what it writes, and by what it has read right before.
-/

namespace RiscvSoc.Uart

open Control

/-! ## The registers -/

def uartBaseAddr : BitVec 32 := 0x40010000

def uartRegRbr : BitVec 32 := uartBaseAddr + 0x00
def uartRegDll : BitVec 32 := uartBaseAddr + 0x00
def uartRegThr : BitVec 32 := uartBaseAddr + 0x00
def uartRegDlm : BitVec 32 := uartBaseAddr + 0x04
def uartRegIer : BitVec 32 := uartBaseAddr + 0x04
def uartRegFcr : BitVec 32 := uartBaseAddr + 0x08
def uartRegLcr : BitVec 32 := uartBaseAddr + 0x0C
def uartRegLsr : BitVec 32 := uartBaseAddr + 0x14

abbrev Bus := Trace (BitVec 32) (BitVec 32)

/-- `(lsr & 0x20) != 0`: the transmitter takes a byte. -/
def txReady (lsr : BitVec 32) : Bool := lsr &&& 0x20 != 0

/-- `(lsr & 0x1) == 0x1`: a byte has been received. -/
def rxReady (lsr : BitVec 32) : Bool := lsr &&& 0x1 == 0x1

/-- `(lsr & 0x40) != 0`: the transmitter is empty. -/
def txDone (lsr : BitVec 32) : Bool := lsr &&& 0x40 != 0

/-! ## The driver -/

section Driver

variable (uart : Devices (BitVec 32) (BitVec 32))

/-- `uart_set_cfg`. The parity is not used. -/
def uartSetCfg (clkCounter : BitVec 16) (h : Bus) : Bus :=
  let h := writeReg uartRegLcr 0x83 h
  let h := writeReg uartRegDlm ((clkCounter.setWidth 32 >>> 8) &&& 0xFF) h
  let h := writeReg uartRegDll (clkCounter.setWidth 32 &&& 0xFF) h
  let h := writeReg uartRegFcr 0x27 h
  let h := writeReg uartRegLcr 0x03 h
  let ier := uart h uartRegIer
  writeReg uartRegIer ((ier &&& 0xF0) ||| 0x01) (readReg uart uartRegIer h)

/-- `uart_send`, of the bytes at `str`. Each wait has the budget. -/
def uartSend (fuel : Nat) : List (BitVec 8) → Bus → Option Bus
  | [], h => some h
  | c :: str, h => do
      let h ← waitUntil uart uartRegLsr txReady fuel h
      uartSend fuel str (writeReg uartRegThr (c.setWidth 32) h)

def uartSendchar (fuel : Nat) (c : BitVec 8) (h : Bus) : Option Bus := do
  let h ← waitUntil uart uartRegLsr txReady fuel h
  return writeReg uartRegThr (c.setWidth 32) h

/-- The character and the accesses. -/
def uartGetchar (fuel : Nat) (h : Bus) : Option (BitVec 8 × Bus) := do
  let h ← waitUntil uart uartRegLsr rxReady fuel h
  return ((uart h uartRegRbr).setWidth 8, readReg uart uartRegRbr h)

def uartWaitTxDone (fuel : Nat) (h : Bus) : Option Bus :=
  waitUntil uart uartRegLsr txDone fuel h

end Driver

/-! ## `_write` -/

/-- `_write` of a program, by how it sends one byte. -/
def writeWith (send : BitVec 8 → Bus → Option Bus) (cbuf : List (BitVec 8)) (h : Bus) :
    Option Bus :=
  cbuf.foldlM (fun h c => send c h) h

/-- That of `hello_world`, for the board. -/
def helloWrite (uart : Devices (BitVec 32) (BitVec 32)) (fuel : Nat) (cbuf : List (BitVec 8))
    (h : Bus) : Option Bus :=
  writeWith (uartSendchar uart fuel) cbuf h

/-- That of the boot ROM. -/
def bootWrite (uart : Devices (BitVec 32) (BitVec 32)) (fuel : Nat) (cbuf : List (BitVec 8))
    (h : Bus) : Option Bus :=
  writeWith (fun c => uartSend uart fuel [c]) cbuf h

/-- That of `hello_world` for the simulator. -/
def verilatorWrite (cbuf : List (BitVec 8)) (h : Bus) : Bus :=
  cbuf.foldl (fun h c => writeReg 0x1C000000 (c.setWidth 32) h) h

/-! ## Sending -/

/-- **A string on the bus**: its bytes in order, each once and right behind
a read of `LSR` that says that there is room, and nothing else but reads
of `LSR`. -/
structure Sends (str : List (BitVec 8)) (t : Bus) : Prop where
  bytes : writes t = str.map fun c => (uartRegThr, c.setWidth 32)
  guarded : Guarded (fun a x => a = uartRegLsr ∧ txReady x = true) t
  polls : ∀ a x, .read a x ∈ t → a = uartRegLsr

theorem sends_nil : Sends [] [] :=
  ⟨rfl, guarded_reads fun _ he => absurd he List.not_mem_nil,
    fun _ _ hx => absurd hx List.not_mem_nil⟩

theorem Sends.append {str str' : List (BitVec 8)} {t t' : Bus} (h : Sends str t)
    (h' : Sends str' t') : Sends (str ++ str') (t ++ t') := by
  refine ⟨?_, h.guarded.append h'.guarded, fun a x hx => ?_⟩
  · rw [writes_append, h.bytes, h'.bytes, List.map_append]
  · rcases List.mem_append.mp hx with hx | hx
    · exact h.polls a x hx
    · exact h'.polls a x hx

variable {uart : Devices (BitVec 32) (BitVec 32)}

/-- One byte behind a wait for room. -/
theorem sends_singleton {fuel : Nat} {h h' : Bus} (c : BitVec 8)
    (hw : waitUntil uart uartRegLsr txReady fuel h = some h') :
    ∃ t, writeReg uartRegThr (c.setWidth 32) h' = h ++ t ∧ Sends [c] t := by
  obtain ⟨t, x, rfl, hx, hbefore⟩ := waitUntil_spec hw
  have hreads : ∀ e ∈ t, ∃ a y, e = .read a y := fun e he => by
    obtain ⟨y, rfl, _⟩ := hbefore e he
    exact ⟨_, y, rfl⟩
  refine ⟨t ++ [.read uartRegLsr x, .write uartRegThr (c.setWidth 32)], ?_, ?_, ?_, ?_⟩
  · rw [writeReg, List.append_assoc, List.append_assoc]
    rfl
  · rw [writes_append, writes_eq_nil hreads]
    rfl
  · exact (guarded_reads hreads).append (guarded_pair ⟨rfl, hx⟩ _ _)
  · intro a y hy
    rcases List.mem_append.mp hy with hy | hy
    · obtain ⟨z, heq, _⟩ := hbefore _ hy
      cases heq
      rfl
    · rcases List.mem_cons.mp hy with heq | hy
      · cases heq
        rfl
      · cases List.mem_singleton.mp hy

theorem sends_uartSendchar {fuel : Nat} {c : BitVec 8} {h h' : Bus}
    (hs : uartSendchar uart fuel c h = some h') : ∃ t, h' = h ++ t ∧ Sends [c] t := by
  obtain ⟨h₁, hw, heq⟩ := Option.bind_eq_some_iff.mp hs
  obtain ⟨t, ht, hsends⟩ := sends_singleton c hw
  exact ⟨t, (Option.some.inj heq).symm.trans ht, hsends⟩

/-- `uart_send` of a byte and more is `uart_sendchar` and the rest. -/
theorem uartSend_cons (fuel : Nat) (c : BitVec 8) (str : List (BitVec 8)) (h : Bus) :
    uartSend uart fuel (c :: str) h
      = (uartSendchar uart fuel c h).bind fun h => uartSend uart fuel str h := by
  show (waitUntil uart uartRegLsr txReady fuel h).bind _
    = ((waitUntil uart uartRegLsr txReady fuel h).bind _).bind _
  rw [Option.bind_assoc]
  rfl

/-- `uart_send` is `uart_sendchar` for each byte, and so is `_write` of both
programs. -/
theorem writeWith_uartSendchar (fuel : Nat) (str : List (BitVec 8)) (h : Bus) :
    writeWith (uartSendchar uart fuel) str h = uartSend uart fuel str h := by
  induction str generalizing h with
  | nil => rfl
  | cons c str ih =>
      rw [uartSend_cons, ← funext ih]
      rfl

theorem uartSend_singleton (fuel : Nat) (c : BitVec 8) :
    uartSend uart fuel [c] = uartSendchar uart fuel c := by
  funext h
  rw [uartSend_cons]
  exact Option.bind_fun_some _

theorem helloWrite_eq (fuel : Nat) : helloWrite uart fuel = uartSend uart fuel := by
  funext cbuf h
  exact writeWith_uartSendchar fuel cbuf h

theorem bootWrite_eq (fuel : Nat) : bootWrite uart fuel = uartSend uart fuel := by
  funext cbuf h
  rw [bootWrite, funext (uartSend_singleton fuel), writeWith_uartSendchar]

/-- The bytes of a string that has been sent. -/
theorem sends_uartSend {fuel : Nat} {str : List (BitVec 8)} {h h' : Bus}
    (hs : uartSend uart fuel str h = some h') : ∃ t, h' = h ++ t ∧ Sends str t := by
  induction str generalizing h with
  | nil => exact ⟨[], (Option.some.inj hs).symm.trans (List.append_nil h).symm, sends_nil⟩
  | cons c str ih =>
      rw [uartSend_cons] at hs
      obtain ⟨h₁, hchar, hrest⟩ := Option.bind_eq_some_iff.mp hs
      obtain ⟨t, rfl, ht⟩ := sends_uartSendchar hchar
      obtain ⟨u, rfl, hu⟩ := ih hrest
      exact ⟨t ++ u, List.append_assoc h t u, ht.append hu⟩

/-- A string is sent as soon as there is room often enough. -/
theorem uartSend_ends (hr : Responsive uart uartRegLsr txReady) (str : List (BitVec 8)) (h : Bus) :
    ∃ h', Ends (fun fuel => uartSend uart fuel str h) h' := by
  induction str generalizing h with
  | nil => exact ⟨h, 0, fun _ _ => rfl⟩
  | cons c str ih =>
      obtain ⟨h₁, hwait⟩ := waitUntil_ends hr h
      obtain ⟨h₂, hrest⟩ := ih (writeReg uartRegThr (c.setWidth 32) h₁)
      refine ⟨h₂, ?_⟩
      show Ends (fun fuel => (waitUntil uart uartRegLsr txReady fuel h).bind fun h =>
        uartSend uart fuel str (writeReg uartRegThr (c.setWidth 32) h)) h₂
      exact hwait.bind hrest

/-- **Printing** by `write`, of which the budget is the first argument. -/
structure Prints (uart : Devices (BitVec 32) (BitVec 32))
    (write : Nat → List (BitVec 8) → Bus → Option Bus) : Prop where
  /-- Whatever the UART answers, what is written in the end is the buffer,
  each byte into room. -/
  sends : ∀ fuel cbuf h h', write fuel cbuf h = some h' → ∃ t, h' = h ++ t ∧ Sends cbuf t
  /-- It ends with a UART that always gets room again. -/
  ends : Responsive uart uartRegLsr txReady →
    ∀ cbuf h, ∃ h', Ends (fun fuel => write fuel cbuf h) h'

/-- **`printf` reaches the UART**, in both programs. -/
theorem prints (uart : Devices (BitVec 32) (BitVec 32)) :
    Prints uart (uartSend uart) ∧ Prints uart (helloWrite uart) ∧ Prints uart (bootWrite uart) := by
  have hsend : Prints uart (uartSend uart) :=
    ⟨fun _ _ _ _ hs => sends_uartSend hs, fun hr cbuf h => uartSend_ends hr cbuf h⟩
  rw [funext helloWrite_eq, funext bootWrite_eq]
  exact ⟨hsend, hsend, hsend⟩

/-- **`printf` reaches the simulator**: each byte is one word at the dump
peripheral, which takes the low byte of it. -/
theorem verilatorWrite_eq (cbuf : List (BitVec 8)) (h : Bus) :
    verilatorWrite cbuf h = h ++ cbuf.map fun c => .write 0x1C000000 (c.setWidth 32) := by
  induction cbuf generalizing h with
  | nil => exact (List.append_nil h).symm
  | cons c cbuf ih =>
      show verilatorWrite cbuf (writeReg 0x1C000000 (c.setWidth 32) h) = _
      rw [ih, writeReg, List.append_assoc]
      rfl

/-! ## The divisor latch -/

/-- `DLAB`, which puts the divisor latch in the place of `THR`. -/
def dlab (h : Bus) : Bool :=
  h.foldl (fun b e => match e with
    | .write a x => if a = uartRegLcr then x.getLsbD 7 else b
    | .read _ _ => b) false

theorem dlab_append_write (h : Bus) (a x : BitVec 32) :
    dlab (h ++ [.write a x]) = if a = uartRegLcr then x.getLsbD 7 else dlab h := by
  rw [dlab, List.foldl_append]
  rfl

theorem dlab_append_read (h : Bus) (a x : BitVec 32) : dlab (h ++ [.read a x]) = dlab h := by
  rw [dlab, List.foldl_append]
  rfl

/-- No byte of a string goes into the divisor latch. -/
theorem Sends.dlab_append {str : List (BitVec 8)} {t : Bus} (ht : Sends str t) (h : Bus)
    {pre : Bus} (hpre : pre <+: t) : dlab (h ++ pre) = dlab h := by
  induction pre using List.reverseRecOn with
  | nil => rw [List.append_nil]
  | append_singleton pre e ih =>
      rw [← List.append_assoc]
      have hkeep := ih ((List.prefix_append pre [e]).trans hpre)
      cases e with
      | read a x => rw [dlab_append_read, hkeep]
      | write a x =>
          have hmem : Access.write a x ∈ t :=
            hpre.subset (List.mem_append_right pre List.mem_cons_self)
          have hwritten : (a, x) ∈ writes t := List.mem_filterMap.mpr ⟨_, hmem, rfl⟩
          rw [ht.bytes] at hwritten
          obtain ⟨c, _, hc⟩ := List.mem_map.mp hwritten
          obtain ⟨rfl, _⟩ := Prod.mk.inj hc
          rw [dlab_append_write, if_neg (by decide), hkeep]

/-- The low byte of a word. -/
theorem toNat_and_ff (x : BitVec 32) : (x &&& 0xFF).toNat = x.toNat % 256 :=
  (BitVec.toNat_and x 0xFF).trans (Nat.and_two_pow_sub_one_eq_mod x.toNat 8)

/-- The accesses of `uart_set_cfg`. -/
theorem uartSetCfg_eq (uart : Devices (BitVec 32) (BitVec 32)) (clkCounter : BitVec 16)
    (h : Bus) : ∃ ier, uartSetCfg uart clkCounter h = h ++ [.write uartRegLcr 0x83]
      ++ [.write uartRegDlm ((clkCounter.setWidth 32 >>> 8) &&& 0xFF),
        .write uartRegDll (clkCounter.setWidth 32 &&& 0xFF)]
      ++ [.write uartRegFcr 0x27, .write uartRegLcr 0x03, .read uartRegIer ier,
        .write uartRegIer ((ier &&& 0xF0) ||| 0x01)] := by
  refine ⟨uart (h ++ [.write uartRegLcr 0x83,
    .write uartRegDlm ((clkCounter.setWidth 32 >>> 8) &&& 0xFF),
    .write uartRegDll (clkCounter.setWidth 32 &&& 0xFF), .write uartRegFcr 0x27,
    .write uartRegLcr 0x03]) uartRegIer, ?_⟩
  simp only [uartSetCfg, writeReg, readReg, List.append_assoc, List.cons_append, List.nil_append]

/-- **`uart_set_cfg` sets the divisor**, both halves of it with the latch
in place, and leaves `THR` and `IER` in place. -/
theorem uartSetCfg_spec (uart : Devices (BitVec 32) (BitVec 32)) (clkCounter : BitVec 16)
    (h : Bus) : ∃ t u dlm dll, uartSetCfg uart clkCounter h
        = h ++ t ++ [.write uartRegDlm dlm, .write uartRegDll dll] ++ u ∧
      dlab (h ++ t) = true ∧ dlab (uartSetCfg uart clkCounter h) = false ∧
      dlm.toNat * 256 + dll.toNat = clkCounter.toNat := by
  obtain ⟨ier, heq⟩ := uartSetCfg_eq uart clkCounter h
  refine ⟨_, _, _, _, heq, ?_, ?_, ?_⟩
  · rw [dlab_append_write, if_pos rfl]
    rfl
  · have hier : uartRegIer ≠ uartRegLcr := by decide
    simp only [uartSetCfg, writeReg, readReg, dlab_append_write, dlab_append_read, if_neg hier]
    rfl
  · have hlt := clkCounter.isLt
    have hclk : (clkCounter.setWidth 32).toNat = clkCounter.toNat := by
      rw [BitVec.toNat_setWidth]
      omega
    rw [toNat_and_ff, toNat_and_ff, BitVec.toNat_ushiftRight, hclk, Nat.shiftRight_eq_div_pow]
    omega

/-! ## Receiving -/

/-- **A character is read once**, right behind a read of `LSR` that says
that it is there. -/
theorem uartGetchar_spec {fuel : Nat} {h h' : Bus} {c : BitVec 8}
    (hs : uartGetchar uart fuel h = some (c, h')) :
    ∃ t x y, h' = h ++ t ++ [.read uartRegLsr x, .read uartRegRbr y] ∧ rxReady x = true ∧
      c = y.setWidth 8 ∧ ∀ e ∈ t, ∃ z, e = .read uartRegLsr z ∧ rxReady z = false := by
  obtain ⟨h₁, hw, heq⟩ := Option.bind_eq_some_iff.mp hs
  obtain ⟨t, x, rfl, hx, hbefore⟩ := waitUntil_spec hw
  obtain ⟨rfl, rfl⟩ := Prod.mk.inj (Option.some.inj heq)
  refine ⟨t, x, _, ?_, hx, rfl, hbefore⟩
  rw [readReg, List.append_assoc (h ++ t)]
  rfl

/-- **The end of the transmission is waited for**: `uart_wait_tx_done`
writes nothing, and ends behind the first read of `LSR` that says that the
transmitter is empty. -/
theorem uartWaitTxDone_spec {fuel : Nat} {h h' : Bus} (hs : uartWaitTxDone uart fuel h = some h') :
    ∃ t x, h' = h ++ t ++ [.read uartRegLsr x] ∧ txDone x = true ∧
      ∀ e ∈ t, ∃ z, e = .read uartRegLsr z ∧ txDone z = false :=
  waitUntil_spec hs

end RiscvSoc.Uart
