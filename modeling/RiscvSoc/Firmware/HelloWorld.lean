import RiscvSoc.Firmware.Interrupts
import RiscvSoc.Firmware.RunLeds

/-!
# Firmware — HelloWorld

The whole of `hello_world` on its one core. A turn of the core goes to the
interrupt in service, else to one that waits, and only else to the main
loop. So the main loop does not go on before an event has been served, and
what is left to it is what the interrupts do not take: a switch leads to a
show of the LEDs, if the core gets the turns for both.
-/

namespace RiscvSoc.HelloWorld

open RiscvSoc.Vector Control Interrupts

/-! ## The turns of the core -/

section

variable {σ : Type} (unit : EventUnit σ) (u0 : σ) (e : Nat → Event) (uartRx : Nat → BitVec 8)

variable {unit u0 e uartRx} {v : Bool}

end

end RiscvSoc.HelloWorld
