import RiscvSoc.Bridge.StoreBytes
import RiscvSoc.Bridge.BackToBack
import RiscvSoc.Bridge.Transparent
import RiscvSoc.Bridge.BackToBackBytes
import RiscvSoc.Bridge.StalledReads
import RiscvSoc.Bridge.AhbRi5cyRom
import RiscvSoc.Apb.RstCtrlUnit
import RiscvSoc.Sync.Divider
import RiscvSoc.Apb.Timer
import RiscvSoc.Apb.Prescaler
import RiscvSoc.Apb.Periodic
import RiscvSoc.Sync.Latest
import RiscvSoc.Apb.ApbTimer
import RiscvSoc.Mem.Overlay
import RiscvSoc.Mem.Ring
import RiscvSoc.Mem.Packed
import RiscvSoc.Testbench.LoadElf
import RiscvSoc.Testbench.SegmentLoop
import RiscvSoc.Testbench.SegmentBytes
import RiscvSoc.Testbench.Placement
import RiscvSoc.Text.Digits
import RiscvSoc.Text.Lines
import RiscvSoc.BootRom.GenRom
import RiscvSoc.BootRom.CaseDecode
import RiscvSoc.BootRom.MemArray
import RiscvSoc.Testbench.DumpPeripheral
import RiscvSoc.Mem.Region
import RiscvSoc.Soc.AddrMap
import RiscvSoc.Soc.IoGenericFifo
import RiscvSoc.Control.While
import RiscvSoc.Mem.Bytes
import RiscvSoc.Firmware.Startup
import RiscvSoc.Riscv.Machine
import RiscvSoc.Firmware.Vector
import RiscvSoc.Firmware.Gpio
import RiscvSoc.Testbench.JtagRbb
import RiscvSoc.Control.Disturb
import RiscvSoc.Firmware.Traps
import RiscvSoc.Sync.Delivery
import RiscvSoc.Soc.FifoDelivery
import RiscvSoc.Sync.Cascade
import RiscvSoc.Apb.PrescaledMatch
import RiscvSoc.Testbench.JtagSession
import RiscvSoc.Control.Mmio
import RiscvSoc.Firmware.Uart
import RiscvSoc.Firmware.TimerApi
import RiscvSoc.Firmware.GpioApi
import RiscvSoc.Firmware.Leds
import RiscvSoc.Firmware.RunLeds
import RiscvSoc.Testbench.LoadOutcome
import RiscvSoc.BootRom.HexImage
import RiscvSoc.BootRom.RomReads
import RiscvSoc.Control.Priority
import RiscvSoc.Firmware.Interrupts
import RiscvSoc.Sync.Crossbar
import RiscvSoc.Soc.Fabric
import RiscvSoc.Soc.BootFetch
import RiscvSoc.Firmware.Ticks
import RiscvSoc.Firmware.HelloWorld
