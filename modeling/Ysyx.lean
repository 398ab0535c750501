import Ysyx.Rv32.Theorems.Straight
import Ysyx.Minirv.Lut
import Ysyx.Minirv.Scratch
import Ysyx.Minirv.Theorems.Sub
import Ysyx.Bytes.Layout
import Ysyx.Minirv.Layout
import Ysyx.Minirv.Theorems.Branch
import Ysyx.Minirv.Theorems.Join
import Ysyx.Minirv.Theorems.Shift
import Ysyx.Bytes.History
import Ysyx.CMinirv.Access
import Ysyx.CMinirv.Main
import Ysyx.CMinirv.Screen
import Ysyx.CMinirv.Theorems.Bounds
import Ysyx.CMinirv.Theorems.Coherence
import Ysyx.CMinirv.Theorems.Decode
import Ysyx.CMinirv.Theorems.Refines
import Ysyx.Hardware.Clocked
import Ysyx.SIsa.Basic
import Ysyx.SIsa.Theorems.Refines
import Ysyx.Keyboard.Basic
import Ysyx.Keyboard.Core
import Ysyx.Keyboard.Theorems.Refines
import Ysyx.Keyboard.Theorems.Strokes
import Ysyx.Nemu.Memory
import Ysyx.Nemu.Theorems.Paddr
import Ysyx.Vga.Basic
import Ysyx.Vga.Theorems.Frame
import Ysyx.Hardware.Ring
import Ysyx.Keyboard.Board
import Ysyx.Keyboard.Theorems.Board
import Ysyx.Keyboard.Theorems.Fifo
import Ysyx.Keyboard.Theorems.Overflow
import Ysyx.Lists.FirstMatch
import Ysyx.Nemu.Cpu
import Ysyx.Nemu.Registry
import Ysyx.Nemu.Run
import Ysyx.Nemu.Sdb
import Ysyx.Nemu.Theorems.Cpu
import Ysyx.Nemu.Theorems.Examine
import Ysyx.Nemu.Theorems.Final
import Ysyx.Nemu.Theorems.Registry
import Ysyx.Am.Native.Basic
import Ysyx.Am.Native.Theorems.Loop
import Ysyx.Am.Native.Theorems.Owner
import Ysyx.Am.Native.Theorems.Run
import Ysyx.Am.X86.Basic
import Ysyx.Am.X86.Theorems.Index
import Ysyx.Am.X86.Theorems.Map
import Ysyx.Am.X86.Theorems.Run
import Ysyx.Bits.Pattern
import Ysyx.CMinirv.Theorems.Exact
import Ysyx.Minirv.Theorems.Logic
import Ysyx.Minirv.Theorems.Seqz
import Ysyx.Minirv.Theorems.Subword
import Ysyx.Nemu.Pattern
import Ysyx.Nemu.Theorems.Pattern
import Ysyx.Am.Native.Audio
import Ysyx.Am.Native.Theorems.Audio
import Ysyx.Nemu.Difftest
import Ysyx.Nemu.Sdcard
import Ysyx.Nemu.Theorems.Difftest
import Ysyx.Nemu.Theorems.Sdcard
import Ysyx.Am.X86.Init
import Ysyx.Am.X86.Teardown
import Ysyx.Am.X86.Theorems.Init
import Ysyx.Am.X86.Theorems.Teardown
import Ysyx.Nemu.Theorems.Invalid
import Ysyx.Nemu.Theorems.Print
import Ysyx.Nemu.Theorems.Keyboard
import Ysyx.Am.Native.Theorems.Input
import Ysyx.Nemu.X86.Theorems.Inst
import Ysyx.Nemu.X86.Theorems.Reg
import Ysyx.Am.X86.Theorems.Boot
import Ysyx.Am.Native.Theorems.Disk
import Ysyx.ExamModule.Theorems.FsmBin
import Ysyx.Am.Klib.Theorems.Stdlib
import Ysyx.Am.Logisim.Theorems.Fbdraw
import Ysyx.Nvboard.Theorems.Pins
import Ysyx.Nvboard.Theorems.Uart
import Ysyx.Nvboard.Theorems.Term
import Ysyx.Minirv.Theorems.Compile
import Ysyx.Am.Libgcc.Theorems.Minirv
import Ysyx.Am.Libgcc.Theorems.Multi3
import Ysyx.Am.Klib.Theorems.Int64
import Ysyx.Nemu.Gdb.Theorems.Packet
import Ysyx.Nemu.Gdb.Theorems.Reference
