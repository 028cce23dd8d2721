import Lxos.Bio.Runs
import Lxos.Boot.Segments
import Lxos.Cpu.Interrupts
import Lxos.Drivers.Console
import Lxos.Drivers.Kprintf
import Lxos.Drivers.Kprintint
import Lxos.Drivers.LineBuffer
import Lxos.Drivers.Status
import Lxos.Files.Reboot
import Lxos.Fs.Bits
import Lxos.Fs.Exhaustion
import Lxos.Fs.FileLaw
import Lxos.Fs.Held
import Lxos.Fs.Log
import Lxos.Fs.Packing
import Lxos.Fs.Resolve
import Lxos.Fs.Tidy
import Lxos.Kernel.Abort
import Lxos.Kernel.Allocproc
import Lxos.Kernel.Anchor
import Lxos.Kernel.Balance
import Lxos.Kernel.Chunks
import Lxos.Kernel.Coherence
import Lxos.Kernel.Crash
import Lxos.Kernel.Creation
import Lxos.Kernel.Exit
import Lxos.Kernel.Launch
import Lxos.Kernel.Layers
import Lxos.Kernel.Release
import Lxos.Kernel.Session
import Lxos.Libc.Ascii
import Lxos.Libc.Memory
import Lxos.User.Agreement
import Lxos.Utils.Holes
