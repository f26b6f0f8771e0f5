import RedFox32.Machine.Bytes
import RedFox32.Machine.Runs
import RedFox32.Kernel.Memory.Defs
import RedFox32.Kernel.Memory.Check
import RedFox32.Kernel.TextMode.Defs
import RedFox32.Kernel.TextMode.Scroll
import RedFox32.Kernel.TextMode.Putch
import RedFox32.Kernel.TextMode.Bounds
import RedFox32.Kernel.TextMode.Terminal
import RedFox32.Kernel.Memory.Layout
import RedFox32.Kernel.Memory.Halting
import RedFox32.Machine.Frontier
import RedFox32.Kernel.Memory.Session
import RedFox32.Kernel.Memory.Regions
import RedFox32.Kernel.Memory.Realloc
import RedFox32.Kernel.IDT.Stub
import RedFox32.Kernel.IDT.Acknowledge
import RedFox32.Kernel.Memory.BlockList
import RedFox32.Kernel.Keyboard.Defs
import RedFox32.Kernel.Keyboard.Handler
import RedFox32.Kernel.Memory.Validity
import RedFox32.Kernel.Keyboard.Pending
import RedFox32.Kernel.Keyboard.Held
import RedFox32.Kernel.Keyboard.GetEvent
import RedFox32.Kernel.Floppy.WaitIRQ
import RedFox32.BootloaderStage2.CreateMemoryMap
import RedFox32.BootloaderStage2.LoadKernel
import RedFox32.Machine.Fuel
import RedFox32.Old.FileSystem.Defs
import RedFox32.Old.FileSystem.ReadDirectory
import RedFox32.Old.FileSystem.ReadFile
import RedFox32.Machine.Bitmap
import RedFox32.Old.FileSystem.SectorMap
import RedFox32.Kernel.IDT.Table
import RedFox32.Kernel.TextMode.Rows
import RedFox32.Old.FileSystem.Contents
import RedFox32.Kernel.Keyboard.Getch
import RedFox32.Kernel.Keyboard.Leds
import RedFox32.Kernel.Memory.Contents
import RedFox32.Kernel.Memory.Overlap
import RedFox32.Machine.Loop
import RedFox32.Old.VESA.Rect
import RedFox32.Kernel.Memory.Display
import RedFox32.Old.VESA.Char
import RedFox32.Old.BootloaderStage2.FDC
import RedFox32.Old.BootloaderStage2.Syscall
import RedFox32.Machine.Handoff
import RedFox32.Kernel.Main
import RedFox32.BootloaderStage1.Boot
import RedFox32.Machine.Pic
import RedFox32.Kernel.IDT.InService
import RedFox32.Machine.FloppyDisk
import RedFox32.Old.BootloaderStage2.Video
import RedFox32.Old.BootloaderStage2.Transfer
import RedFox32.Old.BootloaderStage2.LoadKernel
import RedFox32.Machine.RealMode
import RedFox32.Old.Kernel.Int32
