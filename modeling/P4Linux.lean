import P4Linux.Lib.LuaInt
import P4Linux.Lib.RiscvImm
import P4Linux.Lib.Outcome
import P4Linux.Lib.Agree
import P4Linux.Lib.Elf
import P4Linux.Lib.Proc
import P4Linux.Lib.CString
import P4Linux.Mkflt.Absolute
import P4Linux.Mkflt.WidthLink
import P4Linux.Hget.Chunked
import P4Linux.Hget.Headers
import P4Linux.Hget.Sys
import P4Linux.Hget.Connect
import P4Linux.Hget.Url
import P4Linux.Hget.Race
import P4Linux.Hget.Fetch
import P4Linux.Hget.Session
import P4Linux.Boot.Flash
import P4Linux.Boot.Main
import P4Linux.Boot.Flashmap
import P4Linux.Boot.Agree
import P4Linux.Boot.Table
import P4Linux.Boot.Boots
import P4Linux.Hget.Plain
import P4Linux.Hget.Fields
import P4Linux.Hget.Chain
import P4Linux.Hget.Transport
import P4Linux.Hget.Final
import P4Linux.Hget.Complete
import P4Linux.Hget.Request
import P4Linux.Hget.Malformed
import P4Linux.Lib.Hex
import P4Linux.Cpio.Newc
import P4Linux.Cpio.Tar
import P4Linux.Cpio.Keep
import P4Linux.Lib.Cache
import P4Linux.Mmc.Ring
import P4Linux.Mmc.Own
import P4Linux.Hget.Candidates
import P4Linux.Hget.Stall
import P4Linux.Hget.Bounded
import P4Linux.Hget.Grammar
import P4Linux.Hget.HostField
import P4Linux.Mkflt.Branch
import P4Linux.Lib.Handles
import P4Linux.Hget.Trace
import P4Linux.Hget.Tidy
import P4Linux.Hget.Deadline
import P4Linux.Hget.Framing
import P4Linux.Mkflt.Image
import P4Linux.Lib.Stores
import P4Linux.Boot.String
import P4Linux.Boot.Sectors
import P4Linux.Boot.Psram
import P4Linux.Boot.Uart
import P4Linux.Mkflt.Align
import P4Linux.Boot.Entry
import P4Linux.Boot.Cached
import P4Linux.Lib.Worklist
import P4Linux.Vendor.Paths
import P4Linux.Vendor.Sync
import P4Linux.Mkflt.Order
import P4Linux.Lib.Riscv
import P4Linux.Mkflt.Exec
import P4Linux.Lib.Asm
import P4Linux.Boot.Start
import P4Linux.Kernel.SramText
import P4Linux.Kernel.CacheOps
import P4Linux.Lib.Hierarchy
import P4Linux.Kernel.Systimer
import P4Linux.Boot.Mmu
import P4Linux.Kernel.Trap
import P4Linux.Boot.Alias
import P4Linux.Boot.Tuning
import P4Linux.Kernel.Clic
import P4Linux.Kernel.Gpio
import P4Linux.Hget.Main
