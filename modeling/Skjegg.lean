import Skjegg.Backend.ArgPassing
import Skjegg.Runtime.SoftFloatSingle
import Skjegg.Runtime.Soft64
import Skjegg.Kobold.MapRun
import Skjegg.Kobold.MapIter
import Skjegg.Kobold.GheapRoom
import Skjegg.Fs.P9Confine
import Skjegg.Fs.P9Reads
import Skjegg.Fs.P9Descriptors
import Skjegg.Fs.Ramfs
import Skjegg.Libc.Qsort
import Skjegg.Emu.ElfReads
import Skjegg.Kobold.KpmRoundTrip
import Skjegg.Emu.SchedRelease
import Skjegg.Ld.ScriptValues
import Skjegg.Dwarf.ReadSafe
import Skjegg.Libc.StdioFile
import Skjegg.Libc.StdioOut
import Skjegg.Emu.MipsConfine
import Skjegg.Cc.CondBranch
import Skjegg.Cc.Switch
import Skjegg.Cpp.Lines
import Skjegg.Cc.StmtTables
import Skjegg.Emu.GuestNames
import Skjegg.Emu.ProcHandles
import Skjegg.Ld.Archive
import Skjegg.Emu.GuestWrite
import Skjegg.Fs.Isofs
import Skjegg.Fs.P9Errors
import Skjegg.Fs.RamfsPaths
import Skjegg.Runtime.PascalRead
import Skjegg.Runtime.PascalStr
import Skjegg.Runtime.Rng
import Skjegg.Psx.Fixed
