import TsOs.Theorems.Slab
import TsOs.Theorems.BcacheShape
import TsOs.Theorems.BcacheSteps
import TsOs.Theorems.BcacheSaved
import TsOs.Theorems.Ext2Space
import TsOs.Theorems.Ext2Inode
import TsOs.Theorems.Ext2Path
import TsOs.Theorems.CowIsolation
import TsOs.Theorems.Tlb
import TsOs.Theorems.PmmInit
import TsOs.Theorems.IdleTask
import TsOs.Theorems.ProcessTree
import TsOs.Theorems.ForkFrames
import TsOs.Theorems.SyscallBuffers
import TsOs.Theorems.PmmBuddy
import TsOs.Theorems.UserHeap
import TsOs.Theorems.CloneFailure
import TsOs.Theorems.Vga
import TsOs.Theorems.Stdio
import TsOs.Theorems.Printf
import TsOs.Theorems.KernelStack
import TsOs.Theorems.Strings
import TsOs.Theorems.ElfImage
