import TsOs.TaskSpaces
import TsOs.Lib.Traced

/-!
# Paths from user memory

The system calls of `kernel/syscall.c` that take a path: the check of the string by `validate_user_string`, the copy into a kernel
buffer, and the call of the file system with the copy. The trace of a call is the list of the addresses at which it reads memory.
-/

namespace TsOs

/-- `EXT2_MAX_PATH`. -/
def ext2MaxPath : Nat := 256

/-- What a system call sees of memory: the page tables of the caller, whose PML4 is loaded, and the bytes at the addresses that are
mapped. -/
structure UserView where
  vmm : Vmm
  pml4 : Nat
  byte : BitVec 64 → BitVec 8

/-- A part of a system call that reads memory. -/
abbrev ReadM := Traced (BitVec 64)

/-- A load of the byte at `addr` by the kernel. An address that is not canonical or not mapped faults, and what the fault handler
makes of that is not followed. -/
def UserView.load (u : UserView) (addr : BitVec 64) : ReadM (BitVec 8) where
  events := [addr]
  result := if vaIsCanonical addr && hasFlag (getPteFlags u.vmm u.pml4 addr) ptePresent then some (u.byte addr) else none

/-- The address of byte `i` of the string at `s`. -/
def charAddr (s : BitVec 64) (i : Nat) : BitVec 64 := s + BitVec.ofNat 64 i

/-- The page of an address. -/
def pageOf (addr : BitVec 64) : BitVec 64 := addr &&& ~~~0xFFF#64

/-- The test that `validate_user_string` makes of a page. -/
def UserView.userPage (u : UserView) (page : BitVec 64) : Bool :=
  let pte := getPteFlags u.vmm u.pml4 page
  hasFlag pte ptePresent && hasFlag pte pteUser

/-- The loop of `validate_user_string` from byte `i` on, for `n` more bytes. -/
def validateLoop (u : UserView) (addr : BitVec 64) : Nat → Nat → ReadM Int
  | 0, _ => pure (-1)
  | n + 1, i =>
    let page := pageOf (charAddr addr i)
    if (i = 0 ∨ page ≠ pageOf (charAddr addr i - 1#64)) ∧ u.userPage page = false then pure (-1)
    else do
      let c ← u.load (charAddr addr i)
      if c = 0#8 then pure (i : Int) else validateLoop u addr n (i + 1)

/-- `validate_user_string`. The result is the length of the string, or -1. -/
def validateUserString (u : UserView) (str : BitVec 64) (maxLen : Nat) : ReadM Int :=
  if str.ult 0x1000#64 then pure (-1) else validateLoop u str maxLen 0

/-- The loop that copies a path, from byte `i` on when there is room for `n` more bytes. -/
def copyLoop (u : UserView) (src : BitVec 64) : Nat → Nat → ReadM (List (BitVec 8))
  | 0, i => do
    let _ ← u.load (charAddr src i)
    pure []
  | n + 1, i => do
    let c ← u.load (charAddr src i)
    if c = 0#8 then pure []
    else do
      let c ← u.load (charAddr src i)
      let rest ← copyLoop u src n (i + 1)
      pure (c :: rest)

/-- The copy of a path into a buffer of `EXT2_MAX_PATH` bytes. -/
def copyPath (u : UserView) (src : BitVec 64) : ReadM (List (BitVec 8)) := copyLoop u src (ext2MaxPath - 1) 0

/-- A path in a kernel buffer. -/
abbrev Path := List (BitVec 8)

/-- What the calls of the virtual file system return for a path. -/
structure VfsCalls where
  vfsOpen : Path → BitVec 32 → Int
  vfsUnlink : Path → Int
  vfsRename : Path → Path → Int
  vfsMkdir : Path → BitVec 32 → Int
  vfsRmdir : Path → Int

/-- `sys_open`. -/
def sysOpen (u : UserView) (vfs : VfsCalls) (userPath : BitVec 64) (flags : BitVec 64) : ReadM Int := do
  let pathLen ← validateUserString u userPath ext2MaxPath
  if pathLen < 0 then pure (-1)
  else do
    let kpath ← copyPath u userPath
    pure (vfs.vfsOpen kpath (flags.setWidth 32))

/-- The body of `sys_unlink`, `sys_mkdir` and `sys_rmdir`, which test the result of `validate_user_string` for being zero. -/
def pathCall (u : UserView) (userPath : BitVec 64) (call : Path → Int) : ReadM Int := do
  let valid ← validateUserString u userPath ext2MaxPath
  if valid = 0 then pure (-1)
  else do
    let kpath ← copyPath u userPath
    pure (call kpath)

/-- `sys_unlink`. -/
def sysUnlink (u : UserView) (vfs : VfsCalls) (userPath : BitVec 64) : ReadM Int := pathCall u userPath vfs.vfsUnlink

/-- `sys_mkdir`. -/
def sysMkdir (u : UserView) (vfs : VfsCalls) (userPath mode : BitVec 64) : ReadM Int :=
  pathCall u userPath (vfs.vfsMkdir · (mode.setWidth 32))

/-- `sys_rmdir`. -/
def sysRmdir (u : UserView) (vfs : VfsCalls) (userPath : BitVec 64) : ReadM Int := pathCall u userPath vfs.vfsRmdir

/-- `sys_rename`. -/
def sysRename (u : UserView) (vfs : VfsCalls) (userOld userNew : BitVec 64) : ReadM Int := do
  let valid ← validateUserString u userOld ext2MaxPath
  if valid = 0 then pure (-1)
  else do
    let valid ← validateUserString u userNew ext2MaxPath
    if valid = 0 then pure (-1)
    else do
      let oldPath ← copyPath u userOld
      let newPath ← copyPath u userNew
      pure (vfs.vfsRename oldPath newPath)

/-- The system calls that take a path. -/
inductive PathCall where
  | open (userPath flags : BitVec 64)
  | unlink (userPath : BitVec 64)
  | rename (userOld userNew : BitVec 64)
  | mkdir (userPath mode : BitVec 64)
  | rmdir (userPath : BitVec 64)

/-- The paths of a call. -/
def PathCall.paths : PathCall → List (BitVec 64)
  | .open s _ | .unlink s | .mkdir s _ | .rmdir s => [s]
  | .rename s t => [s, t]

/-- The handler of a call. -/
def PathCall.run (u : UserView) (vfs : VfsCalls) : PathCall → ReadM Int
  | .open s flags => sysOpen u vfs s flags
  | .unlink s => sysUnlink u vfs s
  | .rename s t => sysRename u vfs s t
  | .mkdir s mode => sysMkdir u vfs s mode
  | .rmdir s => sysRmdir u vfs s

end TsOs
