import TsOs.FileTable

/-!
# Reading and writing through descriptors

`sys_read`, `sys_write` and `sys_lseek` (`kernel/syscall.c`) with `ext2_fd_read` and `ext2_fd_write` (`fs/ext2.c`), and what opening,
creating and unlinking files does to the inodes (`ext2_vfs_open`, `ext2_unlink`). `ext2_read_file` and `ext2_write_file` are the loops
over the blocks of a file. As for the descriptor tables, what a call gets from elsewhere is an argument: the inode that a path leads to
or that `ext2_alloc_inode` returns, the result of `validate_user_pointer`, the size in the inode, and how many blocks can be accessed.
-/

namespace TsOs

/-- What a call for reading or writing acts on: of a file, the positions of the bytes. -/
inductive IoTarget where
  | nothing
  | console
  | file (ino : BitVec 32) (positions : List Nat)
  deriving DecidableEq, Repr

theorem fd_lt {fd : Int} (h : 0 ≤ fd ∧ fd.toNat < taskMaxFds) : fd.toNat < taskMaxFds := h.2

/-- The entry of a descriptor that is open. -/
def OpenFiles.descriptor (s : OpenFiles) (fd : Int) : Option FileEntry :=
  match s.procs.sched.current with
  | none => none
  | some cur =>
    if h : 0 ≤ fd ∧ fd.toNat < taskMaxFds then
      if (s.fdTable cur ⟨fd.toNat, fd_lt h⟩).ops = none then none else some (s.fdTable cur ⟨fd.toNat, fd_lt h⟩)
    else none

/-- A write to the offset of an open file. -/
def OpenFiles.seek (s : OpenFiles) (data offset : BitVec 64) : OpenFiles :=
  { s with files := Function.update s.files data { s.files data with offset := offset } }

/-- The end of `ext2_fd_read` and `ext2_fd_write`: `n` bytes were transferred. -/
def OpenFiles.advance (s : OpenFiles) (data : BitVec 64) (n : Int) : OpenFiles :=
  if n > 0 then s.seek data ((s.files data).offset + BitVec.ofInt 64 n) else s

/-- What the file system answers to an access: `i_size` of the inode, unless it cannot be read, and how many blocks are read or written
before one fails. -/
structure FileAnswer where
  size : Option (BitVec 32)
  blocks : Nat

/-- The loop of `ext2_read_file` and `ext2_write_file`: the positions in the file of the bytes that are read or written. The number of
a block has 32 bits. -/
def blockLoop (blockSize : BitVec 64) : Nat → BitVec 64 → BitVec 64 → List Nat
  | 0, _, _ => []
  | n + 1, offset, count =>
    if count = 0#64 then []
    else
      let logical := (offset / blockSize).setWidth 32
      let blockOff := offset % blockSize
      let len := if count.ult (blockSize - blockOff) then count else blockSize - blockOff
      List.range' (logical.toNat * blockSize.toNat + blockOff.toNat) len.toNat ++ blockLoop blockSize n (offset + len) (count - len)

/-- `ext2_read_file`: the result, and the positions that are read. -/
def ext2ReadFile (blockSize offset count : BitVec 64) (answer : FileAnswer) : Int × List Nat :=
  match answer.size with
  | none => (-1, [])
  | some size =>
    let fileSize := size.setWidth 64
    if !offset.ult fileSize then (0, [])
    else
      let count := if count.ult (fileSize - offset) then count else fileSize - offset
      let positions := blockLoop blockSize answer.blocks offset count
      ((BitVec.ofNat 64 positions.length).toInt, positions)

/-- `ext2_write_file`: the result, and the positions that are written. -/
def ext2WriteFile (blockSize offset count : BitVec 64) (answer : FileAnswer) : Int × List Nat :=
  match answer.size with
  | none => (-1, [])
  | some _ =>
    let positions := blockLoop blockSize answer.blocks offset count
    ((BitVec.ofNat 64 positions.length).toInt, positions)

/-- `ext2_fd_read`. -/
def ext2FdRead (s : OpenFiles) (blockSize data count : BitVec 64) (answer : FileAnswer) : OpenFiles × Int × IoTarget :=
  if data = 0 then (s, -1, .nothing)
  else
    let n := ext2ReadFile blockSize (s.files data).offset count answer
    (s.advance data n.1, n.1, .file (s.files data).ino n.2)

/-- `ext2_fd_write`. `O_RDONLY` is 0. -/
def ext2FdWrite (s : OpenFiles) (blockSize data count : BitVec 64) (answer : FileAnswer) : OpenFiles × Int × IoTarget :=
  if data = 0 then (s, -1, .nothing)
  else if (s.files data).flags = 0 then (s, -1, .nothing)
  else
    let n := ext2WriteFile blockSize (s.files data).offset count answer
    (s.advance data n.1, n.1, .file (s.files data).ino n.2)

/-- `sys_read`. -/
def sysRead (s : OpenFiles) (blockSize : BitVec 64) (fd : Int) (valid : Bool) (count : BitVec 64) (answer : FileAnswer) :
    OpenFiles × Int × IoTarget :=
  if fd = 1 then (s, -1, .nothing)
  else
    match s.descriptor fd with
    | none => (s, -1, .nothing)
    | some f => if !valid then (s, -1, .nothing) else ext2FdRead s blockSize f.data count answer

/-- `sys_write` of `count` bytes, once `g_sc_serial` is set. -/
def sysWrite (s : OpenFiles) (blockSize : BitVec 64) (fd : Int) (valid : Bool) (count : BitVec 64) (answer : FileAnswer) :
    OpenFiles × Int × IoTarget :=
  if fd = 1 then if !valid then (s, -1, .nothing) else (s, count.toInt, .console)
  else
    match s.descriptor fd with
    | none => (s, -1, .nothing)
    | some f => if !valid then (s, -1, .nothing) else ext2FdWrite s blockSize f.data count answer

/-- `sys_lseek`. The cases of `whence` are `EXT2_SEEK_SET`, `EXT2_SEEK_CUR` and `EXT2_SEEK_END`. -/
def sysLseek (s : OpenFiles) (fd : Int) (offset : BitVec 64) (whence : Int) (size : Option (BitVec 32)) : OpenFiles × Int :=
  match s.descriptor fd with
  | none => (s, -1)
  | some f =>
    if f.data = 0 then (s, -1)
    else
      match size with
      | none => (s, -1)
      | some size =>
        let target : Option (BitVec 64) :=
          if whence = 0 then some offset
          else if whence = 1 then some ((s.files f.data).offset + offset)
          else if whence = 2 then some (size.setWidth 64 + offset)
          else none
        match target with
        | none => (s, -1)
        | some newPos =>
          let newPos := if newPos.slt 0#64 then 0#64 else newPos
          (s.seek f.data newPos, newPos.toInt)

/-! ## Runs -/

/-- The open files and the file system: `blockSize` is `g_fs.block_size`, `inodes` says which file an inode that is in use holds, and
files are numbered as they are created. -/
structure FileWorld where
  open_ : OpenFiles
  blockSize : BitVec 32
  blockSize_pos : 0 < blockSize.toNat
  inodes : BitVec 32 → Option Nat
  nextFile : Nat

/-- The calls of a task that concern files. `openFile` is `sys_open` of a path that leads to the inode `ino`, `createFile` one of a
path that leads nowhere, with `O_CREAT`, for which `ext2_alloc_inode` returns `ino` and `ext2_dir_add_entry` succeeds if `linked`.
`unlink` removes an entry for the inode `ino`, its last one if `last`. -/
inductive IoOp where
  | openFile (ino : Option (BitVec 32)) (flags : BitVec 32) (file : BitVec 64)
  | createFile (ino : Option (BitVec 32)) (linked : Bool) (flags : BitVec 32) (file : BitVec 64)
  | close (fd : Int)
  | read (fd : Int) (valid : Bool) (count : BitVec 64) (answer : FileAnswer)
  | write (fd : Int) (valid : Bool) (count : BitVec 64) (answer : FileAnswer)
  | lseek (fd : Int) (offset : BitVec 64) (whence : Int) (size : Option (BitVec 32))
  | unlink (ino : Option (BitVec 32)) (last : Bool)

/-- What `kmalloc` and the file system owe to the calls: a block that is not in use, an inode in use for a path, an inode not in use
for a new file. -/
def IoOp.fits (w : FileWorld) : IoOp → Bool
  | .openFile ino _ file => !w.open_.allocated file && ino.all fun i => (w.inodes i).isSome
  | .createFile ino _ _ file => !w.open_.allocated file && ino.all fun i => (w.inodes i).isNone
  | .unlink ino _ => ino.all fun i => (w.inodes i).isSome
  | _ => true

/-- The new file that `ext2_vfs_open` makes in the inode `ino`. -/
def FileWorld.create (w : FileWorld) (ino : Option (BitVec 32)) : FileWorld :=
  match ino with
  | none => w
  | some i => { w with inodes := Function.update w.inodes i (some w.nextFile), nextFile := w.nextFile + 1 }

/-- `ext2_unlink`, for the inode: it is freed with its last entry. -/
def FileWorld.unlink (w : FileWorld) (ino : Option (BitVec 32)) (last : Bool) : FileWorld :=
  match ino with
  | some i => if last then { w with inodes := Function.update w.inodes i none } else w
  | none => w

/-- A call, with its result and what it acts on. -/
def IoOp.run (w : FileWorld) : IoOp → FileWorld × Int × IoTarget
  | .openFile ino flags file =>
    let (s, fd) := vfsOpen w.open_ ino flags file
    ({ w with open_ := s }, fd, .nothing)
  | .createFile ino linked flags file =>
    let w := w.create ino
    let (s, fd) := vfsOpen w.open_ (if linked then ino else none) flags file
    ({ w with open_ := s }, fd, .nothing)
  | .close fd =>
    let (s, r) := sysClose w.open_ fd
    ({ w with open_ := s }, r, .nothing)
  | .read fd valid count answer =>
    let (s, r, t) := sysRead w.open_ (w.blockSize.setWidth 64) fd valid count answer
    ({ w with open_ := s }, r, t)
  | .write fd valid count answer =>
    let (s, r, t) := sysWrite w.open_ (w.blockSize.setWidth 64) fd valid count answer
    ({ w with open_ := s }, r, t)
  | .lseek fd offset whence size =>
    let (s, r) := sysLseek w.open_ fd offset whence size
    ({ w with open_ := s }, r, .nothing)
  | .unlink ino last => (w.unlink ino last, if ino.isSome then 0 else -1, .nothing)

/-- A file that was opened, with the offset that the results of the calls since then imply. -/
structure Opened where
  file : Nat
  offset : BitVec 64
  flags : BitVec 32
  deriving DecidableEq, Repr

/-- The state, with what the task knows of its descriptors from the results of its calls. -/
structure FileHistory where
  world : FileWorld
  opened : Int → Option Opened

/-- What the task learns from the result `r` of a call in the state `w`. -/
def IoOp.learn (w : FileWorld) (r : Int) (opened : Int → Option Opened) : IoOp → Int → Option Opened
  | .openFile ino flags _ =>
    if r < 0 then opened else Function.update opened r ((ino.bind w.inodes).map fun f => ⟨f, 0, flags⟩)
  | .createFile _ _ flags _ => if r < 0 then opened else Function.update opened r (some ⟨w.nextFile, 0, flags⟩)
  | .close fd => if r < 0 then opened else Function.update opened fd none
  | .read fd _ _ _ | .write fd _ _ _ =>
    if r > 0 then Function.update opened fd ((opened fd).map fun o => { o with offset := o.offset + BitVec.ofInt 64 r }) else opened
  | .lseek fd _ _ _ =>
    if r < 0 then opened else Function.update opened fd ((opened fd).map fun o => { o with offset := BitVec.ofInt 64 r })
  | .unlink _ _ => opened

/-- A step of the task. -/
def IoOp.step (h : FileHistory) (op : IoOp) : Option FileHistory :=
  if op.fits h.world then
    some ⟨(op.run h.world).1, op.learn h.world (op.run h.world).2.1 h.opened⟩
  else none

end TsOs
