import TsOs.Process

/-!
# The descriptor tables

The open files of the tasks: `vfs_open` (`fs/vfs.c`) with `ext2_vfs_open` and `ext2_fd_close` (`fs/ext2.c`), `sys_fork` and
`sys_close` (`kernel/syscall.c`), `task_close_all_fds`, `task_destroy` and `task_wait` (`kernel/task.c`).

An open file is an `ext2_file_t` that `kmalloc` gave, known by its address; `ext2_file_ops` is the only table of file operations.
What the calls get from elsewhere is an argument: the inode that the path leads to, the addresses that `kmalloc` and `slab_alloc`
return, and whether the other allocations of `task_create` and the clone of the address space succeed. The stack, the address
space and the saved registers of a task are not part of the state.
-/

namespace TsOs

open LinkedList

/-- `TASK_MAX_FDS`. -/
def taskMaxFds : Nat := 64

/-- The tables of file operations: `ext2_file_ops` is the only one. -/
inductive FileOps where
  | ext2
  deriving DecidableEq, Repr

/-- `file_t`. -/
structure FileEntry where
  ops : Option FileOps
  data : BitVec 64
  refcount : BitVec 32
  flags : BitVec 32
  deriving DecidableEq, Repr

/-- An entry of zero bytes. -/
def FileEntry.zero : FileEntry := { ops := none, data := 0, refcount := 0, flags := 0 }

/-- `ext2_file_t`. -/
structure Ext2File where
  ino : BitVec 32
  offset : BitVec 64
  flags : BitVec 32
  deriving DecidableEq, Repr

/-- The processes with their descriptor tables, and the open files: `files` is what stands at an address, `allocated` says that
the kernel heap has given it out for an open file and not got it back, and `released` lists the addresses that were given back,
the last one first. -/
structure OpenFiles where
  procs : Processes
  nextPid : Nat
  fdTable : TaskPtr → Fin taskMaxFds → FileEntry
  files : BitVec 64 → Ext2File
  allocated : BitVec 64 → Bool
  released : List (BitVec 64)

/-- A write to one entry of a table. -/
def OpenFiles.setEntry (s : OpenFiles) (t : TaskPtr) (fd : Fin taskMaxFds) (f : FileEntry) : OpenFiles :=
  { s with fdTable := Function.update s.fdTable t (Function.update (s.fdTable t) fd f) }

/-- `ext2_fd_close`: the address goes back to the heap, a null pointer does not. -/
def ext2FdClose (s : OpenFiles) (data : BitVec 64) : OpenFiles :=
  if data = 0 then s
  else { s with allocated := Function.update s.allocated data false, released := data :: s.released }

/-- What `sys_close` and each iteration of `task_close_all_fds` do with an entry: its operations close the file, then it is
cleared. The count of references is not looked at. -/
def closeEntry (t : TaskPtr) (s : OpenFiles) (fd : Fin taskMaxFds) : OpenFiles :=
  let f := s.fdTable t fd
  let s := if f.ops.isSome then ext2FdClose s f.data else s
  s.setEntry t fd .zero

/-- `ext2_vfs_open` once the path has led to an inode, with the result of `kmalloc`. -/
def ext2VfsOpen (s : OpenFiles) (ino : Option (BitVec 32)) (flags : BitVec 32) (file : BitVec 64) :
    OpenFiles × Option (BitVec 64) :=
  match ino with
  | none => (s, none)
  | some ino =>
    if file = 0 then (s, none)
    else ({ s with files := Function.update s.files file { ino := ino, offset := 0, flags := flags }
                   allocated := Function.update s.allocated file true }, some file)

/-- `vfs_open`. -/
def vfsOpen (s : OpenFiles) (ino : Option (BitVec 32)) (flags : BitVec 32) (file : BitVec 64) : OpenFiles × Int :=
  match ext2VfsOpen s ino flags file with
  | (s, none) => (s, -1)
  | (s, some data) =>
    match s.procs.sched.current with
    | none => (s, -1)
    | some cur =>
      match (List.finRange taskMaxFds).find? (fun fd => (s.fdTable cur fd).ops == none) with
      | none => (s, -1)
      | some fd => (s.setEntry cur fd { ops := some .ext2, data := data, refcount := 1, flags := flags }, fd.val)

/-- `sys_close`. -/
def sysClose (s : OpenFiles) (fd : Int) : OpenFiles × Int :=
  match s.procs.sched.current with
  | none => (s, -1)
  | some cur =>
    if h : 0 ≤ fd ∧ fd.toNat < taskMaxFds then
      if (s.fdTable cur ⟨fd.toNat, h.2⟩).ops = none then (s, -1)
      else (closeEntry cur s ⟨fd.toNat, h.2⟩, 0)
    else (s, -1)

/-- `task_close_all_fds`. -/
def taskCloseAllFds (s : OpenFiles) (t : TaskPtr) : OpenFiles := (List.finRange taskMaxFds).foldl (closeEntry t) s

/-- `task_destroy`. -/
def taskDestroy (s : OpenFiles) (t : TaskPtr) : OpenFiles :=
  let s := taskCloseAllFds s t
  { s with procs := { s.procs with
      sched := { s.procs.sched with mlfq := s.procs.sched.mlfq.setState t .dead } } }

/-- `task_create`, given the block that `slab_alloc` returns and whether all that it builds next could be allocated. -/
def taskCreate (s : OpenFiles) (pcb : Option TaskPtr) (built : Bool) : OpenFiles × Option TaskPtr :=
  match pcb with
  | none => (s, none)
  | some t =>
    let s := { s with
      procs := s.procs.newTask t s.nextPid
      nextPid := (s.nextPid + 1) % 2 ^ 64
      fdTable := Function.update s.fdTable t (fun _ => .zero) }
    (s, if built then some t else none)

/-- The copy of the table in `sys_fork`, its loop in closed form. -/
def dupTable (s : OpenFiles) (parent child : TaskPtr) : OpenFiles :=
  { s with fdTable := Function.update s.fdTable child (fun fd =>
      let f := s.fdTable parent fd
      if f.ops.isSome then { f with refcount := f.refcount + 1 } else s.fdTable child fd) }

/-- `sys_fork`. -/
def sysFork (s : OpenFiles) (pcb : Option TaskPtr) (built cloned : Bool) : OpenFiles × Int :=
  match s.procs.sched.current with
  | none => (s, -1)
  | some parent =>
    match taskCreate s pcb built with
    | (s, none) => (s, -1)
    | (s, some child) =>
      let s := { s with procs := s.procs.linkChild parent child }
      if !cloned then (taskDestroy s child, -1)
      else
        let s := dupTable s parent child
        ({ s with procs := { s.procs with sched := schedulerAddTask s.procs.sched (some child) } }, (s.procs.procs child).pid)

/-- `task_wait`. -/
def taskWait (s : OpenFiles) : Option (OpenFiles × Int) :=
  match s.procs.sched.current with
  | none => some (s, -1)
  | some cur =>
    match zombieChild s.procs cur with
    | none => none
    | some (some (pp, child)) =>
      let s := { s with procs := s.procs.unlinkChild cur pp child }
      -- the process number is returned as an `int`
      some (taskDestroy s child, (BitVec.ofNat 32 (s.procs.procs child).pid).toInt)
    | some none => (waitForChildren s.procs cur).map (fun k => ({ s with procs := k }, -1))

/-- The calls that open, share and close files, and the ticks between them. -/
inductive FileOp where
  | openFile (ino : Option (BitVec 32)) (flags : BitVec 32) (file : BitVec 64)
  | fork (pcb : Option TaskPtr) (built cloned : Bool)
  | close (fd : Int)
  | exit (code : Int)
  | wait
  | tick
  deriving DecidableEq, Repr

/-- One call by the current task, or a tick. -/
def FileOp.run (s : OpenFiles) : FileOp → Option OpenFiles
  | .openFile ino flags file => some (vfsOpen s ino flags file).1
  | .fork pcb built cloned => some (sysFork s pcb built cloned).1
  | .close fd => some (sysClose s fd).1
  | .exit code => (taskExit s.procs code).map (fun k => { s with procs := k })
  | .wait => (taskWait s).map Prod.fst
  | .tick => (schedulerTick s.procs.sched).map (fun sched => { s with procs := { s.procs with sched := sched } })

end TsOs
