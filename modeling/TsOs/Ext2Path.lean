import TsOs.UserPath

/-!
# Paths of the file system

`ext2_split_path` and `ext2_resolve_path`. A directory is known through `ext2_dir_lookup`: the inode of a name in it, or 0.
-/

namespace TsOs

/-- The character between the components of a path. -/
def slash : BitVec 8 := 47#8

/-- The loop of `ext2_split_path` that finds the last slash, from byte `i` on. -/
def lastSlash (i : Nat) (last : Option Nat) : Path → Option Nat
  | [] => last
  | c :: path => lastSlash (i + 1) (if c = slash then some i else last) path

/-- `ext2_split_path`: the parent and the name. -/
def ext2SplitPath (path : Path) : Path × Path :=
  match lastSlash 0 none path with
  | none => ([slash], path)
  | some 0 => ([slash], path.drop 1)
  | some last => (path.take last, path.drop (last + 1))

/-- The component that a path begins with, as far as the buffer `comp` holds it. -/
def component (path : Path) : Path := (path.takeWhile (· ≠ slash)).take (ext2MaxPath - 1)

/-- The path behind a separator. -/
def skipSlash (path : Path) : Path := if path.head? = some slash then path.drop 1 else path

/-- The loop of `ext2_resolve_path` over the components. -/
def resolveFrom (ext2DirLookup : Nat → Path → Nat) (current : Nat) (path : Path) : Nat :=
  if path = [] then current
  else if component path = [] then resolveFrom ext2DirLookup current (path.drop 1)
  else
    let found := ext2DirLookup current (component path)
    if found = 0 then 0 else resolveFrom ext2DirLookup found (skipSlash (path.drop (component path).length))
termination_by path.length
decreasing_by
  all_goals have hpath := List.length_pos_of_ne_nil ‹¬ path = []›
  · grind
  · have hcomp := List.length_pos_of_ne_nil ‹¬ component path = []›
    grind [skipSlash]

/-- `ext2_resolve_path`: the inode, or 0. -/
def ext2ResolvePath (mounted : Bool) (ext2DirLookup : Nat → Path → Nat) (path : Path) : Nat :=
  if mounted = false then 0
  else
    let path := path.dropWhile (· = slash)
    if path = [] then 2 else resolveFrom ext2DirLookup 2 path

end TsOs
