import ChocoOs.Lib.Arena
import ChocoOs.Lib.ByteMem
import ChocoOs.Lib.Loop
import ChocoOs.Lib.Word
import Mathlib.Logic.Function.Basic

/-!
# The in-memory file system

`vfs.c` and the one function of `initrd.c` that edits the tree as well. Nodes are records at
addresses, file data are bytes in memory, both come from the heap. `none` as the result of an
operation means that a loop never ends, that an address is freed that is not a live block, or
that bytes are accessed outside the live blocks.
-/

namespace ChocoOs.Vfs
open ProgLib

/-- A C string: the bytes before the terminating NUL. -/
abbrev CStr := List UInt8

def slash : UInt8 := 47

def dot : UInt8 := 46

/-- `VFS_NAME_MAX` (`vfs.h:8`). -/
def vfsNameMax : Nat := 64

/-- `sizeof(VfsNode)`. -/
def nodeSize : Nat := 120

/-- `VfsNode` (`vfs.h:10-21`). A record of zero bytes is the default one. -/
structure VfsNode where
  name : CStr := []
  isDir : Bool := false
  readonly : Bool := false
  data : Nat := 0
  size : Nat := 0
  cap : Nat := 0
  parent : Nat := 0
  children : Nat := 0
  next : Nat := 0
  deriving DecidableEq

/-- The nodes by address, the bytes of the file data, the heap, and where the static variable
    `root_node` is. -/
structure Fs where
  node : Nat → VfsNode
  mem : Mem
  heap : Arena
  rootNode : Nat

namespace Fs

/-- Write the record at `a`. -/
def setNode (s : Fs) (a : Nat) (n : VfsNode) : Fs :=
  { s with node := Function.update s.node a n }

/-- `malloc`. -/
def malloc (pick : Pick) (len : Nat) (s : Fs) : Nat × Fs :=
  let r := s.heap.alloc pick len
  (r.1, { s with heap := r.2 })

/-- `free`. -/
def free (p : Nat) (s : Fs) : Option Fs :=
  (s.heap.free p).map fun heap => { s with heap := heap }

/-- `memcpy` from one live block to another. -/
def memcpy (dst src n : Nat) (s : Fs) : Option Fs :=
  if s.heap.Covers dst n ∧ s.heap.Covers src n then some { s with mem := copy s.mem dst src n }
  else none

/-- `memcpy` from the caller's buffer into a live block. -/
def memcpyFrom (dst : Nat) (buf : Nat → UInt8) (n : Nat) (s : Fs) : Option Fs :=
  if s.heap.Covers dst n then some { s with mem := put s.mem dst buf n } else none

/-- `memset` of a live block to zero. -/
def memzero (dst n : Nat) (s : Fs) : Option Fs :=
  if s.heap.Covers dst n then some { s with mem := fill s.mem dst 0 n } else none

end Fs

/-- A length as the `int` that the operations return. -/
def toInt (n : Nat) : Int := (BitVec.ofNat 32 n).toInt

/-- `vfs_init` (`vfs.c:8-15`). -/
def vfsInit (s : Fs) : Fs :=
  s.setNode s.rootNode { s.node s.rootNode with
    name := [slash], isDir := true, parent := 0, children := 0, next := 0 }

/-! ## Directories -/

/-- The test of `dir_find`: `strlen(c->name) == len && strncmp(c->name, name, len) == 0`. -/
def nameMatches (c : VfsNode) (name : CStr) (len : Nat) : Bool :=
  c.name.length == len && c.name.take len == name.take len

def dirFindRound (s : Fs) (name : CStr) (len c : Nat) : Option (LoopStep Nat Nat) :=
  if c = 0 then some (.done 0)
  else some (if nameMatches (s.node c) name len then .done c else .next (s.node c).next)

/-- `dir_find` (`vfs.c:22-30`): the child of `dir` with this name, or null. -/
def dirFind (s : Fs) (dir : Nat) (name : CStr) (len : Nat) : Option Nat :=
  loop (dirFindRound s name len) addrSpace (s.node dir).children

/-- The new node of `vfs_create` at the head of the children of `dir` (`vfs.c:110-114`). The
    block at `n` comes from `calloc`. -/
def linkNode (s : Fs) (dir n : Nat) (name : CStr) (isDir : Bool) : Fs :=
  let s := s.setNode n
    { name := name, isDir := isDir, parent := dir, next := (s.node dir).children }
  s.setNode dir { s.node dir with children := n }

/-- `vfs_create` (`vfs.c:97-116`). -/
def vfsCreate (pick : Pick) (s : Fs) (dir : Nat) (name : CStr) (isDir : Bool) :
    Option (Fs × Nat) :=
  if dir = 0 ∨ (s.node dir).isDir = false then some (s, 0)
  else if name.length = 0 ∨ vfsNameMax ≤ name.length then some (s, 0)
  else do
    let c ← dirFind s dir name name.length
    if c ≠ 0 then return (s, 0)
    let (n, s) := s.malloc pick nodeSize
    if n = 0 then return (s, 0)
    return (linkNode s dir n name isDir, n)

/-- `while (*p == '/') p++`. -/
def skipSlashes (p : CStr) : CStr := p.dropWhile (· == slash)

/-- The end of a round of `vfs_mkdirs` (`vfs.c:155-157`). -/
def enterDir (s : Fs) (nxt : Nat) (p : CStr) : LoopStep (Fs × Nat × CStr) (Fs × Nat) :=
  if (s.node nxt).isDir then .next (s, nxt, p) else .done (s, 0)

/-- One round of `vfs_mkdirs` (`vfs.c:126-158`): `cur` is the directory reached, `start` what is
    left of the path. -/
def mkdirsRound (pick : Pick) :
    Fs × Nat × CStr → Option (LoopStep (Fs × Nat × CStr) (Fs × Nat))
  | (s, cur, start) =>
    if start = [] then some (.done (s, cur))
    else
      let len := (start.takeWhile (· != slash)).length
      let p := skipSlashes (start.drop len)
      if len = 1 ∧ start[0]? = some dot then some (.next (s, cur, p))
      else if len = 2 ∧ start[0]? = some dot ∧ start[1]? = some dot then
        some (.next (s, if (s.node cur).parent ≠ 0 then (s.node cur).parent else cur, p))
      else do
        let nxt ← dirFind s cur start len
        if nxt ≠ 0 then return enterDir s nxt p
        if vfsNameMax ≤ len then return .done (s, 0)
        let (s, nxt) ← vfsCreate pick s cur (start.take len) true
        if nxt = 0 then return .done (s, 0)
        return enterDir s nxt p

/-- `vfs_mkdirs` (`vfs.c:118-160`). -/
def vfsMkdirs (pick : Pick) (s : Fs) (path : CStr) (cwd : Nat) : Option (Fs × Nat) :=
  let cur := if path[0]? = some slash then s.rootNode else if cwd ≠ 0 then cwd else s.rootNode
  loop (mkdirsRound pick) (path.length + 1) (s, cur, skipSlashes path)

/-! ## Files -/

def growRound (need newcap : Nat) : Option (LoopStep Nat Nat) :=
  some (if newcap < need then .next (mul64 newcap 2) else .done newcap)

/-- The new capacity in `vfs_write` (`vfs.c:170-172`). -/
def growCap (cap need : Nat) : Option Nat :=
  loop (growRound need) addrSpace (if cap ≠ 0 then cap else 64)

/-- The data move to the new buffer `nd` (`vfs.c:176-180`). -/
def moveData (s : Fs) (f : VfsNode) (nd : Nat) : Option Fs :=
  if f.data ≠ 0 then (s.memcpy nd f.data f.size).bind (Fs.free f.data) else some s

/-- The larger buffer of `vfs_write` (`vfs.c:168-183`). The flag is false if there is no memory
    for it. -/
def vfsGrow (pick : Pick) (s : Fs) (file need : Nat) : Option (Fs × Bool) :=
  if need ≤ (s.node file).cap then some (s, true)
  else do
    let newcap ← growCap (s.node file).cap need
    let (nd, s) := s.malloc pick newcap
    if nd = 0 then return (s, false)
    let f := s.node file
    let s ← moveData s f nd
    return (s.setNode file { f with data := nd, cap := newcap }, true)

/-- The bytes between the old end and the offset become zero (`vfs.c:185-186`). -/
def zeroGap (s : Fs) (f : VfsNode) (off : Nat) : Option Fs :=
  if f.size < off then s.memzero (f.data + f.size) (off - f.size) else some s

/-- The bytes of `vfs_write` go into a buffer that has room for them (`vfs.c:185-189`). -/
def vfsFill (s : Fs) (file : Nat) (buf : Nat → UInt8) (off len need : Nat) : Option Fs := do
  let f := s.node file
  let s ← zeroGap s f off
  let s ← s.memcpyFrom (f.data + off) buf len
  return if f.size < need then s.setNode file { f with size := need } else s

/-- `vfs_write` (`vfs.c:162-191`). -/
def vfsWrite (pick : Pick) (s : Fs) (file : Nat) (buf : Nat → UInt8) (off len : Nat) :
    Option (Fs × Int) :=
  if file = 0 ∨ (s.node file).isDir ∨ (s.node file).readonly then some (s, -1)
  else do
    let need := add64 off len
    let (s, ok) ← vfsGrow pick s file need
    if !ok then return (s, -1)
    let s ← vfsFill s file buf off len need
    return (s, toInt len)

/-- `vfs_truncate` (`vfs.c:193-204`). -/
def vfsTruncate (pick : Pick) (s : Fs) (file size : Nat) : Option (Fs × Int) :=
  let f := s.node file
  if file = 0 ∨ f.isDir ∨ f.readonly then some (s, -1)
  else if size ≤ f.size then some (s.setNode file { f with size := size }, 0)
  else do
    let (s, r) ← vfsWrite pick s file (fun _ => 0) (sub64 size 1) 1
    return (s, if r < 0 then -1 else 0)

/-! ## Removal -/

/-- What `VfsNode **link` in `vfs_unlink` points to. -/
inductive Link where
  | childrenOf (dir : Nat)
  | nextOf (c : Nat)

/-- `*link`. -/
def Fs.readLink (s : Fs) : Link → Nat
  | .childrenOf dir => (s.node dir).children
  | .nextOf c => (s.node c).next

/-- `*link = v`. -/
def Fs.writeLink (s : Fs) (v : Nat) : Link → Fs
  | .childrenOf dir => s.setNode dir { s.node dir with children := v }
  | .nextOf c => s.setNode c { s.node c with next := v }

def unlinkRound (s : Fs) (node : Nat) (link : Link) : Option (LoopStep Link Link) :=
  let c := s.readLink link
  some (if c ≠ 0 ∧ c ≠ node then .next (.nextOf c) else .done link)

/-- The buffer of a removed node (`vfs.c:220-221`). -/
def freeData (s : Fs) (n : VfsNode) : Option Fs :=
  if n.readonly = false ∧ n.data ≠ 0 then s.free n.data else some s

/-- `vfs_unlink` (`vfs.c:206-224`). -/
def vfsUnlink (s : Fs) (node : Nat) : Option (Fs × Int) :=
  if node = 0 ∨ node = s.rootNode then some (s, -1)
  else if (s.node node).isDir ∧ (s.node node).children ≠ 0 then some (s, -1)
  else do
    let link ← loop (unlinkRound s node) addrSpace (.childrenOf (s.node node).parent)
    if s.readLink link = 0 then return (s, -1)
    let s := s.writeLink (s.node node).next link
    let s ← freeData s (s.node node)
    let s ← s.free node
    return (s, 0)

/-! ## Modules -/

/-- The bytes of `"/models"`. -/
def modelsPath : CStr := [47, 109, 111, 100, 101, 108, 115]

/-- `register_module_file` (`initrd.c:93-107`) of a module of `size` bytes at `address`. -/
def registerModuleFile (pick : Pick) (s : Fs) (name : CStr) (address size : Nat) :
    Option Fs := do
  let (s, dir) ← vfsMkdirs pick s modelsPath s.rootNode
  if dir = 0 then return s
  let (s, f) ← vfsCreate pick s dir name false
  if f = 0 then return s
  return s.setNode f { s.node f with readonly := true, data := address, size := size, cap := 0 }

end ChocoOs.Vfs
