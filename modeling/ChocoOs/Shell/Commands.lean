import ChocoOs.Vfs.Naming
import ChocoOs.Vfs.Run
import Mathlib.Algebra.GroupWithZero.Nat

/-!
# The file commands of the shell

`cd`, `mkdir`, `write` and `rm` of `shell.c`. A command gets its argument vector and prints
pieces of text; `none` as its result means what it means for the file system.
-/

namespace ChocoOs.Shell
open ProgLib ChocoOs.Vfs

/-- A printed piece: literal text of the command, or an argument. -/
inductive Out where
  | text (s : String)
  | arg (s : CStr)
  deriving DecidableEq

/-- The file system and the static variable `cwd`. -/
structure Session where
  fs : Fs
  cwd : Nat

def space : UInt8 := 32

def tab : UInt8 := 9

def newline : UInt8 := 10

/-- `LINE_MAX` (`shell.c:27`). -/
def lineMax : Nat := 256

/-- `argv[i]`. -/
def argAt (argv : List CStr) (i : Nat) : CStr := argv.getD i []

/-- The words of a line that the line editor can hold: each is at least one character other than
    blanks, and is followed by a blank or the terminator. -/
def FitsLine (argv : List CStr) : Prop :=
  (∀ w ∈ argv, w ≠ [] ∧ 0 ∉ w ∧ space ∉ w ∧ tab ∉ w) ∧
    (argv.map fun w => w.length + 1).sum ≤ lineMax

/-- `cmd_cd` (`shell.c:291-305`). -/
def cmdCd (sh : Session) (argv : List CStr) : Option (Session × List Out) :=
  if argv.length < 2 then some ({ sh with cwd := sh.fs.rootNode }, [])
  else do
    let n ← vfsResolve sh.fs (argAt argv 1) sh.cwd
    if n = 0 ∨ (sh.fs.node n).isDir = false then
      return (sh, [.text "cd: ", .arg (argAt argv 1), .text ": not a directory\n"])
    return ({ sh with cwd := n }, [])

/-- `cmd_mkdir` (`shell.c:263-272`). -/
def cmdMkdir (pick : Pick) (sh : Session) (argv : List CStr) : Option (Session × List Out) :=
  if argv.length < 2 then some (sh, [.text "usage: mkdir <dir>\n"])
  else do
    let (fs, d) ← vfsMkdirs pick sh.fs (argAt argv 1) sh.cwd
    if d = 0 then
      return ({ sh with fs := fs },
        [.text "mkdir: cannot create ", .arg (argAt argv 1), .text "\n"])
    return ({ sh with fs := fs }, [])

/-- `cmd_rm` (`shell.c:274-289`). -/
def cmdRm (sh : Session) (argv : List CStr) : Option (Session × List Out) :=
  if argv.length < 2 then some (sh, [.text "usage: rm <path>\n"])
  else do
    let n ← vfsResolve sh.fs (argAt argv 1) sh.cwd
    if n = 0 then return (sh, [.text "rm: ", .arg (argAt argv 1), .text ": not found\n"])
    let (fs, r) ← vfsUnlink sh.fs n
    if r < 0 then
      return ({ sh with fs := fs },
        [.text "rm: cannot remove ", .arg (argAt argv 1), .text "\n"])
    return ({ sh with fs := fs }, [])

/-- One piece of text goes to the file; the result of `vfs_write` is ignored. -/
def appendPiece (pick : Pick) (f : Nat) (x : Fs × Nat) (b : CStr) : Option (Fs × Nat) := do
  let (s, _) ← vfsWrite pick x.1 f (fun i => b.getD i 0) x.2 b.length
  return (s, x.2 + b.length)

/-- The loop of `cmd_write` over `argv[i]`, `argv[i + 1]`, … (`shell.c:253-259`); `x` is the file
    system and `off`. Each call of `vfs_write` asks the heap under a number of its own. -/
def writeWords (picks : Nat → Pick) (f : Nat) : Nat → Fs × Nat → List CStr → Option (Fs × Nat)
  | _, x, [] => some x
  | i, x, w :: ws => do
    let x ← if 2 < i then appendPiece (picks (2 * i)) f x [space] else some x
    let x ← appendPiece (picks (2 * i + 1)) f x w
    writeWords picks f (i + 1) x ws

/-- The name of a new file: `strlcpy` of the leaf into `char name[VFS_NAME_MAX]`, cut at the first
    slash (`shell.c:236-240`). -/
def leafName (leaf : CStr) : CStr := (leaf.take (vfsNameMax - 1)).takeWhile (· != slash)

/-- The file that the path names, or a new one in `dir` (`shell.c:242-244`). -/
def writeTarget (picks : Nat → Pick) (s : Fs) (path : CStr) (cwd dir : Nat) (leaf : CStr) :
    Option (Fs × Nat) :=
  (vfsResolve s path cwd).bind fun f =>
    if f = 0 then vfsCreate (picks 0) s dir (leafName leaf) false else some (s, f)

/-- `cmd_write` (`shell.c:222-261`). -/
def cmdWrite (picks : Nat → Pick) (sh : Session) (argv : List CStr) :
    Option (Session × List Out) :=
  if argv.length < 3 then some (sh, [.text "usage: write <file> <text...>\n"])
  else do
    let (dir, leaf) ← vfsResolveParent sh.fs (argAt argv 1) sh.cwd none
    if dir = 0 ∨ leaf = none then
      return (sh, [.text "write: bad path ", .arg (argAt argv 1), .text "\n"])
    let (fs, f) ← writeTarget picks sh.fs (argAt argv 1) sh.cwd dir (leaf.getD [])
    if f = 0 ∨ (fs.node f).isDir ∨ (fs.node f).readonly then
      return ({ sh with fs := fs },
        [.text "write: cannot write ", .arg (argAt argv 1), .text "\n"])
    let (fs, _) ← vfsTruncate (picks 1) fs f 0
    let x ← writeWords picks f 2 (fs, 0) (argv.drop 2)
    let (fs, _) ← appendPiece (picks (2 * argv.length)) f x [newline]
    return ({ sh with fs := fs }, [])

/-- The four commands. -/
inductive Cmd where
  | cd
  | mkdir
  | write
  | rm
  deriving DecidableEq

/-- `process_command` calls the command (`shell.c:629-636`). -/
def runCmd (picks : Nat → Pick) (sh : Session) (argv : List CStr) : Cmd → Option (Session × List Out)
  | .cd => cmdCd sh argv
  | .mkdir => cmdMkdir (picks 0) sh argv
  | .write => cmdWrite picks sh argv
  | .rm => cmdRm sh argv

end ChocoOs.Shell
