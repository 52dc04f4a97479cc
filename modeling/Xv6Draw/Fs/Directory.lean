import Xv6Draw.CString
import Xv6Draw.Fs.Inode

/-!
# Directories and paths

The directory and path functions of `fs.c`, and the parts of the system calls of
`sysfile.c` that run between `begin_op` and `end_op` on inodes alone. A path is the
string before its NUL. The current directory of the process is passed as the place of
its inode in the cache. There is one device, so the comparison of devices in
`sys_link` is left out.
-/

namespace Xv6Draw.Fs

open LittleEndian

/-- `T_DIR`. -/
def tDir : BitVec 16 := 1

/-- `T_FILE`. -/
def tFile : BitVec 16 := 2

/-- `T_DEV`. -/
def tDev : BitVec 16 := 3

/-- `ROOTINO`. -/
def rootino : ℕ := 1

/-- `DIRSIZ`. -/
def dirsiz : ℕ := 14

/-- The size of a `struct dirent`. -/
def direntSize : ℕ := 16

/-- A name or a path. -/
abbrev Name := List (BitVec 8)

/-- The character between the elements of a path. -/
def slash : BitVec 8 := 0x2f

/-- The name of a directory in itself. -/
def dot : Name := [0x2e]

/-- The name of the parent of a directory in it. -/
def dotdot : Name := [0x2e, 0x2e]

/-- `namecmp`. -/
def namecmp (s t : Name) : ℤ := strncmp (s.map BitVec.toNat) (t.map BitVec.toNat) dirsiz

/-- `struct dirent`. -/
structure Dirent where
  /-- The inode number, 0 for an entry that is not in use. -/
  inum : ℕ
  /-- The array of the name. -/
  name : Name

/-- An entry as it lies in a directory. -/
def Dirent.read (bytes : ℕ → BitVec 8) : Dirent :=
  ⟨load bytes 0 2, (List.range dirsiz).map fun j => bytes (2 + j)⟩

/-- The bytes of an entry whose name `strncpy` has filled. -/
def Dirent.bytes (inum : ℕ) (name : Name) : ℕ → BitVec 8 := fun j =>
  if j < 2 then digit inum j else (name.takeWhile (· ≠ 0)).getD (j - 2) 0

/-! ### Entries -/

/-- Entries are read from their sixteen bytes. -/
theorem Dirent.read_congr {f f' : ℕ → BitVec 8} (h : ∀ j < direntSize, f j = f' j) :
    read f = read f' := by
  unfold direntSize at h
  unfold read
  congr 1
  · apply load_congr
    intro j hj
    exact h _ (by omega)
  · apply List.map_congr_left
    intro j hj
    rw [List.mem_range] at hj
    unfold dirsiz at hj
    exact h _ (by omega)

/-- `readi` of an entry, with the panic of its caller. -/
def readDirent (dp : Fin ninode) (off : ℕ) (e : Panic) : FsM Dirent := do
  match ← readi dp off direntSize with
  | none => throw e
  | some bytes =>
    if bytes.length = direntSize then return Dirent.read fun j => bytes.getD j 0 else throw e

/-- The offsets of the loops over the entries of a directory. -/
def offsets (first size : ℕ) : List ℕ :=
  List.range' first ((size - first + (direntSize - 1)) / direntSize) direntSize

/-- A round of the loop of `dirlookup`. -/
def lookupAt (dp : Fin ninode) (name : Name) (off : ℕ) : FsM (Option (Fin ninode × ℕ)) := do
  let de ← readDirent dp off .dirlookupRead
  if de.inum = 0 then return none
  else if namecmp name de.name = 0 then do
    let ip ← iget de.inum
    return some (ip, off)
  else return none

/-- `dirlookup`, with the offset of the entry. -/
def dirlookup (dp : Fin ninode) (name : Name) : FsM (Option (Fin ninode × ℕ)) := do
  let s ← get
  if (s.icache dp).d.type ≠ tDir then throw .dirlookupNotDir
  else (offsets 0 (s.icache dp).d.size.toNat).findSomeM? (lookupAt dp name)

/-- A round of the loop of `dirlink`. -/
def emptyAt (dp : Fin ninode) (off : ℕ) : FsM (Option ℕ) := do
  let de ← readDirent dp off .dirlinkRead
  return if de.inum = 0 then some off else none

/-- `dirlink` behind its check of the name. -/
def addEntry (dp : Fin ninode) (name : Name) (inum : ℕ) : FsM ℤ := do
  let s ← get
  let size := (s.icache dp).d.size.toNat
  let found ← (offsets 0 size).findSomeM? (emptyAt dp)
  -- without an empty entry the loop ends behind the last one
  let off := found.getD (direntSize * ((size + (direntSize - 1)) / direntSize))
  let r ← writei dp (Dirent.bytes inum name) off direntSize
  if r ≠ direntSize then throw .dirlink else return 0

/-- `dirlink`. -/
def dirlink (dp : Fin ninode) (name : Name) (inum : ℕ) : FsM ℤ := do
  match ← dirlookup dp name with
  | some (ip, _) => do
    iput ip
    return -1
  | none => addEntry dp name inum

/-- A round of the loop of `isdirempty`. -/
def usedAt (dp : Fin ninode) (off : ℕ) : FsM (Option Unit) := do
  let de ← readDirent dp off .isdiremptyReadi
  return if de.inum ≠ 0 then some () else none

/-- `isdirempty`. -/
def isdirempty (dp : Fin ninode) : FsM Bool := do
  let s ← get
  let used ← (offsets (2 * direntSize) (s.icache dp).d.size.toNat).findSomeM? (usedAt dp)
  return used.isNone

/-! ### Paths -/

/-- `skipelem`: the next element of a path and the rest of it. -/
def skipelem (path : Name) : Option (Name × Name) :=
  match path.dropWhile (· = slash) with
  | [] => none
  | c :: cs =>
    some (((c :: cs).takeWhile (· ≠ slash)).take dirsiz,
      ((c :: cs).dropWhile (· ≠ slash)).dropWhile (· = slash))

/-- The loop of `namex`. Every round takes an element of the path. -/
def namexLoop (parent : Bool) : ℕ → Fin ninode → Name → FsM (Option (Fin ninode × Name))
  | 0, _, _ => return none
  | fuel + 1, ip, path =>
    match skipelem path with
    | none =>
      if parent then do
        iput ip
        return none
      else return some (ip, [])
    | some (name, rest) => do
      ilock ip
      let s ← get
      if (s.icache ip).d.type ≠ tDir then do
        iunlockput ip
        return none
      else if parent ∧ rest = [] then do
        iunlock ip
        return some (ip, name)
      else do
        match ← dirlookup ip name with
        | none => do
          iunlockput ip
          return none
        | some (next, _) => do
          iunlockput ip
          namexLoop parent fuel next rest

/-- The inode at which `namex` starts. -/
def namexStart (cwd : Fin ninode) (path : Name) : FsM (Fin ninode) :=
  if path.head? = some slash then iget rootino else idup cwd

/-- `namex`, with the last element of the path for `nameiparent`. -/
def namex (cwd : Fin ninode) (path : Name) (parent : Bool) : FsM (Option (Fin ninode × Name)) := do
  let ip ← namexStart cwd path
  namexLoop parent (path.length + 1) ip path

/-- `namei`. -/
def namei (cwd : Fin ninode) (path : Name) : FsM (Option (Fin ninode)) := do
  let r ← namex cwd path false
  return r.map Prod.fst

/-- `nameiparent`. -/
def nameiparent (cwd : Fin ninode) (path : Name) : FsM (Option (Fin ninode × Name)) :=
  namex cwd path true

/-! ### Links -/

/-- `sys_link` behind its label `bad`. -/
def linkBad (ip : Fin ninode) : FsM ℤ := do
  ilock ip
  setCopy ip fun d => { d with nlink := d.nlink - 1 }
  iupdate ip
  iunlockput ip
  return -1

/-- `sys_link` from the link count on. -/
def linkNew (cwd ip : Fin ninode) (new : Name) : FsM ℤ := do
  setCopy ip fun d => { d with nlink := d.nlink + 1 }
  iupdate ip
  iunlock ip
  match ← nameiparent cwd new with
  | none => linkBad ip
  | some (dp, name) => do
    ilock dp
    let s ← get
    let r ← dirlink dp name (s.icache ip).inum
    iunlockput dp
    if r < 0 then linkBad ip
    else do
      iput ip
      return 0

/-- `sys_link` between `begin_op` and `end_op`. -/
def link (cwd : Fin ninode) (old new : Name) : FsM ℤ := do
  match ← namei cwd old with
  | none => return -1
  | some ip => do
    ilock ip
    let s ← get
    if (s.icache ip).d.type = tDir then do
      iunlockput ip
      return -1
    else linkNew cwd ip new

/-- `sys_unlink` of a directory: the link of its `..` goes. -/
def dropParent (dp ip : Fin ninode) : FsM Unit := do
  let s ← get
  if (s.icache ip).d.type = tDir then do
    setCopy dp fun d => { d with nlink := d.nlink - 1 }
    iupdate dp
  else pure ()

/-- `sys_unlink` of an entry that may go. -/
def removeEntry (dp ip : Fin ninode) (off : ℕ) : FsM ℤ := do
  let r ← writei dp (fun _ => 0) off direntSize
  if r ≠ direntSize then throw .unlinkWritei
  else do
    dropParent dp ip
    iunlockput dp
    setCopy ip fun d => { d with nlink := d.nlink - 1 }
    iupdate ip
    iunlockput ip
    return 0

/-- The test of `sys_unlink` for a directory that has entries. -/
def inUse (ip : Fin ninode) : FsM Bool := do
  let s ← get
  if (s.icache ip).d.type = tDir then do
    let empty ← isdirempty ip
    return !empty
  else return false

/-- `sys_unlink` of an entry. -/
def unlinkEntry (dp ip : Fin ninode) (off : ℕ) : FsM ℤ := do
  ilock ip
  let s ← get
  if (s.icache ip).d.nlink.toInt < 1 then throw .unlinkNlink
  else do
    if ← inUse ip then do
      iunlockput ip
      iunlockput dp
      return -1
    else removeEntry dp ip off

/-- `sys_unlink` between `begin_op` and `end_op`. -/
def unlink (cwd : Fin ninode) (path : Name) : FsM ℤ := do
  match ← nameiparent cwd path with
  | none => return -1
  | some (dp, name) => do
    ilock dp
    if namecmp name dot = 0 ∨ namecmp name dotdot = 0 then do
      iunlockput dp
      return -1
    else do
      match ← dirlookup dp name with
      | none => do
        iunlockput dp
        return -1
      | some (ip, off) => unlinkEntry dp ip off

/-- `create` for a directory: its `.` and `..`, and the link for the latter. -/
def createDots (dp ip : Fin ninode) (type : BitVec 16) : FsM Unit :=
  if type = tDir then do
    setCopy dp fun d => { d with nlink := d.nlink + 1 }
    iupdate dp
    let s ← get
    let r ← dirlink ip dot (s.icache ip).inum
    if r < 0 then throw .createDots
    else do
      let r ← dirlink ip dotdot (s.icache dp).inum
      if r < 0 then throw .createDots else pure ()
  else pure ()

/-- `create` of an inode. -/
def createNew (dp : Fin ninode) (name : Name) (type major minor : BitVec 16) :
    FsM (Option (Fin ninode)) := do
  let ip ← ialloc type
  ilock ip
  setCopy ip fun d => { d with major := major, minor := minor, nlink := 1 }
  iupdate ip
  createDots dp ip type
  let s ← get
  let r ← dirlink dp name (s.icache ip).inum
  if r < 0 then throw .createDirlink
  else do
    iunlockput dp
    return some ip

/-- `create` of a name that is there. -/
def createOld (dp ip : Fin ninode) (type : BitVec 16) : FsM (Option (Fin ninode)) := do
  iunlockput dp
  ilock ip
  let s ← get
  if type = tFile ∧ (s.icache ip).d.type = tFile then return some ip
  else do
    iunlockput ip
    return none

/-- `create`. -/
def create (cwd : Fin ninode) (path : Name) (type major minor : BitVec 16) :
    FsM (Option (Fin ninode)) := do
  match ← nameiparent cwd path with
  | none => return none
  | some (dp, name) => do
    ilock dp
    match ← dirlookup dp name with
    | some (ip, _) => createOld dp ip type
    | none => createNew dp name type major minor

/-- `sys_mkdir` and `sys_mknod` between `begin_op` and `end_op`. -/
def make (cwd : Fin ninode) (path : Name) (type major minor : BitVec 16) : FsM ℤ := do
  match ← create cwd path type major minor with
  | none => return -1
  | some ip => do
    iunlockput ip
    return 0

/-- `sys_chdir` between `begin_op` and `end_op`: the new current directory. -/
def enter (cwd : Fin ninode) (path : Name) : FsM (Option (Fin ninode)) := do
  match ← namei cwd path with
  | none => return none
  | some ip => do
    ilock ip
    let s ← get
    if (s.icache ip).d.type ≠ tDir then do
      iunlockput ip
      return none
    else do
      iunlock ip
      iput cwd
      return some ip

end Xv6Draw.Fs
