import Xv6Draw.Fs.Disk

/-!
# Blocks and inodes

The block allocator, the inode cache and the contents of inodes, as in `fs.c`. The
state holds the current contents of the blocks, which are those of the buffer cache
over the disk, the blocks that were passed to `log_write` since the last `begin_op`,
and the inode cache. A function that panics ends the run. A pointer to an inode of
the cache is its place there.

One process at a time is inside the file system, so a process that would sleep for an
inode lock sleeps for itself.
-/

namespace Xv6Draw.Fs

open List LittleEndian

/-- The ways in which the file system stops: its panics, and sleeping for a lock that is
never released. -/
inductive Panic where
  | incorrectBlockno
  | outOfBlocks
  | freeingFreeBlock
  | noInodes
  | igetNoInodes
  | ilock
  | ilockNoType
  | iunlock
  | bmapOutOfRange
  | dirlookupNotDir
  | dirlookupRead
  | dirlinkRead
  | dirlink
  | isdiremptyReadi
  | unlinkNlink
  | unlinkWritei
  | createDots
  | createDirlink
  | shortFilewrite
  | fileread
  | filewrite
  | filedup
  | fileclose
  | initExiting
  | asleep
  deriving DecidableEq

/-- `NINODE`. -/
def ninode : ℕ := 50

instance : NeZero ninode := ⟨by decide⟩

/-- `struct inode`: an entry of the inode cache. -/
structure Inode where
  inum : ℕ
  ref : ℕ
  locked : Bool
  valid : Bool
  /-- The copy of the inode on the disk. -/
  d : Dinode

/-- The file system. -/
structure State where
  disk : ℕ → Block
  /-- The blocks that were passed to `log_write`. -/
  logged : List ℕ
  icache : Fin ninode → Inode

/-- The locks of the entries of the inode cache. -/
def locks (s : State) : Fin ninode → Bool := fun k => (s.icache k).locked

/-- A function of the file system. -/
abbrev FsM := StateT State (Except Panic)

/-- `bread`, with the check of `idestart`. -/
def bread (b : ℕ) : FsM Block := do
  let s ← get
  if b < fsSize then pure (s.disk b) else throw .incorrectBlockno

/-- `log_write` of a buffer with new contents. -/
def logWrite (b : ℕ) (data : Block) : FsM Unit :=
  modify fun s => { s with disk := Function.update s.disk b data, logged := s.logged ++ [b] }

/-- A change to an entry of the inode cache. -/
def setInode (k : Fin ninode) (f : Inode → Inode) : FsM Unit :=
  modify fun s => { s with icache := Function.update s.icache k (f (s.icache k)) }

/-- A change to the copy of an inode. -/
def setCopy (k : Fin ninode) (f : Dinode → Dinode) : FsM Unit :=
  setInode k fun ip => { ip with d := f ip.d }

/-! ### Blocks -/

/-- `bzero`. -/
def bzero (b : ℕ) : FsM Unit := do
  let _ ← bread b
  logWrite b fun _ => 0

/-- The block that the loops of `balloc` find. -/
def freeBlock (disk : ℕ → Block) : Option ℕ := (range fsSize).find? fun b => !bit disk b

/-- `balloc`. -/
def balloc : FsM ℕ := do
  let s ← get
  match freeBlock s.disk with
  | none => throw .outOfBlocks
  | some b =>
    let bp ← bread (bblock b)
    logWrite (bblock b) (setBit bp b)
    bzero b
    return b

/-- `bfree`. -/
def bfree (b : ℕ) : FsM Unit := do
  let bp ← bread (bblock b)
  if bitOf bp b = false then throw .freeingFreeBlock else logWrite (bblock b) (clearBit bp b)

/-! ### Inodes -/

/-- The entry that caches an inode. -/
def cachedEntry (icache : Fin ninode → Inode) (inum : ℕ) : Option (Fin ninode) :=
  (finRange ninode).find? fun k => 0 < (icache k).ref ∧ (icache k).inum = inum

/-- The first entry that is not in use. -/
def emptyEntry (icache : Fin ninode → Inode) : Option (Fin ninode) :=
  (finRange ninode).find? fun k => (icache k).ref = 0

/-- `iget`. -/
def iget (inum : ℕ) : FsM (Fin ninode) := do
  let s ← get
  match cachedEntry s.icache inum with
  | some k =>
    setInode k fun ip => { ip with ref := ip.ref + 1 }
    return k
  | none =>
    match emptyEntry s.icache with
    | none => throw .igetNoInodes
    | some k =>
      setInode k fun ip => { ip with inum := inum, ref := 1, valid := false }
      return k

/-- `idup`. -/
def idup (k : Fin ninode) : FsM (Fin ninode) := do
  setInode k fun ip => { ip with ref := ip.ref + 1 }
  return k

/-- The inode that the loop of `ialloc` finds. -/
def freeInode (disk : ℕ → Block) : Option ℕ :=
  (range' 1 (ninodes - 1)).find? fun i => (dinode disk i).type = 0

/-- `ialloc`. -/
def ialloc (type : BitVec 16) : FsM (Fin ninode) := do
  let s ← get
  match freeInode s.disk with
  | none => throw .noInodes
  | some inum =>
    let bp ← bread (iblock inum)
    logWrite (iblock inum) (writeDinode bp (inum % ipb) { Dinode.zero with type := type })
    iget inum

/-- `iupdate`. -/
def iupdate (k : Fin ninode) : FsM Unit := do
  let s ← get
  let bp ← bread (iblock (s.icache k).inum)
  logWrite (iblock (s.icache k).inum) (writeDinode bp ((s.icache k).inum % ipb) (s.icache k).d)

/-- `ilock`. -/
def ilock (k : Fin ninode) : FsM Unit := do
  let s ← get
  if (s.icache k).ref < 1 then throw .ilock
  else if (s.icache k).locked then throw .asleep
  else if (s.icache k).valid then setInode k fun ip => { ip with locked := true }
  else do
    let bp ← bread (iblock (s.icache k).inum)
    setInode k fun ip =>
      { ip with locked := true, d := readDinode bp (ip.inum % ipb), valid := true }
    if (readDinode bp ((s.icache k).inum % ipb)).type = 0 then throw .ilockNoType else pure ()

/-- `iunlock`. -/
def iunlock (k : Fin ninode) : FsM Unit := do
  let s ← get
  if (s.icache k).locked = false ∨ (s.icache k).ref < 1 then throw .iunlock
  else setInode k fun ip => { ip with locked := false }

/-- A step of the loop of `itrunc` over the direct blocks. -/
def truncDirect (k : Fin ninode) (i : ℕ) : FsM Unit := do
  let s ← get
  if (s.icache k).d.addr i = 0 then pure ()
  else do
    bfree ((s.icache k).d.addr i)
    setCopy k fun d => d.setAddr i 0

/-- A step of the loop of `itrunc` over the blocks that the indirect block lists. -/
def truncIndirect (bp : Block) (j : ℕ) : FsM Unit :=
  if load bp (4 * j) 4 = 0 then pure () else bfree (load bp (4 * j) 4)

/-- `itrunc` for the indirect block. -/
def truncRest (k : Fin ninode) : FsM Unit := do
  let s ← get
  if (s.icache k).d.addr ndirect = 0 then pure ()
  else do
    let bp ← bread ((s.icache k).d.addr ndirect)
    (range nindirect).forM (truncIndirect bp)
    bfree ((s.icache k).d.addr ndirect)
    setCopy k fun d => d.setAddr ndirect 0

/-- `itrunc`. -/
def itrunc (k : Fin ninode) : FsM Unit := do
  (range ndirect).forM (truncDirect k)
  truncRest k
  setCopy k fun d => { d with size := 0 }
  iupdate k

/-- `iput` for an inode without links and other references. -/
def ifree (k : Fin ninode) : FsM Unit := do
  itrunc k
  setCopy k fun d => { d with type := 0 }
  iupdate k
  setInode k fun ip => { ip with valid := false }

/-- `iput` up to the reference count. -/
def idrop (k : Fin ninode) : FsM Unit := do
  let s ← get
  if (s.icache k).ref = 1 ∧ (s.icache k).valid ∧ (s.icache k).d.nlink = 0 then ifree k else pure ()

/-- `iput`. -/
def iput (k : Fin ninode) : FsM Unit := do
  idrop k
  setInode k fun ip => { ip with ref := ip.ref - 1 }

/-- `iunlockput`. -/
def iunlockput (k : Fin ninode) : FsM Unit := do
  iunlock k
  iput k

/-! ### Contents -/

/-- The block at an entry of `addrs`, which is allocated when there is none. -/
def addrBlock (k : Fin ninode) (n : ℕ) : FsM ℕ := do
  let s ← get
  if (s.icache k).d.addr n = 0 then do
    let b ← balloc
    setCopy k fun d => d.setAddr n b
    return b
  else return (s.icache k).d.addr n

/-- The block at an entry of the indirect block, which is allocated when there is none. -/
def entryBlock (addr j : ℕ) : FsM ℕ := do
  let bp ← bread addr
  if load bp (4 * j) 4 = 0 then do
    let b ← balloc
    let s ← get
    logWrite addr (LittleEndian.store (s.disk addr) (4 * j) 4 b)
    return b
  else return load bp (4 * j) 4

/-- `bmap`. -/
def bmap (k : Fin ninode) (bn : ℕ) : FsM ℕ :=
  if bn < ndirect then addrBlock k bn
  else if bn - ndirect < nindirect then do
    let addr ← addrBlock k ndirect
    entryBlock addr (bn - ndirect)
  else throw .bmapOutOfRange

/-- The loop of `readi`, for the bytes that are left. -/
def readLoop (k : Fin ninode) : ℕ → ℕ → ℕ → FsM (List (BitVec 8))
  | 0, _, _ => return []
  | fuel + 1, off, n =>
    if n = 0 then return []
    else do
      let bp ← bread (← bmap k (off / bsize))
      let m := min n (bsize - off % bsize)
      let rest ← readLoop k fuel (off + m) (n - m)
      return (range' (off % bsize) m).map bp ++ rest

/-- `readi`: the bytes that are read, or nothing for -1. -/
def readi (k : Fin ninode) (off n : ℕ) : FsM (Option (List (BitVec 8))) := do
  let s ← get
  let size := (s.icache k).d.size.toNat
  if off > size ∨ (off + n) % 2 ^ 32 < off then return none
  else do
    let n := if (off + n) % 2 ^ 32 > size then size - off else n
    let bytes ← readLoop k n off n
    return some bytes

/-- A block with bytes moved into it. -/
def memmoveTo (b : Block) (o m : ℕ) (src : ℕ → BitVec 8) : Block := fun i =>
  if o ≤ i ∧ i < o + m then src (i - o) else b i

/-- The loop of `writei`, for the bytes that are left. -/
def writeLoop (k : Fin ninode) (src : ℕ → BitVec 8) : ℕ → ℕ → ℕ → ℕ → FsM Unit
  | 0, _, _, _ => return
  | fuel + 1, tot, off, n =>
    if n = 0 then return
    else do
      let b ← bmap k (off / bsize)
      let bp ← bread b
      let m := min n (bsize - off % bsize)
      logWrite b (memmoveTo bp (off % bsize) m fun i => src (tot + i))
      writeLoop k src fuel (tot + m) (off + m) (n - m)

/-- `writei` behind its loop. -/
def grow (k : Fin ninode) (n off : ℕ) : FsM Unit := do
  let s ← get
  if n > 0 ∧ off > (s.icache k).d.size.toNat then do
    setCopy k fun d => { d with size := BitVec.ofNat 32 off }
    iupdate k
  else pure ()

/-- `writei`. -/
def writei (k : Fin ninode) (src : ℕ → BitVec 8) (off n : ℕ) : FsM ℤ := do
  let s ← get
  let size := (s.icache k).d.size.toNat
  if off > size ∨ (off + n) % 2 ^ 32 < off then return -1
  else if (off + n) % 2 ^ 32 > maxfile * bsize then return -1
  else do
    writeLoop k src n 0 off n
    grow k n (off + n)
    return n

end Xv6Draw.Fs
