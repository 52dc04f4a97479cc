import Xv6Draw.Fs.Directory
import Xv6Draw.Fs.Log

/-!
# `mkfs`

The host program that writes the first image of the disk. It has its own block allocator,
which hands out the blocks behind the metadata one after the other, its own way from an
inode to the blocks of its file, and writes the bitmap at the end. The numbers of the
image are in the byte order of the kernel, whatever that of the host is, so `xshort`
and `xint` are the reading and writing of numbers in bytes.

The state is behind the loop that has filled the image with zeros. Since then the image
has `FSSIZE` blocks: every block is read before it is written, and reading behind the end
ends the program. The files can be opened, and `read` returns the bytes of a file block by
block.
-/

namespace Xv6Draw.Mkfs

open Fs LittleEndian

/-- An input file. -/
structure File where
  /-- The argument of `main`. -/
  name : Name
  data : List (BitVec 8)
  deriving DecidableEq

/-- The ways in which the program fails. -/
inductive Exit where
  /-- The assertion that a name has no slash. -/
  | slash
  /-- The assertion that a file has at most `MAXFILE` blocks. -/
  | maxfile
  /-- The assertion about the inode of the root. -/
  | rootino
  /-- The assertion that the bitmap is one block. -/
  | used
  /-- `rsect` behind the end of the image. -/
  | read
  deriving DecidableEq

/-- The image and the global variables. -/
structure State where
  img : ℕ → Block
  freeinode : ℕ
  freeblock : ℕ

/-- A function of `mkfs`. -/
abbrev MkM := StateT State (Except Exit)

/-- `rsect`. -/
def rsect (sec : ℕ) : MkM Block := do
  let st ← get
  if sec < fsSize then pure (st.img sec) else throw .read

/-- `wsect`. -/
def wsect (sec : ℕ) (buf : Block) : MkM Unit :=
  modify fun st => { st with img := Function.update st.img sec buf }

/-- `winode`. -/
def winode (inum : ℕ) (ip : Dinode) : MkM Unit := do
  let buf ← rsect (iblock inum)
  wsect (iblock inum) (writeDinode buf (inum % ipb) ip)

/-- `rinode`. -/
def rinode (inum : ℕ) : MkM Dinode := do
  let buf ← rsect (iblock inum)
  return readDinode buf (inum % ipb)

/-- `ialloc`. -/
def ialloc (type : BitVec 16) : MkM ℕ := do
  let st ← get
  set { st with freeinode := st.freeinode + 1 }
  winode st.freeinode { Dinode.zero with type := type, nlink := 1 }
  return st.freeinode

/-- `freeblock++`. -/
def nextBlock : MkM ℕ := do
  let st ← get
  set { st with freeblock := st.freeblock + 1 }
  return st.freeblock

/-- The block at an entry of `addrs`, which is the next one when there is none. -/
def addrBlock (din : Dinode) (n : ℕ) : MkM (Dinode × ℕ) := do
  if din.addr n = 0 then do
    let b ← nextBlock
    return (din.setAddr n b, (din.setAddr n b).addr n)
  else return (din, din.addr n)

/-- The block at an entry of the indirect block, which is the next one when there is none. -/
def entryBlock (addr j : ℕ) : MkM ℕ := do
  let indirect ← rsect addr
  if load indirect (4 * j) 4 = 0 then do
    let b ← nextBlock
    wsect addr (LittleEndian.store indirect (4 * j) 4 b)
    return load (LittleEndian.store indirect (4 * j) 4 b) (4 * j) 4
  else return load indirect (4 * j) 4

/-- The part of the loop of `iappend` that finds the block `x`. -/
def fileBlock (din : Dinode) (fbn : ℕ) : MkM (Dinode × ℕ) :=
  if fbn < ndirect then addrBlock din fbn
  else do
    let (din, addr) ← addrBlock din ndirect
    let x ← entryBlock addr (fbn - ndirect)
    return (din, x)

/-- The loop of `iappend`, for the bytes that are left. -/
def appendLoop : ℕ → Dinode → ℕ → List (BitVec 8) → MkM (Dinode × ℕ)
  | 0, din, off, _ => return (din, off)
  | fuel + 1, din, off, p =>
    if p = [] then return (din, off)
    else if off / bsize < maxfile then do
      let (din, x) ← fileBlock din (off / bsize)
      let n1 := min p.length ((off / bsize + 1) * bsize - off)
      let buf ← rsect x
      wsect x (memmoveTo buf (off - off / bsize * bsize) n1 fun i => p.getD i 0)
      appendLoop fuel din (off + n1) (p.drop n1)
    else throw .maxfile

/-- `iappend`. -/
def iappend (inum : ℕ) (p : List (BitVec 8)) : MkM Unit := do
  let din ← rinode inum
  let (din, off) ← appendLoop p.length din din.size.toNat p
  winode inum { din with size := BitVec.ofNat 32 off }

/-- A round of the loop of `balloc`. -/
def markUsed (buf : Block) (i : ℕ) : Block :=
  Function.update buf (i / 8) (buf (i / 8) ||| 1#8 <<< (i % 8))

/-- The bitmap that `balloc` writes. -/
def bitmap (used : ℕ) : Block := (List.range used).foldl markUsed fun _ => 0

/-- `balloc`. -/
def balloc (used : ℕ) : MkM Unit :=
  if used < bsize * 8 then wsect bmapstart (bitmap used) else throw .used

/-- The bytes of a `struct dirent`. -/
def direntBytes (inum : ℕ) (name : Name) : List (BitVec 8) :=
  (List.range direntSize).map (Dirent.bytes inum name)

/-- The loop that copies a file. -/
def copyFile (inum : ℕ) : ℕ → List (BitVec 8) → MkM Unit
  | 0, _ => return
  | fuel + 1, data =>
    if data = [] then return
    else do
      iappend inum (data.take bsize)
      copyFile inum fuel (data.drop bsize)

/-- A name without a leading underscore. -/
def skipUnderscore : Name → Name
  | [] => []
  | c :: cs => if c = 0x5f then cs else c :: cs

/-- A round of the loop of `main` over the files. -/
def addFile (rootino : ℕ) (f : File) : MkM Unit :=
  if slash ∈ f.name then throw .slash
  else do
    let inum ← ialloc tFile
    iappend rootino (direntBytes inum (skipUnderscore f.name))
    copyFile inum f.data.length f.data

/-- The superblock. -/
def superblock : Block :=
  [fsSize, fsSize - nmeta, ninodes, Log.logSize, 2, inodestart, bmapstart].zipIdx.foldl
    (fun buf x => LittleEndian.store buf (4 * x.2) 4 x.1) fun _ => 0

/-- `main` makes the root directory. -/
def makeRoot : MkM Unit := do
  wsect 1 superblock
  let root ← ialloc tDir
  if root = rootino then do
    iappend root (direntBytes root dot)
    iappend root (direntBytes root dotdot)
  else throw .rootino

/-- `main` rounds the size of the root directory up and writes the bitmap. -/
def finish : MkM Unit := do
  let din ← rinode rootino
  winode rootino { din with size := BitVec.ofNat 32 ((din.size.toNat / bsize + 1) * bsize) }
  let st ← get
  balloc st.freeblock

/-- `main`. -/
def main (files : List File) : MkM Unit := do
  makeRoot
  files.forM (addFile rootino)
  finish

/-- An image of zeros. -/
def blank : State := ⟨fun _ _ => 0, 1, nmeta⟩

/-- The image that `mkfs` writes. -/
def mkfs (files : List File) : Except Exit (ℕ → Block) := do
  let r ← main files blank
  return r.2.img

end Xv6Draw.Mkfs
