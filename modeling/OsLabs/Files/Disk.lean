import OsLabs.Lib.Bytes
import OsLabs.Lib.StateError
import OsLabs.Xv6.Layout
import OsLabs.Fs.Log

/-!
# Blocks and inodes on the disk

The layers of `src/xv6-public-master/fs.c` below the inode cache: the allocator of disk blocks and
the content of inodes, byte by byte.

* `Superblock` is the layout of the disk, and `Disk` the blocks as the kernel sees them through the
  buffer cache and the log, with the blocks that the transaction has logged so far.
* `log_write` with its two panics. The rest of the log is in `OsLabs.Fs.Log`.
* `Dinode.read` and `Dinode.write` are `struct dinode` in a block.
* `balloc`, `bfree`, `bmap`, `itrunc`, `readi` and `writei`. A function that changes the in-memory
  inode returns it as it leaves it.

There is one device, so device numbers are left out, as are the locks of buffers and inodes. A
buffer that is held is read again where the code looks at it again, and `bread` always finds a
buffer: how many there are, and `bget`'s panic for want of one, is left out.
-/

namespace OsLabs.Files

open Bytes Xv6

/-! ## Layout -/

/-- Block size. -/
def BSIZE : ℕ := 512
def NDIRECT : ℕ := 12
def NINDIRECT : ℕ := BSIZE / 4
def MAXFILE : ℕ := NDIRECT + NINDIRECT
/-- The size of `struct dinode`. -/
def DINODESIZE : ℕ := 64
/-- Inodes per block. -/
def IPB : ℕ := BSIZE / DINODESIZE
/-- Bitmap bits per block. -/
@[irreducible] def BPB : ℕ := BSIZE * 8
/-- Maximum major device number. -/
def NDEV : ℕ := 10

def T_DIR : ℕ := 1
def T_FILE : ℕ := 2
def T_DEV : ℕ := 3

/-- What the super block says: `size` blocks, of which the inodes, the bitmap and then the data come
last, and `nlog` blocks for the log. -/
class Superblock where
  size : ℕ
  ninodes : ℕ
  nlog : ℕ
  inodestart : ℕ
  bmapstart : ℕ
  inodestart_pos : 0 < inodestart
  inodes_fit : inodestart + (ninodes / IPB + 1) ≤ bmapstart
  size_lt : size < 2 ^ 31
  ninodes_lt : ninodes < 2 ^ 31

variable [sb : Superblock]

/-- The block that contains inode `i`. -/
def IBLOCK (i : ℕ) : ℕ := i / IPB + sb.inodestart

/-- The block of the free map that contains the bit of block `b`. -/
def BBLOCK (b : ℕ) : ℕ := b / BPB + sb.bmapstart

/-- The first block after the bitmap. -/
def datastart : ℕ := sb.bmapstart + (sb.size / BPB + 1)

/-! ## Inodes on the disk -/

/-- `struct dinode`, and the part of `struct inode` that is a copy of it. Numbers are kept as the
unsigned numbers with the same bits. -/
@[ext] structure Dinode where
  type : ℕ := 0
  major : ℕ := 0
  minor : ℕ := 0
  nlink : ℕ := 0
  size : ℕ := 0
  addrs : ℕ → ℕ := fun _ => 0

/-- `ip->addrs[i] = b`. -/
def Dinode.setAddr (d : Dinode) (i b : ℕ) : Dinode :=
  { d with addrs := Function.update d.addrs i b }

/-- The `struct dinode` at offset `o` of a block. -/
def Dinode.read (v : Buf) (o : ℕ) : Dinode where
  type := le 2 v o
  major := le 2 v (o + 2)
  minor := le 2 v (o + 4)
  nlink := le 2 v (o + 6)
  size := le 4 v (o + 8)
  addrs i := if i < NDIRECT + 1 then le 4 v (o + 12 + 4 * i) else 0

/-- The block with `d` at offset `o`. -/
def Dinode.write (v : Buf) (o : ℕ) (d : Dinode) : Buf :=
  let v := put 2 v o d.type
  let v := put 2 v (o + 2) d.major
  let v := put 2 v (o + 4) d.minor
  let v := put 2 v (o + 6) d.nlink
  let v := put 4 v (o + 8) d.size
  puts 4 v (o + 12) d.addrs (NDIRECT + 1)

/-- The offset of inode `inum` in its block. -/
def dinodeOff (inum : ℕ) : ℕ := inum % IPB * DINODESIZE

/-! ## The disk -/

/-- The blocks, the numbers of those that `log_write` has put into the log's header in this
transaction, and how many operations are between `begin_op` and `end_op`. -/
structure Disk where
  block : ℕ → Buf
  lh : List ℕ := []
  outstanding : ℕ := 0

inductive Panic
  /-- `balloc: out of blocks`. -/
  | balloc
  /-- `freeing free block`. -/
  | bfree
  /-- `bmap: out of range`. -/
  | bmap
  /-- `ialloc: no inodes`. -/
  | ialloc
  /-- `iget: no inodes`. -/
  | iget
  /-- `ilock`. -/
  | ilock
  /-- `ilock: no type`. -/
  | ilockType
  /-- `too big a transaction`. -/
  | tooBig
  /-- `log_write outside of trans`. -/
  | outside
  /-- `short filewrite`. -/
  | filewrite
  /-- A loop that does not end. -/
  | hang
  deriving DecidableEq

abbrev DiskM := EStateM Panic Disk

def bread (b : ℕ) : DiskM Buf := do return (← get).block b

/-- A block with new contents is logged; a block of this transaction is absorbed. -/
def Disk.log (s : Disk) (b : ℕ) (v : Buf) : Disk :=
  { s with
    block := Function.update s.block b v
    lh := if b ∈ s.lh then s.lh else s.lh ++ [b] }

/-- The test of `log_write` for the size of the transaction. -/
def Disk.TooBig (s : Disk) : Prop := Fs.LOGSIZE ≤ s.lh.length ∨ sb.nlog ≤ s.lh.length + 1

instance (s : Disk) : Decidable s.TooBig := inferInstanceAs (Decidable (_ ∨ _))

/-- The buffer of block `b` was changed to `v`. -/
def log_write (b : ℕ) (v : Buf) : DiskM Unit := do
  let s ← get
  if s.TooBig then throw .tooBig
  else if s.outstanding < 1 then throw .outside
  else set (s.log b v)

/-- Zero a block. -/
def bzero (bno : ℕ) : DiskM Unit := log_write bno fun _ => 0

/-- The loop of `balloc` over the bits of the bitmap block `data`, whose first one is that of
block `b`. -/
def freeBit (data : Buf) (b : ℕ) : Option ℕ :=
  (List.range BPB).find? fun bi => b + bi < sb.size ∧ bit data bi = false

/-- The loop of `balloc` over the bitmap blocks, from block number `b` on. -/
def ballocLoop : ℕ → ℕ → DiskM ℕ
  | 0, _ => throw .hang
  | fuel + 1, b => do
    if b < sb.size then do
      let data ← bread (BBLOCK b)
      match freeBit data b with
      | some bi => do
        log_write (BBLOCK b) (setBit data bi)
        bzero (b + bi)
        return b + bi
      | none => ballocLoop fuel (b + BPB)
    else throw .balloc

/-- Allocate a zeroed disk block. -/
def balloc : DiskM ℕ := ballocLoop (sb.size + 1) 0

/-- Free a disk block. -/
def bfree (b : ℕ) : DiskM Unit := do
  let data ← bread (BBLOCK b)
  if bit data (b % BPB) = false then throw .bfree
  else log_write (BBLOCK b) (clearBit data (b % BPB))

/-- Copy a modified in-memory inode to disk. -/
def iupdate (inum : ℕ) (d : Dinode) : DiskM Unit := do
  let data ← bread (IBLOCK inum)
  log_write (IBLOCK inum) (d.write data (dinodeOff inum))

/-- The loop of `ialloc` over the inodes. -/
def iallocLoop (type : ℕ) : List ℕ → DiskM ℕ
  | [] => throw .ialloc
  | inum :: inums => do
    let v ← bread (IBLOCK inum)
    if (Dinode.read v (dinodeOff inum)).type = 0 then do
      log_write (IBLOCK inum) (Dinode.write v (dinodeOff inum) { type := type })
      return inum
    else iallocLoop type inums

/-- The inodes that `ialloc` looks at. -/
def inums : List ℕ := List.range' 1 (sb.ninodes - 1)

/-! ## Inode content -/

/-- The indirect block, allocated if necessary. -/
def bmapIndirect (d : Dinode) : DiskM Dinode := do
  if d.addrs NDIRECT = 0 then do
    let addr ← balloc
    return d.setAddr NDIRECT addr
  else return d

/-- The block in entry `j` of the indirect block, allocated if there is none. -/
def bmapEntry (d : Dinode) (j : ℕ) : DiskM (ℕ × Dinode) := do
  let a ← bread (d.addrs NDIRECT)
  if le 4 a (4 * j) = 0 then do
    let addr ← balloc
    let a ← bread (d.addrs NDIRECT)
    log_write (d.addrs NDIRECT) (put 4 a (4 * j) addr)
    return (addr, d)
  else return (le 4 a (4 * j), d)

/-- The disk block address of the `bn`th block of the inode `d`, allocated if there is none. -/
def bmap (d : Dinode) (bn : ℕ) : DiskM (ℕ × Dinode) := do
  if bn < NDIRECT then
    if d.addrs bn = 0 then do
      let addr ← balloc
      return (addr, d.setAddr bn addr)
    else return (d.addrs bn, d)
  else if bn - NDIRECT < NINDIRECT then do
    let d ← bmapIndirect d
    bmapEntry d (bn - NDIRECT)
  else throw .bmap

/-- The loop of `itrunc` over the direct blocks. -/
def truncDirect (d : Dinode) : DiskM Dinode :=
  (List.range NDIRECT).foldlM (fun d i => do
    if d.addrs i = 0 then return d
    else do
      bfree (d.addrs i)
      return d.setAddr i 0) d

/-- The loop of `itrunc` over the entries of the indirect block. -/
def truncIndirect (addr : ℕ) : DiskM Unit :=
  (List.range NINDIRECT).forM fun j => do
    let a ← bread addr
    if le 4 a (4 * j) = 0 then return ()
    else bfree (le 4 a (4 * j))

/-- Truncate an inode. -/
def itrunc (inum : ℕ) (d : Dinode) : DiskM Dinode := do
  let d ← truncDirect d
  let d ← (if d.addrs NDIRECT = 0 then return d
    else do
      truncIndirect (d.addrs NDIRECT)
      bfree (d.addrs NDIRECT)
      return d.setAddr NDIRECT 0)
  let d := { d with size := 0 }
  iupdate inum d
  return d

/-- Whether the device switch has an entry: a nonnegative major number below `NDEV`. -/
def Dinode.isDev (d : Dinode) : Prop := d.major < 2 ^ 15 ∧ d.major < NDEV

instance (d : Dinode) : Decidable d.isDev := inferInstanceAs (Decidable (_ ∧ _))

/-- The loop of `readi`: `tot` of `n` bytes are in `dst`. -/
def readLoop (n : ℕ) : ℕ → Dinode → ℕ → ℕ → List UInt8 → DiskM (List UInt8 × Dinode)
  | 0, _, _, _, _ => throw .hang
  | fuel + 1, d, off, tot, dst => do
    if tot < n then do
      let r ← bmap d (off / BSIZE)
      let data ← bread r.1
      let m := min (n - tot) (BSIZE - off % BSIZE)
      readLoop n fuel r.2 (uint (off + m)) (tot + m) (dst ++ slice data (off % BSIZE) m)
    else return (dst, d)

/-- Read `n` bytes from offset `off` on. Devices are read by `devsw[major].read`. -/
def readi (devsw : ℕ → Option (ℕ → ℤ × List UInt8)) (d : Dinode) (off n : ℕ) :
    DiskM ((ℤ × List UInt8) × Dinode) := do
  if d.type = T_DEV then
    if d.isDev then
      match devsw d.major with
      | some read => return (read n, d)
      | none => return ((-1, []), d)
    else return ((-1, []), d)
  else if d.size < off ∨ uint (off + n) < off then return ((-1, []), d)
  else do
    let n := if d.size < uint (off + n) then d.size - off else n
    let r ← readLoop n (n + 1) d off 0 []
    return ((n, r.1), r.2)

/-- The loop of `writei`: `tot` bytes of `src` are written. -/
def writeLoop (src : List UInt8) : ℕ → Dinode → ℕ → ℕ → DiskM (ℕ × Dinode)
  | 0, _, _, _ => throw .hang
  | fuel + 1, d, off, tot => do
    if tot < src.length then do
      let r ← bmap d (off / BSIZE)
      let data ← bread r.1
      let m := min (src.length - tot) (BSIZE - off % BSIZE)
      log_write r.1 (blit data (off % BSIZE) ((src.drop tot).take m))
      writeLoop src fuel r.2 (uint (off + m)) (tot + m)
    else return (off, d)

/-- Write the bytes `src` from offset `off` on. Devices are written by `devsw[major].write`. -/
def writei (devsw : ℕ → Option (List UInt8 → ℤ)) (inum : ℕ) (d : Dinode) (off : ℕ)
    (src : List UInt8) : DiskM (ℤ × Dinode) := do
  if d.type = T_DEV then
    if d.isDev then
      match devsw d.major with
      | some write => return (write src, d)
      | none => return (-1, d)
    else return (-1, d)
  else if d.size < off ∨ uint (off + src.length) < off then return (-1, d)
  else if MAXFILE * BSIZE < uint (off + src.length) then return (-1, d)
  else do
    let r ← writeLoop src (src.length + 1) d off 0
    if 0 < src.length ∧ r.2.size < r.1 then do
      let d := { r.2 with size := r.1 }
      iupdate inum d
      return (src.length, d)
    else return (src.length, r.2)

end OsLabs.Files
