import OsLabs.Xv6.Kalloc
import OsLabs.Xv6.PageTable

/-!
# Virtual memory

The functions of `vm.c` that all trees share, over an arbitrary allocator. Directories are passed
and returned by value: a function that edits a directory in place returns the edited one. A
pointer to an entry is represented by the directory it points into, so `walkpgdir` returns `none`
for the null pointer and otherwise the directory in which the entry exists. Physical addresses
are frame numbers.

The loops of the source over virtual addresses carry a fuel of `2 ^ 20 + 1`. An address is a
multiple of `PGSIZE` below `2 ^ 32`, so a loop that uses up this fuel has come back to an address
it has seen before and does not end.
-/

namespace OsLabs.Xv6

open StateError

variable {κ : Type} [Kalloc κ] [L : Layout]

/-- Computations on physical memory. -/
abbrev K (κ : Type) := EStateM Panic (Phys κ)

/-- Iterations after which a loop over page addresses repeats itself. -/
def loopFuel : ℕ := 2 ^ 20 + 1

/-- The entry a non-null result of `walkpgdir` points to. -/
def Pgdir.deref (d : Pgdir) (va : ℕ) : Pte := (d.find va).getD Pte.zero

/-- The directory in which the entry for `va` exists; with `alloc`, its page table is created. -/
def walkpgdir (pgdir : Pgdir) (va : ℕ) (alloc : Bool) : K κ (Option Pgdir) :=
  match pgdir.pde (PDX va) with
  | some _ => return some pgdir
  | none =>
    if alloc then do
      match ← kalloc with
      | none => return none
      -- the new page table is zeroed, so none of its entries is present
      | some pgtab => return some (pgdir.addTable (PDX va) pgtab)
    else return none

/-- The loop of `mappages` from the page address `a` and the frame `ppn` on. -/
def mappagesLoop (perm : Flags) (last : ℕ) : ℕ → Pgdir → ℕ → ℕ → K κ (Pgdir × Bool)
  | 0, _, _, _ => throw .hang
  | fuel + 1, pgdir, a, ppn => do
    match ← walkpgdir pgdir a true with
    | none => return (pgdir, false)
    | some pgdir =>
      if (pgdir.deref a).P then throw .remap
      else
        let pgdir := pgdir.store a { perm with ppn := ppn, P := true }
        if a = last then return (pgdir, true)
        else mappagesLoop perm last fuel pgdir (uint (a + PGSIZE)) (ppn + 1)

/-- Create entries for the addresses from `va` on that refer to the frames from `ppn` on. The
flag says whether the result is `0` rather than `-1`. -/
def mappages (pgdir : Pgdir) (va size ppn : ℕ) (perm : Flags) : K κ (Pgdir × Bool) :=
  mappagesLoop perm (PGROUNDDOWN (uint (va + size - 1))) loopFuel pgdir (PGROUNDDOWN va) ppn

/-- The loop of `deallocuvm` from the address `a` on. -/
def deallocuvmLoop (oldsz : ℕ) : ℕ → Pgdir → ℕ → K κ Pgdir
  | 0, _, _ => throw .hang
  | fuel + 1, pgdir, a =>
    if a < oldsz then
      match pgdir.find a with
      -- no page table: `a` skips to the page before the next directory entry
      | none => deallocuvmLoop oldsz fuel pgdir (PGADDR (PDX a + 1) 0 0)
      | some pte =>
        if pte.P then
          if pte.ppn = 0 then throw .kfree
          else do
            kfree pte.ppn
            deallocuvmLoop oldsz fuel (pgdir.store a Pte.zero) (uint (a + PGSIZE))
        else deallocuvmLoop oldsz fuel pgdir (uint (a + PGSIZE))
    else return pgdir

/-- Deallocate user pages to bring the size from `oldsz` to `newsz`; returns the new size. -/
def deallocuvm (pgdir : Pgdir) (oldsz newsz : ℕ) : K κ (ℕ × Pgdir) :=
  if newsz ≥ oldsz then return (oldsz, pgdir)
  else do
    let pgdir ← deallocuvmLoop oldsz loopFuel pgdir (PGROUNDUP newsz)
    return (newsz, pgdir)

/-- The loop of `allocuvm` from the address `a` on. -/
def allocuvmLoop (oldsz newsz : ℕ) : ℕ → Pgdir → ℕ → K κ (ℕ × Pgdir)
  | 0, _, _ => throw .hang
  | fuel + 1, pgdir, a =>
    if a < newsz then do
      match ← kalloc with
      | none => do
        let r ← deallocuvm pgdir newsz oldsz
        return (0, r.2)
      | some mem => do
        modify fun s => s.fill mem zeroPage
        let r ← mappages pgdir a PGSIZE mem { W := true, U := true }
        if r.2 then allocuvmLoop oldsz newsz fuel r.1 (uint (a + PGSIZE))
        else do
          let r ← deallocuvm r.1 newsz oldsz
          kfree mem
          return (0, r.2)
    else return (newsz, pgdir)

/-- Allocate page tables and memory to grow from `oldsz` to `newsz`; returns the new size, or 0
on error. -/
def allocuvm (pgdir : Pgdir) (oldsz newsz : ℕ) : K κ (ℕ × Pgdir) :=
  if newsz ≥ KERNBASE then return (0, pgdir)
  else if newsz < oldsz then return (oldsz, pgdir)
  else allocuvmLoop oldsz newsz loopFuel pgdir (PGROUNDUP oldsz)

/-- Free the page tables from the directory index `i` on, `n` of them. -/
def freeTables (pgdir : Pgdir) : ℕ → ℕ → K κ Unit
  | 0, _ => return ()
  | n + 1, i => do
    match pgdir.pde i with
    | some t => kfree t.frame
    | none => pure ()
    freeTables pgdir n (i + 1)

/-- Free a page table and all the physical memory pages in the user part. -/
def freevm (pgdir : Pgdir) : K κ Unit := do
  let r ← deallocuvm pgdir KERNBASE 0
  freeTables r.2 NPDENTRIES 0
  kfree pgdir.frame

/-- An entry of the table `kmap`: virtual start, physical start and end, permissions. -/
structure Kmap where
  virt : ℕ
  phys_start : ℕ
  phys_end : ℕ
  perm : Flags

/-- The kernel's mappings, present in every process's page table. -/
def kmap : List Kmap :=
  [⟨KERNBASE, 0, EXTMEM, { W := true }⟩,
   ⟨KERNLINK, V2P KERNLINK, V2P L.data, {}⟩,
   ⟨L.data, V2P L.data, PHYSTOP, { W := true }⟩,
   ⟨DEVSPACE, DEVSPACE, 0, { W := true }⟩]

/-- Enter the kernel mappings `ks` in `pgdir`. -/
def mapKernel : List Kmap → Pgdir → K κ (Pgdir × Bool)
  | [], pgdir => return (pgdir, true)
  | k :: ks, pgdir => do
    let r ← mappages pgdir k.virt (uint (k.phys_end + 2 ^ 32 - k.phys_start))
      (k.phys_start / PGSIZE) k.perm
    if r.2 then mapKernel ks r.1 else return (r.1, false)

/-- Set up the kernel part of a page table. -/
def setupkvm : K κ (Option Pgdir) := do
  match ← kalloc with
  | none => return none
  | some f =>
    if KERNBASE + PHYSTOP > DEVSPACE then throw .phystop
    else do
      let r ← mapKernel kmap { frame := f, pde := fun _ => none }
      if r.2 then return some r.1
      else do
        freevm r.1
        return none

/-- The bytes `bs` written over the page `p` from the offset `off` on. -/
def writeBytes (p : Page) (off : ℕ) (bs : List UInt8) : Page := fun o =>
  if off ≤ o ∧ o < off + bs.length then bs.getD (o - off) 0 else p o

/-- Load the initial code into address 0 of `pgdir`. Neither `kalloc` nor `mappages` is
checked. -/
def inituvm (pgdir : Pgdir) (init : List UInt8) : K κ Pgdir := do
  if init.length ≥ PGSIZE then throw .inituvm
  else do
    match ← kalloc with
    | none => throw .nullDeref
    | some mem => do
      modify fun s => s.fill mem zeroPage
      let r ← mappages pgdir 0 PGSIZE mem { W := true, U := true }
      modify fun s => s.fill mem (writeBytes (s.mem mem) 0 init)
      return r.1

/-- A file as `readi` gives it out: at the offset and for the length asked, the bytes it copies. A
short result is a short read or an error. -/
structure Inode where
  content : ℕ → ℕ → List UInt8

def readi (ip : Inode) (off n : ℕ) : List UInt8 := (ip.content off n).take n

/-- The loop of `loaduvm` from the offset `i` on. -/
def loaduvmLoop (pgdir : Pgdir) (addr : ℕ) (ip : Inode) (offset sz : ℕ) : ℕ → ℕ → K κ Bool
  | 0, _ => throw .hang
  | fuel + 1, i =>
    if i < sz then
      match pgdir.find (uint (addr + i)) with
      | none => throw .loaduvmExist
      | some pte => do
        let n := if sz - i < PGSIZE then sz - i else PGSIZE
        let bs := readi ip (uint (offset + i)) n
        modify fun s => s.fill pte.ppn (writeBytes (s.mem pte.ppn) 0 bs)
        if bs.length ≠ n then return false
        else loaduvmLoop pgdir addr ip offset sz fuel (uint (i + PGSIZE))
    else return true

/-- Load a program segment into `pgdir`. -/
def loaduvm (pgdir : Pgdir) (addr : ℕ) (ip : Inode) (offset sz : ℕ) : K κ Bool :=
  if addr % PGSIZE ≠ 0 then throw .loaduvmAligned
  else loaduvmLoop pgdir addr ip offset sz loopFuel 0

/-- Clear `PTE_U` on a page. -/
def clearpteu (pgdir : Pgdir) (uva : ℕ) : K κ Pgdir :=
  match pgdir.find uva with
  | none => throw .clearpteu
  | some pte => return pgdir.store uva { pte with U := false }

/-- The loop of `copyout`; `uva2ka` reads the entry without checking the pointer to it. -/
def copyoutLoop (pgdir : Pgdir) : ℕ → ℕ → List UInt8 → K κ Bool
  | 0, _, _ => throw .hang
  | fuel + 1, va, buf =>
    if buf.length = 0 then return true
    else
      let va0 := PGROUNDDOWN va
      match pgdir.find va0 with
      | none => throw .nullDeref
      | some pte =>
        if !pte.P then return false
        else if !pte.U then return false
        else do
          let n := min (PGSIZE - (va - va0)) buf.length
          modify fun s => s.fill pte.ppn (writeBytes (s.mem pte.ppn) (va - va0) (buf.take n))
          copyoutLoop pgdir fuel (uint (va0 + PGSIZE)) (buf.drop n)

/-- Copy `buf` to the user address `va` in `pgdir`. Every round copies at least one byte. -/
def copyout (pgdir : Pgdir) (va : ℕ) (buf : List UInt8) : K κ Bool :=
  copyoutLoop pgdir (buf.length + 1) va buf

end OsLabs.Xv6
