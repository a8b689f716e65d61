import OsLabs.Xv6.Exec

/-!
# The kernel as a transition system

The trees differ in how `fork` copies an address space, in what a page fault does and in the
system call `mmap`; `Tree` collects these. `step` is one operation of the kernel or of a user
program on a running process, `boot` the initialisation in `main.c`, and `Reachable T C` are the
states that boot and operations lead to, with a condition `C` on every operation performed.

A panic or the dereference of a null pointer ends a run: no state is reached through it.
-/

namespace OsLabs.Xv6

open StateError

/-- What a tree of the repository adds to the common kernel. -/
structure Tree (κ : Type) where
  /-- The child's directory, if it could be made, and the parent's. -/
  copyuvm : Pgdir → ℕ → K κ (Option Pgdir × Pgdir)
  /-- `fork` calls `switchuvm` for the parent after `copyuvm`. -/
  reload : Bool
  /-- The page-fault branch of `trap`: the directory it leaves, or none where it kills. -/
  pgflt : Pgdir → ℕ → K κ (Option Pgdir)
  /-- The page-fault branch ends with `switchuvm` rather than a plain `lcr3`. -/
  switch : Bool
  /-- The system call `mmap`; it returns `-1` where it does not exist. -/
  mmap : ProcPtr → ℤ → KM κ Result

/-- Operations. All but the scheduling of a process and the kernel's own allocations are those of
a running process. -/
inductive Op
  | sched (p : ProcPtr)
  | yield (p : ProcPtr)
  | fork (p : ProcPtr)
  | sbrk (p : ProcPtr) (n : ℤ)
  | mmap (p : ProcPtr) (n : ℤ)
  /-- A user instruction reads the byte at `va`. -/
  | load (p : ProcPtr) (va : ℕ)
  /-- A user instruction writes the byte `b` at `va`. -/
  | store (p : ProcPtr) (va : ℕ) (b : UInt8)
  | exec (p : ProcPtr) (ip : Option Inode) (argv : List (List UInt8))
  | exit (p : ProcPtr)
  | wait (p : ProcPtr)
  /-- A kernel owner takes a frame. -/
  | kalloc
  /-- A kernel owner gives back a frame it holds. -/
  | kfree (f : ℕ)

section Code

variable {κ : Type} [Kalloc κ] [L : Layout] (T : Tree κ)

/-- A page fault of `cur` at `va`; whether the process goes on. -/
def trapPgflt (cur : ProcPtr) (va : ℕ) : KM κ Bool := do
  let d ← getPgdir cur
  match ← onPhys (T.pgflt d va) with
  | none => do
    setProc cur fun q => { q with killed := true }
    exit cur
    return false
  | some d => do
    setPgdir cur (some d)
    if T.switch then switchuvm cur else lcr3 cur
    return true

/-- Whether the MMU lets user code through: the page is present and the user's, and writable for
a write. -/
def Pte.permits (e : Pte) (write : Bool) : Bool := e.P && e.U && (!write || e.W)

/-- A user instruction that reads the byte at `va`, or writes it, is started again after every
page fault it survives; `n` counts them. -/
def access (cur : ProcPtr) (va : ℕ) (w : Option UInt8) : ℕ → ℕ → KM κ Result
  | 0, _ => throw .hang
  | fuel + 1, n => do
    let d ← getPgdir cur
    match (d.find va).filter (·.permits w.isSome) with
    | some e =>
      match w with
      | none => return .byte ((← get).phys.mem e.ppn (va % PGSIZE)) n
      | some b => do
        onPhys (modify fun s => s.fill e.ppn (Function.update (s.mem e.ppn) (va % PGSIZE) b))
        return .written n
    | none => do
      if ← trapPgflt T cur va then access cur va w fuel (n + 1) else return .killed

/-- An instruction that has faulted three times would fault forever. -/
def accessFuel : ℕ := 3

/-- Run an operation of the process `p`, if it is running. -/
def whenRunning (p : ProcPtr) (m : KM κ Result) : KM κ Result := do
  if ((← get).proc p).state = .RUNNING then m else return .disabled

/-- One operation. -/
def step : Op → KM κ Result
  | .sched p => do
    if ((← get).proc p).state = .RUNNABLE then do
      sched p
      return .ret 0
    else return .disabled
  | .yield p => whenRunning p do
    yield p
    return .ret 0
  | .fork p => whenRunning p (forkWith T.copyuvm T.reload p)
  | .sbrk p n => whenRunning p (sys_sbrk p n)
  | .mmap p n => whenRunning p (T.mmap p n)
  | .load p va => whenRunning p (access T p (uint va) none accessFuel 0)
  | .store p va b => whenRunning p (access T p (uint va) (some b) accessFuel 0)
  | .exec p ip argv => whenRunning p (exec p ip argv)
  | .exit p => whenRunning p do
    exit p
    return .ret 0
  | .wait p => whenRunning p (wait p)
  | .kalloc => do
    match ← onPhys kalloc with
    | none => return .ret 0
    | some f => do
      modify fun k => { k with held := f :: k.held }
      return .ret f
  | .kfree f => do
    if f ∈ (← get).held then do
      onPhys (kfree f)
      modify fun k => { k with held := k.held.erase f }
      return .ret 0
    else return .disabled

/-! ## Boot -/

/-- The loop of `freerange` from the address `p` on. -/
def freerangeLoop (vend : ℕ) : ℕ → ℕ → K κ Unit
  | 0, _ => throw .hang
  | fuel + 1, p =>
    if p + PGSIZE ≤ vend then do
      kfree (V2P p / PGSIZE)
      freerangeLoop vend fuel (p + PGSIZE)
    else return ()

@[irreducible] def freerange (vstart vend : ℕ) : K κ Unit := freerangeLoop vend loopFuel (PGROUNDUP vstart)

/-- Allocate the boot stacks of the other processors. -/
def startothers : ℕ → KM κ Unit
  | 0 => return ()
  | n + 1 => do
    match ← onPhys kalloc with
    | none => throw .nullDeref
    | some f => modify fun k => { k with held := f :: k.held }
    startothers n

/-- What the machine decides at power-on: the contents of memory, the number of further
processors, and the bytes of `initcode`. -/
structure Machine where
  mem : ℕ → Page
  others : ℕ
  initcode : List UInt8

/-- The initialisation in `main`, as far as it concerns memory and processes. -/
def boot (M : Machine) : KM κ Unit := do
  onPhys (freerange L.end_ (P2V INITSTOP))
  match ← onPhys setupkvm with
  | none => throw .nullDeref
  | some d => modify fun k => { k with kpgdir := some d }
  startothers M.others
  onPhys (freerange (P2V INITSTOP) (P2V PHYSTOP))
  userinit M.initcode

/-- The state at power-on. -/
def powerOn (M : Machine) : Kernel κ := { phys := { kmem := Kalloc.init, mem := M.mem } }

/-- The states reached from boot by operations that meet the condition `C` on the state before,
the operation and its result. -/
inductive Reachable (C : Kernel κ → Op → Result → Prop) : Kernel κ → Prop
  | boot {M : Machine} {k : Kernel κ} (h : boot M (powerOn M) = .ok () k) : Reachable C k
  | step {k k' : Kernel κ} {op : Op} {res : Result} (h : Reachable C k)
      (hs : step T op k = .ok res k') (hc : C k op res) : Reachable C k'

/-- No condition. -/
def anyOp : Kernel κ → Op → Result → Prop := fun _ _ _ => True

end Code

end OsLabs.Xv6
