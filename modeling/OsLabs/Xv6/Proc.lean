import OsLabs.Xv6.Vm
import Mathlib.Data.Fintype.Basic
import Mathlib.Data.List.FinRange

/-!
# The process table

`proc.c`, up to what the trees of the repository do differently in it. A pointer into
`ptable.proc` is an index, and the fields of `struct proc` that own memory, `pgdir` and `kstack`,
are tables of their own, so that `Proc` is what remains visible to the other processes. The
saved registers, the open files, the working directory and the name take part in no decision of
the functions below and are left out.

A system call is one step: `ptable.lock` and `kmem.lock` are left out, and a process found
`RUNNING` stands for a CPU that runs it. When `wait` has to sleep, the step ends there; the loop
goes around when the process has been woken up and is scheduled again.
-/

namespace OsLabs.Xv6

open StateError

/-- `enum procstate`. -/
inductive ProcState
  | UNUSED | EMBRYO | SLEEPING | RUNNABLE | RUNNING | ZOMBIE
  deriving DecidableEq

/-- A `struct proc *` into the process table. -/
abbrev ProcPtr := Fin NPROC

/-- `struct proc`, without the memory it owns. -/
structure Proc where
  sz : ℕ := 0
  state : ProcState := .UNUSED
  pid : ℕ := 0
  parent : Option ProcPtr := none
  chan : Option ProcPtr := none
  killed : Bool := false

/-- The slots of the process table. -/
abbrev Table := ProcPtr → Proc

namespace Table

/-- Change the slot `p`. -/
def set (t : Table) (p : ProcPtr) (f : Proc → Proc) : Table := Function.update t p (f (t p))

@[simp] theorem set_self (t : Table) (p : ProcPtr) (f : Proc → Proc) : t.set p f p = f (t p) := by
  simp [set]

theorem set_ne (t : Table) {p q : ProcPtr} (f : Proc → Proc) (h : q ≠ p) : t.set p f q = t q := by
  simp [set, h]

theorem set_apply (t : Table) (p q : ProcPtr) (f : Proc → Proc) :
    t.set p f q = if q = p then f (t p) else t q := by
  by_cases h : q = p
  · subst h; simp
  · simp [set_ne, h]

theorem set_set (t : Table) (p : ProcPtr) (f g : Proc → Proc) :
    (t.set p f).set p g = t.set p fun q => g (f q) := by
  simp [set]

/-- Changing a slot in use that stays in use. -/
theorem set_unused {t : Table} {p : ProcPtr} {f : Proc → Proc} (h : (t p).state ≠ .UNUSED)
    (hf : (f (t p)).state ≠ .UNUSED) (q : ProcPtr) :
    (t.set p f q).state = .UNUSED ↔ (t q).state = .UNUSED := by
  rw [set_apply]
  split
  · rename_i hq
    rw [hq]
    exact ⟨fun e => absurd e hf, fun e => absurd e h⟩
  · rfl

/-- The first slot that satisfies `c`, in the order the source scans the table. -/
def first (t : Table) (c : Proc → Bool) : Option ProcPtr :=
  (List.finRange NPROC).find? fun p => c (t p)

theorem first_some {t : Table} {c : Proc → Bool} {p : ProcPtr} (h : t.first c = some p) :
    c (t p) = true := by
  simpa using List.find?_some h

theorem first_none {t : Table} {c : Proc → Bool} (h : t.first c = none) (p : ProcPtr) :
    c (t p) = false := by
  simpa using List.find?_eq_none.mp h p (List.mem_finRange p)

/-- Wake up all processes sleeping on `chan`. -/
def wakeup1 (t : Table) (chan : Option ProcPtr) : Table := fun p =>
  if (t p).state = .SLEEPING ∧ (t p).chan = chan then { t p with state := .RUNNABLE } else t p

/-- One round of the loop of `exit`: a child of `cur` passes to `initproc`. -/
def abandon (cur : ProcPtr) (initproc : Option ProcPtr) (t : Table) (p : ProcPtr) : Table :=
  if (t p).parent = some cur then
    let t := t.set p fun q => { q with parent := initproc }
    if (t p).state = .ZOMBIE then t.wakeup1 initproc else t
  else t

/-- What `exit` does to the table. -/
def exit (t : Table) (cur : ProcPtr) (initproc : Option ProcPtr) : Table :=
  let t := t.wakeup1 (t cur).parent
  let t := (List.finRange NPROC).foldl (abandon cur initproc) t
  t.set cur fun q => { q with state := .ZOMBIE }

/-- What `wait` does to the slot of a child it reaps. -/
def reap (t : Table) (p : ProcPtr) : Table :=
  t.set p fun q => { q with pid := 0, parent := none, killed := false, state := .UNUSED }

/-- `p` is an exited child of `cur`. -/
def zombieOf (cur : ProcPtr) (q : Proc) : Bool := q.parent = some cur && q.state = .ZOMBIE

theorem zombieOf_iff {cur : ProcPtr} {q : Proc} :
    zombieOf cur q = true ↔ q.parent = some cur ∧ q.state = .ZOMBIE := by
  simp [zombieOf]

end Table

/-- The state of the kernel. `held` are the frames of kernel owners outside the process table:
pipes and the boot stacks of the other processors. -/
structure Kernel (κ : Type) where
  phys : Phys κ
  proc : Table := fun _ => {}
  pgdir : ProcPtr → Option Pgdir := fun _ => none
  kstack : ProcPtr → Option ℕ := fun _ => none
  nextpid : ℕ := 1
  initproc : Option ProcPtr := none
  kpgdir : Option Pgdir := none
  held : List ℕ := []

/-- Computations on the kernel. -/
abbrev KM (κ : Type) := EStateM Panic (Kernel κ)

/-- The largest `int`. -/
def INT_MAX : ℕ := 2 ^ 31 - 1

/-- The `int` read from a 32-bit argument. -/
def argint (n : ℤ) : ℤ := n.bmod (2 ^ 32)

/-- What a step shows to the outside. -/
inductive Result
  /-- A system call returned. -/
  | ret (v : ℤ)
  /-- A user instruction read a byte, after some page faults. -/
  | byte (b : UInt8) (faults : ℕ)
  /-- A user instruction wrote a byte, after some page faults. -/
  | written (faults : ℕ)
  /-- The process was killed in a page fault. -/
  | killed
  /-- The process sleeps. -/
  | slept
  /-- The step is not possible in this state. -/
  | disabled
  deriving DecidableEq

section Code

variable {κ : Type} [Kalloc κ] [Layout]

/-- Run on the physical memory. -/
def onPhys {α : Type} (m : K κ α) : KM κ α :=
  zoom Kernel.phys (fun t k => { k with phys := t }) m

/-- Change the slot `p`. -/
def setProc (p : ProcPtr) (f : Proc → Proc) : KM κ Unit :=
  modify fun k => { k with proc := k.proc.set p f }

def setPgdir (p : ProcPtr) (d : Option Pgdir) : KM κ Unit :=
  modify fun k => { k with pgdir := Function.update k.pgdir p d }

def setKstack (p : ProcPtr) (f : Option ℕ) : KM κ Unit :=
  modify fun k => { k with kstack := Function.update k.kstack p f }

/-- The directory of `p`, where the source follows the pointer to it. -/
def getPgdir (p : ProcPtr) : KM κ Pgdir := do
  match (← get).pgdir p with
  | none => throw .nullDeref
  | some d => return d

/-- Look in the process table for an `UNUSED` proc and give it a kernel stack. -/
def allocproc : KM κ (Option ProcPtr) := do
  let k ← get
  match k.proc.first (·.state = .UNUSED) with
  | none => return none
  | some p =>
    if k.nextpid = INT_MAX then throw .pidOverflow
    else do
      set { k with
        proc := k.proc.set p fun q => { q with state := .EMBRYO, pid := k.nextpid }
        nextpid := k.nextpid + 1 }
      match ← onPhys kalloc with
      | none => do
        setKstack p none
        setProc p fun q => { q with state := .UNUSED }
        return none
      | some f => do
        setKstack p (some f)
        return some p

/-- Load the directory of `p` into `cr3`. -/
def lcr3 (p : ProcPtr) : KM κ Unit := do
  let d ← getPgdir p
  setPgdir p (some d.flush)

/-- Switch to the address space of `p`. -/
def switchuvm (p : ProcPtr) : KM κ Unit := do
  let k ← get
  if k.kstack p = none then throw .switchuvmKstack
  else if k.pgdir p = none then throw .switchuvmPgdir
  else lcr3 p

/-- The freeing of `p->kstack`; `kfree` panics on the null pointer. -/
def kfreeKstack (p : ProcPtr) : KM κ Unit := do
  match (← get).kstack p with
  | none => throw .kfree
  | some f => onPhys (kfree f)

/-- Set up the first user process. -/
def userinit (initcode : List UInt8) : KM κ Unit := do
  match ← allocproc with
  | none => throw .nullDeref
  | some p => do
    modify fun k => { k with initproc := some p }
    match ← onPhys setupkvm with
    | none => throw .userinit
    | some d => do
      let d ← onPhys (inituvm d initcode)
      setPgdir p (some d)
      setProc p fun q => { q with sz := PGSIZE, state := .RUNNABLE }

/-- The end of `growproc`, with the new size and the directory that `allocuvm` or `deallocuvm`
left. -/
def growprocEnd (cur : ProcPtr) (n : ℤ) (r : ℕ × Pgdir) : KM κ Bool := do
  setPgdir cur (some r.2)
  if n ≠ 0 ∧ r.1 = 0 then return false
  else do
    setProc cur fun q => { q with sz := r.1 }
    switchuvm cur
    return true

/-- Grow the memory of `cur` by `n` bytes; whether the result is `0` rather than `-1`. -/
def growproc (cur : ProcPtr) (n : ℤ) : KM κ Bool := do
  let d ← getPgdir cur
  let sz := ((← get).proc cur).sz
  if n > 0 then do
    let r ← onPhys (allocuvm d sz (addInt sz n))
    growprocEnd cur n r
  else if n < 0 then do
    let r ← onPhys (deallocuvm d sz (addInt sz n))
    growprocEnd cur n r
  else growprocEnd cur n (sz, d)

def sys_sbrk (cur : ProcPtr) (n : ℤ) : KM κ Result := do
  let addr := ((← get).proc cur).sz
  if ← growproc cur (argint n) then return .ret addr else return .ret (-1)

/-- Exit the process `cur`. -/
def exit (cur : ProcPtr) : KM κ Unit := do
  let k ← get
  if k.initproc = some cur then throw .initExiting
  else set { k with proc := k.proc.exit cur k.initproc }

/-- Wait for a child of `cur` to exit and return its pid. -/
def wait (cur : ProcPtr) : KM κ Result := do
  let k ← get
  match k.proc.first (Table.zombieOf cur) with
  | some p => do
    kfreeKstack p
    setKstack p none
    match k.pgdir p with
    | none => throw .freevm
    | some d => onPhys (freevm d)
    modify fun k => { k with proc := k.proc.reap p }
    return .ret (k.proc p).pid
  | none =>
    if (k.proc.first (·.parent = some cur)).isNone ∨ (k.proc cur).killed then return .ret (-1)
    else do
      setProc cur fun q => { q with chan := some cur, state := .SLEEPING }
      return .slept

/-- Create a new process copying `cur`. The tree says how the address space is copied and whether
`fork` reloads `cr3` afterwards; `copyuvm` returns the child's directory and the parent's as it
leaves it. -/
def forkWith (copyuvm : Pgdir → ℕ → K κ (Option Pgdir × Pgdir)) (reload : Bool)
    (cur : ProcPtr) : KM κ Result := do
  match ← allocproc with
  | none => return .ret (-1)
  | some np => do
    let d ← getPgdir cur
    let sz := ((← get).proc cur).sz
    let r ← onPhys (copyuvm d sz)
    setPgdir cur (some r.2)
    setPgdir np r.1
    match r.1 with
    | none => do
      kfreeKstack np
      setKstack np none
      setProc np fun q => { q with state := .UNUSED }
      return .ret (-1)
    | some _ => do
      if reload then switchuvm cur
      setProc np fun q => { q with sz := sz, parent := some cur, state := .RUNNABLE }
      return .ret ((← get).proc np).pid

/-- The scheduler runs `p` on some CPU. A process that slept tidies up its channel. -/
def sched (p : ProcPtr) : KM κ Unit := do
  switchuvm p
  setProc p fun q => { q with state := .RUNNING, chan := none }

/-- `cur` gives up the CPU. -/
def yield (cur : ProcPtr) : KM κ Unit := setProc cur fun q => { q with state := .RUNNABLE }

end Code

/-! ## Rules for the steps on a component -/

section Rules

variable {κ α : Type} {k : Kernel κ} {E : Panic → Kernel κ → Prop}

@[simp] theorem wp_onPhys {m : K κ α} {Q : α → Kernel κ → Prop} :
    wp (onPhys m) Q E k ↔ wp m (fun a s => Q a { k with phys := s })
      (fun e s => E e { k with phys := s }) k.phys :=
  wp_zoom _ _ _

variable {Q : Unit → Kernel κ → Prop} {p : ProcPtr}

@[simp] theorem wp_setProc {f : Proc → Proc} :
    wp (setProc p f) Q E k ↔ Q () { k with proc := k.proc.set p f } := Iff.rfl

@[simp] theorem wp_setPgdir {d : Option Pgdir} :
    wp (setPgdir p d) Q E k ↔ Q () { k with pgdir := Function.update k.pgdir p d } := Iff.rfl

@[simp] theorem wp_setKstack {f : Option ℕ} :
    wp (setKstack p f) Q E k ↔ Q () { k with kstack := Function.update k.kstack p f } := Iff.rfl

theorem wp_getPgdir {Q : Pgdir → Kernel κ → Prop} {d : Pgdir} (h : k.pgdir p = some d) :
    wp (getPgdir p) Q E k ↔ Q d k := by
  simp only [getPgdir, wp_bind, wp_get, h, wp_pure]

theorem wp_lcr3 {d : Pgdir} (h : k.pgdir p = some d) :
    wp (lcr3 p) Q E k ↔ Q () { k with pgdir := Function.update k.pgdir p (some d.flush) } := by
  simp only [lcr3, wp_bind, wp_getPgdir h, wp_setPgdir]

theorem wp_switchuvm {d : Pgdir} (h : k.pgdir p = some d) (hs : k.kstack p ≠ none) :
    wp (switchuvm p) Q E k ↔ Q () { k with pgdir := Function.update k.pgdir p (some d.flush) } := by
  simp only [switchuvm, wp_bind, wp_get, hs, h, reduceCtorEq, if_false, wp_lcr3 h]

end Rules

end OsLabs.Xv6
