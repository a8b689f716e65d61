import OsLabs.Xv6.Proc

/-!
# The process table under interleaving

The process table of `src/xv6-public-master/proc.c` with any number of processes inside `fork`,
`spawn`, `exit`, `wait` and `kill` at once. A step is one critical section of `ptable.lock`, or one
of the writes the code makes without the lock: a slot put back to `UNUSED` when `kalloc` or
`copyuvm` fails, and the parent of a new process. Between two steps of a process any other process
may take steps, and a process may lose the CPU anywhere.

`Pc` is where a process stands inside `fork`, `spawn` and `wait`; `Step` are the steps, and
`Reachable` the states they lead to.

The fields of `struct proc` that own memory are left out, and with them the reasons for which
`kalloc` and `copyuvm` fail: both outcomes are possible at every call.
-/

namespace OsLabs.Base

open Xv6

/-! ## The model -/

/-- Who calls `allocproc`. -/
inductive Job
  | fork
  /-- `spawn`, with the number of rounds left after this one. -/
  | spawn (left : ℕ)

/-- Where a process stands. -/
inductive Pc
  /-- Outside the functions below. -/
  | user
  /-- Before the critical section of `allocproc`. -/
  | allocproc (j : Job)
  /-- Before the allocation of the kernel stack of `np`. -/
  | kstack (j : Job) (np : ProcPtr)
  /-- Before `copyuvm`. -/
  | copyuvm (j : Job) (np : ProcPtr)
  /-- Before the critical section that makes `np` runnable. -/
  | publish (j : Job) (np : ProcPtr)
  /-- Asleep in `wait`, or back from that sleep. -/
  | wait

/-- Where a process goes when it is done with a child: `fork` returns, `spawn` goes around. -/
def Job.next : Job → Pc
  | .fork => .user
  | .spawn 0 => .user
  | .spawn (n + 1) => .allocproc (.spawn n)

/-- The process table and the processes. `created` are the pids that `fork` has returned or `spawn`
has stored, `waited` those that `wait` has returned; `hit p` says whether `kill` has been called
with the pid of slot `p` since `allocproc` assigned it. -/
structure State where
  proc : Table
  nextpid : ℕ
  initproc : ProcPtr
  pc : ProcPtr → Pc := fun _ => .user
  created : List ℕ := []
  waited : List ℕ := []
  hit : ProcPtr → Bool := fun _ => false

namespace State

/-- Change the slot `p`. -/
def setProc (s : State) (p : ProcPtr) (f : Proc → Proc) : State :=
  { s with proc := s.proc.set p f }

def setPc (s : State) (p : ProcPtr) (c : Pc) : State :=
  { s with pc := Function.update s.pc p c }

theorem setProc_self (s : State) (p : ProcPtr) (f : Proc → Proc) :
    (s.setProc p f).proc p = f (s.proc p) :=
  Table.set_self s.proc p f

theorem setProc_of_ne (s : State) {p q : ProcPtr} (h : q ≠ p) (f : Proc → Proc) :
    (s.setProc p f).proc q = s.proc q :=
  Table.set_ne s.proc f h

theorem setPc_self (s : State) (p : ProcPtr) (c : Pc) : (s.setPc p c).pc p = c :=
  Function.update_self ..

theorem setPc_of_ne (s : State) {p q : ProcPtr} (h : q ≠ p) (c : Pc) :
    (s.setPc p c).pc q = s.pc q :=
  Function.update_of_ne h ..

end State

/-- The first slot. -/
def slot0 : ProcPtr := ⟨0, by decide⟩

/-- After `userinit`: the first process is in the first slot, with the first pid. -/
def userinit : State where
  proc := Table.set (fun _ => {}) slot0 fun q =>
    { q with pid := 1, sz := PGSIZE, state := .RUNNABLE }
  nextpid := 2
  initproc := slot0

/-- What a step shows. -/
inductive Event
  | tau
  /-- A child is made `RUNNABLE`. -/
  | published (np : ProcPtr)
  /-- A failed `fork` or `spawn` puts the slot back to `UNUSED`. -/
  | unborn (np : ProcPtr)
  /-- `kill(pid)` returns. -/
  | kill (pid ret : ℤ)

/-- `kill(pid)` on the slot it finds. -/
def killed (q : Proc) : Proc :=
  { q with killed := true, state := if q.state = .SLEEPING then .RUNNABLE else q.state }

/-- `p` may call `wait` or go around in it. -/
def Pc.InWait (c : Pc) : Prop := c = .user ∨ c = .wait

/-- The steps. -/
inductive Step : State → Event → State → Prop
  /-- The scheduler runs `p`; one that slept tidies up its channel. -/
  | sched {s : State} {p : ProcPtr} (h : (s.proc p).state = .RUNNABLE) :
      Step s .tau (s.setProc p fun q => { q with state := .RUNNING, chan := none })
  | yield {s : State} {p : ProcPtr} (h : (s.proc p).state = .RUNNING) :
      Step s .tau (s.setProc p fun q => { q with state := .RUNNABLE })
  /-- `p` sleeps on something that is not a process. -/
  | sleep {s : State} {p : ProcPtr} (h : (s.proc p).state = .RUNNING) :
      Step s .tau (s.setProc p fun q => { q with state := .SLEEPING, chan := none })
  | wakeup {s : State} {p : ProcPtr} (h : (s.proc p).state = .SLEEPING)
      (hc : (s.proc p).chan = none) :
      Step s .tau (s.setProc p fun q => { q with state := .RUNNABLE })
  | fork {s : State} {p : ProcPtr} (h : (s.proc p).state = .RUNNING) (hpc : s.pc p = .user) :
      Step s .tau (s.setPc p (.allocproc .fork))
  | spawn {s : State} {p : ProcPtr} (h : (s.proc p).state = .RUNNING) (hpc : s.pc p = .user)
      (n : ℤ) : Step s .tau (s.setPc p (Job.spawn n.toNat).next)
  /-- `allocproc` finds no unused slot. -/
  | noslot {s : State} {p : ProcPtr} {j : Job} (h : (s.proc p).state = .RUNNING)
      (hpc : s.pc p = .allocproc j) (hf : s.proc.first (·.state = .UNUSED) = none) :
      Step s .tau (s.setPc p j.next)
  /-- `allocproc` takes the first unused slot; `nextpid++` does not overflow. -/
  | alloc {s : State} {p np : ProcPtr} {j : Job} (h : (s.proc p).state = .RUNNING)
      (hpc : s.pc p = .allocproc j) (hf : s.proc.first (·.state = .UNUSED) = some np)
      (hpid : s.nextpid < INT_MAX) :
      Step s .tau { (s.setProc np fun q => { q with state := .EMBRYO, pid := s.nextpid }).setPc p
        (.kstack j np) with
          nextpid := s.nextpid + 1
          hit := Function.update s.hit np false }
  /-- No memory for the kernel stack. -/
  | nostack {s : State} {p np : ProcPtr} {j : Job} (h : (s.proc p).state = .RUNNING)
      (hpc : s.pc p = .kstack j np) :
      Step s (.unborn np) ((s.setProc np fun q => { q with state := .UNUSED }).setPc p j.next)
  | stack {s : State} {p np : ProcPtr} {j : Job} (h : (s.proc p).state = .RUNNING)
      (hpc : s.pc p = .kstack j np) : Step s .tau (s.setPc p (.copyuvm j np))
  /-- No memory for the copy. -/
  | nocopy {s : State} {p np : ProcPtr} {j : Job} (h : (s.proc p).state = .RUNNING)
      (hpc : s.pc p = .copyuvm j np) :
      Step s (.unborn np) ((s.setProc np fun q => { q with state := .UNUSED }).setPc p j.next)
  /-- The copy is made, and the parent is set. -/
  | copy {s : State} {p np : ProcPtr} {j : Job} (h : (s.proc p).state = .RUNNING)
      (hpc : s.pc p = .copyuvm j np) :
      Step s .tau ((s.setProc np fun q =>
        { q with sz := (s.proc p).sz, parent := some p }).setPc p (.publish j np))
  | publish {s : State} {p np : ProcPtr} {j : Job} (h : (s.proc p).state = .RUNNING)
      (hpc : s.pc p = .publish j np) :
      Step s (.published np) { ((s.setProc np fun q => { q with state := .RUNNABLE }).setPc p
        j.next).setPc np .user with created := (s.proc np).pid :: s.created }
  | exit {s : State} {p : ProcPtr} (h : (s.proc p).state = .RUNNING) (hpc : s.pc p = .user)
      (hi : p ≠ s.initproc) : Step s .tau { s with proc := s.proc.exit p (some s.initproc) }
  /-- `wait` finds an exited child. -/
  | reap {s : State} {p q : ProcPtr} (h : (s.proc p).state = .RUNNING) (hpc : (s.pc p).InWait)
      (hf : s.proc.first (Table.zombieOf p) = some q) :
      Step s .tau { s.setPc p .user with
        proc := s.proc.reap q
        waited := (s.proc q).pid :: s.waited }
  /-- `wait` returns -1. -/
  | nochild {s : State} {p : ProcPtr} (h : (s.proc p).state = .RUNNING) (hpc : (s.pc p).InWait)
      (hf : s.proc.first (Table.zombieOf p) = none)
      (hn : (s.proc.first (·.parent = some p)).isNone ∨ (s.proc p).killed) :
      Step s .tau (s.setPc p .user)
  /-- `wait` goes to sleep. -/
  | waitSleep {s : State} {p : ProcPtr} (h : (s.proc p).state = .RUNNING)
      (hpc : (s.pc p).InWait) (hf : s.proc.first (Table.zombieOf p) = none)
      (hn : ¬((s.proc.first (·.parent = some p)).isNone ∨ (s.proc p).killed)) :
      Step s .tau ((s.setProc p fun q => { q with chan := some p, state := .SLEEPING }).setPc p
        .wait)
  /-- `kill` finds a slot with that pid, whatever its state. -/
  | kill {s : State} {p q : ProcPtr} (h : (s.proc p).state = .RUNNING) (hpc : s.pc p = .user)
      {pid : ℤ} (hf : s.proc.first (fun q => (q.pid : ℤ) = pid) = some q) :
      Step s (.kill pid 0) { s.setProc q killed with
        hit := fun r => s.hit r || ((s.proc r).pid : ℤ) = pid }
  | nokill {s : State} {p : ProcPtr} (h : (s.proc p).state = .RUNNING) (hpc : s.pc p = .user)
      {pid : ℤ} (hf : s.proc.first (fun q => (q.pid : ℤ) = pid) = none) :
      Step s (.kill pid (-1)) s

/-- The states reached from `userinit` by steps that all satisfy `C`. -/
inductive Reachable (C : State → Event → Prop) : State → Prop
  | init : Reachable C userinit
  | step {s s' : State} {e : Event} (h : Reachable C s) (hs : Step s e s') (hC : C s e) :
      Reachable C s'

end OsLabs.Base
