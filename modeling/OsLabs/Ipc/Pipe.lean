import Mathlib.Data.Finset.Basic
import OsLabs.Lib.Ring
import OsLabs.Lib.Simulation
import OsLabs.Xv6.Proc

/-!
# Pipes

The pipe of `src/xv6-public-master/pipe.c`, with any number of processes that read, write and close
it at once. A step is one critical section of `p->lock`: what `pipewrite` and `piperead` do between
two sleeps. Between two steps of a process any other process may take steps.

* `Pipe` is `struct pipe`, with counters that wrap around at `2 ^ 32`; `Pipe.fill` and `Pipe.drain`
  are the copying loops.
* `Call` is where a process stands, and `rd` and `wr` are the processes with the read end or the
  write end open: `fork` hands an end on, and the last `close` of an end is `pipeclose`.

A process enters `pipewrite` or `piperead` only if it has not been killed, which `trap` checks
first, and may be killed inside.
-/

namespace OsLabs.Ipc

open Xv6

/-! ## The pipe -/

def PIPESIZE : ℕ := 512

/-- `struct pipe`. -/
structure Pipe where
  data : ℕ → UInt8
  nread : ℕ := 0
  nwrite : ℕ := 0
  readopen : Bool := true
  writeopen : Bool := true

namespace Pipe

/-- The test of the inner loop of `pipewrite`. -/
def full (p : Pipe) : Bool := p.nwrite = uint (p.nread + PIPESIZE)

/-- The loop of `pipewrite` for the bytes `cs`, up to the next sleep; what is left of them. -/
def fill (p : Pipe) : List UInt8 → Pipe × List UInt8
  | [] => (p, [])
  | c :: cs =>
    if p.full then (p, c :: cs)
    else
      fill { p with
        data := Function.update p.data (p.nwrite % PIPESIZE) c
        nwrite := uint (p.nwrite + 1) } cs

/-- The loop of `piperead` for `n` more bytes; the bytes it copies. -/
def drain (p : Pipe) : ℕ → Pipe × List UInt8
  | 0 => (p, [])
  | n + 1 =>
    if p.nread = p.nwrite then (p, [])
    else
      let (p', cs) := drain { p with nread := uint (p.nread + 1) } n
      (p', p.data (p.nread % PIPESIZE) :: cs)

end Pipe

/-! ## The processes -/

/-- Where a process stands. -/
inductive Call
  | out
  /-- In `pipewrite`, with the bytes `rest` still to write. -/
  | write (rest : List UInt8)
  /-- Asleep on `&p->nwrite`. -/
  | writeSleep (rest : List UInt8)
  /-- In `piperead`, before the test of its first loop. -/
  | read (n : ℕ)
  /-- Asleep on `&p->nread`. -/
  | readSleep (n : ℕ)

/-- The pipe and the processes that use it. -/
structure State where
  pipe : Pipe
  call : ProcPtr → Call := fun _ => .out
  killed : ProcPtr → Bool := fun _ => false
  rd : Finset ProcPtr
  wr : Finset ProcPtr

namespace State

def goto (s : State) (p : ProcPtr) (c : Call) : State :=
  { s with call := Function.update s.call p c }

/-- `wakeup(&p->nread)`. -/
def wakeupRead (s : State) : State :=
  { s with call := fun p => match s.call p with | .readSleep n => .read n | c => c }

/-- `wakeup(&p->nwrite)`. -/
def wakeupWrite (s : State) : State :=
  { s with call := fun p => match s.call p with | .writeSleep rest => .write rest | c => c }

/-- `kill` of `p`, which wakes it up. -/
def kill (s : State) (p : ProcPtr) : State :=
  { s with
    killed := Function.update s.killed p true
    call := Function.update s.call p
      (match s.call p with
        | .readSleep n => .read n
        | .writeSleep rest => .write rest
        | c => c) }

/-- `close` of the read end by `p`; the last one is `pipeclose(p, 0)`. -/
def closeRead (s : State) (p : ProcPtr) : State :=
  if s.rd.erase p = ∅ then
    { s with rd := ∅, pipe := { s.pipe with readopen := false } }.wakeupWrite
  else { s with rd := s.rd.erase p }

/-- `close` of the write end by `p`; the last one is `pipeclose(p, 1)`. -/
def closeWrite (s : State) (p : ProcPtr) : State :=
  if s.wr.erase p = ∅ then
    { s with wr := ∅, pipe := { s.pipe with writeopen := false } }.wakeupRead
  else { s with wr := s.wr.erase p }

end State

/-! ## Steps -/

/-- What the processes see. -/
inductive Event
  /-- `pipewrite` of `p` has put `cs` into the pipe, and returns unless it has to sleep. -/
  | wrote (p : ProcPtr) (cs : List UInt8) (sleeps : Bool)
  /-- `pipewrite` of `p` has put `cs` into the pipe and returns `-1`. -/
  | failed (p : ProcPtr) (cs : List UInt8)
  /-- `piperead` of `p`, called for `n` bytes, returns `cs`. -/
  | got (p : ProcPtr) (n : ℕ) (cs : List UInt8)
  | closedRead (p : ProcPtr)
  | closedWrite (p : ProcPtr)
  /-- `fork` hands the ends that `p` has on to `q`. -/
  | forked (p q : ProcPtr)

open State

inductive Step : State → Option Event → State → Prop
  | write {s p cs} (h : s.call p = .out) (hp : p ∈ s.wr) (hk : s.killed p = false) :
      Step s none (s.goto p (.write cs))
  /-- `pipewrite` is done. -/
  | wrote {s p cs pipe} (h : s.call p = .write cs) (hf : s.pipe.fill cs = (pipe, [])) :
      Step s (some (.wrote p cs false)) ({ s with pipe }.goto p .out).wakeupRead
  /-- `pipewrite` finds the pipe full, and nobody who could read it, or itself killed. -/
  | failed {s p cs taken c rest pipe} (h : s.call p = .write cs) (hcs : cs = taken ++ c :: rest)
      (hf : s.pipe.fill cs = (pipe, c :: rest))
      (hk : pipe.readopen = false ∨ s.killed p = true) :
      Step s (some (.failed p taken)) ({ s with pipe }.goto p .out)
  /-- `pipewrite` finds the pipe full and sleeps. -/
  | writeSleep {s p cs taken c rest pipe} (h : s.call p = .write cs)
      (hcs : cs = taken ++ c :: rest) (hf : s.pipe.fill cs = (pipe, c :: rest))
      (hr : pipe.readopen = true) (hk : s.killed p = false) :
      Step s (some (.wrote p taken true))
        ({ s with pipe }.wakeupRead.goto p (.writeSleep (c :: rest)))
  | read {s p n} (h : s.call p = .out) (hp : p ∈ s.rd) (hk : s.killed p = false) :
      Step s none (s.goto p (.read n))
  /-- `piperead` finds bytes, or that there will be none. -/
  | got {s p n cs pipe} (h : s.call p = .read n)
      (he : ¬ (s.pipe.nread = s.pipe.nwrite ∧ s.pipe.writeopen = true))
      (hd : s.pipe.drain n = (pipe, cs)) :
      Step s (some (.got p n cs)) ({ s with pipe }.goto p .out).wakeupWrite
  /-- `piperead` finds the pipe empty and itself killed. -/
  | readKilled {s p n} (h : s.call p = .read n) (he : s.pipe.nread = s.pipe.nwrite)
      (hw : s.pipe.writeopen = true) (hk : s.killed p = true) : Step s none (s.goto p .out)
  /-- `piperead` finds the pipe empty and sleeps. -/
  | readSleep {s p n} (h : s.call p = .read n) (he : s.pipe.nread = s.pipe.nwrite)
      (hw : s.pipe.writeopen = true) (hk : s.killed p = false) :
      Step s none (s.goto p (.readSleep n))
  | kill {s p} : Step s none (s.kill p)
  /-- `fork` makes the process `q`, whose flag `killed` is `k`. -/
  | fork {s p q k} (h : s.call p = .out) (hq : s.call q = .out) (hr : q ∉ s.rd) (hw : q ∉ s.wr) :
      Step s (some (.forked p q)) { s with
        killed := Function.update s.killed q k
        rd := if p ∈ s.rd then insert q s.rd else s.rd
        wr := if p ∈ s.wr then insert q s.wr else s.wr }
  | closeRead {s p} (h : s.call p = .out) (hp : p ∈ s.rd) :
      Step s (some (.closedRead p)) (s.closeRead p)
  | closeWrite {s p} (h : s.call p = .out) (hp : p ∈ s.wr) :
      Step s (some (.closedWrite p)) (s.closeWrite p)

/-- The pipe that `pipealloc` makes for `p`, in a page with the contents `data`. -/
def piped (p : ProcPtr) (data : ℕ → UInt8) : Lts Event State where
  init s := s = { pipe := { data }, rd := {p}, wr := {p} }
  step := Step

end OsLabs.Ipc
