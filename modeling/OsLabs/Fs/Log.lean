import Mathlib.Data.List.Nodup
import Mathlib.Logic.Function.Basic
import OsLabs.Lib.Simulation
import OsLabs.Xv6.Proc

/-!
# The file system's log

The redo log of `src/xv6-public-master/log.c` over the buffer cache of `bio.c`, with any number of
processes inside `begin_op`, `log_write`, `end_op` and `bread` at once, and with a crash possible
between any two writes to the disk, also while the log is being recovered.

* A block is the function of its 32-bit words, and `Super` is the part of the superblock that
  describes the log.
* `State` is the disk, the buffer cache and `struct log`; `Pc` says which write to the disk the
  process inside `commit` or `recover_from_log` makes next, and `Call` where a process stands in
  `begin_op` and `end_op`.
* `Step` are the steps. Between `begin_op` and `end_op` a process changes a block by `bread`, a
  write to the buffer it holds locked, and `log_write`: nobody sees the buffer in between, so the
  three are one step. `log_write` makes its tests before it takes `log.lock`; `OsLabs.Fs.LogWrite`
  has them as a step of their own. A panic is a state that takes no step but a crash.

The buffers' locks, the `LRU` order and the number of buffers are left out: a clean buffer may be
recycled at any time.
-/

namespace OsLabs.Fs

open Xv6

/-! ## Blocks -/

/-- Maximum number of blocks that an operation writes. -/
def MAXOPBLOCKS : ℕ := 10
/-- Maximum number of data blocks in the log. -/
def LOGSIZE : ℕ := MAXOPBLOCKS * 3

/-- A disk block, as its words. -/
abbrev Block := ℕ → ℕ

/-- `write_head` copies `struct logheader` over the words at the start of the block: `n`, then the
block numbers. -/
def encode (lh : List ℕ) (old : Block) : Block
  | 0 => lh.length
  | i + 1 => lh.getD i (old (i + 1))

/-- The header that `read_head` finds in a block. -/
def decode (v : Block) : List ℕ := (List.range (v 0)).map fun i => v (i + 1)

theorem decode_encode (lh : List ℕ) (old : Block) : decode (encode lh old) = lh := by
  apply List.ext_getElem
  · simp [decode, encode]
  · intro i h₁ h₂
    simp [decode, encode, h₂]

/-- The superblock's description of the log: its first block, the header, and its size. -/
structure Super where
  logstart : ℕ
  nlog : ℕ
  nlog_pos : 0 < nlog

/-- `b` is no block of the log. -/
def Super.Home (sb : Super) (b : ℕ) : Prop := b < sb.logstart ∨ sb.logstart + sb.nlog ≤ b

/-! ## The state -/

/-- Where a process stands. -/
inductive Call
  /-- Outside any operation. -/
  | out
  /-- In the loop of `begin_op`, before it looks at the log. -/
  | begin_op
  /-- Asleep on `&log`. -/
  | asleep
  /-- Between `begin_op` and `end_op`; `used` blocks were added to the header so far. -/
  | inside (used : ℕ)
  /-- In `end_op`, with the commit to do. -/
  | commit

/-- What the process inside `commit` or `recover_from_log` does next. -/
inductive Pc
  | idle
  | read_head
  | write_log (tail : ℕ)
  | write_head
  | install_trans (tail : ℕ)
  /-- `write_head` after `log.lh.n = 0`. -/
  | clear_head
  /-- `commit` or `recover_from_log` returns. -/
  | finish
  deriving DecidableEq

/-- The disk, the buffers and `struct log`. `data b` is the content of the buffer for `b`, where
there is a valid one, and `dirty b` its flag `B_DIRTY`. `up` says that `initlog` has returned;
before that no process runs but the one inside `initlog`. -/
structure State where
  disk : ℕ → Block
  data : ℕ → Option Block := fun _ => none
  dirty : ℕ → Bool := fun _ => false
  lh : List ℕ := []
  outstanding : ℕ := 0
  committing : Bool := false
  pc : Pc := .read_head
  up : Bool := false
  call : ProcPtr → Call := fun _ => .out

namespace State

/-! ## Buffers -/

/-- What `bread` returns. -/
def bread (s : State) (b : ℕ) : Block := (s.data b).getD (s.disk b)

/-- `bread` leaves a valid buffer. -/
def load (s : State) (b : ℕ) : State :=
  { s with data := Function.update s.data b (some (s.bread b)) }

/-- `bwrite` of the buffer for `b` with content `v`: when it returns, the block is on the disk and
the buffer is clean. -/
def bwrite (s : State) (b : ℕ) (v : Block) : State :=
  { s with
    disk := Function.update s.disk b v
    data := Function.update s.data b (some v)
    dirty := Function.update s.dirty b false }

/-! ## The log -/

/-- The iteration of `install_trans` for the block `b` at `tail`. -/
def install (sb : Super) (s : State) (tail b : ℕ) : State :=
  ((s.load (sb.logstart + tail + 1)).load b).bwrite b (s.bread (sb.logstart + tail + 1))

/-- The iteration of `write_log` for the block `b` at `tail`. -/
def write_log (sb : Super) (s : State) (tail b : ℕ) : State :=
  ((s.load (sb.logstart + tail + 1)).load b).bwrite (sb.logstart + tail + 1) (s.bread b)

def read_head (sb : Super) (s : State) : State :=
  { s.load sb.logstart with lh := decode (s.bread sb.logstart) }

def write_head (sb : Super) (s : State) : State :=
  (s.load sb.logstart).bwrite sb.logstart (encode s.lh (s.bread sb.logstart))

/-- The next step of `commit` or `recover_from_log`: one write to the disk, or none. -/
def advance (sb : Super) (s : State) : State :=
  match s.pc with
  | .read_head => { s.read_head sb with pc := .install_trans 0 }
  | .write_log tail =>
    match s.lh[tail]? with
    | some b => { s.write_log sb tail b with pc := .write_log (tail + 1) }
    | none => { s with pc := .write_head }
  | .write_head => { s.write_head sb with pc := .install_trans 0 }
  | .install_trans tail =>
    match s.lh[tail]? with
    | some b => { s.install sb tail b with pc := .install_trans (tail + 1) }
    | none => { s with lh := [], pc := .clear_head }
  | .clear_head => { s.write_head sb with pc := .finish }
  | .idle => s
  | .finish => s

/-- There is space in the log for one more operation. -/
def Room (s : State) : Prop := s.lh.length + (s.outstanding + 1) * MAXOPBLOCKS ≤ LOGSIZE

instance (s : State) : Decidable s.Room := inferInstanceAs (Decidable (_ ≤ _))

/-- The header with `b` in it: the search loop of `log_write` and the assignment after it. -/
def record (lh : List ℕ) (b : ℕ) : List ℕ :=
  let i := lh.idxOf b
  if i = lh.length then lh ++ [b] else lh.set i b

/-- `log_write` panics with `too big a transaction`. -/
def TooBig (sb : Super) (s : State) : Prop := LOGSIZE ≤ s.lh.length ∨ sb.nlog ≤ s.lh.length + 1

instance (sb : Super) (s : State) : Decidable (s.TooBig sb) := inferInstanceAs (Decidable (_ ∨ _))

/-- What `log_write` does under `log.lock`, for the buffer for `b`, to which its caller has
written `v`. -/
def append (s : State) (b : ℕ) (v : Block) : State :=
  { s with
    data := Function.update s.data b (some v)
    dirty := Function.update s.dirty b true
    lh := record s.lh b }

/-- `log_write` of the buffer for `b`, to which its caller has written `v`; `none` is a panic. -/
def log_write (sb : Super) (s : State) (b : ℕ) (v : Block) : Option State :=
  if s.TooBig sb then none
  else if s.outstanding < 1 then none
  else some (s.append b v)

/-- The process `p` goes on at `c`. -/
def goto (s : State) (p : ProcPtr) (c : Call) : State :=
  { s with call := Function.update s.call p c }

/-- `wakeup(&log)`. -/
def wakeup (s : State) : State :=
  { s with call := fun p => match s.call p with | .asleep => .begin_op | c => c }

/-- What a crash leaves: the disk. The next boot starts in `recover_from_log`. -/
def crash (s : State) : State := { disk := s.disk }

end State

/-! ## Steps -/

/-- What the users of the disk see. -/
inductive Event
  /-- `begin_op` returns in `p`. -/
  | begin (p : ProcPtr)
  /-- `p` reads `v` in block `b`. -/
  | read (p : ProcPtr) (b : ℕ) (v : Block)
  /-- `p` writes `v` to block `b`. -/
  | write (p : ProcPtr) (b : ℕ) (v : Block)
  /-- The operation of `p` is over. -/
  | done (p : ProcPtr)
  /-- `end_op` returns in `p`, which did the commit. -/
  | durable (p : ProcPtr)
  | crash

open State

/-- The steps of the kernel, of its disk, and the crash. -/
inductive Step (sb : Super) : State → Option Event → State → Prop
  | begin_op {s p} (hup : s.up) (h : s.call p = .out) : Step sb s none (s.goto p .begin_op)
  | sleep {s p} (h : s.call p = .begin_op) (hc : s.committing ∨ ¬ s.Room) :
      Step sb s none (s.goto p .asleep)
  | enter {s p} (h : s.call p = .begin_op) (hc : s.committing = false) (hr : s.Room) :
      Step sb s (some (.begin p)) { s.goto p (.inside 0) with outstanding := s.outstanding + 1 }
  | read {s p b} (hup : s.up) (hb : sb.Home b) : Step sb s (some (.read p b (s.bread b))) (s.load b)
  | write {s p used b v s'} (h : s.call p = .inside used) (hb : sb.Home b)
      (hw : s.log_write sb b v = some s') :
      Step sb s (some (.write p b v))
        (s'.goto p (.inside (used + (s'.lh.length - s.lh.length))))
  /-- `end_op` with other operations under way. -/
  | end_op {s p used} (h : s.call p = .inside used) (hc : s.committing = false)
      (ho : s.outstanding ≠ 1) :
      Step sb s (some (.done p)) { (s.goto p .out).wakeup with outstanding := s.outstanding - 1 }
  /-- `end_op` of the last operation. -/
  | commit {s p used} (h : s.call p = .inside used) (hc : s.committing = false)
      (ho : s.outstanding = 1) :
      Step sb s (some (.done p)) { s.goto p .commit with
        outstanding := 0
        committing := true
        pc := if 0 < s.lh.length then .write_log 0 else .finish }
  | advance {s} : Step sb s none (s.advance sb)
  | durable {s p} (h : s.call p = .commit) (hpc : s.pc = .finish) :
      Step sb s (some (.durable p))
        { (s.goto p .out).wakeup with committing := false, pc := .idle }
  /-- `initlog` returns. -/
  | initlog {s} (hup : s.up = false) (hpc : s.pc = .finish) :
      Step sb s none { s with up := true, pc := .idle }
  /-- `bget` recycles a buffer. -/
  | bget {s b} (h : s.dirty b = false) :
      Step sb s none { s with data := Function.update s.data b none }
  | crash {s} : Step sb s (some .crash) s.crash

/-- The log on a disk with the contents that `mkfs` wrote; the first boot starts on them. -/
def logged (sb : Super) (disk : ℕ → Block) : Lts Event State where
  init s := s = { disk }
  step := Step sb

end OsLabs.Fs
