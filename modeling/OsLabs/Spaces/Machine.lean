import OsLabs.Xv6.Common

/-!
# Private address spaces

What the processes of a kernel are promised: each has a memory of its own, which `fork` copies, and
in which a byte read is the byte last written. Nothing here speaks of frames, page tables or
faults.

* `Spaces` is the state, `Spaces.step` the operations, on the table of processes that the kernel
  has. A step is undefined where a process leaves what it is promised: an access outside its
  memory, giving back all of its memory, the exit of `init`, or a `fork` with no pid left.
* `Whole`: a process has the pages below its size and no others; every step keeps this.
* `step_mem_of_ne`: a step of another process leaves the memory of a process alone.
-/

namespace OsLabs.Xv6

/-- What a process can see: the contents of the pages it may use. -/
abbrev Memory := ℕ → Option Page

namespace Memory

/-- The pages from `lo` up to `hi` are there, filled with zeros. -/
def extend (m : Memory) (lo hi : ℕ) : Memory := fun v =>
  if lo ≤ v ∧ v < hi then some zeroPage else m v

/-- Only the pages below `n` are left. -/
def cut (m : Memory) (n : ℕ) : Memory := fun v => if v < n then m v else none

theorem extend_self (m : Memory) (lo : ℕ) : m.extend lo lo = m := by
  funext v
  rw [extend, if_neg (by omega)]

theorem extend_ne_none {m : Memory} {lo hi : ℕ} (hm : ∀ v, m v ≠ none ↔ v < lo) (hle : lo ≤ hi)
    (v : ℕ) : m.extend lo hi v ≠ none ↔ v < hi := by
  unfold extend
  by_cases hv : lo ≤ v ∧ v < hi
  · simp [hv]
  · rw [if_neg hv, hm]
    omega

/-- The byte at offset `o` of page `v` is `b`. -/
def write (m : Memory) (v o : ℕ) (b : UInt8) : Memory :=
  Function.update m v ((m v).map fun pg => Function.update pg o b)

end Memory

/-- A kernel as its user programs see it. -/
@[ext] structure Spaces where
  proc : Table
  nextpid : ℕ
  initproc : Option ProcPtr
  mem : ProcPtr → Memory

/-- A result without the faults on the way to it. -/
def Result.seen : Result → Result
  | .byte b _ => .byte b 0
  | .written _ => .written 0
  | r => r

/-- The faults on the way to a result. -/
def Result.faults : Result → ℕ
  | .byte _ n | .written n => n
  | _ => 0

/-- The process that performs the operation. -/
def Op.actor : Op → Option ProcPtr
  | .yield p | .fork p | .sbrk p _ | .mmap p _ | .load p _ | .store p _ _ | .exec p _ _ | .exit p
  | .wait p => some p
  | .sched _ | .kalloc | .kfree _ => none

namespace Spaces

variable (a : Spaces) (p : ProcPtr)

/-- The slot is in use. -/
def live : Prop := (a.proc p).state ≠ .UNUSED

/-- The process has not come to an end. -/
def active : Prop := (a.proc p).state ≠ .UNUSED ∧ (a.proc p).state ≠ .ZOMBIE

/-- A new size and a new memory for `p`. -/
def resize (sz : ℕ) (m : Memory) : Spaces :=
  { a with
    proc := a.proc.set p fun q => { q with sz := sz }
    mem := Function.update a.mem p m }

/-- The child gets a copy of the parent's memory. -/
def fork : Option (Result × Spaces) :=
  match a.proc.first (·.state = .UNUSED) with
  | none => some (.ret (-1), a)
  | some np =>
    if a.nextpid = INT_MAX then none
    else some (.ret a.nextpid, { a with
      proc := a.proc.set np fun q =>
        { q with sz := (a.proc p).sz, parent := some p, state := .RUNNABLE, pid := a.nextpid }
      nextpid := a.nextpid + 1
      mem := Function.update a.mem np (a.mem p) })

/-- Growing gives pages of zeros and shrinking takes pages away, if the new size is below
`KERNBASE`; a new size below 0 is ignored. -/
def sbrk (n : ℤ) : Option (Result × Spaces) :=
  if n = 0 then some (.ret (a.proc p).sz, a)
  else if (KERNBASE : ℤ) ≤ (a.proc p).sz + n then some (.ret (-1), a)
  else if 0 < n then
    some (.ret (a.proc p).sz, a.resize p ((a.proc p).sz + n).toNat
      ((a.mem p).extend (pages (a.proc p).sz) (pages ((a.proc p).sz + n).toNat)))
  else if (a.proc p).sz = 0 then some (.ret (-1), a)
  else if (a.proc p).sz + n < 0 then some (.ret (a.proc p).sz, a)
  else if (a.proc p).sz + n = 0 then none
  else
    some (.ret (a.proc p).sz, a.resize p ((a.proc p).sz + n).toNat
      ((a.mem p).cut (pages ((a.proc p).sz + n).toNat)))

/-- Read the byte at `va`. -/
def load (va : ℕ) : Option (Result × Spaces) :=
  (a.mem p (va / 4096)).map fun pg => (.byte (pg (va % PGSIZE)) 0, a)

/-- Write the byte `b` at `va`. -/
def store (va : ℕ) (b : UInt8) : Option (Result × Spaces) :=
  (a.mem p (va / 4096)).map fun _ => (.written 0,
    { a with mem := Function.update a.mem p ((a.mem p).write (va / 4096) (va % PGSIZE) b) })

/-- The memory of a process that exits stays until it is reaped. -/
def exit : Option (Result × Spaces) :=
  if a.initproc = some p then none
  else some (.ret 0, { a with proc := a.proc.exit p a.initproc })

/-- A child that has exited is reaped, or `p` waits for one. -/
def wait : Result × Spaces :=
  match a.proc.first (Table.zombieOf p) with
  | some q => (.ret (a.proc q).pid,
      { a with proc := a.proc.reap q, mem := Function.update a.mem q fun _ => none })
  | none =>
    if (a.proc.first (·.parent = some p)).isNone ∨ (a.proc p).killed then (.ret (-1), a)
    else (.slept, { a with
      proc := a.proc.set p fun q => { q with chan := some p, state := .SLEEPING } })

/-- A process that is ready goes on. -/
def sched : Result × Spaces :=
  if (a.proc p).state = .RUNNABLE then
    (.ret 0, { a with proc := a.proc.set p fun q => { q with state := .RUNNING, chan := none } })
  else (.disabled, a)

/-- An operation of the process `p`, if it is running. -/
def whenRunning (r : Option (Result × Spaces)) : Option (Result × Spaces) :=
  if (a.proc p).state = .RUNNING then r else some (.disabled, a)

/-- One operation. -/
def step : Op → Option (Result × Spaces)
  | .sched p => some (a.sched p)
  | .yield p => a.whenRunning p (some (.ret 0,
      { a with proc := a.proc.set p fun q => { q with state := .RUNNABLE } }))
  | .fork p => a.whenRunning p (a.fork p)
  | .sbrk p n => a.whenRunning p (a.sbrk p (argint n))
  | .load p va => a.whenRunning p (a.load p (uint va))
  | .store p va b => a.whenRunning p (a.store p (uint va) b)
  | .exit p => a.whenRunning p (a.exit p)
  | .wait p => a.whenRunning p (some (a.wait p))
  | .mmap _ _ | .exec _ _ _ | .kalloc | .kfree _ => none

/-- A process has the pages below its size, which is below `KERNBASE`. -/
structure Whole : Prop where
  sz_lt : ∀ p, a.live p → (a.proc p).sz < KERNBASE
  mem : ∀ p, a.live p → ∀ v, a.mem p v ≠ none ↔ v < pages (a.proc p).sz

/-! ## What a step can do -/

variable {a p} {a' : Spaces} {op : Op} {res : Result}

/-- An operation of a running process, or none. -/
theorem whenRunning_eq_some {r : Option (Result × Spaces)}
    (h : a.whenRunning p r = some (res, a')) :
    (a.proc p).state = .RUNNING ∧ r = some (res, a') ∨
      (a.proc p).state ≠ .RUNNING ∧ res = .disabled ∧ a' = a := by
  unfold whenRunning at h
  by_cases hp : (a.proc p).state = .RUNNING
  · rw [if_pos hp] at h
    exact Or.inl ⟨hp, h⟩
  · rw [if_neg hp] at h
    obtain ⟨rfl, rfl⟩ := Prod.mk.inj (Option.some.inj h)
    exact Or.inr ⟨hp, rfl, rfl⟩

/-- An operation of a process that runs. -/
theorem of_running {r : Option (Result × Spaces)} (hp : (a.proc p).state = .RUNNING)
    (h : a.whenRunning p r = some (res, a')) : r = some (res, a') := by
  rwa [whenRunning, if_pos hp] at h

/-- How a step changes the memories: none of them, that of the process `p`, or that of a slot `q`
which comes into use or goes out of use. -/
inductive Change (a : Spaces) (op : Op) : Spaces → Prop
  /-- Slots stay in use or out of use, and so do sizes and memories. -/
  | table {t : Table} (hsz : ∀ q, (t q).sz = (a.proc q).sz)
      (hst : ∀ q, (t q).state = .UNUSED ↔ (a.proc q).state = .UNUSED)
      (hact : ∀ q, a.active q → op.actor ≠ some q →
        (t q).state ≠ .UNUSED ∧ (t q).state ≠ .ZOMBIE) : Change a op { a with proc := t }
  | mem {p : ProcPtr} {sz : ℕ} {m : Memory} (hop : op.actor = some p) (hl : a.live p)
      (hsz : sz = (a.proc p).sz ∨ ∃ n, op = .sbrk p n ∧ (sz : ℤ) = (a.proc p).sz + argint n)
      (hm : a.Whole → sz < KERNBASE ∧ ∀ v, m v ≠ none ↔ v < pages sz) : Change a op (a.resize p sz m)
  | born {p q : ProcPtr} {f : Proc → Proc} (hl : a.live p) (hq : ¬a.live q)
      (hsz : (f (a.proc q)).sz = (a.proc p).sz) : Change a op { a with
        proc := a.proc.set q f
        nextpid := a.nextpid + 1
        mem := Function.update a.mem q (a.mem p) }
  | reaped {q : ProcPtr} (hq : (a.proc q).state = .ZOMBIE) : Change a op { a with
        proc := a.proc.reap q
        mem := Function.update a.mem q fun _ => none }

theorem resize_self (m : Memory) : a.resize p (a.proc p).sz m =
    { a with mem := Function.update a.mem p m } := by
  have : (a.proc.set p fun q => { q with sz := (a.proc p).sz }) = a.proc := by
    funext q
    rw [Table.set_apply]
    split
    · rename_i h
      rw [h]
    · rfl
  rw [resize, this]

namespace Change

/-- A slot in use that is given another state in use. -/
theorem setState {f : Proc → Proc} (hl : a.live p) (hsz : (f (a.proc p)).sz = (a.proc p).sz)
    (hst : (f (a.proc p)).state ≠ .UNUSED ∧ (f (a.proc p)).state ≠ .ZOMBIE) :
    Change a op { a with proc := a.proc.set p f } := by
  refine .table (fun q => ?_) (fun q => Table.set_unused hl hst.1 q) fun q hq _ => ?_
  · rw [Table.set_apply]
    split
    · rename_i hq
      rw [hq, hsz]
    · rfl
  · rw [Table.set_apply]
    split
    · exact hst
    · exact hq

theorem refl : Change a op a :=
  .table (fun _ => rfl) (fun _ => Iff.rfl) fun _ hq _ => hq

end Change

/-- A child has got a pid. -/
theorem fork_pid {y : Result × Spaces} (h : a.fork p = some y)
    (hnp : a.proc.first (·.state = .UNUSED) ≠ none) : a.nextpid ≠ INT_MAX := by
  obtain ⟨np, hnp⟩ := Option.ne_none_iff_exists'.mp hnp
  unfold fork at h
  rw [hnp] at h
  dsimp only at h
  split_ifs at h with hpid
  exact hpid

theorem exit_ne {y : Result × Spaces} (h : a.exit p = some y) : a.initproc ≠ some p := by
  unfold exit at h
  split_ifs at h with hi
  exact hi

/-- There are no faults to count, and nobody is killed. -/
theorem step_result (h : a.step op = some (res, a')) :
    res.seen = res ∧ res.faults = 0 ∧ res ≠ .killed := by
  have hrun : ∀ {p : ProcPtr} {r : Option (Result × Spaces)},
      a.whenRunning p r = some (res, a') →
      (r = some (res, a') → res.seen = res ∧ res.faults = 0 ∧ res ≠ .killed) →
      res.seen = res ∧ res.faults = 0 ∧ res ≠ .killed := by
    intro p r h hr
    rcases whenRunning_eq_some h with ⟨-, h⟩ | ⟨-, rfl, -⟩
    · exact hr h
    · exact ⟨rfl, rfl, nofun⟩
  cases op with
  | sched p =>
    have hs : a.sched p = (res, a') := Option.some.inj h
    unfold sched at hs
    split_ifs at hs
    all_goals
      obtain ⟨rfl, -⟩ := Prod.mk.inj hs
      exact ⟨rfl, rfl, nofun⟩
  | yield p =>
    refine hrun h fun h => ?_
    obtain ⟨rfl, -⟩ := Prod.mk.inj (Option.some.inj h)
    exact ⟨rfl, rfl, nofun⟩
  | fork p =>
    refine hrun h fun h => ?_
    unfold fork at h
    split at h
    · obtain ⟨rfl, -⟩ := Prod.mk.inj (Option.some.inj h)
      exact ⟨rfl, rfl, nofun⟩
    · split_ifs at h
      obtain ⟨rfl, -⟩ := Prod.mk.inj (Option.some.inj h)
      exact ⟨rfl, rfl, nofun⟩
  | sbrk p n =>
    refine hrun h fun h => ?_
    unfold sbrk at h
    split_ifs at h
    all_goals
      obtain ⟨rfl, -⟩ := Prod.mk.inj (Option.some.inj h)
      exact ⟨rfl, rfl, nofun⟩
  | load p va =>
    refine hrun h fun h => ?_
    obtain ⟨pg, -, heq⟩ := Option.map_eq_some_iff.mp h
    obtain ⟨rfl, -⟩ := Prod.mk.inj heq
    exact ⟨rfl, rfl, nofun⟩
  | store p va b =>
    refine hrun h fun h => ?_
    obtain ⟨pg, -, heq⟩ := Option.map_eq_some_iff.mp h
    obtain ⟨rfl, -⟩ := Prod.mk.inj heq
    exact ⟨rfl, rfl, nofun⟩
  | exit p =>
    refine hrun h fun h => ?_
    unfold exit at h
    split_ifs at h
    obtain ⟨rfl, -⟩ := Prod.mk.inj (Option.some.inj h)
    exact ⟨rfl, rfl, nofun⟩
  | wait p =>
    refine hrun h fun h => ?_
    have hs : a.wait p = (res, a') := Option.some.inj h
    unfold wait at hs
    split at hs
    · obtain ⟨rfl, -⟩ := Prod.mk.inj hs
      exact ⟨rfl, rfl, nofun⟩
    · split_ifs at hs
      all_goals
        obtain ⟨rfl, -⟩ := Prod.mk.inj hs
        exact ⟨rfl, rfl, nofun⟩
  | mmap | exec | kalloc | kfree => cases h

/-! ## One operation -/

theorem fork_change (hp : (a.proc p).state = .RUNNING) (h : a.fork p = some (res, a')) :
    Change a op a' := by
  unfold fork at h
  cases hnp : a.proc.first (·.state = .UNUSED) with
  | none =>
    rw [hnp] at h
    obtain ⟨-, rfl⟩ := Prod.mk.inj (Option.some.inj h)
    exact .refl
  | some np =>
    have hun : (a.proc np).state = .UNUSED := by simpa using Table.first_some hnp
    rw [hnp] at h
    dsimp only at h
    by_cases hpid : a.nextpid = INT_MAX
    · rw [if_pos hpid] at h
      cases h
    · rw [if_neg hpid] at h
      obtain ⟨-, rfl⟩ := Prod.mk.inj (Option.some.inj h)
      exact .born (by simp [live, hp]) (by simp [live, hun]) rfl

theorem sbrk_change {n : ℤ} (hp : (a.proc p).state = .RUNNING)
    (h : a.sbrk p (argint n) = some (res, a')) : Change a (.sbrk p n) a' := by
  have hl : a.live p := by simp [live, hp]
  unfold sbrk at h
  generalize hn : argint n = m at h
  split_ifs at h with h0 hbig hpos hz hneg hzero
  · obtain ⟨-, rfl⟩ := Prod.mk.inj (Option.some.inj h)
    exact .refl
  · obtain ⟨-, rfl⟩ := Prod.mk.inj (Option.some.inj h)
    exact .refl
  · obtain ⟨-, rfl⟩ := Prod.mk.inj (Option.some.inj h)
    refine .mem rfl hl (Or.inr ⟨n, rfl, by omega⟩) fun hw => ⟨by omega, ?_⟩
    exact Memory.extend_ne_none (hw.mem p hl) (pages_mono (by omega))
  · obtain ⟨-, rfl⟩ := Prod.mk.inj (Option.some.inj h)
    exact .refl
  · obtain ⟨-, rfl⟩ := Prod.mk.inj (Option.some.inj h)
    exact .refl
  · obtain ⟨-, rfl⟩ := Prod.mk.inj (Option.some.inj h)
    refine .mem rfl hl (Or.inr ⟨n, rfl, by omega⟩) fun hw => ⟨by omega, fun v => ?_⟩
    have hle := pages_mono (show ((a.proc p).sz + m).toNat ≤ (a.proc p).sz by omega)
    have hold := hw.mem p hl v
    unfold Memory.cut
    by_cases hv : v < pages ((a.proc p).sz + m).toNat
    · rw [if_pos hv, hold]
      omega
    · simp [hv]

theorem store_change {va : ℕ} {b : UInt8} (hp : (a.proc p).state = .RUNNING)
    (hop : op.actor = some p) (h : a.store p va b = some (res, a')) : Change a op a' := by
  have hl : a.live p := by simp [live, hp]
  obtain ⟨pg, hpg, heq⟩ := Option.map_eq_some_iff.mp h
  obtain ⟨-, rfl⟩ := Prod.mk.inj heq
  rw [← resize_self]
  refine .mem hop hl (Or.inl rfl) fun hw => ⟨hw.sz_lt p hl, fun v => ?_⟩
  rw [← hw.mem p hl v, Memory.write]
  by_cases hv : v = va / 4096
  · rw [hv, Function.update_self, hpg]
    simp
  · rw [Function.update_of_ne hv]

theorem exit_change (hp : (a.proc p).state = .RUNNING) (hop : op.actor = some p)
    (h : a.exit p = some (res, a')) : Change a op a' := by
  have hl : (a.proc p).state ≠ .UNUSED := by simp [hp]
  unfold exit at h
  by_cases hi : a.initproc = some p
  · rw [if_pos hi] at h
    cases h
  · rw [if_neg hi] at h
    obtain ⟨-, rfl⟩ := Prod.mk.inj (Option.some.inj h)
    exact .table (fun q => Table.exit_sz ..) (Table.exit_unused _ hl) fun q hq hne =>
      Table.exit_active (fun e => hne (by rw [hop, e])) hq

theorem wait_change (hp : (a.proc p).state = .RUNNING) (h : a.wait p = (res, a')) :
    Change a op a' := by
  unfold wait at h
  cases hz : a.proc.first (Table.zombieOf p) with
  | some q =>
    rw [hz] at h
    obtain ⟨-, rfl⟩ := Prod.mk.inj h
    exact .reaped (Table.zombieOf_iff.mp (Table.first_some hz)).2
  | none =>
    rw [hz] at h
    dsimp only at h
    split_ifs at h
    · obtain ⟨-, rfl⟩ := Prod.mk.inj h
      exact .refl
    · obtain ⟨-, rfl⟩ := Prod.mk.inj h
      exact .setState (by simp [live, hp]) rfl (by simp)

/-- Every step is a `Change`. -/
theorem step_change (h : a.step op = some (res, a')) : Change a op a' := by
  -- an operation of a process that runs, or nothing
  have hrun : ∀ {p : ProcPtr} {r : Option (Result × Spaces)},
      a.whenRunning p r = some (res, a') →
      ((a.proc p).state = .RUNNING → r = some (res, a') → Change a op a') → Change a op a' := by
    intro p r h hr
    rcases whenRunning_eq_some h with ⟨hp, h⟩ | ⟨-, -, rfl⟩
    · exact hr hp h
    · exact .refl
  cases op with
  | sched p =>
    have hs : a.sched p = (res, a') := Option.some.inj h
    unfold sched at hs
    by_cases hp : (a.proc p).state = .RUNNABLE
    · rw [if_pos hp] at hs
      obtain ⟨-, rfl⟩ := Prod.mk.inj hs
      exact .setState (by simp [live, hp]) rfl (by simp)
    · rw [if_neg hp] at hs
      obtain ⟨-, rfl⟩ := Prod.mk.inj hs
      exact .refl
  | yield p =>
    refine hrun h fun hp h => ?_
    obtain ⟨-, rfl⟩ := Prod.mk.inj (Option.some.inj h)
    exact .setState (by simp [live, hp]) rfl (by simp)
  | fork p => exact hrun h fork_change
  | sbrk p n => exact hrun h sbrk_change
  | load p va =>
    refine hrun h fun _ h => ?_
    obtain ⟨pg, -, heq⟩ := Option.map_eq_some_iff.mp h
    obtain ⟨-, rfl⟩ := Prod.mk.inj heq
    exact .refl
  | store p va b => exact hrun h fun hp => store_change hp rfl
  | exit p => exact hrun h fun hp => exit_change hp rfl
  | wait p => exact hrun h fun hp h => wait_change hp (Option.some.inj h)
  | mmap | exec | kalloc | kfree => cases h

/-- A new memory that fits the new size. -/
theorem Whole.resize (hw : a.Whole) {sz : ℕ} {m : Memory} (hlt : sz < KERNBASE)
    (hm : ∀ v, m v ≠ none ↔ v < pages sz) : (a.resize p sz m).Whole := by
  refine ⟨fun q hq => ?_, fun q hq v => ?_⟩
  · by_cases hqp : q = p
    · subst hqp
      simpa [Spaces.resize] using hlt
    · simp only [live, Spaces.resize, Table.set_ne _ _ hqp] at hq ⊢
      exact hw.sz_lt q hq
  · by_cases hqp : q = p
    · subst hqp
      simpa [Spaces.resize] using hm v
    · simp only [live, Spaces.resize, Table.set_ne _ _ hqp, Function.update_of_ne hqp] at hq ⊢
      exact hw.mem q hq v

/-- Every step keeps processes whole. -/
theorem Whole.step (hw : a.Whole) (h : a.step op = some (res, a')) : a'.Whole := by
  cases step_change h with
  | @table t hsz hst =>
    refine ⟨fun q hq => ?_, fun q hq v => ?_⟩
    · have hl : a.live q := fun e => hq ((hst q).mpr e)
      dsimp only
      rw [hsz]
      exact hw.sz_lt q hl
    · have hl : a.live q := fun e => hq ((hst q).mpr e)
      dsimp only
      rw [hsz]
      exact hw.mem q hl v
  | mem hop hl hsz hm =>
    obtain ⟨hlt, hpg⟩ := hm hw
    exact hw.resize hlt hpg
  | @born p q f hl hq hsz =>
    refine ⟨fun j hj => ?_, fun j hj v => ?_⟩
    · by_cases hjq : j = q
      · subst hjq
        simp only [Table.set_self, hsz]
        exact hw.sz_lt p hl
      · simp only [live, Table.set_ne _ _ hjq] at hj ⊢
        exact hw.sz_lt j hj
    · by_cases hjq : j = q
      · subst hjq
        simp only [Table.set_self, hsz, Function.update_self]
        exact hw.mem p hl v
      · simp only [live, Table.set_ne _ _ hjq, Function.update_of_ne hjq] at hj ⊢
        exact hw.mem j hj v
  | @reaped q hq =>
    have hne : ∀ {j : ProcPtr}, (a.proc.reap q j).state ≠ .UNUSED → j ≠ q := fun hj e => by
      rw [e] at hj
      exact hj (by simp [Table.reap])
    refine ⟨fun j hj => ?_, fun j hj v => ?_⟩
    · have hjq := hne hj
      simp only [live, Table.reap, Table.set_ne _ _ hjq] at hj ⊢
      exact hw.sz_lt j hj
    · have hjq := hne hj
      simp only [live, Table.reap, Table.set_ne _ _ hjq, Function.update_of_ne hjq] at hj ⊢
      exact hw.mem j hj v

/-- A step of another process leaves a process and its memory alone. -/
theorem step_mem_of_ne {q : ProcPtr} (h : a.step op = some (res, a')) (hq : a.active q)
    (hne : op.actor ≠ some q) : a'.mem q = a.mem q ∧ a'.active q := by
  cases step_change h with
  | table hsz hst hact => exact ⟨rfl, hact q hq hne⟩
  | @mem p sz m hop hl hsz hm =>
    have hqp : q ≠ p := fun e => hne (by rw [hop, e])
    refine ⟨Function.update_of_ne hqp _ _, ?_⟩
    simp only [active, resize, Table.set_ne _ _ hqp]
    exact hq
  | @born p j f hl hj hsz =>
    have hqj : q ≠ j := fun e => hj (by rw [← e]; exact hq.1)
    refine ⟨Function.update_of_ne hqj _ _, ?_⟩
    simp only [active, Table.set_ne _ _ hqj]
    exact hq
  | @reaped j hj =>
    have hqj : q ≠ j := fun e => hq.2 (by rw [e]; exact hj)
    refine ⟨Function.update_of_ne hqj _ _, ?_⟩
    simp only [active, Table.reap, Table.set_ne _ _ hqj]
    exact hq

end Spaces

end OsLabs.Xv6
