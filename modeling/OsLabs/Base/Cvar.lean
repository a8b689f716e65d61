import Mathlib.Logic.Function.Basic
import Mathlib.Data.List.Basic
import Mathlib.Tactic.Common

/-!
# The condition variable

`cvar.c` of `src/xv6-public-master`, with any number of processes, each critical section of
`cv->mutex` a step.

`cvar_wait` calls `sleep(myproc(), &mutex)`, with the address of its own parameter in place of the
lock. So `sleep` releases neither `cv->mutex` nor the lock the caller passed in; it takes the words
of the stack from the parameter on for a lock. Whether `release` panics there depends on the word
where the field `cpu` of a lock would stand, and whether `sched` panics on the number of locks the
caller holds: these come with the call, in `Context`. If neither panics, the process sleeps while
it holds `cv->mutex`, and no `cvar_signal` gets past its `acquire` again.

`cvar_good_iff`: a sequence of calls goes as it should exactly when no `cvar_wait` in it has to
sleep.
-/

namespace OsLabs.Base.Cvar

def QUEUESIZE : ℕ := 64

/-- The condition of a process. -/
inductive Status (P : Type)
  | running
  /-- `SLEEPING` inside `cvar_wait`, on a channel. -/
  | asleep (chan : P)
  /-- Woken up. -/
  | runnable
  /-- In a call of `panic`. -/
  | panicked
  deriving DecidableEq

/-- `struct cvar` and the processes. `mutex` is who holds `cv->mutex`, and `owned` says who holds
the lock it passed to `cvar_wait`. -/
structure State (P : Type) where
  mutex : Option P := none
  cond : Bool := true
  waiting : ℕ → Option P := fun _ => none
  head : ℕ := 0
  tail : ℕ := 0
  status : P → Status P := fun _ => .running
  owned : P → Bool := fun _ => false

/-- What `cvar_wait` finds on its CPU and on its stack. -/
structure Context where
  /-- The parameter `mutex` is not the null pointer. -/
  nonnull : Bool
  /-- The word two after the parameter is the address of this CPU. -/
  cpuWord : Bool
  /-- `mycpu()->ncli`, the number of locks the caller holds. -/
  ncli : ℕ
  /-- The caller holds the lock it passes in. -/
  holds : Bool
  ncli_pos : holds = true → 0 < ncli

section Code

variable {P : Type} [DecidableEq P]

/-- `initcvar`, when no process is in the functions below. -/
def initcvar : State P := {}

def setStatus (s : State P) (p : P) (st : Status P) : State P :=
  { s with status := Function.update s.status p st }

/-- `sleep(p, &mutex)`, called with `cv->mutex` held. After `ptable.lock` is acquired, the words of
the stack are released as a lock: `holding` reads the parameter and the word two after it. Then
`sched` wants no other lock held than `ptable.lock`. -/
def sleep (p : P) (c : Context) (s : State P) : State P :=
  let ncli := c.ncli + 1 + 1
  if ¬(c.nonnull ∧ c.cpuWord) then setStatus s p .panicked
  else
    let ncli := ncli - 1
    if ncli ≠ 1 then setStatus s p .panicked
    else { setStatus s p (.asleep p) with owned := Function.update s.owned p c.holds }

/-- `cvar_wait`, up to its end or to the sleep. -/
def cvar_wait (p : P) (c : Context) (s : State P) : State P :=
  if (s.tail + QUEUESIZE - s.head) % QUEUESIZE = QUEUESIZE - 1 then s
  else if s.cond then
    sleep p c { s with
      mutex := some p
      waiting := Function.update s.waiting s.tail (some p)
      tail := (s.tail + 1) % QUEUESIZE }
  else { s with cond := true }

/-- Wake up all processes sleeping on `chan`. -/
def wakeup (chan : Option P) (s : State P) : State P :=
  { s with status := fun p => if chan.map .asleep = some (s.status p) then .runnable
      else s.status p }

/-- Pop a process from the queue and wake it up. -/
def pop (s : State P) : State P :=
  wakeup (s.waiting s.head) { s with head := (s.head + 1) % QUEUESIZE }

def cvar_signal (s : State P) : State P :=
  let s := { s with cond := false }
  if s.head = s.tail then s else pop s

/-- The loop of `cvar_broadcast`, at most `n` rounds. -/
def popAll : ℕ → State P → State P
  | 0, s => s
  | n + 1, s => if s.head = s.tail then s else popAll n (pop s)

def cvar_broadcast (s : State P) : State P := popAll QUEUESIZE { s with cond := false }

/-- A call by a process. -/
inductive Call (P : Type)
  | wait (p : P) (c : Context)
  | signal (p : P)
  | broadcast (p : P)

def Call.proc : Call P → P
  | .wait p _ => p
  | .signal p => p
  | .broadcast p => p

/-- The call of a running process, once it has acquired `cv->mutex`. -/
def step (c : Call P) (s : State P) : Option (State P) :=
  if s.status c.proc = .running ∧ s.mutex = none then
    match c with
    | .wait p x => some (cvar_wait p x s)
    | .signal _ => some (cvar_signal s)
    | .broadcast _ => some (cvar_broadcast s)
  else none

/-- The queue, the process that has been in it longest first. -/
def queue (s : State P) : List (Option P) :=
  (List.range ((s.tail + QUEUESIZE - s.head) % QUEUESIZE)).map fun i =>
    s.waiting ((s.head + i) % QUEUESIZE)

/-! ## How the calls should go -/

/-- A process asleep in `cvar_wait` holds neither lock, and the processes in the queue are those
asleep, each once. -/
structure Sound (s : State P) : Prop where
  unlocked : ∀ p, s.status p = .asleep p → s.mutex ≠ some p ∧ s.owned p = false
  queued : ∀ p, (queue s).count (some p) = if s.status p = .asleep p then 1 else 0

/-- The process queued longest leaves the queue and becomes runnable, and no other changes. -/
def Pops (s s' : State P) : Prop :=
  match queue s with
  | [] => s'.status = s.status
  | q :: rest => queue s' = rest ∧ ∃ p, q = some p ∧ s.status p = .asleep p ∧
      s'.status = Function.update s.status p .runnable

/-- A call leaves a sound state, and `cvar_signal` pops. -/
def Good (s : State P) (c : Call P) (s' : State P) : Prop :=
  Sound s' ∧ ∀ p, c = .signal p → Pops s s'

/-- A `cvar_wait` finds the queue full or the condition signalled. -/
def Prompt (s : State P) (c : Call P) (_ : State P) : Prop :=
  ∀ p x, c = .wait p x →
    (s.tail + QUEUESIZE - s.head) % QUEUESIZE = QUEUESIZE - 1 ∨ s.cond = false

/-- `R` holds of every call of the sequence that is made. -/
def Along (R : State P → Call P → State P → Prop) : List (Call P) → State P → Prop
  | [], _ => True
  | c :: cs, s => ∀ s', step c s = some s' → R s c s' ∧ Along R cs s'

end Code

/-! ## When they do -/

section Quiet

variable {P : Type} [DecidableEq P] {s s' : State P} {c : Call P}

/-- Nobody sleeps, the queue is empty and `cv->mutex` is free. -/
structure Quiet (s : State P) : Prop where
  running : ∀ p, s.status p = .running
  empty : s.head = s.tail
  bound : s.head < QUEUESIZE
  free : s.mutex = none

omit [DecidableEq P] in
theorem quiet_initcvar : Quiet (initcvar : State P) :=
  ⟨fun _ => rfl, rfl, Nat.two_pow_pos 6, rfl⟩

theorem popAll_of_empty (h : s.head = s.tail) (n : ℕ) : popAll n s = s := by
  cases n with
  | zero => rfl
  | succ n => exact if_pos h

omit [DecidableEq P] in
theorem Quiet.queue_eq (h : Quiet s) : queue s = [] := by
  have hlen : (s.tail + QUEUESIZE - s.head) % QUEUESIZE = 0 := by
    rw [h.empty, Nat.add_sub_cancel_left, Nat.mod_self]
  rw [queue, hlen]
  rfl

theorem Quiet.sound (h : Quiet s) : Sound s := by
  have hawake : ∀ p, s.status p ≠ .asleep p := fun p e => by
    rw [h.running p] at e
    exact absurd e (by simp)
  refine ⟨fun p hp => absurd hp (hawake p), fun p => ?_⟩
  rw [h.queue_eq, if_neg (hawake p)]
  rfl

/-- A call that need not sleep. -/
theorem Quiet.step_prompt (h : Quiet s) (hs : step c s = some s') (hp : Prompt s c s') :
    Quiet s' := by
  unfold step at hs
  rw [if_pos ⟨h.running _, h.free⟩] at hs
  cases c with
  | wait p x =>
    obtain rfl := Option.some.inj hs
    unfold cvar_wait
    rcases hp p x rfl with hfull | hcond
    · rw [if_pos hfull]
      exact h
    · rw [hcond]
      split
      · exact h
      · exact ⟨h.running, h.empty, h.bound, h.free⟩
  | signal p =>
    obtain rfl := Option.some.inj hs
    unfold cvar_signal
    rw [if_pos h.empty]
    exact ⟨h.running, h.empty, h.bound, h.free⟩
  | broadcast p =>
    obtain rfl := Option.some.inj hs
    have hdone : cvar_broadcast s = { s with cond := false } :=
      popAll_of_empty (s := { s with cond := false }) h.empty QUEUESIZE
    rw [hdone]
    exact ⟨h.running, h.empty, h.bound, h.free⟩

/-- A `cvar_wait` that has to sleep leaves a process asleep with `cv->mutex`, or one in the queue
that has panicked. -/
theorem Quiet.not_sound_wait (h : Quiet s) {p : P} {x : Context}
    (hroom : (s.tail + QUEUESIZE - s.head) % QUEUESIZE ≠ QUEUESIZE - 1) (hcond : s.cond = true) :
    ¬Sound (cvar_wait p x s) := by
  intro hsound
  have hlen : ((s.tail + 1) % QUEUESIZE + QUEUESIZE - s.head) % QUEUESIZE = 1 := by
    have hb := h.bound
    rw [← h.empty]
    simp only [QUEUESIZE] at hb ⊢
    omega
  have hqueue : ∀ status owned, queue ⟨some p, s.cond, Function.update s.waiting s.tail (some p),
      s.head, (s.tail + 1) % QUEUESIZE, status, owned⟩ = [some p] := by
    intro status owned
    have hhead : (s.head + 0) % QUEUESIZE = s.tail := by
      rw [Nat.add_zero, Nat.mod_eq_of_lt h.bound, h.empty]
    simp only [queue, hlen, List.range_one, List.map_cons, List.map_nil, hhead,
      Function.update_self]
  unfold cvar_wait at hsound
  rw [if_neg hroom, if_pos hcond] at hsound
  have hawake : ∀ st, st ≠ .asleep p → ¬Sound (setStatus { s with
      mutex := some p
      waiting := Function.update s.waiting s.tail (some p)
      tail := (s.tail + 1) % QUEUESIZE } p st) := by
    intro st hst hsound
    have hcount := hsound.queued p
    simp only [setStatus, hqueue, Function.update_self, if_neg hst, List.count_singleton_self] at hcount
    exact absurd hcount Nat.one_ne_zero
  unfold sleep at hsound
  dsimp only at hsound
  split at hsound
  · exact hawake .panicked (by simp) hsound
  · split at hsound
    · exact hawake .panicked (by simp) hsound
    · exact (hsound.unlocked p (Function.update_self ..)).1 rfl

theorem Quiet.good_iff (h : Quiet s) (hs : step c s = some s') :
    Good s c s' ↔ Prompt s c s' := by
  constructor
  · intro hg p x hc
    subst hc
    unfold step at hs
    rw [if_pos ⟨h.running _, h.free⟩] at hs
    obtain rfl := Option.some.inj hs
    by_contra hno
    rw [not_or, Bool.not_eq_false] at hno
    exact h.not_sound_wait hno.1 hno.2 hg.1
  · intro hp
    have hq := h.step_prompt hs hp
    refine ⟨hq.sound, fun p _ => ?_⟩
    unfold Pops
    rw [h.queue_eq]
    exact funext fun q => (hq.running q).trans (h.running q).symm

theorem Quiet.along_iff {cs : List (Call P)} (h : Quiet s) :
    Along Good cs s ↔ Along Prompt cs s := by
  induction cs generalizing s with
  | nil => exact Iff.rfl
  | cons c cs ih =>
    refine forall_congr' fun s' => forall_congr' fun hs => ?_
    rw [h.good_iff hs]
    exact and_congr_right fun hp => ih (h.step_prompt hs hp)

end Quiet

/-- After `initcvar`, a sequence of calls by any processes goes as it should, sleepers without
locks and signals to the longest waiter, exactly when every `cvar_wait` that is made finds the
queue full or the condition signalled. -/
theorem cvar_good_iff {P : Type} [DecidableEq P] (cs : List (Call P)) :
    Along Good cs initcvar ↔ Along Prompt cs initcvar :=
  quiet_initcvar.along_iff

/-- A first `cvar_wait`, by a process that holds no lock and whose stack happens to look like a held
lock: it falls asleep with `cv->mutex` held. With any other stack it panics in the queue. -/
theorem sleeps_with_mutex : ∃ (c c' : Call Unit) (s s' : State Unit),
    (step c initcvar = some s ∧ s.status () = .asleep () ∧ s.mutex = some () ∧
      ¬Along Good [c] initcvar) ∧
    step c' initcvar = some s' ∧ s'.status () = .panicked ∧ queue s' = [some ()] ∧
      ¬Along Good [c'] initcvar := by
  have hbad : ∀ x, ¬Along Good [Call.wait () x] (initcvar : State Unit) := fun x hgood =>
    quiet_initcvar.not_sound_wait (p := ()) (x := x) (by decide) rfl (hgood _ rfl).1.1
  exact ⟨.wait () ⟨true, true, 0, false, fun h => absurd h Bool.false_ne_true⟩,
    .wait () ⟨true, false, 1, true, fun _ => Nat.one_pos⟩, _, _,
    ⟨rfl, rfl, rfl, hbad _⟩, rfl, rfl, rfl, hbad _⟩

end OsLabs.Base.Cvar
