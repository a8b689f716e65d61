import OsLabs.Ipc.Fifo

/-!
# Sleeping on a pipe

`pipe_asleep_waits`: as long as no process is killed inside `pipewrite`, no wakeup is lost. A reader is
asleep only on an empty pipe that somebody may still write, a writer only on a full one that
somebody may still read; so the two never wait for each other.

The condition is needed. A writer that finds the pipe full and itself killed returns without the
wakeup that goes before its sleep, although it has just filled the pipe: `reader_left_asleep` is a
run that leaves a reader asleep on a full pipe.
-/

namespace OsLabs.Ipc

open Xv6 State

variable {s s' : State} {o : Option Event} {p q : ProcPtr}

/-- No process inside `pipewrite` has been killed. -/
def Spared (s : State) : Prop := ∀ p, (s.call p).isWrite = true → s.killed p = false

/-- The readers asleep find nothing to read, the writers asleep no place to write. -/
structure Waiting (s : State) : Prop where
  spared : Spared s
  reader : ∀ p n, s.call p = .readSleep n → s.pipe.nread = s.pipe.nwrite ∧ s.pipe.writeopen = true
  writer : ∀ p cs, s.call p = .writeSleep cs → s.pipe.full = true ∧ s.pipe.readopen = true

theorem not_readSleep_wakeupRead (s : State) (p : ProcPtr) (n : ℕ) :
    s.wakeupRead.call p ≠ .readSleep n := by
  unfold wakeupRead
  cases h : s.call p <;> simp [h]

theorem not_writeSleep_wakeupWrite (s : State) (p : ProcPtr) (cs : List UInt8) :
    s.wakeupWrite.call p ≠ .writeSleep cs := by
  unfold wakeupWrite
  cases h : s.call p <;> simp [h]

theorem writeSleep_wakeupRead {cs : List UInt8} (h : s.wakeupRead.call p = .writeSleep cs) :
    s.call p = .writeSleep cs := by
  unfold wakeupRead at h
  cases hc : s.call p <;> simp_all

theorem readSleep_wakeupWrite {n : ℕ} (h : s.wakeupWrite.call p = .readSleep n) :
    s.call p = .readSleep n := by
  unfold wakeupWrite at h
  cases hc : s.call p <;> simp_all

theorem call_of_goto {c d : Call} (h : (s.goto p c).call q = d) (hne : c ≠ d) : s.call q = d := by
  obtain rfl | hqp := eq_or_ne q p
  · exact absurd (by simpa [goto] using h) hne
  · simpa [goto, hqp] using h

theorem Pipe.fill_of_full {p : Pipe} (h : p.full = true) (cs : List UInt8) :
    p.fill cs = (p, cs) := by
  cases cs with
  | nil => rfl
  | cons c cs => rw [Pipe.fill, if_pos h]

variable {a : Fifo}

theorem Waiting.reader_step (h : Waiting s) (ha : Abstracts s a) (hs : Step s o s') {n : ℕ}
    (hq : s'.call q = .readSleep n) :
    s'.pipe.nread = s'.pipe.nwrite ∧ s'.pipe.writeopen = true := by
  cases hs with
  | write hp hmem hk => exact h.reader q n (call_of_goto hq (by simp))
  | wrote hp hf => exact absurd hq (not_readSleep_wakeupRead _ q n)
  | @failed p cs taken c rest pipe hp hcs hf hk =>
    have hq' : s.call q = .readSleep n := call_of_goto hq (by simp)
    -- a reader is there, so the writer was killed
    have hopen : pipe.readopen = true := by
      obtain ⟨-, -, -, -, hro, -⟩ := ha.queue.fill hf
      exact hro.trans (ha.opened.readopen.mpr ⟨q, ha.opened.rd q (by rw [hq']; rfl)⟩)
    have hkilled : s.killed p = true := hk.resolve_left (by simp [hopen])
    exact absurd hkilled (by simp [h.spared p (by rw [hp]; rfl)])
  | writeSleep hp hcs hf hr hk =>
    exact absurd (call_of_goto hq (by simp)) (not_readSleep_wakeupRead _ q n)
  | read hp hmem hk => exact h.reader q n (call_of_goto hq (by simp))
  | got hp he hd =>
    exact absurd (h.reader q n (call_of_goto (readSleep_wakeupWrite hq) (by simp))) he
  | readKilled hp he hw hk => exact ⟨he, hw⟩
  | readSleep hp he hw hk => exact ⟨he, hw⟩
  | @kill p =>
    obtain rfl | hqp := eq_or_ne q p
    · cases hc : s.call q <;> simp [State.kill, hc] at hq
    · exact h.reader q n (by simpa [State.kill, hqp] using hq)
  | fork hp hcq hnr hnw => exact h.reader q n hq
  | closeRead hp hmem =>
    revert hq
    unfold State.closeRead
    split
    · exact fun hq => h.reader q n (readSleep_wakeupWrite hq)
    · exact h.reader q n
  | closeWrite hp hmem =>
    revert hq
    unfold State.closeWrite
    split
    · exact fun hq => absurd hq (not_readSleep_wakeupRead _ q n)
    · exact h.reader q n

theorem Waiting.writer_step (h : Waiting s) (ha : Abstracts s a) (hs : Step s o s')
    {cs : List UInt8} (hq : s'.call q = .writeSleep cs) :
    s'.pipe.full = true ∧ s'.pipe.readopen = true := by
  cases hs with
  | write hp hmem hk => exact h.writer q cs (call_of_goto hq (by simp))
  | @wrote p ds pipe hp hf =>
    have hfull := h.writer q cs (call_of_goto (writeSleep_wakeupRead hq) (by simp))
    rw [Pipe.fill_of_full hfull.1] at hf
    cases hf
    exact hfull
  | @failed p ds taken c rest pipe hp hcs hf hk =>
    have hfull := h.writer q cs (call_of_goto hq (by simp))
    rw [Pipe.fill_of_full hfull.1] at hf
    cases hf
    exact hfull
  | @writeSleep p ds taken c rest pipe hp hcs hf hr hk =>
    obtain ⟨taken', -, hholds, hlen, -, -⟩ := ha.queue.fill hf
    exact ⟨hholds.full_iff.mpr (hlen (List.cons_ne_nil _ _)), hr⟩
  | read hp hmem hk => exact h.writer q cs (call_of_goto hq (by simp))
  | got hp he hd => exact absurd hq (not_writeSleep_wakeupWrite _ q cs)
  | readKilled hp he hw hk => exact h.writer q cs (call_of_goto hq (by simp))
  | readSleep hp he hw hk => exact h.writer q cs (call_of_goto hq (by simp))
  | @kill p =>
    obtain rfl | hqp := eq_or_ne q p
    · cases hc : s.call q <;> simp [State.kill, hc] at hq
    · exact h.writer q cs (by simpa [State.kill, hqp] using hq)
  | fork hp hcq hnr hnw => exact h.writer q cs hq
  | closeRead hp hmem =>
    revert hq
    unfold State.closeRead
    split
    · exact fun hq => absurd hq (not_writeSleep_wakeupWrite _ q cs)
    · exact h.writer q cs
  | closeWrite hp hmem =>
    revert hq
    unfold State.closeWrite
    split
    · exact fun hq => h.writer q cs (writeSleep_wakeupRead hq)
    · exact h.writer q cs

/-- The pipe when no process inside `pipewrite` is killed. -/
def sparing (p : ProcPtr) (data : ℕ → UInt8) : Lts Event State :=
  (piped p data).within fun _ _ s' => Spared s'

theorem waiting (p : ProcPtr) (data : ℕ → UInt8) : (sparing p data).Invariant Waiting where
  init := by
    rintro _ rfl
    exact ⟨fun _ _ => rfl, by simp, by simp⟩
  step s o s' hs h hstep := by
    obtain ⟨s₀, t, hinit, hrun⟩ := hs.of_within
    obtain ⟨-, a, -, -, ha⟩ := (simulation p data).run hinit hrun
    exact ⟨hstep.2, fun _ _ => h.reader_step ha hstep.1, fun _ _ => h.writer_step ha hstep.1⟩

/-- No wakeup is lost: who is asleep on the pipe could not go on, and the process that can wake it
has the other end open. -/
theorem pipe_asleep_waits (p : ProcPtr) (data : ℕ → UInt8) (s : State)
    (hs : (sparing p data).Reachable s) (q : ProcPtr) :
    (∀ n, s.call q = .readSleep n → s.pipe.nread = s.pipe.nwrite ∧
      ∃ r ∈ s.wr, ∀ cs, s.call r ≠ .writeSleep cs) ∧
    (∀ cs, s.call q = .writeSleep cs → s.pipe.full = true ∧
      ∃ r ∈ s.rd, ∀ n, s.call r ≠ .readSleep n) := by
  have h := (waiting p data).reachable hs
  obtain ⟨s₀, t, hinit, hrun⟩ := hs.of_within
  obtain ⟨-, a, -, -, ha⟩ := (simulation p data).run hinit hrun
  have hboth : s.pipe.nread = s.pipe.nwrite → s.pipe.full = true → False := by
    intro he hf
    have hlen := ha.queue.full_iff.mp hf
    rw [ha.queue.empty_iff.mp he] at hlen
    simp [PIPESIZE] at hlen
  refine ⟨fun n hq => ?_, fun cs hq => ?_⟩
  · obtain ⟨he, hw⟩ := h.reader q n hq
    obtain ⟨r, hr⟩ := ha.opened.writeopen.mp hw
    exact ⟨he, r, hr, fun cs hc => hboth he (h.writer r cs hc).1⟩
  · obtain ⟨hf, hr⟩ := h.writer q cs hq
    obtain ⟨r, hr⟩ := ha.opened.readopen.mp hr
    exact ⟨hf, r, hr, fun n hc => hboth (h.reader r n hc).1 hf⟩

theorem pipe_asleep_waits_reader : ∃ s : State, s.call ⟨0, by decide⟩ = .readSleep 1 ∧
    s.pipe.nread = s.pipe.nwrite ∧ ∃ r ∈ s.wr, ∀ cs, s.call r ≠ .writeSleep cs := by
  have hread := (Lts.Run.refl (M := sparing ⟨0, by decide⟩ fun _ => 0)
    { pipe := { data := fun _ => 0 }, rd := {⟨0, by decide⟩}, wr := {⟨0, by decide⟩} }).silent
    ⟨.read (p := ⟨0, by decide⟩) (n := 1) rfl (Finset.mem_singleton_self _) rfl,
      fun _ _ => rfl⟩
  have hsleep := hread.silent ⟨.readSleep (p := ⟨0, by decide⟩) (n := 1) rfl rfl rfl rfl,
    fun _ _ => rfl⟩
  exact ⟨_, rfl, (pipe_asleep_waits _ _ _ ⟨_, _, rfl, hsleep⟩ ⟨0, by decide⟩).1 1 rfl⟩

/-- A writer that is killed while it fills the pipe leaves the readers asleep. -/
theorem reader_left_asleep (p q : ProcPtr) (hpq : q ≠ p) (data : ℕ → UInt8) : ∃ s,
    (piped p data).Reachable s ∧ s.call q = .readSleep 1 ∧ s.pipe.full = true := by
  have hfork := (Lts.Run.refl (M := piped p data)
    { pipe := { data }, rd := {p}, wr := {p} }).event
    (.fork (p := p) (q := q) (k := false) rfl rfl (by simpa using hpq) (by simpa using hpq))
  have hread := (hfork.silent (.read (p := q) (n := 1) rfl (by simp) (by simp))).silent
    (.readSleep (p := q) (n := 1) (by simp [goto]) rfl rfl (by simp [goto]))
  have hwrite := (hread.silent (@Step.write _ p (List.replicate (PIPESIZE + 1) 0)
    (by simp [goto, hpq.symm]) (by simp [goto]) (by simp [goto]))).silent (.kill (p := p))
  have hempty : ({ data } : Pipe).Holds [] := Ring.nil (Nat.two_pow_pos 32)
  cases hf : ({ data } : Pipe).fill (List.replicate (PIPESIZE + 1) 0) with
  | mk pipe rest =>
    obtain ⟨taken, hcs, hholds, hlen, -, -⟩ := hempty.fill hf
    have hlong := congrArg List.length hcs
    rw [List.length_replicate, List.length_append] at hlong
    have hle := Ring.le hholds
    rw [List.nil_append] at hle hlen
    cases rest with
    | nil =>
      rw [List.length_nil] at hlong
      omega
    | cons c rest =>
      refine ⟨_, ⟨_, _, rfl, hwrite.event (.failed (p := p) ?_ hcs hf (Or.inr ?_))⟩, ?_, ?_⟩
      · simp [goto, State.kill]
      · simp [State.kill]
      · simp [goto, State.kill, hpq]
      · exact hholds.full_iff.mpr (hlen (List.cons_ne_nil c rest))

end OsLabs.Ipc
