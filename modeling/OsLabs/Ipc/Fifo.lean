import OsLabs.Ipc.Pipe

/-!
# A pipe is a bounded queue

`Fifo` is what a pipe is for: a queue of at most `PIPESIZE` bytes, with the processes that have its
ends open. Bytes are appended as they are written, and a read takes them from the front; it returns
short only when the queue holds less, and sleeps only while a write end is open.

`pipe_fifo` is the refinement: the array, the counters that wrap around, the sleeps and the wakeups
show nothing else, in whatever order the processes run. `pipe_stream` follows for whole runs: what
was read is what was written, in order, up to the bytes that are still in the pipe.
-/

namespace OsLabs.Ipc

open Xv6 State

/-! ## The abstract pipe -/

/-- The bytes in the pipe, and the processes with its ends open. -/
structure Fifo where
  queue : List UInt8
  rd : Finset ProcPtr
  wr : Finset ProcPtr

inductive Fifo.Step : Fifo → Option Event → Fifo → Prop
  | wrote {a p cs} (hp : p ∈ a.wr) (hl : (a.queue ++ cs).length ≤ PIPESIZE) :
      Step a (some (.wrote p cs false)) { a with queue := a.queue ++ cs }
  /-- A write sleeps only on a full pipe with a read end open. -/
  | sleeps {a p cs} (hp : p ∈ a.wr) (hl : (a.queue ++ cs).length = PIPESIZE)
      (hr : a.rd.Nonempty) :
      Step a (some (.wrote p cs true)) { a with queue := a.queue ++ cs }
  /-- A write fails only on a full pipe. -/
  | failed {a p cs} (hp : p ∈ a.wr) (hl : (a.queue ++ cs).length = PIPESIZE) :
      Step a (some (.failed p cs)) { a with queue := a.queue ++ cs }
  | got {a p n} (hp : p ∈ a.rd) (he : a.queue ≠ [] ∨ a.wr = ∅) :
      Step a (some (.got p n (a.queue.take n))) { a with queue := a.queue.drop n }
  | closedRead {a p} (hp : p ∈ a.rd) : Step a (some (.closedRead p)) { a with rd := a.rd.erase p }
  | closedWrite {a p} (hp : p ∈ a.wr) :
      Step a (some (.closedWrite p)) { a with wr := a.wr.erase p }
  | forked {a p q} : Step a (some (.forked p q)) { a with
      rd := if p ∈ a.rd then insert q a.rd else a.rd
      wr := if p ∈ a.wr then insert q a.wr else a.wr }

def fifo (p : ProcPtr) : Lts Event Fifo where
  init a := a = ⟨[], {p}, {p}⟩
  step := Fifo.Step

/-! ## The loops -/

namespace Pipe

variable {p p' : Pipe} {l cs rest : List UInt8} {n : ℕ}

/-- The pipe holds the bytes `l`. -/
def Holds (p : Pipe) (l : List UInt8) : Prop := Ring PIPESIZE (2 ^ 32) p.data p.nread p.nwrite l

theorem PIPESIZE_dvd : PIPESIZE ∣ 2 ^ 32 := by decide

theorem PIPESIZE_lt : PIPESIZE < 2 ^ 32 := by decide

theorem Holds.empty_iff (h : p.Holds l) : p.nread = p.nwrite ↔ l = [] :=
  Ring.empty_iff h PIPESIZE_lt

theorem Holds.full_iff (h : p.Holds l) : p.full = true ↔ l.length = PIPESIZE := by
  rw [full, decide_eq_true_iff]
  exact Ring.full_iff h PIPESIZE_lt

/-- The loop of `pipewrite` appends the bytes up to the point where the pipe is full. -/
theorem Holds.fill (h : p.Holds l) (hf : p.fill cs = (p', rest)) :
    ∃ taken, cs = taken ++ rest ∧ p'.Holds (l ++ taken) ∧
      (rest ≠ [] → (l ++ taken).length = PIPESIZE) ∧
      p'.readopen = p.readopen ∧ p'.writeopen = p.writeopen := by
  induction cs generalizing p l with
  | nil =>
    cases hf
    exact ⟨[], rfl, by simpa using h, fun hne => absurd rfl hne, rfl, rfl⟩
  | cons c cs ih =>
    unfold Pipe.fill at hf
    split at hf
    · rename_i hfull
      cases hf
      exact ⟨[], rfl, by simpa using h, fun _ => by simpa using h.full_iff.mp hfull, rfl, rfl⟩
    · rename_i hfull
      have hlt : l.length < PIPESIZE := lt_of_le_of_ne (Ring.le h) fun hl => hfull (h.full_iff.mpr hl)
      have hpush : Holds { p with
          data := Function.update p.data (p.nwrite % PIPESIZE) c
          nwrite := uint (p.nwrite + 1) } (l ++ [c]) := Ring.push PIPESIZE_dvd h hlt c
      obtain ⟨taken, hcs, hholds, hlen, hr, hw⟩ := ih hpush hf
      refine ⟨c :: taken, by rw [hcs, List.cons_append], ?_, ?_, hr, hw⟩
      · simpa using hholds
      · simpa using hlen

/-- The loop of `piperead` takes the bytes from the front. -/
theorem Holds.drain (h : p.Holds l) (hd : p.drain n = (p', cs)) :
    cs = l.take n ∧ p'.Holds (l.drop n) ∧
      p'.readopen = p.readopen ∧ p'.writeopen = p.writeopen := by
  induction n generalizing p l cs with
  | zero =>
    cases hd
    exact ⟨by simp, by simpa using h, rfl, rfl⟩
  | succ n ih =>
    unfold Pipe.drain at hd
    split at hd
    · rename_i he
      obtain rfl := h.empty_iff.mp he
      cases hd
      exact ⟨by simp, by simpa using h, rfl, rfl⟩
    · rename_i he
      cases l with
      | nil => exact absurd (h.empty_iff.mpr rfl) he
      | cons x l =>
        obtain ⟨hx, hrest⟩ := Ring.pop PIPESIZE_dvd h
        have hpop : Holds { p with nread := uint (p.nread + 1) } l := hrest
        cases hd' : ({ p with nread := uint (p.nread + 1) } : Pipe).drain n with
        | mk q ds =>
          rw [hd'] at hd
          cases hd
          obtain ⟨hds, hholds, hr, hw⟩ := ih hpop hd'
          exact ⟨by rw [hds, hx, List.take_succ_cons], by simpa using hholds, hr, hw⟩

end Pipe

/-! ## The refinement -/

/-- The process is in `piperead`. -/
def Call.isRead : Call → Bool
  | .read _ | .readSleep _ => true
  | _ => false

/-- The process is in `pipewrite`. -/
def Call.isWrite : Call → Bool
  | .write _ | .writeSleep _ => true
  | _ => false

variable {s s' : State} {o : Option Event} {p q : ProcPtr} {c : Call}

@[simp]
theorem isRead_wakeupRead (s : State) (p : ProcPtr) :
    (s.wakeupRead.call p).isRead = (s.call p).isRead := by
  unfold wakeupRead
  cases h : s.call p <;> simp [h, Call.isRead]

@[simp]
theorem isWrite_wakeupRead (s : State) (p : ProcPtr) :
    (s.wakeupRead.call p).isWrite = (s.call p).isWrite := by
  unfold wakeupRead
  cases h : s.call p <;> simp [h, Call.isWrite]

@[simp]
theorem isRead_wakeupWrite (s : State) (p : ProcPtr) :
    (s.wakeupWrite.call p).isRead = (s.call p).isRead := by
  unfold wakeupWrite
  cases h : s.call p <;> simp [h, Call.isRead]

@[simp]
theorem isWrite_wakeupWrite (s : State) (p : ProcPtr) :
    (s.wakeupWrite.call p).isWrite = (s.call p).isWrite := by
  unfold wakeupWrite
  cases h : s.call p <;> simp [h, Call.isWrite]

/-- Who is inside has the end open, and an end is open as long as a process has it. -/
structure Open (s : State) : Prop where
  rd : ∀ p, (s.call p).isRead = true → p ∈ s.rd
  wr : ∀ p, (s.call p).isWrite = true → p ∈ s.wr
  readopen : s.pipe.readopen = true ↔ s.rd.Nonempty
  writeopen : s.pipe.writeopen = true ↔ s.wr.Nonempty

namespace Open

/-- A step that moves `p` and leaves the ends alone. -/
theorem moved (h : Open s) (hrd : s'.rd = s.rd) (hwr : s'.wr = s.wr)
    (hro : s'.pipe.readopen = s.pipe.readopen) (hwo : s'.pipe.writeopen = s.pipe.writeopen)
    (hcall : ∀ q, q ≠ p → (s'.call q).isRead = (s.call q).isRead ∧
      (s'.call q).isWrite = (s.call q).isWrite)
    (hr : (s'.call p).isRead = true → p ∈ s.rd) (hw : (s'.call p).isWrite = true → p ∈ s.wr) :
    Open s' := by
  refine ⟨fun q hq => ?_, fun q hq => ?_, ?_, ?_⟩
  · rw [hrd]
    obtain rfl | hqp := eq_or_ne q p
    · exact hr hq
    · exact h.rd q ((hcall q hqp).1 ▸ hq)
  · rw [hwr]
    obtain rfl | hqp := eq_or_ne q p
    · exact hw hq
    · exact h.wr q ((hcall q hqp).2 ▸ hq)
  · rw [hro, hrd]
    exact h.readopen
  · rw [hwo, hwr]
    exact h.writeopen

theorem insert_nonempty {t : Finset ProcPtr} (p q : ProcPtr) :
    (if p ∈ t then insert q t else t).Nonempty ↔ t.Nonempty := by
  split
  · rename_i hp
    exact ⟨fun _ => ⟨p, hp⟩, fun _ => ⟨q, Finset.mem_insert_self q t⟩⟩
  · rfl

theorem mem_insert {t : Finset ProcPtr} {p q r : ProcPtr} (h : r ∈ t) :
    r ∈ (if p ∈ t then insert q t else t) := by
  split
  · exact Finset.mem_insert_of_mem h
  · exact h

theorem closeRead (h : Open s) (hp : s.call p = .out) : Open (s.closeRead p) := by
  have hmem : ∀ q, (s.call q).isRead = true → q ∈ s.rd.erase p := by
    intro q hq
    refine Finset.mem_erase.mpr ⟨?_, h.rd q hq⟩
    rintro rfl
    simp [hp, Call.isRead] at hq
  unfold State.closeRead
  split
  · rename_i he
    refine ⟨fun q hq => ?_, fun q hq => ?_, ?_, h.writeopen⟩
    · exact he ▸ hmem q (by simpa using hq)
    · exact h.wr q (by simpa using hq)
    · exact ⟨fun hf => absurd hf Bool.false_ne_true, fun hne => absurd rfl hne.ne_empty⟩
  · rename_i he
    have hne : (s.rd.erase p).Nonempty := Finset.nonempty_iff_ne_empty.mpr he
    refine ⟨hmem, h.wr, ?_, h.writeopen⟩
    exact ⟨fun _ => hne, fun _ => h.readopen.mpr (hne.mono (Finset.erase_subset p s.rd))⟩

theorem closeWrite (h : Open s) (hp : s.call p = .out) : Open (s.closeWrite p) := by
  have hmem : ∀ q, (s.call q).isWrite = true → q ∈ s.wr.erase p := by
    intro q hq
    refine Finset.mem_erase.mpr ⟨?_, h.wr q hq⟩
    rintro rfl
    simp [hp, Call.isWrite] at hq
  unfold State.closeWrite
  split
  · rename_i he
    refine ⟨fun q hq => ?_, fun q hq => ?_, h.readopen, ?_⟩
    · exact h.rd q (by simpa using hq)
    · exact he ▸ hmem q (by simpa using hq)
    · exact ⟨fun hf => absurd hf Bool.false_ne_true, fun hne => absurd rfl hne.ne_empty⟩
  · rename_i he
    have hne : (s.wr.erase p).Nonempty := Finset.nonempty_iff_ne_empty.mpr he
    refine ⟨h.rd, hmem, h.readopen, ?_⟩
    exact ⟨fun _ => hne, fun _ => h.writeopen.mpr (hne.mono (Finset.erase_subset p s.wr))⟩

end Open

/-- `a` is the abstract pipe of `s`. -/
structure Abstracts (s : State) (a : Fifo) : Prop where
  opened : Open s
  queue : s.pipe.Holds a.queue
  rd : a.rd = s.rd
  wr : a.wr = s.wr

theorem Abstracts.step {a : Fifo} (h : Abstracts s a) (hs : Step s o s') (r : ProcPtr) :
    ∃ a', (fifo r).Run a o.toList a' ∧ Abstracts s' a' := by
  obtain ⟨hopen, hq, hrd, hwr⟩ := h
  cases hs with
  | @write p cs hp hmem hk =>
    refine ⟨a, .refl a, hopen.moved (p := p) rfl rfl rfl rfl (fun q hq => ?_) ?_ ?_, hq, hrd, hwr⟩
    · simp [goto, hq]
    · simp [goto, Call.isRead]
    · exact fun _ => hmem
  | @wrote p cs pipe hp hf =>
    have hmem : p ∈ s.wr := hopen.wr p (by rw [hp]; rfl)
    obtain ⟨taken, hcs, hholds, -, hro, hwo⟩ := hq.fill hf
    rw [List.append_nil] at hcs
    subst hcs
    refine ⟨_, .single (.wrote (hwr ▸ hmem) (Ring.le hholds)),
      hopen.moved (p := p) rfl rfl hro hwo (fun q hq => ?_) ?_ ?_, hholds, hrd, hwr⟩
    · simp [goto, hq]
    · rw [isRead_wakeupRead]
      simp [goto, Call.isRead]
    · exact fun _ => hmem
  | @failed p cs taken c rest pipe hp hcs hf hk =>
    have hmem : p ∈ s.wr := hopen.wr p (by rw [hp]; rfl)
    obtain ⟨taken', hcs', hholds, hlen, hro, hwo⟩ := hq.fill hf
    obtain rfl := List.append_cancel_right (hcs.symm.trans hcs')
    refine ⟨_, .single (.failed (hwr ▸ hmem) (hlen (List.cons_ne_nil _ _))),
      hopen.moved (p := p) rfl rfl hro hwo (fun q hq => ?_) ?_ ?_, hholds, hrd, hwr⟩
    · simp [goto, hq]
    · simp [goto, Call.isRead]
    · exact fun _ => hmem
  | @writeSleep p cs taken c rest pipe hp hcs hf hr hk =>
    have hmem : p ∈ s.wr := hopen.wr p (by rw [hp]; rfl)
    obtain ⟨taken', hcs', hholds, hlen, hro, hwo⟩ := hq.fill hf
    obtain rfl := List.append_cancel_right (hcs.symm.trans hcs')
    have hreaders : a.rd.Nonempty := hrd ▸ hopen.readopen.mp (hro ▸ hr)
    refine ⟨_, .single (.sleeps (hwr ▸ hmem) (hlen (List.cons_ne_nil _ _)) hreaders),
      hopen.moved (p := p) rfl rfl hro hwo (fun q hq => ?_) ?_ ?_, hholds, hrd, hwr⟩
    · rw [show ((({ s with pipe } : State).wakeupRead.goto p (.writeSleep (c :: rest))).call q)
        = ({ s with pipe } : State).wakeupRead.call q by simp [goto, hq]]
      exact ⟨isRead_wakeupRead _ q, isWrite_wakeupRead _ q⟩
    · simp [goto, Call.isRead]
    · exact fun _ => hmem
  | @read p n hp hmem hk =>
    refine ⟨a, .refl a, hopen.moved (p := p) rfl rfl rfl rfl (fun q hq => ?_) ?_ ?_, hq, hrd, hwr⟩
    · simp [goto, hq]
    · exact fun _ => hmem
    · simp [goto, Call.isWrite]
  | @got p n cs pipe hp he hd =>
    have hmem : p ∈ s.rd := hopen.rd p (by rw [hp]; rfl)
    obtain ⟨rfl, hholds, hro, hwo⟩ := hq.drain hd
    have hsome : a.queue ≠ [] ∨ a.wr = ∅ := by
      by_contra hno
      rw [not_or, not_not] at hno
      refine he ⟨hq.empty_iff.mpr hno.1, hopen.writeopen.mpr ?_⟩
      exact hwr ▸ Finset.nonempty_iff_ne_empty.mpr hno.2
    refine ⟨_, .single (.got (hrd ▸ hmem) hsome),
      hopen.moved (p := p) rfl rfl hro hwo (fun q hq => ?_) ?_ ?_, hholds, hrd, hwr⟩
    · simp [goto, hq]
    · exact fun _ => hmem
    · rw [isWrite_wakeupWrite]
      simp [goto, Call.isWrite]
  | @readKilled p n hp he hw hk =>
    refine ⟨a, .refl a, hopen.moved (p := p) rfl rfl rfl rfl (fun q hq => ?_) ?_ ?_, hq, hrd, hwr⟩
    · simp [goto, hq]
    · simp [goto, Call.isRead]
    · simp [goto, Call.isWrite]
  | @readSleep p n hp he hw hk =>
    have hmem : p ∈ s.rd := hopen.rd p (by rw [hp]; rfl)
    refine ⟨a, .refl a, hopen.moved (p := p) rfl rfl rfl rfl (fun q hq => ?_) ?_ ?_, hq, hrd, hwr⟩
    · simp [goto, hq]
    · exact fun _ => hmem
    · simp [goto, Call.isWrite]
  | @kill p =>
    refine ⟨a, .refl a, hopen.moved (p := p) rfl rfl rfl rfl (fun q hq => ?_) ?_ ?_, hq, hrd, hwr⟩
    · simp [State.kill, hq]
    · intro hr
      refine hopen.rd p ?_
      cases hc : s.call p <;> simp [State.kill, hc, Call.isRead] at hr ⊢
    · intro hw
      refine hopen.wr p ?_
      cases hc : s.call p <;> simp [State.kill, hc, Call.isWrite] at hw ⊢
  | @fork p q k hp hcq hnr hnw =>
    refine ⟨_, .single .forked, ⟨fun t ht => ?_, fun t ht => ?_, ?_, ?_⟩, hq, ?_, ?_⟩
    · exact Open.mem_insert (hopen.rd t ht)
    · exact Open.mem_insert (hopen.wr t ht)
    · exact hopen.readopen.trans (Open.insert_nonempty p q).symm
    · exact hopen.writeopen.trans (Open.insert_nonempty p q).symm
    · rw [hrd]
    · rw [hwr]
  | @closeRead p hp hmem =>
    refine ⟨_, .single (.closedRead (hrd ▸ hmem)), hopen.closeRead hp, ?_, ?_, ?_⟩
    · unfold State.closeRead
      split <;> exact hq
    · unfold State.closeRead
      rw [hrd]
      split
      · assumption
      · rfl
    · unfold State.closeRead
      split <;> exact hwr
  | @closeWrite p hp hmem =>
    refine ⟨_, .single (.closedWrite (hwr ▸ hmem)), hopen.closeWrite hp, ?_, ?_, ?_⟩
    · unfold State.closeWrite
      split <;> exact hq
    · unfold State.closeWrite
      split <;> exact hrd
    · unfold State.closeWrite
      rw [hwr]
      split
      · assumption
      · rfl

theorem simulation (p : ProcPtr) (data : ℕ → UInt8) :
    (piped p data).Simulation (fifo p) Abstracts where
  init := by
    rintro _ rfl
    refine ⟨⟨[], {p}, {p}⟩, rfl, ⟨by simp [Call.isRead], by simp [Call.isWrite], by simp, by simp⟩,
      ?_, rfl, rfl⟩
    exact Ring.nil (Nat.two_pow_pos 32)
  step _ _ _ _ _ h hs := h.step hs p

/-- Whatever the processes see of a pipe, they could see of a bounded queue. -/
theorem pipe_fifo (p : ProcPtr) (data : ℕ → UInt8) (t : List Event) (ht : (piped p data).Trace t) :
    (fifo p).Trace t :=
  (simulation p data).trace ht

theorem pipe_fifo_two : (fifo ⟨0, by decide⟩).Trace
    [.wrote ⟨0, by decide⟩ [1, 2] false, .got ⟨0, by decide⟩ 1 [1]] := by
  apply pipe_fifo _ fun _ => 0
  have hfill : ({ data := fun _ => 0 } : Pipe).fill [1, 2] = ({
      data := Function.update (Function.update (fun _ => 0) 0 1) 1 2, nwrite := 2 }, []) := by
    simp [Pipe.fill, Pipe.full, uint, PIPESIZE]
  have hdrain : ({ data := Function.update (Function.update (fun _ => 0) 0 1) 1 2, nwrite := 2 }
      : Pipe).drain 1 = ({ data := Function.update (Function.update (fun _ => 0) 0 1) 1 2
                           nread := 1, nwrite := 2 }, [1]) := by
    simp [Pipe.drain, uint, PIPESIZE]
  have hwrite := ((Lts.Run.refl (M := piped ⟨0, by decide⟩ fun _ => 0)
    { pipe := { data := fun _ => 0 }, rd := {⟨0, by decide⟩}, wr := {⟨0, by decide⟩} }).silent
    (@Step.write _ ⟨0, by decide⟩ [1, 2] rfl (Finset.mem_singleton_self _) rfl)).event
    (@Step.wrote _ ⟨0, by decide⟩ [1, 2] _ rfl hfill)
  have hread := (hwrite.silent (.read (p := ⟨0, by decide⟩) (n := 1) rfl
    (Finset.mem_singleton_self _) rfl)).event
    (.got (p := ⟨0, by decide⟩) (n := 1) rfl (by decide) hdrain)
  exact ⟨_, _, rfl, hread⟩

/-! ## Whole runs -/

/-- The bytes that an event puts into the pipe. -/
def Event.written : Event → List UInt8
  | .wrote _ cs _ => cs
  | .failed _ cs => cs
  | _ => []

/-- The bytes that an event takes out of the pipe. -/
def Event.received : Event → List UInt8
  | .got _ _ cs => cs
  | _ => []

theorem Fifo.stream {a a' : Fifo} {t : List Event} (h : (fifo p).Run a t a') :
    a.queue ++ t.flatMap Event.written = t.flatMap Event.received ++ a'.queue := by
  induction h with
  | refl => simp
  | @step b b' t o _ hstep ih =>
    have hone : b.queue ++ o.toList.flatMap Event.written
        = o.toList.flatMap Event.received ++ b'.queue := by
      cases hstep <;> simp [Event.written, Event.received]
    rw [List.flatMap_append, List.flatMap_append, ← List.append_assoc, ih, List.append_assoc, hone,
      List.append_assoc]

/-- In every run the bytes read so far, and at most `PIPESIZE` more that are in the pipe, are the
bytes written so far, in order. -/
theorem pipe_stream (p : ProcPtr) (data : ℕ → UInt8) (t : List Event)
    (ht : (piped p data).Trace t) : ∃ rest : List UInt8, rest.length ≤ PIPESIZE ∧
      t.flatMap Event.written = t.flatMap Event.received ++ rest := by
  obtain ⟨s₀, s, hinit, hrun⟩ := ht
  obtain ⟨a₀, a, rfl, harun, habs⟩ := (simulation p data).run hinit hrun
  exact ⟨a.queue, Ring.le habs.queue, by simpa using Fifo.stream harun⟩

end OsLabs.Ipc
