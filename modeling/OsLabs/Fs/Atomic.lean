import OsLabs.Fs.Commit

/-!
# Operations are atomic with respect to crashes

`Atomic` is what the log is for: a disk whose contents survive a crash, the contents that the
operations see, and the operations under way. The first becomes the second at some moment when no
operation is under way, and not later than the return of the `end_op` that commits; a crash brings
the first back.

`crash_atomic`, in `OsLabs.Fs.LogWrite`, says that the log, with its writes to the disk one by one,
its recovery, and a crash possible between any two of them, shows nothing that such a disk could
not.
-/

namespace OsLabs.Fs

open Xv6 State

/-! ## The abstract disk -/

/-- `dur` survives a crash, `vol` is what the operations see, and `active` are the processes inside
an operation. -/
structure Atomic where
  dur : ℕ → Block
  vol : ℕ → Block
  active : Finset ProcPtr

inductive Atomic.Step : Atomic → Option Event → Atomic → Prop
  | begin {a p} (h : p ∉ a.active) : Step a (some (.begin p)) { a with active := insert p a.active }
  | read {a p b} : Step a (some (.read p b (a.vol b))) a
  | write {a p b v} (h : p ∈ a.active) :
      Step a (some (.write p b v)) { a with vol := Function.update a.vol b v }
  | done {a p} (h : p ∈ a.active) : Step a (some (.done p)) { a with active := a.active.erase p }
  /-- All that the operations have written becomes durable. -/
  | commit {a} (h : a.active = ∅) : Step a none { a with dur := a.vol }
  | durable {a p} (h : a.dur = a.vol) : Step a (some (.durable p)) a
  | crash {a} : Step a (some .crash) { a with vol := a.dur, active := ∅ }

/-- The abstract disk, with the contents that `mkfs` wrote. -/
def atomic (disk : ℕ → Block) : Lts Event Atomic where
  init a := a = ⟨disk, disk, ∅⟩
  step := Atomic.Step

/-! ## Operations under way -/

variable {sb : Super} {s s' : State} {o : Option Event} {p : ProcPtr} {c : Call}

def Call.isInside : Call → Bool
  | .inside _ => true
  | _ => false

/-- The processes inside an operation. -/
def State.running (s : State) : Finset ProcPtr := Finset.univ.filter fun p => (s.call p).isInside

theorem mem_running : p ∈ s.running ↔ (s.call p).isInside = true := by simp [State.running]

theorem running_goto_inside (s : State) (p : ProcPtr) (used : ℕ) :
    (s.goto p (.inside used)).running = insert p s.running := by
  ext q
  rw [mem_running, Finset.mem_insert, mem_running]
  obtain rfl | hq := eq_or_ne q p
  · simp [goto, Call.isInside]
  · simp [goto, hq]

theorem running_goto_of_not_inside (s : State) (p : ProcPtr) (hc : c.isInside = false) :
    (s.goto p c).running = s.running.erase p := by
  ext q
  rw [mem_running, Finset.mem_erase, mem_running]
  obtain rfl | hq := eq_or_ne q p
  · simp [goto, hc]
  · simp [goto, hq]

theorem isInside_wakeup (s : State) (p : ProcPtr) :
    ((s.wakeup).call p).isInside = (s.call p).isInside := by
  unfold wakeup
  cases h : s.call p <;> simp [h, Call.isInside]

theorem commit_wakeup (s : State) (p : ProcPtr) :
    (s.wakeup).call p = .commit ↔ s.call p = .commit := by
  unfold wakeup
  cases h : s.call p <;> simp [h]

@[simp]
theorem running_wakeup (s : State) : s.wakeup.running = s.running := by
  ext q
  rw [mem_running, mem_running, isInside_wakeup]

/-- Where a process stands after another's move, or after its own to another place. -/
theorem call_of_goto {d : Call} {q : ProcPtr} (h : (s.goto p c).call q = d) (hne : c ≠ d) :
    s.call q = d := by
  obtain rfl | hqp := eq_or_ne q p
  · exact absurd (by simpa [goto] using h) hne
  · simpa [goto, hqp] using h

/-- `log.outstanding` counts the operations under way; there is none during a commit, which one
process does. -/
structure Counted (s : State) : Prop where
  count : s.outstanding = s.running.card
  busy : s.committing = true → s.outstanding = 0
  up : ∀ p, s.call p ≠ .out → s.up = true
  commit : ∀ p, s.call p = .commit → s.committing = true
  single : ∀ p q, s.call p = .commit → s.call q = .commit → p = q

namespace Counted

theorem running_eq_empty (h : Counted s) (ho : s.outstanding = 0) : s.running = ∅ := by
  rw [← Finset.card_eq_zero, ← h.count, ho]

theorem mem (_ : Counted s) {used : ℕ} (hp : s.call p = .inside used) : p ∈ s.running := by
  rw [mem_running, hp]
  rfl

theorem pos (h : Counted s) {used : ℕ} (hp : s.call p = .inside used) : 0 < s.outstanding := by
  rw [h.count]
  exact Finset.card_pos.mpr ⟨p, h.mem hp⟩

theorem not_committing (h : Counted s) {used : ℕ} (hp : s.call p = .inside used) :
    s.committing = false := by
  rw [← Bool.not_eq_true]
  intro hc
  have hpos := h.pos hp
  have hzero := h.busy hc
  omega

/-- A process that goes to a place outside an operation, from one outside. -/
theorem goto_of_not_inside (h : Counted s) (hp : (s.call p).isInside = false)
    (hc : c.isInside = false) (hne : c ≠ .commit) (hup : s.up = true) :
    Counted (s.goto p c) := by
  have hrun : (s.goto p c).running = s.running := by
    rw [running_goto_of_not_inside s p hc, Finset.erase_eq_of_notMem]
    rw [mem_running, hp]
    exact Bool.false_ne_true
  exact ⟨h.count.trans (congrArg _ hrun.symm), h.busy, fun _ _ => hup,
    fun q hq => h.commit q (call_of_goto hq hne),
    fun q r hq hr => h.single q r (call_of_goto hq hne) (call_of_goto hr hne)⟩

theorem step (h : Counted s) (hs : Step sb s o s') : Counted s' := by
  cases hs with
  | @begin_op p hup hp =>
    exact h.goto_of_not_inside (by simp [hp, Call.isInside]) rfl (by simp) hup
  | @sleep p hp hc =>
    exact h.goto_of_not_inside (by simp [hp, Call.isInside]) rfl (by simp)
      (h.up p (by simp [hp]))
  | @enter p hp hc hr =>
    have hnot : p ∉ s.running := by simp [mem_running, hp, Call.isInside]
    have hup : s.up = true := h.up p (by simp [hp])
    have hcommit : ∀ q, (s.goto p (.inside 0)).call q ≠ .commit := by
      intro q hq
      have hcom := h.commit q (call_of_goto hq (by simp))
      simp [hc] at hcom
    refine ⟨?_, by simp [goto, hc], fun _ _ => hup, fun q hq => absurd hq (hcommit q),
      fun q _ hq => absurd hq (hcommit q)⟩
    show s.outstanding + 1 = (s.goto p (.inside 0)).running.card
    rw [running_goto_inside, Finset.card_insert_of_notMem hnot, h.count]
  | read hup hb => exact ⟨h.count, h.busy, h.up, h.commit, h.single⟩
  | @write p used b v s₁ hp hb hw =>
    obtain ⟨hcall, hout, hcom, hup⟩ : s₁.call = s.call ∧ s₁.outstanding = s.outstanding ∧
        s₁.committing = s.committing ∧ s₁.up = s.up := by
      obtain ⟨-, -, -, rfl⟩ := log_write_eq_some hw
      exact ⟨rfl, rfl, rfl, rfl⟩
    have hrun : s₁.running = s.running := by simp only [State.running, hcall]
    have hcommit : ∀ q, (s₁.goto p (.inside (used + (s₁.lh.length - s.lh.length)))).call q
        = .commit → s.call q = .commit := by
      intro q hq
      exact hcall ▸ call_of_goto hq (by simp)
    refine ⟨?_, ?_, fun _ _ => ?_, fun q hq => ?_, fun q r hq hr => ?_⟩
    · rw [running_goto_inside, hrun, Finset.insert_eq_of_mem (h.mem hp)]
      exact hout.trans h.count
    · intro hc
      exact hout.trans (h.busy (hcom.symm.trans hc))
    · exact hup.trans (h.up p (by simp [hp]))
    · exact hcom.trans (h.commit q (hcommit q hq))
    · exact h.single q r (hcommit q hq) (hcommit r hr)
  | @end_op p used hp hc ho =>
    have hcommit : ∀ q, (s.goto p .out).wakeup.call q ≠ .commit := by
      intro q hq
      rw [commit_wakeup] at hq
      have hcom := h.commit q (call_of_goto hq (by simp))
      simp [hc] at hcom
    have hup : s.up = true := h.up p (by simp [hp])
    refine ⟨?_, ?_, fun _ _ => hup, fun q hq => absurd hq (hcommit q),
      fun q _ hq => absurd hq (hcommit q)⟩
    · show s.outstanding - 1 = (s.goto p .out).wakeup.running.card
      rw [running_wakeup, running_goto_of_not_inside s p rfl, Finset.card_erase_of_mem (h.mem hp),
        h.count]
    · intro hcom
      exact absurd (hc.symm.trans hcom) Bool.false_ne_true
  | @commit p used hp hc ho =>
    have hcommit : ∀ q, (s.goto p .commit).call q = .commit → q = p := by
      intro q hq
      by_contra hqp
      have hcom := h.commit q (by simpa [goto, hqp] using hq)
      simp [hc] at hcom
    have hup : s.up = true := h.up p (by simp [hp])
    refine ⟨?_, fun _ => rfl, fun _ _ => hup, fun _ _ => rfl,
      fun q r hq hr => (hcommit q hq).trans (hcommit r hr).symm⟩
    show 0 = (s.goto p .commit).running.card
    rw [running_goto_of_not_inside s p rfl, Finset.card_erase_of_mem (h.mem hp), ← h.count, ho]
  | advance =>
    obtain ⟨hcall, hout, hcom, hup⟩ := @advance_call sb s
    refine ⟨?_, ?_, ?_, ?_, ?_⟩
    · rw [hout, State.running, hcall]
      exact h.count
    · rw [hout, hcom]
      exact h.busy
    · rw [hcall, hup]
      exact h.up
    · rw [hcall, hcom]
      exact h.commit
    · rw [hcall]
      exact h.single
  | @durable p hp hpc =>
    have hcommit : ∀ q, (s.goto p .out).wakeup.call q ≠ .commit := by
      intro q hq
      rw [commit_wakeup] at hq
      obtain rfl | hqp := eq_or_ne q p
      · simp [goto] at hq
      · exact hqp (h.single q p (by simpa [goto, hqp] using hq) hp)
    have hup : s.up = true := h.up p (by simp [hp])
    have hrun : (s.goto p .out).wakeup.running = s.running := by
      rw [running_wakeup, running_goto_of_not_inside s p rfl, Finset.erase_eq_of_notMem]
      simp [mem_running, hp, Call.isInside]
    exact ⟨h.count.trans (congrArg _ hrun.symm), fun hc => absurd hc Bool.false_ne_true,
      fun _ _ => hup, fun q hq => absurd hq (hcommit q), fun q _ hq => absurd hq (hcommit q)⟩
  | initlog hup hpc => exact ⟨h.count, h.busy, fun _ _ => rfl, h.commit, h.single⟩
  | bget hb => exact ⟨h.count, h.busy, h.up, h.commit, h.single⟩
  | crash =>
    refine ⟨?_, fun _ => rfl, fun _ hq => absurd rfl hq, by simp [State.crash],
      by simp [State.crash]⟩
    simp [State.crash, State.running, Call.isInside]

theorem init (disk : ℕ → Block) : Counted { disk } :=
  ⟨by simp [State.running, Call.isInside], fun _ => rfl, fun _ hq => absurd rfl hq, by simp, by simp⟩

end Counted

end OsLabs.Fs
