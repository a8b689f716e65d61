import Mathlib.Algebra.BigOperators.Group.Finset.Basic
import Mathlib.Algebra.Order.BigOperators.Group.Finset
import OsLabs.Fs.Crash

/-!
# Space in the log

`begin_op` lets an operation in when the log has room for `MAXOPBLOCKS` blocks of each operation
under way, but `log_write` panics from `log.size - 1` blocks on, before it looks whether the block
is in the log already. `no_panic`: the reservation is enough for operations that do not call
`log_write` after they have added `MAXOPBLOCKS - 1` blocks.

A process that finds no room sleeps, and is woken up again: see `OsLabs.Fs.Progress`.
-/

namespace OsLabs.Fs

open Xv6 State

variable {sb : Super} {s s' : State} {o : Option Event} {p : ProcPtr} {c : Call} {b : ℕ} {v : Block}

/-! ## What the operations may still add -/

/-- The blocks that an operation may still add to the header. -/
def Call.budget : Call → ℕ
  | .inside used => MAXOPBLOCKS - 1 - used
  | _ => 0

/-- The blocks that the operations under way may still add. -/
def owed (s : State) : ℕ := ∑ p, (s.call p).budget

theorem owed_goto (s : State) (p : ProcPtr) (c : Call) :
    owed (s.goto p c) + (s.call p).budget = owed s + c.budget := by
  have hrest : ∑ q ∈ Finset.univ.erase p, ((s.goto p c).call q).budget
      = ∑ q ∈ Finset.univ.erase p, (s.call q).budget := by
    refine Finset.sum_congr rfl fun q hq => ?_
    simp [goto, Finset.ne_of_mem_erase hq]
  have hold := Finset.add_sum_erase Finset.univ (fun q => (s.call q).budget) (Finset.mem_univ p)
  have hnew := Finset.add_sum_erase Finset.univ (fun q => ((s.goto p c).call q).budget)
    (Finset.mem_univ p)
  have hself : ((s.goto p c).call p).budget = c.budget := by simp [goto]
  simp only [hrest, hself] at hnew
  simp only [owed, ← hold, ← hnew]
  omega

theorem owed_wakeup (s : State) : owed s.wakeup = owed s := by
  refine Finset.sum_congr rfl fun p _ => ?_
  unfold wakeup
  cases h : s.call p <;> simp [h, Call.budget]

theorem Call.budget_of_not_inside (h : c.isInside = false) : c.budget = 0 := by
  cases c <;> first | rfl | cases h

theorem owed_le (s : State) : owed s ≤ s.running.card * (MAXOPBLOCKS - 1) := by
  have hsub : owed s = ∑ p ∈ s.running, (s.call p).budget := by
    symm
    refine Finset.sum_subset (Finset.subset_univ _) fun p _ hp => ?_
    exact Call.budget_of_not_inside (by simpa [mem_running] using hp)
  rw [hsub]
  refine Finset.sum_le_card_nsmul _ _ _ fun p _ => ?_
  cases s.call p <;> simp [Call.budget]

/-- No operation is under way during a commit or a recovery. -/
theorem owed_eq_zero (h : OnDisk sb s) (hc : Counted s) (hpc : s.pc ≠ .idle) : owed s = 0 := by
  have hzero : s.outstanding = 0 := by
    cases hup : s.up
    · rw [hc.count, Finset.card_eq_zero, Finset.eq_empty_iff_forall_notMem]
      intro p hp
      rw [mem_running] at hp
      have hout : s.call p = .out := by
        by_contra hne
        simp [hc.up p hne] at hup
      simp [hout, Call.isInside] at hp
    · refine hc.busy ?_
      by_contra hcom
      exact hpc (h.pc_idle hup (by simpa using hcom))
  have hle := owed_le s
  rw [← hc.count, hzero] at hle
  omega

/-! ## No panic -/

/-- Operations do not call `log_write` after they have added `MAXOPBLOCKS - 1` blocks. -/
def Frugal (s : State) (o : Option Event) (_ : State) : Prop :=
  ∀ p b v used, o = some (.write p b v) → s.call p = .inside used → used + 1 < MAXOPBLOCKS

/-- There is room for what the operations may still add. -/
def Reserved (s : State) : Prop := s.lh.length + owed s < LOGSIZE

theorem length_record (lh : List ℕ) (b : ℕ) :
    (record lh b).length = lh.length ∨ (record lh b).length = lh.length + 1 := by
  rw [record_eq]
  split
  · exact Or.inl rfl
  · exact Or.inr (by simp)

theorem Reserved.step (h : Reserved s) (hnlog : sb.nlog = LOGSIZE) (hok : OnDisk sb s)
    (hc : Counted s) (hs : Step sb s o s') (hf : Frugal s o s') : Reserved s' := by
  unfold Reserved at h ⊢
  have hsame : ∀ {p : ProcPtr} {c : Call}, (s.call p).budget = 0 → c.budget = 0 →
      s.lh.length + owed (s.goto p c) < LOGSIZE := by
    intro p c hp hc
    have hgoto := owed_goto s p c
    omega
  cases hs with
  | begin_op hup hp => exact hsame (by rw [hp]; rfl) rfl
  | sleep hp hcom => exact hsame (by rw [hp]; rfl) rfl
  | @enter p hp hcom hr =>
    have hgoto := owed_goto s p (.inside 0)
    have hle := owed_le s
    rw [← hc.count] at hle
    rw [hp] at hgoto
    simp only [Room, LOGSIZE, MAXOPBLOCKS, Call.budget] at hr hle hgoto ⊢
    show s.lh.length + owed (s.goto p (.inside 0)) < _
    omega
  | read hup hb => exact h
  | @write p used b v s₁ hp hb hw =>
    have hused := hf p b v used rfl hp
    obtain ⟨-, -, -, rfl⟩ := log_write_eq_some hw
    have hlen := length_record s.lh b
    have hgoto := owed_goto s p (.inside (used + ((record s.lh b).length - s.lh.length)))
    rw [hp] at hgoto
    simp only [Call.budget, MAXOPBLOCKS] at hgoto hused
    show (record s.lh b).length
      + owed (s.goto p (.inside (used + ((record s.lh b).length - s.lh.length)))) < _
    omega
  | @end_op p used hp hcom ho =>
    have hgoto := owed_goto s p .out
    show s.lh.length + owed (s.goto p .out).wakeup < _
    rw [owed_wakeup]
    simp only [Call.budget] at hgoto
    omega
  | @commit p used hp hcom ho =>
    have hgoto := owed_goto s p .commit
    show s.lh.length + owed (s.goto p .commit) < _
    simp only [Call.budget] at hgoto
    omega
  | advance =>
    by_cases hpc : s.pc = .idle
    · simpa only [State.advance, hpc] using h
    · have howed : owed (s.advance sb) = 0 := by
        rw [owed, (advance_call s).1]
        exact owed_eq_zero hok hc hpc
      have hfits := (advance_spec hok).ok.lh.fits
      omega
  | @durable p hp hpc =>
    show s.lh.length + owed (s.goto p .out).wakeup < _
    rw [owed_wakeup]
    exact hsame (by rw [hp]; rfl) rfl
  | initlog hup hpc => exact h
  | bget hb => exact h
  | crash => simp [State.crash, owed, Call.budget, LOGSIZE, MAXOPBLOCKS]

theorem reserved (disk : ℕ → Block) (hdisk : disk sb.logstart 0 = 0) (hnlog : sb.nlog = LOGSIZE) :
    ((logged sb disk).within Frugal).Invariant Reserved where
  init := by
    rintro _ rfl
    simp [Reserved, owed, Call.budget, LOGSIZE, MAXOPBLOCKS]
  step s o s' hs h hstep := by
    obtain ⟨hok, hc⟩ := (invariant disk hdisk).reachable hs.of_within
    exact h.step hnlog hok hc hstep.1 hstep.2

/-- As long as no operation calls `log_write` after it has added `MAXOPBLOCKS - 1` blocks, neither
`log_write` nor `end_op` panics in an operation. -/
theorem no_panic (sb : Super) (disk : ℕ → Block) (hdisk : disk sb.logstart 0 = 0)
    (hnlog : sb.nlog = LOGSIZE) (s : State) (hs : ((logged sb disk).within Frugal).Reachable s)
    (p : ProcPtr) (used : ℕ) (hp : s.call p = .inside used) :
    s.committing = false ∧
      (used + 1 < MAXOPBLOCKS → ∀ b v, (s.log_write sb b v).isSome = true) := by
  obtain ⟨hok, hc⟩ := (invariant disk hdisk).reachable hs.of_within
  refine ⟨hc.not_committing hp, fun hused b v => ?_⟩
  have hres : s.lh.length + owed s < LOGSIZE := (reserved disk hdisk hnlog).reachable hs
  have hbudget : (s.call p).budget ≤ owed s :=
    Finset.single_le_sum (fun q _ => Nat.zero_le (s.call q).budget) (Finset.mem_univ p)
  have hpos := hc.pos hp
  simp only [hp, Call.budget] at hbudget
  have hfits : ¬ s.TooBig sb := by
    unfold TooBig
    omega
  simp [State.log_write, hfits, hpos.ne']

theorem no_panic_first : ∃ s : State, s.call ⟨0, by decide⟩ = .inside 0 ∧ s.committing = false ∧
    ∀ b v, (s.log_write ⟨2, LOGSIZE, by decide⟩ b v).isSome = true := by
  have hboot := ((((Lts.Run.refl (M := (logged ⟨2, LOGSIZE, by decide⟩ fun _ _ => 0).within Frugal)
    { disk := fun _ _ => 0 }).silent ⟨.advance, by simp [Frugal]⟩).silent
    ⟨.advance, by simp [Frugal]⟩).silent ⟨.advance, by simp [Frugal]⟩).silent
    ⟨.initlog rfl rfl, by simp [Frugal]⟩
  have hop := (hboot.silent ⟨.begin_op (p := ⟨0, by decide⟩) rfl rfl, by simp [Frugal]⟩).event
    ⟨.enter (p := ⟨0, by decide⟩) rfl rfl (by decide), by simp [Frugal]⟩
  obtain ⟨hcom, hpanic⟩ := no_panic _ _ rfl rfl _ ⟨_, _, rfl, hop⟩ ⟨0, by decide⟩ 0 rfl
  exact ⟨_, rfl, hcom, hpanic (by decide)⟩

end OsLabs.Fs
