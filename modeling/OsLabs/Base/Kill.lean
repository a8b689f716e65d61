import OsLabs.Base.Parents

/-!
# A new process and `kill`

`kill` looks for the pid in every slot, in use or not. A slot that is not in use has the pid 0, or
the pid of a child whose `fork` or `spawn` failed, and only `wait` clears the mark `killed`; so
`kill` of such a pid returns 0 and marks a process that does not exist yet. The mark also stays
when a child is killed while it is built and the `fork` or `spawn` then fails.

* `Good`: a child starts unmarked unless it was killed itself, and `kill` returns 0 for the pid of a
  process only;
* `Clean`: `kill` finds no unused slot, and no marked slot is put back;
* `new_process_unmarked`: in a run of clean steps every step is good;
* `killed_before_born`: a run with a child that starts marked.
-/

namespace OsLabs.Base

open Xv6

/-- A child that is made runnable is not marked unless `kill` was called with its pid since
`allocproc` assigned it, and `kill(pid)` returns 0 only for the pid of a slot in use. -/
def Good (s : State) : Event → Prop
  | .published np => (s.proc np).killed = true → s.hit np = true
  | .kill pid ret => ret = 0 → ∃ q, (s.proc q).state ≠ .UNUSED ∧ ((s.proc q).pid : ℤ) = pid
  | .unborn _ => True
  | .tau => True

/-- The slot that `kill` finds, if any, is in use, and a slot put back to `UNUSED` is not marked. -/
def Clean (s : State) : Event → Prop
  | .published _ => True
  | .kill pid _ => ∀ q, s.proc.first (fun q => (q.pid : ℤ) = pid) = some q →
      (s.proc q).state ≠ .UNUSED
  | .unborn np => (s.proc np).killed = false
  | .tau => True

/-- No unused slot is marked, and a child that is being built only by `kill` of its pid. -/
structure Unmarked (s : State) : Prop where
  unused : ∀ q, (s.proc q).state = .UNUSED → (s.proc q).killed = false
  embryo : ∀ q, (s.proc q).state = .EMBRYO → (s.proc q).killed = true → s.hit q = true

namespace Unmarked

variable {s s' : State}

theorem init : Unmarked userinit := by
  refine ⟨fun q hq => ?_, fun q hq => ?_⟩
  · by_cases h : q = slot0
    · rw [h, userinit_slot0]
    · rw [userinit_of_ne h]
  · by_cases h : q = slot0
    · rw [h, userinit_slot0] at hq
      exact ProcState.noConfusion hq
    · rw [userinit_of_ne h] at hq
      exact ProcState.noConfusion hq

/-- One slot changes. -/
theorem setSlot (h : Unmarked s) (p : ProcPtr) {v : Proc}
    (hproc : s'.proc = s.proc.set p fun _ => v)
    (hhit : ∀ q, q ≠ p → s.hit q = true → s'.hit q = true)
    (hunused : v.state = .UNUSED → v.killed = false)
    (hembryo : v.state = .EMBRYO → v.killed = true → s'.hit p = true) :
    Unmarked s' := by
  refine ⟨fun q hq => ?_, fun q hq hk => ?_⟩
  · rw [hproc, Table.set_apply] at hq ⊢
    split at hq
    · rename_i hqp
      rw [if_pos hqp]
      exact hunused hq
    · rename_i hqp
      rw [if_neg hqp]
      exact h.unused q hq
  · rw [hproc, Table.set_apply] at hq hk
    split at hq
    · rename_i hqp
      rw [if_pos hqp] at hk
      rw [hqp]
      exact hembryo hq hk
    · rename_i hqp
      rw [if_neg hqp] at hk
      exact hhit q hqp (h.embryo q hq hk)

/-- One slot changes to a state that is neither `UNUSED` nor `EMBRYO`. -/
theorem setAlive (h : Unmarked s) (p : ProcPtr) {v : Proc}
    (hproc : s'.proc = s.proc.set p fun _ => v) (hhit : s'.hit = s.hit) (hst : Alive v.state) :
    Unmarked s' :=
  h.setSlot p hproc (fun q _ hq => by rwa [hhit]) (fun e => absurd e hst.ne_unused)
    fun e => absurd e hst.ne_embryo

theorem exit (h : Unmarked s) {p : ProcPtr} (hp : (s.proc p).state = .RUNNING) :
    Unmarked { s with proc := s.proc.exit p (some s.initproc) } := by
  refine ⟨fun q hq => ?_, fun q hq hk => ?_⟩
  · rw [Table.exit_killed]
    refine h.unused q ((Table.exit_unused (some s.initproc) ?_ q).mp hq)
    rw [hp]
    exact ProcState.noConfusion
  · rw [Table.exit_killed] at hk
    refine h.embryo q ?_ hk
    by_cases hqp : q = p
    · rw [hqp, Table.exit_state_self] at hq
      exact ProcState.noConfusion hq
    · rcases Table.exit_state_ne s.proc p (some s.initproc) hqp with e | ⟨-, e⟩
      · exact e.symm.trans hq
      · exact ProcState.noConfusion (e.symm.trans hq)

theorem step (h : Unmarked s) {e : Event} (hs : Step s e s') (hc : Clean s e) :
    Unmarked s' := by
  cases hs with
  | @sched p hst =>
    refine h.setAlive p rfl rfl ?_
    exact alive_running
  | @yield p hst =>
    refine h.setAlive p rfl rfl ?_
    exact alive_runnable
  | @sleep p hst =>
    refine h.setAlive p rfl rfl ?_
    exact alive_sleeping
  | @wakeup p hst =>
    refine h.setAlive p rfl rfl ?_
    exact alive_runnable
  | fork => exact ⟨h.unused, h.embryo⟩
  | spawn => exact ⟨h.unused, h.embryo⟩
  | noslot => exact ⟨h.unused, h.embryo⟩
  | @alloc p np j hst hpc hf =>
    have hnp : (s.proc np).state = .UNUSED := of_decide_eq_true (Table.first_some hf)
    refine h.setSlot np rfl (fun q hq hh => ?_) (fun e => ?_) fun _ hk => ?_
    · change Function.update s.hit np false q = true
      rwa [Function.update_of_ne hq]
    · exact ProcState.noConfusion e
    · change (s.proc np).killed = true at hk
      rw [h.unused np hnp] at hk
      exact absurd hk Bool.false_ne_true
  | @nostack p np =>
    refine h.setSlot np rfl (fun _ _ => id) (fun _ => ?_) fun e => ?_
    · exact hc
    · exact ProcState.noConfusion e
  | stack => exact ⟨h.unused, h.embryo⟩
  | @nocopy p np =>
    refine h.setSlot np rfl (fun _ _ => id) (fun _ => ?_) fun e => ?_
    · exact hc
    · exact ProcState.noConfusion e
  | @copy p np =>
    refine h.setSlot np rfl (fun _ _ => id) (fun e => ?_) fun e hk => ?_
    · exact h.unused np e
    · exact h.embryo np e hk
  | @publish p np =>
    refine h.setAlive np rfl rfl ?_
    exact alive_runnable
  | exit hst => exact h.exit hst
  | @reap p q =>
    refine h.setSlot q rfl (fun _ _ => id) (fun _ => ?_) fun e => ?_
    · rfl
    · exact ProcState.noConfusion e
  | nochild => exact ⟨h.unused, h.embryo⟩
  | @waitSleep p =>
    refine h.setAlive p rfl rfl ?_
    exact alive_sleeping
  | @kill p q hst hpc pid hf =>
    have hq : ((s.proc q).pid : ℤ) = pid := of_decide_eq_true (Table.first_some hf)
    have hused := hc q hf
    refine h.setSlot q rfl (fun r _ hr => ?_) (fun e => ?_) fun _ _ => ?_
    · simp only [hr, Bool.true_or]
    · simp only [killed] at e
      split at e
      · exact ProcState.noConfusion e
      · exact absurd e hused
    · simp only [hq, decide_true, Bool.or_true]
  | nokill => exact h

end Unmarked

/-- A run of clean steps keeps the invariants. -/
theorem unmarked_of_reachable {s : State} (h : Reachable Clean s) : Unmarked s := by
  induction h with
  | init => exact Unmarked.init
  | step _ hs hC ih => exact ih.step hs hC

/-- In every run in which `kill` finds no unused slot and no marked slot is put back to `UNUSED`:
a child that `fork` or `spawn` makes runnable is not marked unless `kill` was called with its pid,
and `kill(pid)` returns 0 only if some slot in use has that pid. -/
theorem new_process_unmarked {s s' : State} {e : Event} (h : Reachable Clean s)
    (hs : Step s e s') (hc : Clean s e) : Good s e := by
  have hm := unmarked_of_reachable h
  have hinv := inv_of_reachable h
  cases hs with
  | @publish p np j hst hpc =>
    exact hm.embryo np (hinv.builder p np (Pc.builds_of_publish hpc)).2
  | @kill p q hst hpc pid hf =>
    exact fun _ => ⟨q, hc q hf, of_decide_eq_true (Table.first_some hf)⟩
  | nokill => exact fun e => absurd e (by decide)
  | _ => trivial

/-- A step by which `kill` returns 0 in a run of clean steps: the first process kills itself. -/
theorem new_process_unmarked_self : ∃ (s s' : State) (pid : ℤ), Reachable Clean s ∧
    Step s (.kill pid 0) s' ∧ Good s (.kill pid 0) := by
  obtain ⟨s, h, hst, hpid, hpc, -, hrest⟩ := init_run (C := Clean) fun _ => trivial
  cases hf : s.proc.first (fun q => (q.pid : ℤ) = 1) with
  | none =>
    have hnone := of_decide_eq_false (Table.first_none hf slot0)
    rw [hpid] at hnone
    exact absurd rfl hnone
  | some q =>
    have hq : q = slot0 := by
      by_contra hne
      have hfound := of_decide_eq_true (Table.first_some hf)
      rw [hrest q hne] at hfound
      exact absurd hfound (by decide)
    have hclean : Clean s (.kill 1 0) := fun r hr => by
      rw [← Option.some.inj (hf.symm.trans hr), hq, hst]
      exact ProcState.noConfusion
    have hstep := Step.kill hst hpc hf
    exact ⟨s, _, 1, h, hstep, new_process_unmarked h hstep hclean⟩

/-- The first process calls `kill(0)`, which returns 0 though no slot in use has the pid 0, and
then `fork`: the child is made runnable with the mark set, and `kill` was not called with its
pid. -/
theorem killed_before_born : ∃ (s s' t t' : State) (np : ProcPtr),
    (Reachable anyStep s ∧ Step s (.kill 0 0) s' ∧ ¬Good s (.kill 0 0)) ∧
    Reachable anyStep t ∧ Step t (.published np) t' ∧ ¬Good t (.published np) := by
  have hC : ∀ s, anyStep s .tau := fun _ => trivial
  obtain ⟨s, h, hst, hpid, hpc, hnext, hrest⟩ := init_run hC
  have hother : ∀ q, (s.proc q).state ≠ .UNUSED ∨ ((s.proc q).pid : ℤ) ≠ 0 → q = slot0 := by
    intro q hq
    by_contra hne
    rw [hrest q hne] at hq
    exact hq.elim (fun h => h rfl) fun h => h rfl
  cases hf : s.proc.first (fun q => (q.pid : ℤ) = 0) with
  | none =>
    have hnone := Table.first_none hf ⟨1, by decide⟩
    rw [hrest _ (by decide)] at hnone
    exact absurd hnone (by decide)
  | some q =>
    have hq : ((s.proc q).pid : ℤ) = 0 := of_decide_eq_true (Table.first_some hf)
    have hne : slot0 ≠ q := fun e => by
      rw [← e, hpid] at hq
      exact absurd hq (by decide)
    have hslot : s.proc q = {} := hrest q (Ne.symm hne)
    have hkill := Step.kill hst hpc hf
    have hreach := h.step hkill trivial
    -- the slot that `kill` has marked is the first unused one
    have hfirst : (s.proc.set q killed).first (·.state = .UNUSED) = some q := by
      rw [← hf]
      refine congrArg (fun c => List.find? c _) (funext fun r => decide_eq_decide.mpr ?_)
      by_cases hr : r = q
      · rw [hr, Table.set_self, hslot]
        exact iff_of_true rfl rfl
      · rw [Table.set_ne _ _ hr]
        by_cases hr0 : r = slot0
        · rw [hr0, hst, hpid]
          exact iff_of_false ProcState.noConfusion (by decide)
        · rw [hrest r hr0]
          exact iff_of_true rfl rfl
    obtain ⟨t, ht, hst', hpc', hmark, hhit⟩ := fork_run hC hreach
      (by rw [State.setProc_of_ne s hne]; exact hst) hpc hfirst hnext
    refine ⟨s, _, t, _, q, ⟨h, hkill, fun hgood => ?_⟩, ht, .publish hst' hpc', fun hgood => ?_⟩
    · obtain ⟨r, hr, hr0⟩ := hgood rfl
      rw [hother r (Or.inl hr), hpid] at hr0
      exact absurd hr0 (by decide)
    · have hset : (t.proc q).killed = true := by
        rw [hmark, State.setProc_self]
        rfl
      rw [hgood hset] at hhit
      exact absurd hhit.symm Bool.false_ne_true

end OsLabs.Base
