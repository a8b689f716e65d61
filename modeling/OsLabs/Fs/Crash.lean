import OsLabs.Fs.Atomic

/-!
# The log implements the atomic disk

`OnDisk` and `Counted` hold of every reachable state of the log (`invariant`), and the abstraction
reads the abstract disk off such a state: what survives is `replay`, what the operations see is
`view`, and `simulation` checks each step.
-/

namespace OsLabs.Fs

open Xv6 State

variable {sb : Super} {s s' : State} {o : Option Event} {p : ProcPtr} {b : ℕ} {v : Block}

/-! ## The invariant -/

namespace OnDisk

/-- A step that leaves alone the disk, the header and what `bread` returns. -/
theorem frame (h : OnDisk sb s) (hcached : Cached s') (hbread : s'.bread = s.bread)
    (hdirty : s'.dirty = s.dirty) (hdisk : s'.disk = s.disk) (hlh : s'.lh = s.lh)
    (hpc : s'.pc = s.pc) (hup : s'.up = s.up) (hcom : s'.committing = s.committing) :
    OnDisk sb s' := by
  have hpend : pending s' s'.pc = pending s s.pc := by
    rw [hpc]
    cases s.pc <;> simp only [pending, hlh]
  have hphase : Phase sb s' s'.pc = Phase sb s s.pc := by
    rw [hpc]
    cases s.pc <;> simp only [Phase, Copied, Installed, Settled, hbread, hdisk, hlh, hup, hcom]
  exact ⟨hcached, hdirty ▸ hpend ▸ h.dirty, hlh ▸ h.lh, hdisk ▸ h.head, hphase ▸ h.phase⟩

theorem pc_idle (h : OnDisk sb s) (hup : s.up = true) (hcom : s.committing = false) :
    s.pc = .idle := by
  have hphase := h.phase
  cases hpc : s.pc <;> simp_all [Phase]

theorem init (disk : ℕ → Block) (h : disk sb.logstart 0 = 0) : OnDisk sb { disk } := by
  have hhead : Fs.head sb disk = [] := by simp [Fs.head, decode, h]
  refine ⟨⟨by simp, by simp⟩, by simp, Header.nil, ?_, rfl, rfl, rfl⟩
  rw [show Fs.head sb _ = [] from hhead]
  exact Header.nil

theorem crash (h : OnDisk sb s) : OnDisk sb s.crash :=
  ⟨⟨by simp [State.crash], by simp [State.crash]⟩, by simp [State.crash], Header.nil, h.head,
    rfl, rfl, rfl⟩

end OnDisk

theorem bread_recycle (h : Cached s) (hb : s.dirty b = false) :
    ({ s with data := Function.update s.data b none } : State).bread = s.bread := by
  funext c
  obtain rfl | hne := eq_or_ne c b
  · rw [h.bread hb]
    simp [bread]
  · simp [bread, hne]

theorem OnDisk.write (h : OnDisk sb s) (hpc : s.pc = .idle) (hb : sb.Home b)
    (hw : s.log_write sb b v = some s') : OnDisk sb s' := by
  obtain ⟨hup, hcom, hhead⟩ : Phase sb s .idle := hpc ▸ h.phase
  obtain ⟨-, hroom, -, rfl⟩ := log_write_eq_some hw
  have hdirty : ∀ c, Function.update s.dirty b true c = true → c ∈ record s.lh b := by
    intro c hc
    rw [record_eq]
    obtain rfl | hne := eq_or_ne c b
    · split
      · assumption
      · exact List.mem_append_right _ (List.mem_singleton_self c)
    · have hmem := h.of_pending (by simpa [hne] using hc)
      split
      · exact hmem
      · exact List.mem_append_left _ hmem
  refine ⟨h.cached.dirtied b v, ?_, h.lh.record hb hroom, h.head, ?_⟩
  · simpa only [hpc, pending] using hdirty
  · simp only [hpc, Phase]
    exact ⟨hup, hcom, hhead⟩

theorem OnDisk.step (h : OnDisk sb s) (hc : Counted s) (hs : Step sb s o s') : OnDisk sb s' := by
  have hlocal : ∀ {s' : State}, s'.data = s.data → s'.dirty = s.dirty → s'.disk = s.disk →
      s'.lh = s.lh → s'.pc = s.pc → s'.up = s.up → s'.committing = s.committing →
      OnDisk sb s' := by
    intro s' hdata hdirty hdisk hlh hpc hup hcom
    refine h.frame ?_ ?_ hdirty hdisk hlh hpc hup hcom
    · unfold Cached
      rw [hdata, hdirty, hdisk]
      exact h.cached
    · funext b
      simp only [bread, hdata, hdisk]
  cases hs with
  | begin_op hup hp => exact hlocal rfl rfl rfl rfl rfl rfl rfl
  | sleep hp hcom => exact hlocal rfl rfl rfl rfl rfl rfl rfl
  | enter hp hcom hr => exact hlocal rfl rfl rfl rfl rfl rfl rfl
  | read hup hb =>
    exact h.frame (h.cached.load _) (bread_load s _) rfl rfl rfl rfl rfl rfl
  | @write p used b v s₁ hp hb hw =>
    have hok := h.write (h.pc_idle (hc.up p (by simp [hp])) (hc.not_committing hp)) hb hw
    exact ⟨hok.cached, hok.dirty, hok.lh, hok.head, hok.phase⟩
  | end_op hp hcom ho => exact hlocal rfl rfl rfl rfl rfl rfl rfl
  | @commit p used hp hcom ho =>
    have hpc := h.pc_idle (hc.up p (by simp [hp])) hcom
    obtain ⟨hup, -, hhead⟩ : Phase sb s .idle := hpc ▸ h.phase
    refine ⟨h.cached, fun c hc => ?_, h.lh, h.head, ?_⟩
    · have hmem := h.of_pending hc
      show c ∈ pending _ (if 0 < s.lh.length then .write_log 0 else .finish)
      split <;> exact hmem
    · show Phase sb _ (if 0 < s.lh.length then .write_log 0 else .finish)
      split
      · exact ⟨hup, rfl, hhead, fun i _ hi => absurd hi (Nat.not_lt_zero i)⟩
      · rename_i hlh
        exact ⟨hup, List.length_eq_zero_iff.mp (Nat.eq_zero_of_not_pos hlh), hhead⟩
  | advance => exact (advance_spec h).ok
  | @durable p hp hpc =>
    obtain ⟨hup, hlh, hhead⟩ : Phase sb s .finish := hpc ▸ h.phase
    exact ⟨h.cached, fun c hc => h.of_pending hc, h.lh, h.head,
      hup.trans (hc.commit p hp), rfl, hhead⟩
  | initlog hup hpc =>
    obtain ⟨hup', hlh, hhead⟩ : Phase sb s .finish := hpc ▸ h.phase
    exact ⟨h.cached, fun c hc => h.of_pending hc, h.lh, h.head, rfl, hup'.symm.trans hup, hhead⟩
  | bget hb =>
    exact h.frame (h.cached.recycle hb) (bread_recycle h.cached hb) rfl rfl rfl rfl rfl rfl
  | crash => exact h.crash

theorem invariant (disk : ℕ → Block) (h : disk sb.logstart 0 = 0) :
    (logged sb disk).Invariant fun s => OnDisk sb s ∧ Counted s where
  init := by
    rintro _ rfl
    exact ⟨OnDisk.init disk h, Counted.init disk⟩
  step _ _ _ _ h hs := ⟨h.1.step h.2 hs, h.2.step hs⟩

/-! ## The abstraction -/

/-- What the operations see. -/
def view (sb : Super) (s : State) : ℕ → Block := if s.up then s.bread else replay sb s.disk

theorem view_of_up (h : s.up = true) : view sb s = s.bread := if_pos h

/-- `a` is the abstract disk of `s`. -/
structure Abstracts (sb : Super) (s : State) (a : Atomic) : Prop where
  dur : ∀ b, sb.Home b → a.dur b = replay sb s.disk b
  vol : ∀ b, sb.Home b → a.vol b = view sb s b
  rest : ∀ b, ¬ sb.Home b → a.dur b = a.vol b
  active : a.active = s.running

namespace Abstracts

variable {a : Atomic}

/-- A step that the abstract disk does not see. -/
theorem same (h : Abstracts sb s a)
    (hreplay : ∀ b, sb.Home b → replay sb s'.disk b = replay sb s.disk b)
    (hview : ∀ b, sb.Home b → view sb s' b = view sb s b) (hrun : s'.running = s.running) :
    Abstracts sb s' a where
  dur b hb := (h.dur b hb).trans (hreplay b hb).symm
  vol b hb := (h.vol b hb).trans (hview b hb).symm
  rest := h.rest
  active := h.active.trans hrun.symm

theorem of_up (hup : s.up = true) (h : Abstracts sb s a) (hb : sb.Home b) :
    a.vol b = s.bread b := by
  rw [h.vol b hb, view_of_up hup]

/-- Where nothing is left to write, the two contents agree. -/
theorem dur_eq_vol (h : Abstracts sb s a) (hset : ∀ b, sb.Home b → view sb s b = replay sb s.disk b) :
    a.dur = a.vol := by
  funext b
  by_cases hb : sb.Home b
  · rw [h.dur b hb, h.vol b hb, hset b hb]
  · exact h.rest b hb

theorem advance (h : Abstracts sb s a) (hok : OnDisk sb s) (hc : Counted s) (disk : ℕ → Block) :
    ∃ a', (atomic disk).Run a [] a' ∧ Abstracts sb (s.advance sb) a' := by
  have hadv := advance_spec hok
  obtain ⟨hcall, -, -, hup'⟩ := @advance_call sb s
  have hrun : (s.advance sb).running = s.running := by rw [State.running, hcall, State.running]
  by_cases hpc : s.pc = .write_head
  · -- the commit point: what the operations see becomes what survives
    obtain ⟨hup, hcom, -⟩ : Phase sb s .write_head := hpc ▸ hok.phase
    have hview : ∀ b, sb.Home b → view sb (s.advance sb) b = a.vol b := by
      intro b hb
      rw [view_of_up (hup'.trans hup), hadv.shown hup b hb, of_up hup h hb]
    have hnone : a.active = ∅ := h.active.trans (hc.running_eq_empty (hc.busy hcom))
    refine ⟨{ a with dur := a.vol }, (Lts.Run.refl a).silent (.commit hnone), fun b hb => ?_,
      fun b hb => (hview b hb).symm, fun _ _ => rfl, h.active.trans hrun.symm⟩
    exact (of_up hup h hb).trans (hadv.commit hpc b hb).symm
  · refine ⟨a, .refl a, h.same (hadv.kept hpc) (fun b hb => ?_) hrun⟩
    unfold view
    rw [hup']
    split
    · rename_i hup
      exact hadv.shown hup b hb
    · exact hadv.kept hpc b hb

theorem step (h : Abstracts sb s a) (hok : OnDisk sb s) (hc : Counted s) (disk : ℕ → Block)
    (hs : Step sb s o s') : ∃ a', (atomic disk).Run a o.toList a' ∧ Abstracts sb s' a' := by
  cases hs with
  | @begin_op p hup hp =>
    have hrun : (s.goto p .begin_op).running = s.running := by
      rw [running_goto_of_not_inside s p rfl, Finset.erase_eq_of_notMem]
      simp [mem_running, hp, Call.isInside]
    exact ⟨a, .refl a, h.same (fun _ _ => rfl) (fun _ _ => rfl) hrun⟩
  | @sleep p hp hcom =>
    have hrun : (s.goto p .asleep).running = s.running := by
      rw [running_goto_of_not_inside s p rfl, Finset.erase_eq_of_notMem]
      simp [mem_running, hp, Call.isInside]
    exact ⟨a, .refl a, h.same (fun _ _ => rfl) (fun _ _ => rfl) hrun⟩
  | @enter p hp hcom hr =>
    have hnot : p ∉ a.active := by
      rw [h.active, mem_running, hp]
      exact Bool.false_ne_true
    refine ⟨_, .single (Atomic.Step.begin hnot), h.dur, h.vol, h.rest, ?_⟩
    rw [show a.active = s.running from h.active]
    exact (running_goto_inside s p 0).symm
  | @read p b hup hb =>
    refine ⟨a, ?_, h.same (fun _ _ => rfl) (fun c hc => ?_) rfl⟩
    · rw [← of_up hup h hb]
      exact .single Atomic.Step.read
    · unfold view
      rw [bread_load]
      rfl
  | @write p used b v s₁ hp hb hw =>
    have hup : s.up = true := hc.up p (by simp [hp])
    have hpc := hok.pc_idle hup (hc.not_committing hp)
    have hmem : p ∈ a.active := h.active ▸ hc.mem hp
    obtain ⟨-, -, -, rfl⟩ := log_write_eq_some hw
    refine ⟨_, .single (Atomic.Step.write hmem), h.dur, fun c hc => ?_, fun c hc => ?_, ?_⟩
    · rw [view_of_up (by exact hup)]
      obtain rfl | hne := eq_or_ne c b
      · simp [bread, goto]
      · simpa [bread, goto, hne] using of_up hup h hc
    · have hne : c ≠ b := by
        rintro rfl
        exact hc hb
      simpa [hne] using h.rest c hc
    · rw [running_goto_inside]
      exact h.active.trans (Finset.insert_eq_of_mem (hc.mem hp)).symm
  | @end_op p used hp hcom ho =>
    have hmem : p ∈ a.active := h.active ▸ hc.mem hp
    refine ⟨_, .single (Atomic.Step.done hmem), h.dur, h.vol, h.rest, ?_⟩
    rw [show a.active = s.running from h.active]
    exact ((running_wakeup _).trans (running_goto_of_not_inside s p rfl)).symm
  | @commit p used hp hcom ho =>
    have hmem : p ∈ a.active := h.active ▸ hc.mem hp
    refine ⟨_, .single (Atomic.Step.done hmem), h.dur, h.vol, h.rest, ?_⟩
    rw [show a.active = s.running from h.active]
    exact (running_goto_of_not_inside s p rfl).symm
  | advance => exact h.advance hok hc disk
  | @durable p hp hpc =>
    obtain ⟨-, hlh, hhead⟩ : Phase sb s .finish := hpc ▸ hok.phase
    have hup : s.up = true := hc.up p (by simp [hp])
    have hdur : a.dur = a.vol := by
      refine h.dur_eq_vol fun b hb => ?_
      rw [view_of_up hup, hok.settled_of_nil hlh hhead b hb]
    have hrun : (s.goto p .out).wakeup.running = s.running := by
      rw [running_wakeup, running_goto_of_not_inside s p rfl, Finset.erase_eq_of_notMem]
      simp [mem_running, hp, Call.isInside]
    exact ⟨a, .single (Atomic.Step.durable hdur), h.same (fun _ _ => rfl) (fun _ _ => rfl) hrun⟩
  | initlog hup hpc =>
    obtain ⟨-, hlh, hhead⟩ : Phase sb s .finish := hpc ▸ hok.phase
    refine ⟨a, .refl a, h.same (fun _ _ => rfl) (fun b hb => ?_) rfl⟩
    simp only [view, hup, if_true, Bool.false_eq_true, if_false]
    exact (hok.settled_of_nil hlh hhead b hb).symm
  | bget hb =>
    refine ⟨a, .refl a, h.same (fun _ _ => rfl) (fun c _ => ?_) rfl⟩
    unfold view
    rw [bread_recycle hok.cached hb]
  | crash =>
    refine ⟨_, .single Atomic.Step.crash, h.dur, h.dur, fun _ _ => rfl, ?_⟩
    simp [State.crash, State.running, Call.isInside]

end Abstracts

theorem simulation (disk : ℕ → Block) (h : disk sb.logstart 0 = 0) :
    (logged sb disk).Simulation (atomic disk) (Abstracts sb) where
  init := by
    rintro _ rfl
    have hhead : head sb disk = [] := by simp [head, decode, h]
    have hreplay : replay sb disk = disk := replay_of_nil hhead
    refine ⟨⟨disk, disk, ∅⟩, rfl, fun b _ => (congrFun hreplay b).symm,
      fun b _ => (congrFun hreplay b).symm, fun _ _ => rfl, ?_⟩
    simp [State.running, Call.isInside]
  step s a o s' hs ha hstep := by
    obtain ⟨hok, hc⟩ := (invariant disk h).reachable hs
    exact ha.step hok hc disk hstep

end OsLabs.Fs
