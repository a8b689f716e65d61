import OsLabs.Fs.Crash

/-!
# Sleeping in `begin_op`

A process that finds a commit under way, or no room in the log, sleeps. `begin_op_sleep_waits`: no
wakeup is lost, whoever is asleep could not go on, and there is a process that will wake it.
`begin_op_returns`: from every reachable state, without a crash, `begin_op` can return.
-/

namespace OsLabs.Fs

open Xv6 State

variable {sb : Super} {s s' : State} {o : Option Event} {p q : ProcPtr} {disk : ℕ → Block}

/-! ## The invariant -/

/-- A process is asleep only while it could not go on; without operations and commits there is
nothing in the log; and a commit has a process that does it. -/
structure Awaited (s : State) : Prop where
  asleep : ∀ p, s.call p = .asleep → s.committing = true ∨ ¬ s.Room
  empty : s.up = true → s.committing = false → s.outstanding = 0 → s.lh = []
  committer : s.committing = true → ∃ p, s.call p = .commit

theorem not_asleep_wakeup (s : State) (p : ProcPtr) : s.wakeup.call p ≠ .asleep := by
  unfold wakeup
  cases h : s.call p <;> simp [h]

theorem Awaited.step (h : Awaited s) (hok : OnDisk sb s) (hc : Counted s)
    (hs : Step sb s o s') : Awaited s' := by
  have hkept : ∀ {p : ProcPtr} (c : Call), s.call p ≠ .commit → s.committing = true →
      ∃ q, (s.goto p c).call q = .commit := by
    intro p c hp hcom
    obtain ⟨q, hq⟩ := h.committer hcom
    have hqp : q ≠ p := by
      rintro rfl
      exact hp hq
    exact ⟨q, by simpa [goto, hqp] using hq⟩
  cases hs with
  | @begin_op p hup hp =>
    exact ⟨fun q hq => h.asleep q (call_of_goto hq (by simp)), h.empty, hkept _ (by simp [hp])⟩
  | @sleep p hp hcom =>
    refine ⟨fun _ _ => ?_, h.empty, hkept _ (by simp [hp])⟩
    exact hcom
  | @enter p hp hcom hr =>
    refine ⟨fun q hq => ?_, fun _ _ ho => absurd ho (Nat.succ_ne_zero _), hkept _ (by simp [hp])⟩
    obtain hcq | hroom := h.asleep q (call_of_goto hq (by simp))
    · exact Or.inl hcq
    · refine Or.inr fun hroom' => hroom ?_
      simp only [Room, goto, MAXOPBLOCKS] at hroom' ⊢
      omega
  | read hup hb => exact ⟨h.asleep, h.empty, h.committer⟩
  | @write p used b v s₁ hp hb hw =>
    obtain ⟨-, -, hpos, rfl⟩ := log_write_eq_some hw
    refine ⟨fun q hq => ?_, fun _ _ ho => absurd ho hpos.ne', hkept _ (by simp [hp])⟩
    obtain hcq | hroom := h.asleep q (call_of_goto hq (by simp))
    · exact Or.inl hcq
    · refine Or.inr fun hroom' => hroom ?_
      have hlen : s.lh.length ≤ (record s.lh b).length := by
        rw [record_eq]
        split <;> simp
      simp only [Room, goto] at hroom' ⊢
      omega
  | @end_op p used hp hcom ho =>
    have hpos := hc.pos hp
    refine ⟨fun q hq => absurd hq (not_asleep_wakeup _ q), fun _ _ ho' => ?_, fun hcom' => ?_⟩
    · exact absurd ho' (by show s.outstanding - 1 ≠ 0; omega)
    · exact absurd (hcom.symm.trans hcom') Bool.false_ne_true
  | @commit p used hp hcom ho =>
    exact ⟨fun _ _ => Or.inl rfl, fun _ hcom' => absurd hcom'.symm Bool.false_ne_true,
      fun _ => ⟨p, by simp [goto]⟩⟩
  | advance =>
    obtain ⟨hcall, hout, hcom, hup⟩ := @advance_call sb s
    by_cases hpc : s.pc = .idle
    · simpa only [State.advance, hpc] using h
    · have hbusy : s.up = true → s.committing = true := by
        intro hup
        by_contra hcom
        exact hpc (hok.pc_idle hup (by simpa using hcom))
      refine ⟨fun q hq => ?_, fun hup' hcom' => ?_, fun hcom' => ?_⟩
      · rw [hcall] at hq
        exact Or.inl (hcom.trans (hbusy (hc.up q (by simp [hq]))))
      · exact absurd ((hbusy (hup ▸ hup')).symm.trans (hcom ▸ hcom')) (by simp)
      · rw [hcall]
        exact h.committer (hcom ▸ hcom')
  | @durable p hp hpc =>
    obtain ⟨-, hlh, -⟩ : Phase sb s .finish := hpc ▸ hok.phase
    exact ⟨fun q hq => absurd hq (not_asleep_wakeup _ q), fun _ _ _ => hlh,
      fun hcom' => absurd hcom' Bool.false_ne_true⟩
  | initlog hup hpc =>
    obtain ⟨-, hlh, -⟩ : Phase sb s .finish := hpc ▸ hok.phase
    exact ⟨h.asleep, fun _ _ _ => hlh, h.committer⟩
  | bget hb => exact ⟨h.asleep, h.empty, h.committer⟩
  | crash => exact ⟨by simp [State.crash], fun hup => absurd hup (by simp [State.crash]),
      by simp [State.crash]⟩

theorem awaited (disk : ℕ → Block) (hdisk : disk sb.logstart 0 = 0) :
    (logged sb disk).Invariant Awaited where
  init := by
    rintro _ rfl
    exact ⟨by simp, by simp, by simp⟩
  step s o s' hs h hstep := by
    obtain ⟨hok, hc⟩ := (invariant disk hdisk).reachable hs
    exact h.step hok hc hstep

/-- Whoever is asleep in `begin_op` could not go on, and a process under way will wake it: the one
that commits, or one inside an operation. -/
theorem begin_op_sleep_waits (sb : Super) (disk : ℕ → Block) (hdisk : disk sb.logstart 0 = 0)
    (s : State) (hs : (logged sb disk).Reachable s) (p : ProcPtr) (hp : s.call p = .asleep) :
    (s.committing = true ∧ ∃ q, s.call q = .commit) ∨
      ¬ s.Room ∧ ∃ q used, s.call q = .inside used := by
  have h := (awaited disk hdisk).reachable hs
  obtain ⟨-, hc⟩ := (invariant disk hdisk).reachable hs
  cases hcom : s.committing with
  | true => exact Or.inl ⟨rfl, h.committer hcom⟩
  | false =>
    have hroom : ¬ s.Room := (h.asleep p hp).resolve_left (by simp [hcom])
    refine Or.inr ⟨hroom, ?_⟩
    have hpos : s.running.Nonempty := by
      rw [← Finset.card_pos, ← hc.count, Nat.pos_iff_ne_zero]
      intro ho
      have hlh := h.empty (hc.up p (by simp [hp])) hcom ho
      exact hroom (by simp [Room, hlh, ho, LOGSIZE, MAXOPBLOCKS])
    obtain ⟨q, hq⟩ := hpos
    rw [mem_running] at hq
    cases hcall : s.call q with
    | inside used => exact ⟨q, used, hcall⟩
    | _ => simp [hcall, Call.isInside] at hq

/-- A process that finds a commit under way sleeps. -/
theorem exists_asleep : ∃ s, (logged ⟨2, 30, by decide⟩ fun _ _ => 0).Reachable s ∧
    s.call ⟨1, by decide⟩ = .asleep := by
  have hboot := ((((Lts.Run.refl (M := logged ⟨2, 30, by decide⟩ fun _ _ => 0)
    { disk := fun _ _ => 0 }).silent .advance).silent .advance).silent .advance).silent
    (.initlog rfl rfl)
  have hop := (((hboot.silent (.begin_op (p := ⟨0, by decide⟩) rfl rfl)).event
    (.enter (p := ⟨0, by decide⟩) rfl rfl (by decide))).event
    (.write (p := ⟨0, by decide⟩) (b := 40) (v := fun _ => 7) rfl (by right; decide) rfl)).event
    (.commit (p := ⟨0, by decide⟩) rfl rfl rfl)
  have hsleep := (hop.silent (.begin_op (p := ⟨1, by decide⟩) rfl rfl)).silent
    (.sleep (p := ⟨1, by decide⟩) rfl (Or.inl rfl))
  exact ⟨_, ⟨_, _, rfl, hsleep⟩, rfl⟩

theorem begin_op_sleep_waits_commit : ∃ s : State, s.call ⟨1, by decide⟩ = .asleep ∧
    ((s.committing = true ∧ ∃ q, s.call q = .commit) ∨
      ¬ s.Room ∧ ∃ q used, s.call q = .inside used) := by
  obtain ⟨s, hs, hp⟩ := exists_asleep
  exact ⟨s, hp, begin_op_sleep_waits _ _ rfl s hs _ hp⟩

/-! ## Returning from `begin_op` -/

/-- An upper bound on the steps that `commit` still takes. -/
def left (s : State) : Pc → ℕ
  | .write_log tail => (s.lh.length - tail) + s.lh.length + 6
  | .write_head => s.lh.length + 5
  | .install_trans tail => (s.lh.length - tail) + 3
  | .clear_head => 2
  | _ => 0

theorem left_advance (s : State) (hpc : s.pc ≠ .idle) (hread : s.pc ≠ .read_head)
    (hfin : s.pc ≠ .finish) : left (s.advance sb) (s.advance sb).pc < left s s.pc ∧
      (s.advance sb).pc ≠ .idle ∧ (s.advance sb).pc ≠ .read_head := by
  have hlt : ∀ {tail b}, s.lh[tail]? = some b → tail < s.lh.length := fun h =>
    (List.getElem?_eq_some_iff.mp h).1
  unfold State.advance
  split
  case h_1 h => exact absurd h hread
  case h_2 tail h =>
    split
    case h_1 b hb =>
      have ht := hlt hb
      refine ⟨?_, by simp, by simp⟩
      show (s.lh.length - (tail + 1)) + s.lh.length + 6 < left s s.pc
      simp only [h, left]
      omega
    case h_2 hb =>
      refine ⟨?_, by simp, by simp⟩
      simp only [h, left]
      omega
  case h_3 h =>
    refine ⟨?_, by simp, by simp⟩
    show (s.lh.length - 0) + 3 < left s s.pc
    simp only [h, left]
    omega
  case h_4 tail h =>
    split
    case h_1 b hb =>
      have ht := hlt hb
      refine ⟨?_, by simp, by simp⟩
      show (s.lh.length - (tail + 1)) + 3 < left s s.pc
      simp only [h, left]
      omega
    case h_2 hb =>
      refine ⟨?_, by simp, by simp⟩
      simp only [h, left]
      omega
  case h_5 h =>
    refine ⟨?_, by simp, by simp⟩
    simp only [h, left]
    omega
  case h_6 h => exact absurd h hpc
  case h_7 h => exact absurd h hfin

/-- A commit or a recovery comes to its end. -/
theorem run_finish (s : State) (hpc : s.pc ≠ .idle) (hread : s.pc ≠ .read_head) :
    ∃ s', (logged sb disk).Run s [] s' ∧ s'.pc = .finish ∧ s'.call = s.call := by
  induction hn : left s s.pc using Nat.strong_induction_on generalizing s with
  | _ n ih =>
    by_cases hfin : s.pc = .finish
    · exact ⟨s, .refl s, hfin, rfl⟩
    · obtain ⟨hlt, hpc', hread'⟩ := @left_advance sb s hpc hread hfin
      obtain ⟨s', hrun, hfin', hcall⟩ := ih _ (hn ▸ hlt) (s.advance sb) hpc' hread' rfl
      have hstep : (logged sb disk).Run s [] (s.advance sb) :=
        (Lts.Run.refl s).silent Step.advance
      exact ⟨s', hstep.trans hrun, hfin', hcall.trans (advance_call s).1⟩

/-- From `s` there is a run without a crash in which `begin_op` returns in `p`. -/
def Returns (sb : Super) (disk : ℕ → Block) (p : ProcPtr) (s : State) : Prop :=
  ∃ t s', (logged sb disk).Run s t s' ∧ Event.crash ∉ t ∧ s'.call p = .inside 0

namespace Returns

theorem of_run {t : List Event} (hrun : (logged sb disk).Run s t s') (ht : Event.crash ∉ t)
    (h : Returns sb disk p s') : Returns sb disk p s := by
  obtain ⟨t', s'', hrun', ht', hp⟩ := h
  refine ⟨t ++ t', s'', hrun.trans hrun', ?_, hp⟩
  simp [ht, ht']

variable (hdisk : disk sb.logstart 0 = 0) (hs : (logged sb disk).Reachable s)

include hdisk hs

/-- With nothing under way there is room. -/
theorem of_free (hp : s.call p = .begin_op ∨ s.call p = .asleep) (hcom : s.committing = false)
    (ho : s.outstanding = 0) : Returns sb disk p s := by
  have h := (awaited disk hdisk).reachable hs
  obtain ⟨-, hc⟩ := (invariant disk hdisk).reachable hs
  have hup : s.up = true := hc.up p (by obtain hp | hp := hp <;> simp [hp])
  have hroom : s.Room := by simp [Room, h.empty hup hcom ho, ho, LOGSIZE, MAXOPBLOCKS]
  have hbegin : s.call p = .begin_op := by
    refine hp.resolve_right fun hp => ?_
    obtain hcom' | hroom' := h.asleep p hp
    · simp [hcom] at hcom'
    · exact hroom' hroom
  refine ⟨[.begin p], _, (Lts.Run.refl s).event (.enter hbegin hcom hroom), by simp, ?_⟩
  simp [goto]

/-- The commit under way ends, and wakes `p` up. -/
theorem of_committing (hp : s.call p = .begin_op ∨ s.call p = .asleep)
    (hcom : s.committing = true) : Returns sb disk p s := by
  obtain ⟨hok, hc⟩ := (invariant disk hdisk).reachable hs
  obtain ⟨q, hq⟩ := ((awaited disk hdisk).reachable hs).committer hcom
  have hpc : s.pc ≠ .idle ∧ s.pc ≠ .read_head := by
    have hphase := hok.phase
    constructor <;> intro h <;> simp [h, Phase, hcom] at hphase
  obtain ⟨s₁, hrun, hfin, hcall⟩ := @run_finish sb disk s hpc.1 hpc.2
  have hpq : p ≠ q := by
    rintro rfl
    obtain hp | hp := hp <;> simp [hp] at hq
  have hstep : (logged sb disk).Run s [.durable q]
      { (s₁.goto q .out).wakeup with committing := false, pc := .idle } :=
    hrun.event (.durable (hcall ▸ hq) hfin)
  have hs₂ := hs.run hstep
  refine of_run hstep (by simp) (of_free hdisk hs₂ ?_ rfl ?_)
  · left
    show (s₁.goto q .out).wakeup.call p = .begin_op
    obtain hp | hp := hp <;> simp [wakeup, goto, hpq, hcall, hp]
  · obtain ⟨-, hc₂⟩ := (invariant disk hdisk).reachable (hs.run hrun)
    exact hc₂.busy (hc₂.commit q (hcall ▸ hq))

end Returns

/-- From every reachable state in which `p` is in `begin_op`, asleep or not, a run without a crash
lets it return: the operations under way end, the last of them commits, and `p` goes on. -/
theorem begin_op_returns (sb : Super) (disk : ℕ → Block) (hdisk : disk sb.logstart 0 = 0)
    (s : State) (hs : (logged sb disk).Reachable s) (p : ProcPtr)
    (hp : s.call p = .begin_op ∨ s.call p = .asleep) : Returns sb disk p s := by
  -- the operations under way end one by one
  induction ho : s.outstanding generalizing s with
  | zero =>
    cases hcom : s.committing with
    | true => exact .of_committing hdisk hs hp hcom
    | false => exact .of_free hdisk hs hp hcom ho
  | succ n ih =>
    obtain ⟨-, hc⟩ := (invariant disk hdisk).reachable hs
    have hpos : s.running.Nonempty := by
      rw [← Finset.card_pos, ← hc.count, ho]
      exact Nat.succ_pos n
    obtain ⟨q, hq⟩ := hpos
    obtain ⟨used, hq⟩ : ∃ used, s.call q = .inside used := by
      rw [mem_running] at hq
      cases hcall : s.call q with
      | inside used => exact ⟨used, rfl⟩
      | _ => simp [hcall, Call.isInside] at hq
    have hcom := hc.not_committing hq
    have hpq : p ≠ q := by
      rintro rfl
      obtain hp | hp := hp <;> simp [hp] at hq
    by_cases hone : s.outstanding = 1
    · have hstep := (Lts.Run.refl (M := logged sb disk) s).event (.commit hq hcom hone)
      refine .of_run hstep (by simp) (.of_committing hdisk (hs.run hstep) ?_ rfl)
      simpa [goto, hpq] using hp
    · have hstep := (Lts.Run.refl (M := logged sb disk) s).event (.end_op hq hcom hone)
      refine .of_run hstep (by simp) (ih _ (hs.run hstep) (Or.inl ?_) ?_)
      · show (s.goto q .out).wakeup.call p = .begin_op
        obtain hp | hp := hp <;> simp [wakeup, goto, hpq, hp]
      · show s.outstanding - 1 = n
        omega

theorem begin_op_returns_asleep : ∃ s : State, s.call ⟨1, by decide⟩ = .asleep ∧
    Returns ⟨2, 30, by decide⟩ (fun _ _ => 0) ⟨1, by decide⟩ s := by
  obtain ⟨s, hs, hp⟩ := exists_asleep
  exact ⟨s, hp, begin_op_returns _ _ rfl s hs _ (Or.inr hp)⟩

end OsLabs.Fs
