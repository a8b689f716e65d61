import OsLabs.Fs.Reserve

/-!
# The tests of `log_write`

`log_write` looks at `log.lh.n` and `log.outstanding` before it takes `log.lock`, so other processes
may add blocks between its tests and its update of the header. `Split` are the steps with the tests
on their own. While all operations keep to what `begin_op` sets aside for them, the tests pass at
any moment, so it makes no difference when they are made: `split_simulation` is that `Split` shows
nothing that `Step` does not.

`crash_atomic` is the conclusion about the log: with its writes to the disk one by one, its
recovery, and a crash possible at any moment, it shows nothing that a disk does not whose
operations become durable all at once.
-/

namespace OsLabs.Fs

open Xv6 State

/-- The state of the log, and the block for which a process has passed the tests of `log_write`
and not yet taken `log.lock`. -/
structure Midway where
  state : State
  tested : ProcPtr → Option ℕ := fun _ => none

/-- The steps, with the tests of `log_write` and its update of the header one by one. A process
between the two does not end its operation. -/
inductive Split (sb : Super) : Midway → Option Event → Midway → Prop
  | test {m p used b} (h : m.state.call p = .inside used) (ht : m.tested p = none)
      (hfits : ¬ m.state.TooBig sb) (ho : ¬ m.state.outstanding < 1) :
      Split sb m none { m with tested := Function.update m.tested p (some b) }
  | write {m p used b v} (h : m.state.call p = .inside used) (hb : sb.Home b)
      (ht : m.tested p = some b) :
      Split sb m (some (.write p b v))
        { state := (m.state.append b v).goto p
            (.inside (used + ((m.state.append b v).lh.length - m.state.lh.length)))
          tested := Function.update m.tested p none }
  | other {m o s'} (hs : Step sb m.state o s') (hwrite : ∀ p b v, o ≠ some (.write p b v))
      (hcrash : o ≠ some .crash) (hdone : ∀ p, o = some (.done p) → m.tested p = none) :
      Split sb m o { m with state := s' }
  | crash {m} : Split sb m (some .crash) { state := m.state.crash }

/-- The log on a disk with the contents that `mkfs` wrote, with the tests on their own. -/
def split (sb : Super) (disk : ℕ → Block) : Lts Event Midway where
  init m := m = { state := { disk } }
  step := Split sb

/-- Operations do not update the header after they have added `MAXOPBLOCKS - 1` blocks. -/
def FrugalSplit (m : Midway) (o : Option Event) (m' : Midway) : Prop :=
  Frugal m.state o m'.state

variable {sb : Super}

theorem log_write_eq_append {s : State} {b : ℕ} {v : Block}
    (h : (s.log_write sb b v).isSome = true) : s.log_write sb b v = some (s.append b v) := by
  obtain ⟨s', hs'⟩ := Option.isSome_iff_exists.mp h
  obtain ⟨-, -, -, rfl⟩ := log_write_eq_some hs'
  exact hs'

/-- Inside the reservation the tests pass at the update too, whenever they were made. -/
theorem split_simulation (disk : ℕ → Block) (hdisk : disk sb.logstart 0 = 0)
    (hnlog : sb.nlog = LOGSIZE) :
    ((split sb disk).within FrugalSplit).Simulation ((logged sb disk).within Frugal) fun m s =>
      m.state = s ∧ ((logged sb disk).within Frugal).Reachable s where
  init := by
    rintro _ rfl
    exact ⟨_, rfl, rfl, .init rfl⟩
  step := by
    rintro m _ o m' - ⟨rfl, hr⟩ ⟨hs, hf⟩
    cases hs with
    | test h ht hfits ho => exact ⟨_, .refl _, rfl, hr⟩
    | @write p used b v h hb ht =>
      obtain ⟨-, hpanic⟩ := no_panic sb disk hdisk hnlog m.state hr p used h
      have hw := log_write_eq_append (hpanic (hf p b v used rfl h) b v)
      have hstep : ((logged sb disk).within Frugal).step m.state _ _ := ⟨.write h hb hw, hf⟩
      exact ⟨_, .single hstep, rfl, hr.step hstep⟩
    | other hs hwrite hcrash hdone =>
      have hstep : ((logged sb disk).within Frugal).step m.state o _ := ⟨hs, hf⟩
      exact ⟨_, .single hstep, rfl, hr.step hstep⟩
    | crash =>
      have hstep : ((logged sb disk).within Frugal).step m.state _ _ := ⟨.crash, hf⟩
      exact ⟨_, .single hstep, rfl, hr.step hstep⟩

/-- Whatever a run of the log shows, with crashes at any moment, a disk shows whose operations
become durable all at once, at a moment when none is under way. The operations of the run keep to
what `begin_op` sets aside for them. -/
theorem crash_atomic (sb : Super) (hnlog : sb.nlog = LOGSIZE) (disk : ℕ → Block)
    (h : disk sb.logstart 0 = 0) (t : List Event)
    (ht : ((split sb disk).within FrugalSplit).Trace t) : (atomic disk).Trace t :=
  (simulation disk h).trace ((split_simulation disk h hnlog).trace ht).of_within

/-- Two processes make the tests of `log_write` before either adds its block, and the crash is
between the copy to the log and the header. -/
theorem crash_atomic_torn : (atomic fun _ _ => 0).Trace
    [.begin ⟨0, by decide⟩, .begin ⟨1, by decide⟩, .write ⟨0, by decide⟩ 40 fun _ => 7,
      .write ⟨1, by decide⟩ 41 fun _ => 8, .done ⟨0, by decide⟩, .done ⟨1, by decide⟩, .crash] := by
  apply crash_atomic ⟨2, LOGSIZE, by decide⟩ rfl (fun _ _ => 0) rfl
  have hquiet : ∀ {m m' : Midway} {o : Option Event}, (∀ p b v, o ≠ some (.write p b v)) →
      FrugalSplit m o m' := fun h p b v _ hw => absurd hw (h p b v)
  -- the steps that `log_write` has no part in
  have hother : ∀ {m : Midway} {o s'}, Step ⟨2, LOGSIZE, by decide⟩ m.state o s' →
      (∀ p b v, o ≠ some (.write p b v)) → o ≠ some .crash →
      (∀ p, o = some (.done p) → m.tested p = none) →
      ((split ⟨2, LOGSIZE, by decide⟩ fun _ _ => 0).within FrugalSplit).step m o
        { m with state := s' } :=
    fun hs hw hc hd => ⟨.other hs hw hc hd, hquiet hw⟩
  have hboot := ((((Lts.Run.refl
    (M := (split ⟨2, LOGSIZE, by decide⟩ fun _ _ => 0).within FrugalSplit)
    { state := { disk := fun _ _ => 0 } }).silent
    (hother .advance (by simp) (by simp) (by simp))).silent
    (hother .advance (by simp) (by simp) (by simp))).silent
    (hother .advance (by simp) (by simp) (by simp))).silent
    (hother (.initlog rfl rfl) (by simp) (by simp) (by simp))
  have hop := (((hboot.silent
    (hother (.begin_op (p := ⟨0, by decide⟩) rfl rfl) (by simp) (by simp) (by simp))).event
    (hother (.enter (p := ⟨0, by decide⟩) rfl rfl (by decide)) (by simp) (by simp)
      (by simp))).silent
    (hother (.begin_op (p := ⟨1, by decide⟩) rfl rfl) (by simp) (by simp) (by simp))).event
    (hother (.enter (p := ⟨1, by decide⟩) rfl rfl (by decide)) (by simp) (by simp) (by simp))
  have htest := (hop.silent ⟨.test (p := ⟨0, by decide⟩) (b := 40) rfl rfl (by decide)
    (by decide), hquiet (by simp)⟩).silent ⟨.test (p := ⟨1, by decide⟩) (b := 41) rfl rfl
    (by decide) (by decide), hquiet (by simp)⟩
  have hwrite := (htest.event ⟨.write (p := ⟨0, by decide⟩) (b := 40) (v := fun _ => 7) rfl
    (by right; decide) rfl, fun p b v used he hu => ?_⟩).event
    ⟨.write (p := ⟨1, by decide⟩) (b := 41) (v := fun _ => 8) rfl (by right; decide) rfl,
      fun p b v used he hu => ?_⟩
  · have hend := (((hwrite.event
      (hother (.end_op (p := ⟨0, by decide⟩) rfl rfl (by decide)) (by simp) (by simp)
        (by simp))).event
      (hother (.commit (p := ⟨1, by decide⟩) rfl rfl rfl) (by simp) (by simp) (by simp))).silent
      (hother .advance (by simp) (by simp) (by simp))).event ⟨.crash, hquiet (by simp)⟩
    exact ⟨_, _, rfl, hend⟩
  · cases he
    obtain rfl : 0 = used := Call.inside.inj hu
    decide
  · cases he
    obtain rfl : 0 = used := Call.inside.inj hu
    decide

end OsLabs.Fs
