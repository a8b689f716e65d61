import OsLabs.Cow.Family
import OsLabs.Eager.Vm
import OsLabs.Lazy.Vm
import OsLabs.Xv6.Waiting

/-!
# Waiting in the three trees

The trees differ in `mmap`, which two of them do not have; the lazy one marks entries and moves the
end of the process. None of this touches what `wait` and `exit` go by.
-/

namespace OsLabs.Lazy

open Xv6 StateError
open Base (Kmem)

variable [Layout]

theorem along_make_mmap_pte (p : ProcPtr) (va : ℕ) : Along Alike (make_mmap_pte p va) := by
  unfold make_mmap_pte
  refine .bind (along_getPgdir p) fun d => .bind (along_onPhys _) fun res => ?_
  cases res with
  | none => exact .throw _
  | some d' => exact .bind (along_setPgdir p _) fun _ => .ite (.throw _) (along_switchuvm p)

theorem along_mmapLoop (p : ProcPtr) (fuel va : ℕ) : Along Alike (mmapLoop p fuel va) := by
  induction fuel generalizing va with
  | zero => exact .throw _
  | succ fuel ih =>
    unfold mmapLoop
    exact .get_bind fun k => .ite (.bind (along_make_mmap_pte p va) fun _ => ih _) (.pure _)

theorem along_sys_mmap (p : ProcPtr) (n : ℤ) : Along Alike (sys_mmap p n) := by
  unfold sys_mmap
  refine .ite (.pure _) (.get_bind fun k => ?_)
  exact .bind (along_setProc fun _ => ⟨rfl, rfl, rfl, rfl⟩) fun _ =>
    .bind (along_mmapLoop p _ _) fun _ => .pure _

end OsLabs.Lazy

namespace OsLabs.Xv6

open StateError

/-- In every state that one of the three kernels reaches some process can run, and a process asleep
in `wait` waits for a descendant that can run: no wakeup by `exit` is lost, also not the one of a
zombie that is passed on to `init`, and processes do not wait for each other. -/
theorem wait_asleep_waits [Layout] :
    (∀ C (k : Kernel Cow.Kmem), Reachable Cow.tree C k → k.Attentive) ∧
    (∀ C (k : Kernel Base.Kmem), Reachable Eager.tree C k → k.Attentive) ∧
    ∀ C (k : Kernel Base.Kmem), Reachable Lazy.tree C k → k.Attentive :=
  ⟨fun _ _ h => attentive_of_reachable (fun _ _ => .pure _) h,
    fun _ _ h => attentive_of_reachable (fun _ _ => .pure _) h,
    fun _ _ h => attentive_of_reachable Lazy.along_sys_mmap h⟩

/-- `init` forks and waits for the child. -/
theorem wait_asleep_waits_fork : ∃ (_ : Layout) (k : Kernel Cow.Kmem),
    Reachable Cow.tree anyOp k ∧ (k.proc initSlot).state = .SLEEPING ∧ k.Attentive := by
  let L := sampleLayout
  obtain ⟨k, d, hr, hk, ht, hn, -⟩ := Cow.exists_single (C := anyOp) fun _ _ _ => trivial
  have hnp : k.proc.first (·.state = .UNUSED) = some ⟨1, by decide⟩ := by rw [ht]; rfl
  obtain ⟨f, s', d', c, hs, hk₁, -⟩ := Cow.Single.fork hk hnp (by rw [hn]; decide)
  have hs₂ := step_wait_sleep (T := Cow.tree) hk₁.running hk₁.zombie
    (congrArg Proc.parent (Table.set_self _ _ _)) (by
      dsimp only [Kernel.born]
      rw [Table.set_ne _ _ (by decide), ht]
      rfl)
  have hr₂ := Reachable.step (C := anyOp) (.step hr hs trivial) hs₂ trivial
  exact ⟨L, _, hr₂, congrArg Proc.state (Table.set_self _ _ _), wait_asleep_waits.1 anyOp _ hr₂⟩

end OsLabs.Xv6
