import OsLabs.Spaces.Cow
import OsLabs.Spaces.Eager

/-!
# Copy-on-write `fork` against eager `fork`

The two kernels run the same operations in the same order from the same machine (`Lockstep`). As
long as memory does not run out they show their users the same, because both do what `Spaces.step`
says.

* `Lockstep.together`: the two kernels have the same table of processes and the same memories;
* `cow_agrees_eager`: the next operation ends the same way in both.
-/

namespace OsLabs.Spaces

open Xv6 StateError

section Agree

variable [Layout]

/-- The operations that are compared. A user access is to a page that is present and the user's in
the eager kernel, `sbrk` leaves some memory, `init` does not exit, and there is a pid for a child. -/
def Compared (e : Kernel Base.Kmem) : Op → Prop
  | .sched _ | .yield _ | .wait _ => True
  | .fork _ => e.nextpid ≠ INT_MAX
  | .sbrk p n => 0 < (e.proc p).sz + argint n
  | .load p va | .store p va _ => ∃ d, e.pgdir p = some d ∧
      (d.ent (uint va / 4096)).P = true ∧ (d.ent (uint va / 4096)).U = true
  | .exit p => e.initproc ≠ some p
  | .mmap _ _ | .exec _ _ _ | .kalloc | .kfree _ => False

/-- The copy-on-write kernel and the eager one after the same operations, none of which has found
memory exhausted. -/
inductive Lockstep : Kernel Cow.Kmem → Kernel Base.Kmem → Prop
  | boot {M : Machine} {k : Kernel Cow.Kmem} {e : Kernel Base.Kmem}
      (hk : boot M (powerOn M) = .ok () k) (he : boot M (powerOn M) = .ok () e) : Lockstep k e
  | step {k k' : Kernel Cow.Kmem} {e e' : Kernel Base.Kmem} {op : Op} {r r' : Result}
      (h : Lockstep k e) (hc : Compared e op) (hk : Xv6.step Cow.tree op k = .ok r k')
      (he : Xv6.step Eager.tree op e = .ok r' e') (hok : k'.phys.oom = false)
      (hoe : e'.phys.oom = false) : Lockstep k' e'

/-- What holds of the two kernels. -/
structure Together (k : Kernel Cow.Kmem) (e : Kernel Base.Kmem) : Prop where
  cow : Cow.Ok k
  eager : InvOf Eager.PlainOk 0 e
  whole : e.spaces.Whole
  same : k.spaces = e.spaces

variable {k : Kernel Cow.Kmem} {e : Kernel Base.Kmem} {op : Op}

/-- A page that is present and the user's is seen. -/
theorem seen_of_present (h : InvOf Eager.PlainOk 0 e) {p : ProcPtr} (hl : e.live p) {d : Pgdir}
    {v : ℕ} (hd : e.pgdir p = some d) (hP : (d.ent v).P = true) (hU : (d.ent v).U = true) :
    e.spaces.mem p v = some (e.phys.mem (d.ent v).ppn) := by
  have hok := (h.of_live hl hd).2
  have hu : v < UPAGES := by
    by_contra hge
    rw [(hok.small.2 v (Nat.le_of_not_lt hge)).1] at hU
    cases hU
  have hv : v < pages (e.proc p).sz := by
    by_contra hge
    rw [hok.tight v (Nat.le_of_not_lt hge) hu] at hP
    cases hP
  rw [Kernel.spaces_mem hl hd, Pgdir.shows_of_lt hv hu, Pte.shows_of_P hP hU]

/-- The operations that are compared are among those that the processes are promised. -/
theorem Compared.step (h : InvOf Eager.PlainOk 0 e) (hc : Compared e op) :
    ∃ r a', e.spaces.step op = some (r, a') := by
  have hrun : ∀ {p : ProcPtr} {o : Option (Result × Spaces)},
      ((e.proc p).state = .RUNNING → ∃ r a', o = some (r, a')) →
      ∃ r a', e.spaces.whenRunning p o = some (r, a') := by
    intro p o ho
    unfold Spaces.whenRunning
    split
    · rename_i hp
      exact ho hp
    · exact ⟨_, _, rfl⟩
  have hmem : ∀ {p : ProcPtr} {va : ℕ} {f : Page → Result × Spaces},
      (∃ d, e.pgdir p = some d ∧ (d.ent (va / 4096)).P = true ∧ (d.ent (va / 4096)).U = true) →
      (e.proc p).state = .RUNNING → ∃ r a', (e.spaces.mem p (va / 4096)).map f = some (r, a') := by
    rintro p va f ⟨d, hd, hP, hU⟩ hp
    rw [seen_of_present h (live_of_running hp) hd hP hU]
    exact ⟨_, _, rfl⟩
  cases op with
  | sched p => exact ⟨_, _, rfl⟩
  | yield p => exact hrun fun _ => ⟨_, _, rfl⟩
  | wait p => exact hrun fun _ => ⟨_, _, rfl⟩
  | fork p =>
    have hpid : e.spaces.nextpid ≠ INT_MAX := hc
    refine hrun fun _ => ?_
    unfold Spaces.fork
    split
    · exact ⟨_, _, rfl⟩
    · rw [if_neg hpid]
      exact ⟨_, _, rfl⟩
  | sbrk p n =>
    refine hrun fun _ => ?_
    have hpos : 0 < (e.spaces.proc p).sz + argint n := hc
    unfold Spaces.sbrk
    split_ifs
    all_goals first | exact ⟨_, _, rfl⟩ | omega
  | load p va => exact hrun (hmem hc)
  | store p va b => exact hrun (hmem hc)
  | exit p =>
    have hi : e.spaces.initproc ≠ some p := hc
    refine hrun fun _ => ?_
    rw [Spaces.exit, if_neg hi]
    exact ⟨_, _, rfl⟩
  | mmap | exec | kalloc | kfree => exact hc.elim

/-- An operation that the processes are promised ends the same way in both kernels: in the eager
one always and without a fault, in the copy-on-write one after one fault at most, or because no
frame was left for a copy. -/
theorem Together.step (h : Together k e) {r : Result} {a' : Spaces}
    (ha : e.spaces.step op = some (r, a')) : ∃ r' e', Xv6.step Eager.tree op e = .ok r' e' ∧
      wp (Xv6.step Cow.tree op) (fun r k' => k'.phys.oom = false → e'.phys.oom = false →
        Together k' e' ∧ r.seen = r'.seen ∧ r.faults ≤ 1 ∧ r'.faults = 0 ∧ r ≠ .killed)
        (fun _ k' => k'.phys.oom = true) k := by
  obtain ⟨hcow, heager, hwhole, hsame⟩ := h
  obtain ⟨-, -, hkilled⟩ := Xv6.Spaces.step_result ha
  have hwhole' := hwhole.step ha
  obtain ⟨r', e', he, hplain, hres'⟩ := wp_ok (Eager.step_spaces heager hwhole ha)
  have hwk := hwhole
  rw [← hsame] at ha hwk
  refine ⟨r', e', he, wp_mono (Cow.step_spaces hcow hwk ha) (fun r₁ k' hk hok hoe => ?_)
    fun _ _ h => h⟩
  obtain ⟨hcow', hres⟩ := hk
  obtain ⟨hseen, hfaults, hspaces⟩ := hres hok
  obtain ⟨hseen', hfaults', hspaces'⟩ := hres' hoe
  refine ⟨⟨hcow', hplain, hspaces' ▸ hwhole', hspaces.trans hspaces'.symm⟩,
    hseen.trans hseen'.symm, hfaults, hfaults', fun hkill => ?_⟩
  rw [hkill] at hseen
  exact hkilled hseen.symm

/-- Kernels booted from the same machine are together. -/
theorem together_boot {M : Machine} (hk : boot M (powerOn M) = .ok () k)
    (he : boot M (powerOn M) = .ok () e) : Together k e := by
  have hbk := of_ok (boot_spec M) hk
  have hbe := of_ok (boot_spec M) he
  refine ⟨Cow.ok_of_booted hbk, hbe.invOf Eager.shape_plain, ?_, hbk.spaces.trans hbe.spaces.symm⟩
  rw [hbe.spaces]
  exact Spaces.whole_boot M

/-- Kernels that have gone together go on together. -/
theorem Lockstep.together (h : Lockstep k e) : Together k e := by
  induction h with
  | boot hk he => exact together_boot hk he
  | step _ hc hk he hok hoe ih =>
    obtain ⟨r, a', ha⟩ := hc.step ih.eager
    obtain ⟨r₁, e₁, he₁, hstep⟩ := ih.step ha
    cases he.symm.trans he₁
    exact (of_ok hstep hk hok hoe).1

/-- In both kernels the operation ends with the same result, and with the same memories: in the
eager one always and without a fault, in the copy-on-write one after one fault at most, or because
no frame was left for a copy. -/
theorem cow_agrees_eager (h : Lockstep k e) (hc : Compared e op) :
    ∃ r' e', Xv6.step Eager.tree op e = .ok r' e' ∧
      ((∃ r k', Xv6.step Cow.tree op k = .ok r k' ∧
          (k'.phys.oom = false → e'.phys.oom = false → r.seen = r'.seen ∧ r.faults ≤ 1 ∧
            r'.faults = 0 ∧ r ≠ .killed ∧ k'.spaces = e'.spaces)) ∨
        ∃ err k', Xv6.step Cow.tree op k = .error err k' ∧ k'.phys.oom = true) := by
  obtain ⟨r, a', ha⟩ := hc.step h.together.eager
  obtain ⟨r', e', he, hstep⟩ := h.together.step ha
  refine ⟨r', e', he, ?_⟩
  cases hk : Xv6.step Cow.tree op k with
  | ok r₁ k' =>
    refine Or.inl ⟨r₁, k', rfl, fun hok hoe => ?_⟩
    obtain ⟨htog, hseen, hfaults, hfaults', hkill⟩ := of_ok hstep hk hok hoe
    exact ⟨hseen, hfaults, hfaults', hkill, htog.same⟩
  | error err k' =>
    have hoom := of_error hstep hk
    exact Or.inr ⟨err, k', rfl, hoom⟩

end Agree

/-- The first process is scheduled and writes a byte. -/
theorem cow_agrees_eager_store : ∃ (_ : Layout) (k : Kernel Cow.Kmem) (e : Kernel Base.Kmem),
    Lockstep k e ∧ Compared e (.store initSlot 5 0x41) ∧
      ∃ r' e', Xv6.step Eager.tree (.store initSlot 5 0x41) e = .ok r' e' ∧
        ((∃ r k', Xv6.step Cow.tree (.store initSlot 5 0x41) k = .ok r k' ∧
            (k'.phys.oom = false → e'.phys.oom = false → r.seen = r'.seen ∧ r.faults ≤ 1 ∧
              r'.faults = 0 ∧ r ≠ .killed ∧ k'.spaces = e'.spaces)) ∨
          ∃ err k', Xv6.step Cow.tree (.store initSlot 5 0x41) k = .error err k' ∧
            k'.phys.oom = true) := by
  let _ := sampleLayout
  obtain ⟨k, hk, hbk⟩ := boot_ok (κ := Cow.Kmem) sample_fits
  obtain ⟨e, he, hbe⟩ := boot_ok (κ := Base.Kmem) sample_fits
  obtain ⟨d, hd, hi, hU, -, -⟩ := hbe.dir
  obtain ⟨d', hd', -⟩ := hbk.dir
  have hrk : (k.proc initSlot).state = .RUNNABLE := by simp [hbk.table]
  have hre : (e.proc initSlot).state = .RUNNABLE := by simp [hbe.table]
  have hsk := step_sched (T := Cow.tree) hrk hd' ((Cow.ok_of_booted hbk).inv.of_live hbk.live hd').1
  have hse := step_sched (T := Eager.tree) hre hd
    ((hbe.invOf Eager.shape_plain).of_live hbe.live hd).1
  have hsched : Compared e (.sched initSlot) := trivial
  have hlock := Lockstep.step (.boot hk he) hsched hsk hse hbk.oom hbe.oom
  have hpage : uint 5 / 4096 = 0 := by decide
  have hcomp : Compared { e with
      proc := e.proc.set initSlot fun q => { q with state := .RUNNING, chan := none }
      pgdir := Function.update e.pgdir initSlot (some d.flush) } (.store initSlot 5 0x41) := by
    have hself : Function.update e.pgdir initSlot (some d.flush) initSlot = some d.flush :=
      Function.update_self ..
    refine ⟨d.flush, hself, ?_⟩
    rw [hpage, Pgdir.ent_flush]
    exact ⟨(hi.low 0 (by decide)).1, hU⟩
  exact ⟨_, _, _, hlock, hcomp, cow_agrees_eager hlock hcomp⟩

end OsLabs.Spaces
