import OsLabs.Spaces.Agree
import OsLabs.Spaces.Lazy

/-!
# Lazy `mmap` against `mmap` that allocates

`growTree` is the lazy tree with a system call `mmap` that allocates: after the same checks of the
argument it calls `growproc`. The two kernels run the same operations in the same order from the
same machine (`Lockstep`). Sizes are kept a number of pages and below `KERNBASE`.

* `grow_spaces`: the kernel that allocates does what `Spaces.stepPaged` says, without faults;
* `Lockstep.together`: the two kernels have the same table of processes and the same memories;
* `lazy_agrees_grown`: the next operation ends the same way in both.
-/

namespace OsLabs.Lazy

open Xv6 StateError Ledger
open Base (Kmem)

section Code

variable [Layout]

/-- `sys_mmap` with the pages allocated at once. -/
def sys_mmap_grow (cur : ProcPtr) (n : ℤ) : KM Kmem Result := do
  if argint n < 0 ∨ (argint n).tmod PGSIZE ≠ 0 then return .ret 0
  else do
    let addr := ((← get).proc cur).sz
    let _ ← growproc cur (argint n)
    return .ret addr

/-- The lazy tree with this system call. -/
def growTree : Xv6.Tree Kmem := { tree with mmap := sys_mmap_grow }

end Code

section Grow

variable [Layout] {k k' e : Kernel Kmem} {p : ProcPtr} {d : Pgdir} {op : Op} {r res : Result}
variable {a' : Spaces}

theorem access_grow (p : ProcPtr) (va : ℕ) (w : Option UInt8) :
    ∀ fuel n, access growTree p va w fuel n = access tree p va w fuel n := by
  intro fuel
  induction fuel with
  | zero => exact fun _ => rfl
  | succ fuel ih =>
    intro n
    have hfault : trapPgflt growTree p va = trapPgflt tree p va := rfl
    unfold access
    simp only [hfault, ih]

/-- The trees differ in `mmap` only. -/
theorem step_grow (hop : ∀ p n, op ≠ .mmap p n) : step growTree op = step tree op := by
  cases op with
  | mmap p n => exact absurd rfl (hop p n)
  | load p va => exact congrArg (whenRunning p) (access_grow ..)
  | store p va b => exact congrArg (whenRunning p) (access_grow ..)
  | _ => rfl

/-! ## Address spaces without lazy pages -/

theorem mapped_of_plain (h : InvOf Eager.PlainOk 0 k) : InvOf MappedOk 0 k := by
  refine ⟨h.acct, fun q hq => ?_, h.pids⟩
  obtain ⟨d, f, hd, hf, hok⟩ := h.live q hq
  have hlt : (k.proc q).sz < KERNLINK + PGSIZE := by
    have := hok.small.1
    rw [KERNBASE_eq] at this
    rw [KERNLINK_PGSIZE]
    omega
  refine ⟨d, f, hd, hf, ⟨hlt, fun v => ?_⟩, hok.toTrim⟩
  rcases Nat.lt_or_ge v UPAGES with hv | hv
  · refine .user hv fun hL => ?_
    rw [hok.lazy] at hL
    cases hL
  · exact .of_kernelOk hok.small.2 hv

theorem lazy_of_plain (h : InvOf Eager.PlainOk 0 k) (hl : k.live p) (hd : k.pgdir p = some d)
    (v : ℕ) : (d.ent v).LAZY = false :=
  (h.of_live hl hd).2.lazy v

/-- Without lazy pages the operations other than `mmap` make none. -/
theorem Effect.plain (h : InvOf Eager.PlainOk 0 k) (hop : ∀ p n, op ≠ .mmap p n)
    (he : Effect 0 k op res k') : InvOf Eager.PlainOk 0 k' := by
  have haccess : ∀ {p : ProcPtr} {va : ℕ} {w : Option UInt8}, k.live p →
      AccessEffect 0 p va w k res k' → InvOf Eager.PlainOk 0 k' := by
    intro p va w hl he
    cases he with
    | direct he => exact (he.same hl).inv h
    | fault hv hd hL =>
      rw [lazy_of_plain h hl hd] at hL
      cases hL
  cases he with
  | common hc => exact hc.inv Eager.shape_plain h
  | fork hp hd hf =>
    have hl := live_of_running hp
    have hok := (h.of_live hl hd).2
    refine hf.inv h hl Eager.shape_plain.flush fun r s res s' hc => ?_
    cases hc with
    | copied hz hker hcov hc hk ho hlen =>
      exact ⟨hok, fun d₂ h₂ => Option.some.inj h₂ ▸ hok.child hz hker hc⟩
    | failed => exact ⟨hok, fun d₂ h₂ => by cases h₂⟩
  | mmap => exact absurd rfl (hop _ _)
  | load hp he => exact haccess (live_of_running hp) he
  | store hp he => exact haccess (live_of_running hp) he

/-- Without lazy pages there are no faults that a process survives. -/
theorem Effect.no_faults (h : InvOf Eager.PlainOk 0 k) (he : Effect 0 k op res k') :
    res.faults = 0 := by
  have haccess : ∀ {p : ProcPtr} {va : ℕ} {w : Option UInt8}, k.live p →
      AccessEffect 0 p va w k res k' → res.faults = 0 := by
    intro p va w hl he
    cases he with
    | direct he => cases he <;> rfl
    | fault hv hd hL =>
      rw [lazy_of_plain h hl hd] at hL
      cases hL
  cases he with
  | common hc =>
    cases hc with
    | sbrk hp hd hm =>
      obtain ⟨s', sz', d', -, -, -, hs⟩ := hm
      cases hs <;> rfl
    | wait hp hw => cases hw <;> rfl
    | _ => rfl
  | fork hp hd hf => cases hf <;> rfl
  | mmap hp hd hm => cases hm <;> rfl
  | load hp he => exact haccess (live_of_running hp) he
  | store hp he => exact haccess (live_of_running hp) he

/-- The process that performs an operation that stops is running. -/
theorem running_of_actor {T : Xv6.Tree Kmem} {e : Panic} (hp : op.actor = some p)
    (hs : step T op k = .error e k') : (k.proc p).state = .RUNNING := by
  cases op with
  | sched | kalloc | kfree => cases hp
  | _ =>
    obtain rfl := Option.some.inj hp
    exact running_of_error hs

theorem not_short (h : InvOf Eager.PlainOk 0 k) (hop : ∀ p n, op ≠ .mmap p n)
    (hrun : ∀ p, op.actor = some p → k.live p) : ¬Short k op := by
  intro hs
  cases op with
  | mmap p n => exact hop p n rfl
  | fork p =>
    obtain ⟨d, hd, -, v, -, hL⟩ := hs
    rw [lazy_of_plain h (hrun p rfl) hd] at hL
    cases hL
  | load p va =>
    obtain ⟨-, d, hd, hL⟩ := hs
    rw [lazy_of_plain h (hrun p rfl) hd] at hL
    cases hL
  | store p va b =>
    obtain ⟨-, d, hd, hL⟩ := hs
    rw [lazy_of_plain h (hrun p rfl) hd] at hL
    cases hL
  | _ => exact hs

/-! ## The system call that allocates -/

omit [Layout] in
theorem refused_iff {n : ℤ} : n < 0 ∨ n.tmod PGSIZE ≠ 0 ↔ n < 0 ∨ n % PGSIZE ≠ 0 := by
  rcases lt_or_ge n 0 with hneg | hpos
  · exact ⟨fun _ => Or.inl hneg, fun _ => Or.inl hneg⟩
  · rw [Int.tmod_eq_emod_of_nonneg hpos]

/-- It gives the process pages of zeros, or memory has run out. -/
theorem sys_mmap_grow_spec (h : InvOf Eager.PlainOk 0 k) (hw : k.spaces.Paged) (hl : k.live p)
    {n : ℤ} (ha : k.spaces.mmap p (argint n) = some (r, a')) :
    wp (sys_mmap_grow p n) (fun res k' => InvOf Eager.PlainOk 0 k' ∧ res = r ∧
      (k'.phys.oom = false → k'.spaces = a')) (fun _ _ => False) k := by
  obtain ⟨d, -, hd, -⟩ := h.live p hl
  have hok := (h.of_live hl hd).2
  unfold sys_mmap_grow
  by_cases hbad : argint n < 0 ∨ (argint n).tmod PGSIZE ≠ 0
  · rw [if_pos hbad, wp_pure]
    rw [Spaces.mmap, if_pos (refused_iff.mp hbad)] at ha
    obtain ⟨rfl, rfl⟩ := Prod.mk.inj (Option.some.inj ha)
    exact ⟨h, rfl, fun _ => rfl⟩
  · have hgood := mt refused_iff.mpr hbad
    have hsbrk := Spaces.mmap_eq_sbrk hgood ha
    have hr : r = .ret (k.proc p).sz := by
      rw [Spaces.mmap, if_neg hgood] at ha
      split_ifs at ha
      exact (Prod.mk.inj (Option.some.inj ha)).1.symm
    have hspec := @sys_sbrk_spec _ _ _ _ _ _ _ _ h hl d hd (.of_le hok.small.1) n
    unfold sys_sbrk at hspec
    simp only [wp_bind, wp_get] at hspec
    rw [if_neg hbad]
    simp only [wp_bind, wp_get, wp_pure]
    refine wp_mono hspec (fun ok k' he => ?_) fun e k' he => ?_
    · -- the result that `sbrk` would return is the one of `growproc`
      have hm : ∃ res, MemPost 0 k p
          (SbrkEffect (0 + k.rest p) k.phys d (k.proc p).sz (argint n)) res k' := by
        cases ok
        · exact ⟨_, he⟩
        · exact ⟨_, he⟩
      obtain ⟨res, hm⟩ := hm
      refine ⟨hm.sbrk_inv Eager.shape_plain h hl hd, hr.symm, fun ho => ?_⟩
      obtain ⟨s', sz', d', rfl, -, -, hs⟩ := hm
      exact (hs.spaces hw.toWhole hl hd (argint_bounds n).2 ho hsbrk).2
    · rcases he with ⟨-, v, hge, hv, hP⟩ | ⟨-, hover⟩
      · rw [hok.tight v hge hv] at hP
        cases hP
      · exact absurd hover (Pgdir.not_overlaps hok.small.1)

/-- Every operation does what it should, without a fault, or memory has run out. -/
theorem grow_spaces (h : InvOf Eager.PlainOk 0 k) (hw : k.spaces.Paged)
    (ha : k.spaces.stepPaged op = some (r, a')) :
    wp (step growTree op) (fun res k' => InvOf Eager.PlainOk 0 k' ∧ (k'.phys.oom = false →
      res.seen = r ∧ res.faults = 0 ∧ k'.spaces = a')) (fun _ _ => False) k := by
  obtain ⟨hseen, hfaults, -⟩ := Spaces.stepPaged_result ha
  by_cases hop : ∃ p n, op = .mmap p n
  · obtain ⟨p, n, rfl⟩ := hop
    refine wp_whenRunning (fun hp => ?_) fun hp => ?_
    · refine wp_post (sys_mmap_grow_spec h hw (live_of_running hp) (Spaces.of_running hp ha))
        fun res k' he => ?_
      obtain ⟨hinv, rfl, hk⟩ := he
      exact ⟨hinv, fun ho => ⟨hseen, hfaults, hk ho⟩⟩
    · obtain ⟨-, rfl, rfl⟩ := (Spaces.whenRunning_eq_some ha).resolve_left fun hc => hp hc.1
      exact ⟨h, fun _ => ⟨rfl, rfl, rfl⟩⟩
  · have hne : ∀ p n, op ≠ .mmap p n := fun p n e => hop ⟨p, n, e⟩
    have hmapped := mapped_of_plain h
    rw [step_grow hne]
    refine wp_mono (wp_and (step_spec (lazy_of_mapped hmapped) op) (wp_eq _ _))
      (fun res k' he => ⟨he.1.plain h hne, fun ho => ?_⟩) fun e k' he => ?_
    · obtain ⟨-, hs, -, hk⟩ := he.1.spaces hmapped hw ho ha
      exact ⟨hs, he.1.no_faults h, hk⟩
    · refine not_short h hne (fun p hp => ?_) (short_of_stop hmapped hw ha he.2 he.1)
      exact live_of_running (running_of_actor hp he.2)

end Grow

/-! ## The two kernels together -/

section Agree

variable [Layout]

/-- The operations that are compared. `mmap` stays below `KERNBASE`, and `sbrk` moves by a number of
pages; for the others see `Spaces.Compared`. -/
def Compared (e : Kernel Kmem) : Op → Prop
  | .mmap p n => (e.proc p).sz + argint n < KERNBASE
  | .sbrk p n => argint n % PGSIZE = 0 ∧ Spaces.Compared e (.sbrk p n)
  | op => Spaces.Compared e op

/-- The lazy kernel and the one that allocates after the same operations, none of which has found
memory exhausted. -/
inductive Lockstep : Kernel Kmem → Kernel Kmem → Prop
  | boot {M : Machine} {k : Kernel Kmem} (hk : boot M (powerOn M) = .ok () k) : Lockstep k k
  | step {k k' e e' : Kernel Kmem} {op : Op} {r r' : Result} (h : Lockstep k e)
      (hc : Compared e op) (hk : Xv6.step tree op k = .ok r k')
      (he : Xv6.step growTree op e = .ok r' e') (hok : k'.phys.oom = false)
      (hoe : e'.phys.oom = false) : Lockstep k' e'

/-- What holds of the two kernels. -/
structure Together (k e : Kernel Kmem) : Prop where
  mapped : InvOf MappedOk 0 k
  plain : InvOf Eager.PlainOk 0 e
  paged : e.spaces.Paged
  same : k.spaces = e.spaces

variable {k e : Kernel Kmem} {op : Op}

omit [Layout] in
theorem Compared.of_ne (hop : ∀ p n, op ≠ .mmap p n) (hc : Compared e op) :
    Spaces.Compared e op := by
  cases op with
  | mmap p n => exact absurd rfl (hop p n)
  | sbrk p n => exact hc.2
  | _ => exact hc

/-- The operations that are compared are among those that the processes are promised. -/
theorem Compared.step (h : InvOf Eager.PlainOk 0 e) (hc : Compared e op) :
    ∃ r a', e.spaces.stepPaged op = some (r, a') := by
  cases op with
  | mmap p n =>
    have hlt : (e.spaces.proc p).sz + argint n < KERNBASE := hc
    dsimp only [Spaces.stepPaged]
    unfold Spaces.whenRunning Spaces.mmap
    split_ifs
    all_goals first | exact ⟨_, _, rfl⟩ | omega
  | sbrk p n =>
    dsimp only [Spaces.stepPaged]
    rw [if_pos hc.1]
    exact Spaces.Compared.step h hc.2
  | _ => exact Spaces.Compared.step h (hc.of_ne fun _ _ e => by cases e)

omit [Layout] in
theorem paged_boot (M : Machine) : (Spaces.boot M).Paged := by
  refine ⟨Spaces.whole_boot M, fun q hq => ?_⟩
  obtain rfl : q = initSlot := by
    by_contra hne
    simp [Spaces.live, Spaces.boot, hne] at hq
  simp only [Spaces.boot, if_true]
  decide

/-- An operation that the processes are promised ends the same way in both kernels: in the one that
allocates always and without a fault, in the lazy one after one fault at most, or because a frame
was missing for a lazy page. -/
theorem Together.step (h : Together k e) {r : Result} {a' : Spaces}
    (ha : e.spaces.stepPaged op = some (r, a')) : ∃ r' e', Xv6.step growTree op e = .ok r' e' ∧
      wp (Xv6.step tree op) (fun r k' => k'.phys.oom = false → e'.phys.oom = false →
        Together k' e' ∧ r.seen = r'.seen ∧ r.faults ≤ 1 ∧ r'.faults = 0 ∧ r ≠ .killed)
        (fun _ _ => Short k op) k := by
  obtain ⟨hmapped, hplain, hpaged, hsame⟩ := h
  obtain ⟨-, -, hkilled⟩ := Spaces.stepPaged_result ha
  have hpaged' := hpaged.step ha
  obtain ⟨r', e', he, hplain', hres'⟩ := wp_ok (grow_spaces hplain hpaged ha)
  have hpk := hpaged
  rw [← hsame] at ha hpk
  refine ⟨r', e', he, wp_mono (step_spaces hmapped hpk ha) (fun r₁ k' hk hok hoe => ?_)
    fun _ _ h => h⟩
  obtain ⟨hmapped', hseen, hfaults, hspaces⟩ := hk hok
  obtain ⟨hseen', hfaults', hspaces'⟩ := hres' hoe
  refine ⟨⟨hmapped', hplain', hspaces' ▸ hpaged', hspaces.trans hspaces'.symm⟩,
    hseen.trans hseen'.symm, hfaults, hfaults', fun hkill => ?_⟩
  rw [hkill] at hseen
  exact hkilled hseen.symm

/-- A kernel that has been booted is together with itself. -/
theorem together_boot {M : Machine} (hk : boot M (powerOn M) = .ok () k) : Together k k := by
  have hb := of_ok (boot_spec M) hk
  refine ⟨hb.invOf shape_mapped, hb.invOf Eager.shape_plain, ?_, rfl⟩
  rw [hb.spaces]
  exact paged_boot M

/-- Kernels that have gone together go on together. -/
theorem Lockstep.together (h : Lockstep k e) : Together k e := by
  induction h with
  | boot hk => exact together_boot hk
  | step _ hc hk he hok hoe ih =>
    obtain ⟨r, a', ha⟩ := hc.step ih.plain
    obtain ⟨r₁, e₁, he₁, hstep⟩ := ih.step ha
    cases he.symm.trans he₁
    exact (of_ok hstep hk hok hoe).1

/-- In both kernels the operation ends with the same result, and with the same memories: in the one
that allocates always and without a fault, in the lazy one after one fault at most, or because a
frame was missing for a lazy page. -/
theorem lazy_agrees_grown (h : Lockstep k e) (hc : Compared e op) :
    ∃ r' e', Xv6.step growTree op e = .ok r' e' ∧
      ((∃ r k', Xv6.step tree op k = .ok r k' ∧
          (k'.phys.oom = false → e'.phys.oom = false → r.seen = r'.seen ∧ r.faults ≤ 1 ∧
            r'.faults = 0 ∧ r ≠ .killed ∧ k'.spaces = e'.spaces)) ∨
        (∃ err k', Xv6.step tree op k = .error err k') ∧ Short k op) := by
  obtain ⟨r, a', ha⟩ := hc.step h.together.plain
  obtain ⟨r', e', he, hstep⟩ := h.together.step ha
  refine ⟨r', e', he, ?_⟩
  cases hk : Xv6.step tree op k with
  | ok r₁ k' =>
    refine Or.inl ⟨r₁, k', rfl, fun hok hoe => ?_⟩
    obtain ⟨htog, hseen, hfaults, hfaults', hkill⟩ := of_ok hstep hk hok hoe
    exact ⟨hseen, hfaults, hfaults', hkill, htog.same⟩
  | error err k' =>
    have hshort := of_error hstep hk
    exact Or.inr ⟨⟨err, k', rfl⟩, hshort⟩

end Agree

/-- The first process is scheduled and maps two pages. -/
theorem lazy_agrees_grown_mmap : ∃ (_ : Layout) (k e : Kernel Kmem),
    Lockstep k e ∧ Compared e (.mmap initSlot 8192) ∧
      ∃ r' e', Xv6.step growTree (.mmap initSlot 8192) e = .ok r' e' ∧
        ((∃ r k', Xv6.step tree (.mmap initSlot 8192) k = .ok r k' ∧
            (k'.phys.oom = false → e'.phys.oom = false → r.seen = r'.seen ∧ r.faults ≤ 1 ∧
              r'.faults = 0 ∧ r ≠ .killed ∧ k'.spaces = e'.spaces)) ∨
          (∃ err k', Xv6.step tree (.mmap initSlot 8192) k = .error err k') ∧
            Short k (.mmap initSlot 8192)) := by
  let _ := sampleLayout
  obtain ⟨k, hk, hb⟩ := boot_ok (κ := Kmem) sample_fits
  obtain ⟨d, hd, -⟩ := hb.dir
  have hrun : (k.proc initSlot).state = .RUNNABLE := by simp [hb.table]
  have hks := ((hb.invOf shape_mapped).of_live hb.live hd).1
  have hs := step_sched (T := tree) hrun hd hks
  have hlock := @Lockstep.step _ _ _ _ _ (.sched initSlot) _ _ (.boot hk) trivial hs hs hb.oom hb.oom
  have hcomp : Compared { k with
      proc := k.proc.set initSlot fun q => { q with state := .RUNNING, chan := none }
      pgdir := Function.update k.pgdir initSlot (some d.flush) } (.mmap initSlot 8192) := by
    have harg : argint 8192 = 8192 := by decide
    change ((k.proc.set initSlot _ initSlot).sz : ℤ) + _ < _
    rw [Table.set_self, hb.sz, harg, KERNBASE_eq]
    decide
  exact ⟨_, _, _, hlock, hcomp, lazy_agrees_grown hlock hcomp⟩

end OsLabs.Lazy
