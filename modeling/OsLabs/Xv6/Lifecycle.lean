import OsLabs.Xv6.Accounts

/-!
# `fork`, `exit` and `wait`

What the operations that create and remove processes can do to the kernel, and that they keep its
accounts in order.

* `Table.Like`: the changes `exit` makes to the slots of other processes;
* `wait_spec`: the outcomes of `wait`, listed in `WaitEffect`;
* `forkWith_spec`: the outcomes of `fork`, listed in `ForkEffect`, over what the tree's `copyuvm`
  does;
* `WaitEffect.inv`, `ForkEffect.inv`: the invariant is kept.
-/

namespace OsLabs.Xv6

open StateError Ledger

/-! ## The table at `exit` -/

/-- `t'` is `t` with some sleeping processes woken up and the parents of children of `cur`
changed. -/
def Table.Like (cur : ProcPtr) (t t' : Table) : Prop :=
  ∀ p, (t' p).sz = (t p).sz ∧ (t' p).pid = (t p).pid ∧
    ((t' p).state = (t p).state ∨ (t p).state = .SLEEPING ∧ (t' p).state = .RUNNABLE) ∧
    ((t p).parent ≠ some cur → (t' p).parent = (t p).parent) ∧ (t' p).killed = (t p).killed

namespace Table

theorem Like.refl (cur : ProcPtr) (t : Table) : t.Like cur t :=
  fun _ => ⟨rfl, rfl, Or.inl rfl, fun _ => rfl, rfl⟩

theorem Like.trans {cur : ProcPtr} {t t' t'' : Table} (h : t.Like cur t')
    (h' : t'.Like cur t'') : t.Like cur t'' := by
  intro p
  obtain ⟨h₁, h₂, h₃, h₄, h₅⟩ := h p
  obtain ⟨h₁', h₂', h₃', h₄', h₅'⟩ := h' p
  refine ⟨h₁'.trans h₁, h₂'.trans h₂, ?_, fun hp => ?_, h₅'.trans h₅⟩
  · rcases h₃ with e | ⟨e, e'⟩
    · rwa [e] at h₃'
    · rcases h₃' with f | ⟨f, f'⟩
      · exact Or.inr ⟨e, f.trans e'⟩
      · exact Or.inr ⟨e, f'⟩
  · rw [h₄' (by rw [h₄ hp]; exact hp), h₄ hp]

theorem like_wakeup1 (cur : ProcPtr) (t : Table) (chan : Option ProcPtr) :
    t.Like cur (t.wakeup1 chan) := by
  intro p
  unfold wakeup1
  split
  · rename_i h
    exact ⟨rfl, rfl, Or.inr ⟨h.1, rfl⟩, fun _ => rfl, rfl⟩
  · exact ⟨rfl, rfl, Or.inl rfl, fun _ => rfl, rfl⟩

theorem like_setParent {cur : ProcPtr} {t : Table} {p : ProcPtr} (hp : (t p).parent = some cur)
    (parent : Option ProcPtr) : t.Like cur (t.set p fun q => { q with parent := parent }) := by
  intro q
  rw [set_apply]
  split
  · rename_i h
    subst h
    exact ⟨rfl, rfl, Or.inl rfl, fun h => absurd hp h, rfl⟩
  · exact ⟨rfl, rfl, Or.inl rfl, fun _ => rfl, rfl⟩

theorem like_abandon (cur : ProcPtr) (initproc : Option ProcPtr) (t : Table) (p : ProcPtr) :
    t.Like cur (abandon cur initproc t p) := by
  unfold abandon
  split
  · rename_i hp
    dsimp only
    split
    · exact (like_setParent hp _).trans (like_wakeup1 _ _ _)
    · exact like_setParent hp _
  · exact .refl cur t

theorem like_foldl_abandon (cur : ProcPtr) (initproc : Option ProcPtr) (ps : List ProcPtr) :
    ∀ t : Table, t.Like cur (ps.foldl (abandon cur initproc) t) := by
  induction ps with
  | nil => exact fun t => .refl cur t
  | cons p ps ih => exact fun t => (like_abandon cur initproc t p).trans (ih _)

/-- What `exit` does to the table before the process becomes a zombie. -/
theorem like_exit (t : Table) (cur : ProcPtr) (initproc : Option ProcPtr) :
    ∃ t', t.Like cur t' ∧ t.exit cur initproc = t'.set cur fun q => { q with state := .ZOMBIE } :=
  ⟨_, (like_wakeup1 cur t (t cur).parent).trans
    (like_foldl_abandon cur initproc (List.finRange NPROC) _), rfl⟩

/-- A round of the loop changes the parent of its own slot only. -/
theorem abandon_parent_ne {cur p q : ProcPtr} {initproc : Option ProcPtr} {t : Table}
    (h : q ≠ p) : (abandon cur initproc t p q).parent = (t q).parent := by
  unfold abandon
  split
  · dsimp only
    split
    · unfold wakeup1
      split <;> rw [set_ne _ _ h]
    · rw [set_ne _ _ h]
  · rfl

theorem abandon_parent_self {cur p : ProcPtr} {initproc : Option ProcPtr} {t : Table}
    (h : (t p).parent = some cur) : (abandon cur initproc t p p).parent = initproc := by
  unfold abandon
  rw [if_pos h]
  split
  · unfold wakeup1
    split <;> rw [set_self]
  · rw [set_self]

/-- The loop passes every child of `cur` that it meets to `initproc`. -/
theorem foldl_abandon_parent {cur q : ProcPtr} {initproc : Option ProcPtr}
    (hi : initproc ≠ some cur) {ps : List ProcPtr} (hq : q ∈ ps) : ∀ {t : Table},
      (t q).parent = some cur → (ps.foldl (abandon cur initproc) t q).parent = initproc := by
  induction ps with
  | nil => exact absurd hq List.not_mem_nil
  | cons p ps ih =>
    intro t ht
    by_cases hqp : q = p
    · have hself := @abandon_parent_self _ _ initproc _ (hqp ▸ ht)
      rw [← hqp] at hself
      have hlike := (like_foldl_abandon cur initproc ps (abandon cur initproc t p) q).2.2.2.1
      rw [← hqp, hself] at hlike
      rw [List.foldl_cons, ← hqp]
      exact hlike hi
    · refine ih ((List.mem_cons.mp hq).resolve_left hqp) ?_
      rw [abandon_parent_ne hqp]
      exact ht

section Exit

variable (t : Table) (cur : ProcPtr) (initproc : Option ProcPtr)

@[simp] theorem exit_state_self : (t.exit cur initproc cur).state = .ZOMBIE := by
  obtain ⟨t', -, h⟩ := like_exit t cur initproc
  rw [h, set_self]

theorem exit_state_ne {p : ProcPtr} (hp : p ≠ cur) :
    (t.exit cur initproc p).state = (t p).state ∨
      (t p).state = .SLEEPING ∧ (t.exit cur initproc p).state = .RUNNABLE := by
  obtain ⟨t', hl, h⟩ := like_exit t cur initproc
  rw [h, set_ne _ _ hp]
  exact (hl p).2.2.1

@[simp] theorem exit_sz (p : ProcPtr) : (t.exit cur initproc p).sz = (t p).sz := by
  obtain ⟨t', hl, h⟩ := like_exit t cur initproc
  rw [h, set_apply]
  split
  · rename_i hp
    rw [hp]
    exact (hl cur).1
  · exact (hl p).1

@[simp] theorem exit_pid (p : ProcPtr) : (t.exit cur initproc p).pid = (t p).pid := by
  obtain ⟨t', hl, h⟩ := like_exit t cur initproc
  rw [h, set_apply]
  split
  · rename_i hp
    rw [hp]
    exact (hl cur).2.1
  · exact (hl p).2.1

/-- The children of other processes keep their parent. -/
theorem exit_parent_of_ne {p : ProcPtr} (hp : (t p).parent ≠ some cur) :
    (t.exit cur initproc p).parent = (t p).parent := by
  obtain ⟨t', hl, h⟩ := like_exit t cur initproc
  rw [h, set_apply]
  split
  · rename_i hpc
    rw [hpc] at hp ⊢
    exact (hl cur).2.2.2.1 hp
  · exact (hl p).2.2.2.1 hp

/-- The children of `cur` pass to `initproc`. -/
theorem exit_parent_of_eq {p : ProcPtr} (hi : initproc ≠ some cur)
    (hp : (t p).parent = some cur) : (t.exit cur initproc p).parent = initproc := by
  have hwoken : ((t.wakeup1 (t cur).parent) p).parent = some cur := by
    unfold wakeup1
    split <;> exact hp
  have hloop := foldl_abandon_parent hi (List.mem_finRange p) hwoken
  have hexit : t.exit cur initproc = ((List.finRange NPROC).foldl (abandon cur initproc)
      (t.wakeup1 (t cur).parent)).set cur fun q => { q with state := .ZOMBIE } := rfl
  generalize (List.finRange NPROC).foldl (abandon cur initproc) (t.wakeup1 (t cur).parent) = t'
    at hloop hexit
  rw [hexit, set_apply]
  split
  · rename_i hpc
    rw [hpc] at hloop
    exact hloop
  · exact hloop

@[simp] theorem exit_killed (p : ProcPtr) :
    (t.exit cur initproc p).killed = (t p).killed := by
  obtain ⟨t', hl, h⟩ := like_exit t cur initproc
  rw [h, set_apply]
  split
  · rename_i hp
    rw [hp]
    exact (hl cur).2.2.2.2
  · exact (hl p).2.2.2.2

variable {t cur}

/-- A slot in use stays in use, and no other comes into use. -/
theorem exit_unused (hl : (t cur).state ≠ .UNUSED) (p : ProcPtr) :
    (t.exit cur initproc p).state = .UNUSED ↔ (t p).state = .UNUSED := by
  by_cases hp : p = cur
  · subst hp
    simp [hl]
  · rcases exit_state_ne t cur initproc hp with e | ⟨e, e'⟩
    · rw [e]
    · simp [e, e']

end Exit

end Table

/-! ## Slots coming into and going out of use -/

section Slots

variable {κ : Type} {k : Kernel κ}

/-- The kernel when the child `q` has been reaped. -/
def Kernel.reaped (k : Kernel κ) (q : ProcPtr) (s : Phys κ) : Kernel κ :=
  { k with
    phys := s
    proc := k.proc.reap q
    kstack := Function.update k.kstack q none }

/-- The ledger after a child has been reaped. -/
theorem Kernel.total_reaped {q : ProcPtr} {d : Pgdir} {f : ℕ} {r : Ledger ℕ} {s : Phys κ}
    (hl : k.live q) (hd : k.pgdir q = some d) (hf : k.kstack q = some f)
    (hr : k.total = r + (excl f + d.holds)) : (k.reaped q s).total = r := by
  have hne : ∀ j, j ≠ q → (k.reaped q s).slotHolds j = k.slotHolds j := by
    intro j hj
    simp [Kernel.reaped, Kernel.slotHolds, Table.reap, Table.set_ne, hj]
  have hq : (k.reaped q s).slotHolds q = 0 := by
    simp [Kernel.reaped, Kernel.slotHolds, Table.reap]
  have hq₀ : k.slotHolds q = excl f + d.holds := by
    rw [Kernel.slotHolds, if_neg hl, hf, hd]
    rfl
  have := @Kernel.total_add_slot _ k q (k.reaped q s) rfl rfl hne
  rw [hq, hq₀, hr, add_zero] at this
  exact add_right_cancel this

theorem Kernel.live_reaped {q j : ProcPtr} {s : Phys κ} :
    (k.reaped q s).live j ↔ j ≠ q ∧ k.live j := by
  unfold Kernel.live Kernel.reaped Table.reap
  by_cases h : j = q
  · subst h; simp
  · simp [Table.set_ne, h]

/-- The kernel when `fork` has made a child in the slot `np`, in the frame `f` its stack. -/
def Kernel.born (k : Kernel κ) (cur np : ProcPtr) (f : ℕ) (s : Phys κ) (d d₂ : Pgdir) :
    Kernel κ :=
  { k with
    phys := s
    proc := k.proc.set np fun q =>
      { q with sz := (k.proc cur).sz, parent := some cur, state := .RUNNABLE, pid := k.nextpid }
    pgdir := Function.update (Function.update k.pgdir cur (some d)) np (some d₂)
    kstack := Function.update k.kstack np (some f)
    nextpid := k.nextpid + 1 }

/-- The kernel when `fork` has taken the slot `np` and given it back. -/
def Kernel.unborn (k : Kernel κ) (np : ProcPtr) (s : Phys κ) (pgdir : ProcPtr → Option Pgdir) :
    Kernel κ :=
  { k with
    phys := s
    proc := k.proc.set np fun q => { q with pid := k.nextpid, state := .UNUSED }
    pgdir := pgdir
    kstack := Function.update k.kstack np none
    nextpid := k.nextpid + 1 }

section Born

variable {cur np : ProcPtr} {f : ℕ} {s : Phys κ} {d d₂ : Pgdir}

/-- The ledger with a new child. -/
theorem Kernel.total_born (hl : k.live cur) (hnp : (k.proc np).state = .UNUSED) :
    (k.born cur np f s d d₂).total = k.rest cur + d.holds + (excl f + d₂.holds) := by
  have hne : cur ≠ np := fun e => hl (by rw [e]; exact hnp)
  set k₁ := k.setMem cur s (k.proc cur).sz d with hk₁
  have hslot : ∀ j, j ≠ np → (k.born cur np f s d d₂).slotHolds j = k₁.slotHolds j := by
    intro j hj
    rw [hk₁, Kernel.setMem_sz_self]
    simp [Kernel.slotHolds, Kernel.born, Table.set_ne, hj]
  have h₁ : k₁.slotHolds np = 0 := by
    rw [hk₁, Kernel.setMem_sz_self, Kernel.slotHolds]
    exact if_pos hnp
  have h₂ : (k.born cur np f s d d₂).slotHolds np = excl f + d₂.holds := by
    simp [Kernel.slotHolds, Kernel.born]
  have := @Kernel.total_add_slot _ k₁ np (k.born cur np f s d d₂) rfl rfl hslot
  rwa [h₁, h₂, add_zero, hk₁, Kernel.total_setMem hl] at this

/-- The ledger when `fork` has failed. -/
theorem Kernel.total_unborn {pgdir : ProcPtr → Option Pgdir} (hl : k.live cur)
    (hnp : (k.proc np).state = .UNUSED) (hcur : pgdir cur = some d)
    (hpg : ∀ j, j ≠ cur → j ≠ np → pgdir j = k.pgdir j) :
    (k.unborn np s pgdir).total = k.rest cur + d.holds := by
  have hne : cur ≠ np := fun e => hl (by rw [e]; exact hnp)
  rw [← @Kernel.total_setMem _ _ _ s (k.proc cur).sz _ hl, Kernel.setMem_sz_self]
  refine Kernel.total_congr rfl rfl fun j => ?_
  by_cases hj : j = np
  · subst hj
    simp [Kernel.slotHolds, Kernel.unborn, hnp]
  · by_cases hjc : j = cur
    · subst hjc
      simp [Kernel.slotHolds, Kernel.unborn, Table.set_ne, hj, hcur]
    · simp [Kernel.slotHolds, Kernel.unborn, Table.set_ne, hj, hjc, hpg j hjc hj]

theorem Kernel.live_unborn {j : ProcPtr} {pgdir : ProcPtr → Option Pgdir}
    (hnp : (k.proc np).state = .UNUSED) : (k.unborn np s pgdir).live j ↔ k.live j := by
  unfold Kernel.live Kernel.unborn
  by_cases hj : j = np
  · subst hj
    simp [hnp]
  · simp [Table.set_ne, hj]

theorem Kernel.live_born {j : ProcPtr} :
    (k.born cur np f s d d₂).live j ↔ j = np ∨ k.live j := by
  unfold Kernel.live Kernel.born
  by_cases hj : j = np
  · subst hj
    simp
  · simp [Table.set_ne, hj]

end Born

end Slots

section Kernel

variable {κ : Type} [Kalloc κ] [Layout] [LawfulKalloc κ]
variable {ok : ℕ → Pgdir → Prop} {x : Ledger ℕ} {k : Kernel κ} {p : ProcPtr}

/-- A change of the table that takes no slot in or out of use. -/
theorem InvOf.setTable (h : InvOf ok x k) {t : Table} (hsz : ∀ q, (t q).sz = (k.proc q).sz)
    (hpid : ∀ q, (t q).pid = (k.proc q).pid)
    (hst : ∀ q, (t q).state = .UNUSED ↔ (k.proc q).state = .UNUSED) :
    InvOf ok x { k with proc := t } := by
  have htot : Kernel.total { k with proc := t } = k.total := by
    refine Kernel.total_congr rfl rfl fun q => ?_
    simp only [Kernel.slotHolds, hst]
  refine ⟨by rw [htot]; exact h.acct, fun q hq => ?_,
    h.pids.congr hpid fun q hq e => hq ((hst q).mpr e)⟩
  obtain ⟨d, f, hd, hf, hok⟩ := h.live q fun e => hq ((hst q).mpr e)
  exact ⟨d, f, hd, hf, by rw [hsz]; exact hok⟩

/-- The table with one slot changed, but not its size, its pid or whether it is in use. -/
theorem InvOf.setSlot (h : InvOf ok x k) {p : ProcPtr} {f : Proc → Proc} (hl : k.live p)
    (hsz : (f (k.proc p)).sz = (k.proc p).sz) (hpid : (f (k.proc p)).pid = (k.proc p).pid)
    (hst : (f (k.proc p)).state ≠ .UNUSED) : InvOf ok x { k with proc := k.proc.set p f } := by
  refine h.setTable (fun q => ?_) (fun q => ?_) fun q => Table.set_unused hl hst q
  · rw [Table.set_apply]
    split
    · rename_i hq
      rw [hq, hsz]
    · rfl
  · rw [Table.set_apply]
    split
    · rename_i hq
      rw [hq, hpid]
    · rfl

/-! ## `wait` -/

/-- What `wait` can do. -/
inductive WaitEffect (x : Ledger ℕ) (k : Kernel κ) (cur : ProcPtr) : Result → Kernel κ → Prop
  /-- A child is reaped: its memory is given back and its slot is unused. -/
  | reaped {q : ProcPtr} {d : Pgdir} {f : ℕ} {s' : Phys κ}
      (hq : k.proc.first (Table.zombieOf cur) = some q) (hd : k.pgdir q = some d)
      (hf : k.kstack q = some f) {r : Ledger ℕ} (hr : k.total = r + (excl f + d.holds))
      (ha : Acct InRange s'.kmem (x + r)) (hk : Keeps (x + r) k.phys s')
      (ho : s'.oom = k.phys.oom) :
      WaitEffect x k cur (.ret (k.proc q).pid) (k.reaped q s')
  /-- There is nothing to wait for. -/
  | none (hq : k.proc.first (Table.zombieOf cur) = none)
      (hk : (k.proc.first (·.parent = some cur)).isNone ∨ (k.proc cur).killed) :
      WaitEffect x k cur (.ret (-1)) k
  /-- The process sleeps until a child exits. -/
  | slept (hq : k.proc.first (Table.zombieOf cur) = none)
      (hk : ¬((k.proc.first (·.parent = some cur)).isNone ∨ (k.proc cur).killed)) :
      WaitEffect x k cur .slept { k with
        proc := k.proc.set cur fun q => { q with chan := some cur, state := .SLEEPING } }

theorem wait_spec (h : InvOf ok x k) : wp (wait p) (WaitEffect x k p) (fun _ _ => False) k := by
  unfold wait
  simp only [wp_bind, wp_get]
  cases hq : k.proc.first (Table.zombieOf p) with
  | none =>
    dsimp only
    by_cases hk : (k.proc.first (·.parent = some p)).isNone ∨ (k.proc p).killed
    · rw [if_pos hk]
      exact .none hq hk
    · rw [if_neg hk]
      simp only [wp_bind, wp_setProc, wp_pure]
      exact .slept hq hk
  | some q =>
    have hz := (Table.zombieOf_iff.mp (Table.first_some hq)).2
    have hl : k.live q := by simp [Kernel.live, hz]
    obtain ⟨d, f, hd, hf, -⟩ := h.live q hl
    have hr : k.total = k.ownHolds + ∑ j ∈ Finset.univ.erase q, k.slotHolds j +
        (excl f + d.holds) := by
      rw [Kernel.total_eq_rest hl hd, Kernel.rest, hf, Option.elim_some]
      abel
    have ha := h.acct
    rw [hr, ← add_assoc, add_comm (excl f), ← add_assoc] at ha
    simp only [wp_bind, wp_get, kfreeKstack, hf, hd, wp_onPhys, wp_setKstack, wp_modify, wp_pure]
    refine wp_mono (LawfulKalloc.kfree_spec (isClaim_excl f) ha) (fun _ s₁ h₁ => ?_)
      fun _ _ h => h.elim
    obtain ⟨ha₁, hk₁, -, ho₁⟩ := h₁
    refine wp_mono (freevm_spec ha₁) (fun _ s₂ h₂ => ?_) fun _ _ h => h.elim
    exact .reaped hq hd hf hr h₂.1 (hk₁.left.trans h₂.2.1) (h₂.2.2.trans ho₁)

theorem WaitEffect.inv (h : InvOf ok x k) {res : Result} {k' : Kernel κ}
    (hw : WaitEffect x k p res k') (hl : k.live p) : InvOf ok x k' := by
  cases hw with
  | @reaped q d f s' hq hd hf r hr ha hk ho =>
    have hz := (Table.zombieOf_iff.mp (Table.first_some hq)).2
    have hlq : k.live q := by simp [Kernel.live, hz]
    refine ⟨by rw [Kernel.total_reaped hlq hd hf hr]; exact ha, fun j hj => ?_, h.pids.reap⟩
    obtain ⟨hjq, hlj⟩ := Kernel.live_reaped.mp hj
    obtain ⟨d, f, hd, hf, hok⟩ := h.live j hlj
    exact ⟨d, f, hd, by simpa [Kernel.reaped, hjq] using hf,
      by simpa [Kernel.reaped, Table.reap, Table.set_ne, hjq] using hok⟩
  | none => exact h
  | slept =>
    exact h.setSlot (f := fun q => { q with chan := some p, state := .SLEEPING }) hl rfl rfl
      (by simp)

/-! ## `fork` -/

/-- What `fork` can do, where `CP r s res s'` says what the tree's `copyuvm` does from `s` with
the ledger `r` beside the parent's directory. -/
inductive ForkEffect (CP : Ledger ℕ → Phys κ → Option Pgdir × Pgdir → Phys κ → Prop)
    (reload : Bool) (x : Ledger ℕ) (k : Kernel κ) (cur : ProcPtr) : Result → Kernel κ → Prop
  /-- The table is full. -/
  | full (hnp : k.proc.first (·.state = .UNUSED) = none) :
      ForkEffect CP reload x k cur (.ret (-1)) k
  /-- There is no frame for the kernel stack. -/
  | noStack {np : ProcPtr} (hnp : k.proc.first (·.state = .UNUSED) = some np)
      (hfree : k.phys.free = []) :
      ForkEffect CP reload x k cur (.ret (-1))
        (k.unborn np { k.phys with oom := true } k.pgdir)
  /-- The address space could not be copied. -/
  | noCopy {np : ProcPtr} {f : ℕ} {s₁ s₂ s' : Phys κ} {d' : Pgdir}
      (hnp : k.proc.first (·.state = .UNUSED) = some np) (hf : (x + k.total) f = 0)
      (hm₁ : s₁.mem = k.phys.mem) (ho₁ : s₁.oom = k.phys.oom)
      (hfree : k.phys.free = f :: s₁.free)
      (hc : CP (x + k.rest cur + excl f) s₁ (none, d') s₂)
      (ha : Acct InRange s'.kmem (x + k.rest cur + d'.holds))
      (hk : Keeps (x + k.rest cur + d'.holds) s₂ s') (ho : s'.oom = s₂.oom) :
      ForkEffect CP reload x k cur (.ret (-1))
        (k.unborn np s' (Function.update (Function.update k.pgdir cur (some d')) np none))
  /-- The child is there. -/
  | born {np : ProcPtr} {f : ℕ} {s₁ s' : Phys κ} {d' d₂ : Pgdir}
      (hnp : k.proc.first (·.state = .UNUSED) = some np) (hf : (x + k.total) f = 0)
      (hm₁ : s₁.mem = k.phys.mem) (ho₁ : s₁.oom = k.phys.oom)
      (hfree : k.phys.free = f :: s₁.free)
      (hc : CP (x + k.rest cur + excl f) s₁ (some d₂, d') s')
      (ha : Acct InRange s'.kmem (x + k.rest cur + excl f + d'.holds + d₂.holds)) :
      ForkEffect CP reload x k cur (.ret k.nextpid)
        (k.born cur np f s' (if reload then d'.flush else d') d₂)

/-- `fork`, from what `copyuvm` does. -/
theorem forkWith_spec {copyuvm : Pgdir → ℕ → K κ (Option Pgdir × Pgdir)} {reload : Bool}
    {CP : Ledger ℕ → Phys κ → Option Pgdir × Pgdir → Phys κ → Prop} {EC : Phys κ → Panic → Prop}
    {d : Pgdir} (h : InvOf ok x k) (hl : k.live p) (hd : k.pgdir p = some d)
    (hcopy : ∀ r s, Acct InRange s.kmem (r + d.holds) →
      wp (copyuvm d (k.proc p).sz) (fun res s' => CP r s res s' ∧
        Acct InRange s'.kmem (r + res.2.holds + res.1.elim 0 Pgdir.holds)) (fun e _ => EC s e) s) :
    wp (forkWith copyuvm reload p) (ForkEffect CP reload x k p)
      (fun e _ => k.proc.first (·.state = .UNUSED) ≠ none ∧
        (e = .pidOverflow ∧ k.nextpid = INT_MAX ∨
          ∃ s₁ f, k.phys.free = f :: s₁.free ∧ EC s₁ e)) k := by
  obtain ⟨hks, -⟩ := h.of_live hl hd
  have ha := h.acct
  unfold forkWith allocproc
  simp only [wp_bind, wp_get]
  cases hnp : k.proc.first (·.state = .UNUSED) with
  | none => exact .full hnp
  | some np =>
    have hun : (k.proc np).state = .UNUSED := by simpa using Table.first_some hnp
    have hne : p ≠ np := fun e => hl (by rw [e]; exact hun)
    dsimp only
    by_cases hpid : k.nextpid = INT_MAX
    · rw [if_pos hpid]
      exact ⟨by simp, Or.inl ⟨rfl, hpid⟩⟩
    rw [if_neg hpid]
    simp only [wp_bind, wp_set, wp_onPhys]
    refine wp_mono (LawfulKalloc.kalloc_spec ha) (fun res s₁ h₁ => ?_) fun _ _ h => h.elim
    cases res with
    | none =>
      obtain ⟨rfl, hfree⟩ := h₁
      simp only [wp_bind, wp_setKstack, wp_setProc, wp_pure, Table.set_set]
      exact .noStack hnp hfree
    | some f =>
      obtain ⟨hf, hacct, hm₁, ho₁, hfree⟩ := h₁
      have ha₁ : Acct InRange s₁.kmem (x + k.rest p + excl f + d.holds) := by
        have := hacct _ (isClaim_excl f)
        rwa [Kernel.total_eq_rest hl hd, ← add_assoc, add_right_comm] at this
      simp only [wp_bind, wp_setKstack, wp_pure, wp_get, wp_onPhys]
      refine (wp_getPgdir (d := d) ?_).mpr ?_
      · exact hd
      simp only [Table.set_ne _ _ hne]
      refine wp_mono (hcopy _ s₁ ha₁) (fun res s₂ h₂ => ?_)
        fun _ _ h => ⟨by simp, Or.inr ⟨s₁, f, hfree, h⟩⟩
      obtain ⟨hc, ha₂⟩ := h₂
      obtain ⟨r, d'⟩ := res
      simp only [wp_setPgdir]
      cases r with
      | none =>
        dsimp only at ha₂ ⊢
        rw [Option.elim_none, add_zero, add_right_comm] at ha₂
        simp only [wp_bind, kfreeKstack, wp_get, Function.update_self, wp_onPhys, wp_setKstack,
          wp_setProc, wp_pure, Table.set_set, Function.update_idem]
        refine wp_mono (LawfulKalloc.kfree_spec (isClaim_excl f) ha₂) (fun _ s' h' => ?_)
          fun _ _ h => h.elim
        obtain ⟨ha', hk', -, ho'⟩ := h'
        exact .noCopy hnp hf hm₁ ho₁ hfree hc ha' hk' ho'
      | some d₂ =>
        have hksu : Function.update k.kstack np (some f) p ≠ none := by
          rwa [Function.update_of_ne hne]
        have hupd : Function.update (Function.update k.pgdir p (some d')) np (some d₂) p =
            some d' := by
          rw [Function.update_of_ne hne, Function.update_self]
        dsimp only at ha₂ ⊢
        cases reload with
        | false =>
          simp only [Bool.false_eq_true, if_false, wp_bind, wp_setProc, wp_get, wp_pure,
            Table.set_set, Table.set_self]
          exact .born hnp hf hm₁ ho₁ hfree hc ha₂
        | true =>
          simp only [if_true, wp_bind]
          refine (wp_switchuvm (d := d') ?_ ?_).mpr ?_
          · exact hupd
          · exact hksu
          · simp only [wp_setProc, wp_get, wp_pure, Table.set_set, Table.set_self]
            rw [Function.update_comm hne.symm, Function.update_idem]
            exact .born hnp hf hm₁ ho₁ hfree hc ha₂

theorem InvOf.unborn (h : InvOf ok x k) (hl : k.live p) {np : ProcPtr} {s : Phys κ} {d : Pgdir}
    {pgdir : ProcPtr → Option Pgdir} (hnp : (k.proc np).state = .UNUSED) (hcur : pgdir p = some d)
    (hpg : ∀ j, j ≠ p → j ≠ np → pgdir j = k.pgdir j)
    (ha : Acct InRange s.kmem (x + k.rest p + d.holds)) (hok : ok (k.proc p).sz d) :
    InvOf ok x (k.unborn np s pgdir) := by
  refine ⟨?_, fun j hj => ?_, PidsOk.alloc (q := np) (f := fun q => { q with
    pid := k.nextpid, state := .UNUSED }) h.pids (Nat.zero_lt_of_lt (h.pids.lt np)) rfl⟩
  · rw [Kernel.total_unborn hl hnp hcur hpg, ← add_assoc]
    exact ha
  · have hlj := (Kernel.live_unborn hnp).mp hj
    have hjn : j ≠ np := fun e => hlj (by rw [e]; exact hnp)
    obtain ⟨d₁, f, hd₁, hf, hok₁⟩ := h.live j hlj
    have hsz : ((k.unborn np s pgdir).proc j).sz = (k.proc j).sz := by
      simp [Kernel.unborn, Table.set_ne, hjn]
    have hf' : (k.unborn np s pgdir).kstack j = some f := by
      simpa [Kernel.unborn, hjn] using hf
    rw [hsz]
    by_cases hjp : j = p
    · exact ⟨d, f, by rw [hjp]; exact hcur, hf', by rw [hjp]; exact hok⟩
    · exact ⟨d₁, f, (hpg j hjp hjn).trans hd₁, hf', hok₁⟩

/-- `fork` keeps the accounts in order, if `copyuvm` leaves directories that are accepted. -/
theorem ForkEffect.inv {CP : Ledger ℕ → Phys κ → Option Pgdir × Pgdir → Phys κ → Prop}
    {reload : Bool} {res : Result} {k' : Kernel κ} (h : InvOf ok x k) (hl : k.live p)
    (hfl : ∀ {sz d}, ok sz d → ok sz d.flush)
    (hcp : ∀ r s res s', CP r s res s' → ok (k.proc p).sz res.2 ∧
      ∀ d₂, res.1 = some d₂ → ok (k.proc p).sz d₂)
    (hf : ForkEffect CP reload x k p res k') : InvOf ok x k' := by
  obtain ⟨d, f₀, hd, hf₀, hkok⟩ := h.live p hl
  cases hf with
  | full => exact h
  | @noStack np hnp hfree =>
    have hun : (k.proc np).state = .UNUSED := by simpa using Table.first_some hnp
    exact h.unborn hl hun hd (fun _ _ _ => rfl) (h.acct_rest hl hd) hkok
  | @noCopy np f s₁ s₂ s' d' hnp hf hm₁ ho₁ hfree hc ha hk ho =>
    have hun : (k.proc np).state = .UNUSED := by simpa using Table.first_some hnp
    have hne : p ≠ np := fun e => hl (by rw [e]; exact hun)
    refine h.unborn hl hun ?_ (fun j hjp hjn => ?_) ha (hcp _ _ _ _ hc).1
    · rw [Function.update_of_ne hne, Function.update_self]
    · rw [Function.update_of_ne hjn, Function.update_of_ne hjp]
  | @born np f s₁ s' d' d₂ hnp hf hm₁ ho₁ hfree hc ha =>
    have hun : (k.proc np).state = .UNUSED := by simpa using Table.first_some hnp
    have hne : p ≠ np := fun e => hl (by rw [e]; exact hun)
    obtain ⟨hk', hk₂⟩ := hcp _ _ _ _ hc
    set d₁ := if reload then d'.flush else d' with hd₁
    have hk₁ : ok (k.proc p).sz d₁ := by
      rw [hd₁]
      split
      · exact hfl hk'
      · exact hk'
    have hh₁ : d₁.holds = d'.holds := by
      rw [hd₁]
      split
      · rfl
      · rfl
    refine ⟨?_, fun j hj => ?_, PidsOk.alloc (q := np) (f := fun q => { q with
      sz := (k.proc p).sz, parent := some p, state := .RUNNABLE, pid := k.nextpid })
      h.pids (Nat.zero_lt_of_lt (h.pids.lt np)) rfl⟩
    · rw [Kernel.total_born hl hun, hh₁]
      have : x + k.rest p + excl f + d'.holds + d₂.holds =
          x + (k.rest p + d'.holds + (excl f + d₂.holds)) := by abel
      rwa [← this]
    · by_cases hjn : j = np
      · subst hjn
        exact ⟨d₂, f, by simp [Kernel.born], by simp [Kernel.born],
          by simpa [Kernel.born] using hk₂ d₂ rfl⟩
      · obtain ⟨d₀, f₁, hd₀, hf₁, hok₀⟩ := h.live j
          ((Kernel.live_born.mp hj).resolve_left hjn)
        have hsz : ((k.born p np f s' d₁ d₂).proc j).sz = (k.proc j).sz := by
          simp [Kernel.born, Table.set_ne, hjn]
        have hf' : (k.born p np f s' d₁ d₂).kstack j = some f₁ := by
          simpa [Kernel.born, hjn] using hf₁
        rw [hsz]
        by_cases hjp : j = p
        · exact ⟨d₁, f₁, by simp [Kernel.born, hjp, hne], hf', by rw [hjp]; exact hk₁⟩
        · exact ⟨d₀, f₁, by simpa [Kernel.born, hjn, hjp] using hd₀, hf', hok₀⟩

end Kernel

end OsLabs.Xv6
