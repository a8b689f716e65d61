import OsLabs.Xv6.Lifecycle

/-!
# The operations all trees share

`CommonEffect x k op res k'` lists what the operations that do not depend on the tree can do:
scheduling, `sbrk`, `exec`, `exit`, `wait` and the kernel's own allocations. `common_spec` says
that they do nothing else, and stop only in ways that are known.

`CommonEffect.inv` and `CommonEffect.grow` follow from the list: the accounts stay in order, and
no frame gets a second claim.
-/

namespace OsLabs.Xv6

open StateError Ledger

section Common

variable {κ : Type} [Kalloc κ] [Layout] [LawfulKalloc κ]
variable {ok : ℕ → Pgdir → Prop} {x : Ledger ℕ} {k k' : Kernel κ} {op : Op} {res : Result}

/-- The operations that do not depend on the tree. -/
def Op.common : Op → Bool
  | .fork _ | .mmap _ _ | .load _ _ | .store _ _ _ => false
  | _ => true

/-- The operation is possible in `k`. -/
def Op.enabled (k : Kernel κ) : Op → Prop
  | .sched p => (k.proc p).state = .RUNNABLE
  | .yield p | .fork p | .sbrk p _ | .mmap p _ | .load p _ | .store p _ _ | .exec p _ _ | .exit p
  | .wait p => (k.proc p).state = .RUNNING
  | .kalloc => True
  | .kfree f => f ∈ k.held

/-- What these operations can do. -/
inductive CommonEffect (x : Ledger ℕ) (k : Kernel κ) : Op → Result → Kernel κ → Prop
  | disabled {op : Op} (h : ¬op.enabled k) : CommonEffect x k op .disabled k
  | sched {p : ProcPtr} {d : Pgdir} (hp : (k.proc p).state = .RUNNABLE)
      (hd : k.pgdir p = some d) : CommonEffect x k (.sched p) (.ret 0) { k with
        proc := k.proc.set p fun q => { q with state := .RUNNING, chan := none }
        pgdir := Function.update k.pgdir p (some d.flush) }
  | yield {p : ProcPtr} (hp : (k.proc p).state = .RUNNING) :
      CommonEffect x k (.yield p) (.ret 0) { k with
        proc := k.proc.set p fun q => { q with state := .RUNNABLE } }
  | sbrk {p : ProcPtr} {n : ℤ} {d : Pgdir} {res : Result} {k' : Kernel κ}
      (hp : (k.proc p).state = .RUNNING) (hd : k.pgdir p = some d)
      (he : MemPost x k p (SbrkEffect (x + k.rest p) k.phys d (k.proc p).sz (argint n)) res k') :
      CommonEffect x k (.sbrk p n) res k'
  | execFail {p : ProcPtr} {ip : Option Inode} {argv : List (List UInt8)} {s' : Phys κ}
      (ha : Acct InRange s'.kmem (x + k.total)) (hk : Keeps (x + k.total) k.phys s') :
      CommonEffect x k (.exec p ip argv) (.ret (-1)) { k with phys := s' }
  | execOk {p : ProcPtr} {ip : Option Inode} {argv : List (List UInt8)} {s' : Phys κ}
      {d₀ d : Pgdir} {sz : ℕ} (hp : (k.proc p).state = .RUNNING) (hd : k.pgdir p = some d₀)
      (ha : Acct InRange s'.kmem (x + k.rest p + d.holds)) (hk : Keeps (x + k.rest p) k.phys s')
      (hsz : sz < KERNBASE) (hal : sz % PGSIZE = 0) (hpos : 0 < sz)
      (hi : Image (x + k.rest p) d (pages sz)) :
      CommonEffect x k (.exec p ip argv) (.ret 0) (k.setMem p s' sz d.flush)
  | exit {p : ProcPtr} (hp : (k.proc p).state = .RUNNING) :
      CommonEffect x k (.exit p) (.ret 0) { k with proc := k.proc.exit p k.initproc }
  | wait {p : ProcPtr} {res : Result} {k' : Kernel κ} (hp : (k.proc p).state = .RUNNING)
      (he : WaitEffect x k p res k') : CommonEffect x k (.wait p) res k'
  | kallocNone : CommonEffect x k .kalloc (.ret 0) { k with phys := { k.phys with oom := true } }
  | kallocSome {f : ℕ} {s' : Phys κ} (hf : (x + k.total) f = 0)
      (ha : Acct InRange s'.kmem (x + k.total + excl f)) (hm : s'.mem = k.phys.mem)
      (ho : s'.oom = k.phys.oom) :
      CommonEffect x k .kalloc (.ret f) { k with phys := s', held := f :: k.held }
  | kfree {f : ℕ} {s' : Phys κ} {r : Ledger ℕ} (hf : f ∈ k.held) (hr : k.total = r + excl f)
      (ha : Acct InRange s'.kmem (x + r)) (hk : Keeps (x + r) k.phys s')
      (ho : s'.oom = k.phys.oom) :
      CommonEffect x k (.kfree f) (.ret 0) { k with phys := s', held := k.held.erase f }

/-- The ways they can stop: `exec` may follow a null pointer, `init` may exit, and `sbrk` may
meet a page it does not expect. -/
def CommonStop (k : Kernel κ) : Op → Panic → Prop
  | .exec _ _ _, e => e = .nullDeref
  | .exit p, e => e = .initExiting ∧ k.initproc = some p
  | .sbrk p _, e => ∃ d, k.pgdir p = some d ∧ SbrkStop d (k.proc p).sz e
  | _, _ => False

omit [Kalloc κ] [Layout] [LawfulKalloc κ] in
theorem live_of_running {p : ProcPtr} (h : (k.proc p).state = .RUNNING) : k.live p := by
  simp [Kernel.live, h]

omit [Kalloc κ] [Layout] [LawfulKalloc κ] in
/-- An operation of a process that is not running does nothing. -/
theorem wp_whenRunning {p : ProcPtr} {m : KM κ Result} {Q : Result → Kernel κ → Prop}
    {E : Panic → Kernel κ → Prop} (h : (k.proc p).state = .RUNNING → wp m Q E k)
    (hd : (k.proc p).state ≠ .RUNNING → Q .disabled k) : wp (whenRunning p m) Q E k := by
  unfold whenRunning
  simp only [wp_bind, wp_get]
  by_cases hp : (k.proc p).state = .RUNNING
  · rw [if_pos hp]
    exact h hp
  · rw [if_neg hp]
    exact hd hp

omit [Kalloc κ] [Layout] [LawfulKalloc κ] in
/-- An operation of a process that stops the kernel is one of a running process. -/
theorem running_of_error {p : ProcPtr} {m : KM κ Result} {e : Panic} {k' : Kernel κ}
    (h : whenRunning p m k = .error e k') : (k.proc p).state = .RUNNING := by
  by_contra hp
  have hwp : wp (whenRunning p m) (fun _ _ => True) (fun _ _ => False) k :=
    wp_whenRunning (fun h => absurd h hp) fun _ => trivial
  exact of_error hwp h

omit [Kalloc κ] [Layout] [LawfulKalloc κ] in
/-- The ledger with a frame less in kernel hands. -/
theorem Kernel.total_erase_held {f : ℕ} {s : Phys κ} (hf : f ∈ k.held) :
    k.total = Kernel.total { k with phys := s, held := k.held.erase f } + excl f := by
  have : (k.held.map excl).sum = excl f + ((k.held.erase f).map excl).sum :=
    ((List.perm_cons_erase hf).map excl).sum_eq
  simp only [Kernel.total, Kernel.ownHolds, this, Kernel.slotHolds]
  abel

omit [Kalloc κ] [Layout] [LawfulKalloc κ] in
theorem Kernel.total_cons_held {f : ℕ} {s : Phys κ} :
    Kernel.total { k with phys := s, held := f :: k.held } = k.total + excl f := by
  simp only [Kernel.total, Kernel.ownHolds, List.map_cons, List.sum_cons, Kernel.slotHolds]
  abel

theorem common_spec (T : Tree κ) (hs : Shape κ ok) (h : InvOf ok x k) (hop : op.common = true) :
    wp (step T op) (CommonEffect x k op) (fun e _ => CommonStop k op e) k := by
  cases op with
  | fork p => cases hop
  | mmap p n => cases hop
  | load p va => cases hop
  | store p va b => cases hop
  | sched p =>
    unfold step sched
    simp only [wp_bind, wp_get]
    by_cases hp : (k.proc p).state = .RUNNABLE
    · obtain ⟨d, f, hd, hf, -⟩ := h.live p (by simp [Kernel.live, hp])
      rw [if_pos hp]
      simp only [wp_bind]
      refine (wp_switchuvm (d := d) hd (by simp [hf])).mpr ?_
      simp only [wp_setProc, wp_pure]
      exact .sched hp hd
    · rw [if_neg hp]
      exact .disabled hp
  | yield p =>
    refine wp_whenRunning (fun hp => ?_) fun hp => .disabled hp
    simp only [wp_bind, yield, wp_setProc, wp_pure]
    exact .yield hp
  | sbrk p n =>
    refine wp_whenRunning (fun hp => ?_) fun hp => .disabled hp
    obtain ⟨d, f, hd, hf, hd'⟩ := h.live p (live_of_running hp)
    exact wp_mono (sys_sbrk_spec h (live_of_running hp) hd (hs.bounded hd'))
      (fun res k' he => .sbrk hp hd he) fun e _ he => ⟨d, hd, he⟩
  | exec p ip argv =>
    refine wp_whenRunning (fun hp => ?_) fun hp => .disabled hp
    have hl := live_of_running hp
    obtain ⟨d, f, hd, hf, -⟩ := h.live p hl
    have ha := h.acct_rest hl hd
    refine wp_post (exec_spec hd (by simp [hf]) ha) fun res k' he => ?_
    rw [add_assoc, ← Kernel.total_eq_rest hl hd] at he
    rcases he with ⟨rfl, s', rfl, ha', hk⟩ | ⟨rfl, s', d', sz, rfl, ha', hk, hsz, hal, hpos, hi⟩
    · exact .execFail ha' hk
    · exact .execOk hp hd ha' hk hsz hal hpos hi
  | exit p =>
    refine wp_whenRunning (fun hp => ?_) fun hp => .disabled hp
    unfold exit
    simp only [wp_bind, wp_get]
    by_cases hi : k.initproc = some p
    · rw [if_pos hi]
      exact ⟨rfl, hi⟩
    · rw [if_neg hi]
      exact .exit hp
  | wait p =>
    refine wp_whenRunning (fun hp => ?_) fun hp => .disabled hp
    exact wp_mono (wait_spec h) (fun res k' he => .wait hp he) fun _ _ h => h
  | kalloc =>
    unfold step
    simp only [wp_bind, wp_onPhys]
    refine wp_mono (LawfulKalloc.kalloc_spec h.acct) (fun res s' h' => ?_) fun _ _ h => h
    cases res with
    | none =>
      obtain ⟨rfl, -⟩ := h'
      exact .kallocNone
    | some f =>
      obtain ⟨hf, ha, hm, ho, -⟩ := h'
      exact .kallocSome hf (ha _ (isClaim_excl f)) hm ho
  | kfree f =>
    unfold step
    simp only [wp_bind, wp_get]
    by_cases hf : f ∈ k.held
    · rw [if_pos hf]
      simp only [wp_bind, wp_onPhys, wp_modify, wp_pure]
      have hr := Kernel.total_erase_held (s := k.phys) hf
      have ha := h.acct
      rw [hr, ← add_assoc] at ha
      refine wp_mono (LawfulKalloc.kfree_spec (isClaim_excl f) ha) (fun _ s' h' => ?_)
        fun _ _ h => h
      exact .kfree hf hr h'.1 h'.2.1 h'.2.2.2
    · rw [if_neg hf]
      exact .disabled hf

theorem CommonEffect.inv (hs : Shape κ ok) (h : InvOf ok x k) (he : CommonEffect x k op res k') :
    InvOf ok x k' := by
  cases he with
  | disabled => exact h
  | @sched p d hp hd =>
    have hl : k.live p := by simp [Kernel.live, hp]
    have ha := h.acct_rest hl hd
    rw [← d.holds_flush] at ha
    have h₁ := h.setMem hl ha (hs.flush (h.of_live hl hd).2)
    rw [Kernel.setMem_sz_self] at h₁
    exact h₁.setSlot (p := p) (f := fun q => { q with state := .RUNNING, chan := none }) hl rfl rfl
      (by simp)
  | @yield p hp =>
    exact h.setSlot (p := p) (f := fun q => { q with state := .RUNNABLE }) (live_of_running hp) rfl
      rfl (by simp)
  | sbrk hp hd hm => exact hm.sbrk_inv hs h (live_of_running hp) hd
  | execFail ha hk => exact ⟨ha, h.live, h.pids⟩
  | execOk hp hd ha hk hsz hal hpos hi =>
    exact h.setMem (live_of_running hp) ha (hs.flush (hs.image hsz hi))
  | @exit p hp =>
    exact h.setTable (fun q => Table.exit_sz ..) (fun q => Table.exit_pid ..)
      fun q => Table.exit_unused _ (live_of_running hp) q
  | wait hp hw => exact hw.inv h (live_of_running hp)
  | kallocNone => exact ⟨h.acct, h.live, h.pids⟩
  | kallocSome hf ha hm ho =>
    refine ⟨?_, h.live, h.pids⟩
    rw [Kernel.total_cons_held, ← add_assoc]
    exact ha
  | @kfree f s' r hf hr ha hk ho =>
    refine ⟨?_, h.live, h.pids⟩
    have := Kernel.total_erase_held (s := s') hf
    rw [hr] at this
    rw [← add_right_cancel this]
    exact ha

omit [Kalloc κ] [Layout] [LawfulKalloc κ] in
theorem Kernel.total_setTable {t : Table}
    (hst : ∀ q, (t q).state = .UNUSED ↔ (k.proc q).state = .UNUSED) :
    Kernel.total { k with proc := t } = k.total :=
  Kernel.total_congr rfl rfl fun q => by simp only [Kernel.slotHolds, hst]

/-- No frame gets a second claim from them. -/
theorem CommonEffect.grow (he : CommonEffect x k op res k') :
    Grow (x + k.total) (x + k'.total) := by
  have hsame : ∀ {k' : Kernel κ}, k'.total = k.total → Grow (x + k.total) (x + k'.total) :=
    fun e => by rw [e]; exact .refl _
  have hless : ∀ {k' : Kernel κ} {r : Ledger ℕ}, k.total = k'.total + r →
      Grow (x + k.total) (x + k'.total) := fun e => .of_le fun f => by
    simp only [e, refs_add]
    omega
  cases he with
  | disabled => exact .refl _
  | @sched p d hp hd =>
    have hl : k.live p := by simp [Kernel.live, hp]
    refine hsame ?_
    have h₁ := @Kernel.total_setMem _ _ _ k.phys (k.proc p).sz d.flush hl
    rw [Pgdir.holds_flush, ← Kernel.total_eq_rest hl hd, Kernel.setMem_sz_self] at h₁
    rw [← h₁]
    exact Kernel.total_setTable (k := { k with pgdir := Function.update k.pgdir p (some d.flush) })
      fun q => Table.set_unused hl (by simp) q
  | @yield p hp =>
    exact hsame (Kernel.total_setTable fun q => Table.set_unused (live_of_running hp) (by simp) q)
  | sbrk hp hd hm =>
    obtain ⟨s', sz', d', rfl, -, hg, -⟩ := hm
    rwa [Kernel.total_setMem (live_of_running hp), ← add_assoc]
  | execFail ha hk => exact .refl _
  | @execOk p _ _ s' d₀ d sz hp hd ha hk hsz hal hpos hi =>
    have hl := live_of_running hp
    rw [Kernel.total_setMem hl, Kernel.total_eq_rest hl hd, Pgdir.holds_flush]
    simp only [← add_assoc]
    refine .trans (.of_le fun f => ?_) (hi.grow ha)
    simp only [refs_add]
    omega
  | @exit p hp =>
    exact hsame (Kernel.total_setTable fun q => Table.exit_unused _ (live_of_running hp) q)
  | @wait p res k' hp hw =>
    cases hw with
    | @reaped q d f s' hq hd hf r hr ha hk ho =>
      have hl : k.live q := by
        simp [Kernel.live, (Table.zombieOf_iff.mp (Table.first_some hq)).2]
      refine hless (r := excl f + d.holds) ?_
      rw [Kernel.total_reaped hl hd hf hr, hr]
    | none => exact .refl _
    | slept =>
      exact hsame (Kernel.total_setTable
        fun q => Table.set_unused (live_of_running hp) (by simp) q)
  | kallocNone => exact .refl _
  | kallocSome hf ha hm ho =>
    rw [Kernel.total_cons_held, ← add_assoc]
    exact .add_claim hf (isClaim_excl _)
  | @kfree f s' r hf hr ha hk ho => exact hless (Kernel.total_erase_held hf)

/-! ## Processes that go on -/

/-- A slot with a process that has not come to an end. -/
def Kernel.active (k : Kernel κ) (p : ProcPtr) : Prop :=
  (k.proc p).state ≠ .UNUSED ∧ (k.proc p).state ≠ .ZOMBIE

omit [Kalloc κ] [Layout] [LawfulKalloc κ] in
theorem Kernel.active_of_running {p : ProcPtr} (h : (k.proc p).state = .RUNNING) :
    k.active p := by
  rw [active, h]
  exact ⟨by decide, by decide⟩

omit [Kalloc κ] [Layout] [LawfulKalloc κ] in
theorem Kernel.active_setMem {p q : ProcPtr} {s : Phys κ} {sz : ℕ} {d : Pgdir} :
    (k.setMem p s sz d).active q ↔ k.active q := by
  unfold active setMem
  by_cases h : q = p
  · subst h
    simp
  · simp [Table.set_ne, h]

omit [Kalloc κ] [Layout] [LawfulKalloc κ] in
theorem Table.exit_active {t : Table} {p q : ProcPtr} {i : Option ProcPtr} (hq : q ≠ p)
    (h : (t q).state ≠ .UNUSED ∧ (t q).state ≠ .ZOMBIE) :
    (t.exit p i q).state ≠ .UNUSED ∧ (t.exit p i q).state ≠ .ZOMBIE := by
  rcases Table.exit_state_ne t p i hq with e | ⟨-, e⟩
  · rwa [e]
  · rw [e]
    exact ⟨by decide, by decide⟩

/-- No common operation but its own `exit` ends a process. -/
theorem CommonEffect.active {q : ProcPtr} (he : CommonEffect x k op res k') (h : k.active q)
    (hop : op ≠ .exit q) : k'.active q := by
  -- a slot of the table that is given another state, or none
  have hset : ∀ {p : ProcPtr} {f : Proc → Proc},
      ((f (k.proc p)).state ≠ .UNUSED ∧ (f (k.proc p)).state ≠ .ZOMBIE) →
      ((k.proc.set p f) q).state ≠ .UNUSED ∧ ((k.proc.set p f) q).state ≠ .ZOMBIE := by
    intro p f hf
    rw [Table.set_apply]
    split
    · exact hf
    · exact h
  cases he with
  | disabled => exact h
  | sched => exact hset ⟨by simp, by simp⟩
  | yield => exact hset ⟨by simp, by simp⟩
  | sbrk hp hd hm =>
    obtain ⟨s', sz', d', rfl, -⟩ := hm
    exact Kernel.active_setMem.mpr h
  | execFail => exact h
  | execOk => exact Kernel.active_setMem.mpr h
  | @exit p hp => exact Table.exit_active (fun e => hop (by rw [e])) h
  | wait hp hw =>
    cases hw with
    | @reaped z d f s' hz =>
      have hne : q ≠ z := fun e => h.2 (by
        rw [e]
        exact (Table.zombieOf_iff.mp (Table.first_some hz)).2)
      have hproc : (k.reaped z s').proc q = k.proc q := by
        simp [Kernel.reaped, Table.reap, Table.set_ne, hne]
      rw [Kernel.active, hproc]
      exact h
    | none => exact h
    | slept => exact hset ⟨by simp, by simp⟩
  | kallocNone => exact h
  | kallocSome => exact h
  | kfree => exact h

/-! ## Operations that are possible -/

omit [Kalloc κ] [Layout] [LawfulKalloc κ] in
theorem wp_whenRunning_of {p : ProcPtr} {m : KM κ Result} {Q : Result → Kernel κ → Prop}
    {E : Panic → Kernel κ → Prop} (hp : (k.proc p).state = .RUNNING) :
    wp (whenRunning p m) Q E k ↔ wp m Q E k := by
  unfold whenRunning
  simp only [wp_bind, wp_get, if_pos hp]

omit [LawfulKalloc κ] in
theorem step_sched {T : Tree κ} {p : ProcPtr} {d : Pgdir} (hp : (k.proc p).state = .RUNNABLE)
    (hd : k.pgdir p = some d) (hks : k.kstack p ≠ none) :
    step T (.sched p) k = .ok (.ret 0) { k with
      proc := k.proc.set p fun q => { q with state := .RUNNING, chan := none }
      pgdir := Function.update k.pgdir p (some d.flush) } := by
  refine eq_ok_of_wp ?_
  unfold step sched
  simp only [wp_bind, wp_get, if_pos hp]
  refine (wp_switchuvm (d := d) hd hks).mpr ?_
  simp only [wp_setProc, wp_pure]
  exact ⟨trivial, trivial⟩

omit [LawfulKalloc κ] in
theorem step_exit {T : Tree κ} {p : ProcPtr} (hp : (k.proc p).state = .RUNNING)
    (hi : k.initproc ≠ some p) :
    step T (.exit p) k = .ok (.ret 0) { k with proc := k.proc.exit p k.initproc } := by
  refine eq_ok_of_wp ((wp_whenRunning_of hp).mpr ?_)
  unfold exit
  simp only [wp_bind, wp_get, if_neg hi, wp_set, wp_pure]
  exact ⟨trivial, trivial⟩

/-- `wait` reaps the first child that has exited. -/
theorem step_wait {T : Tree κ} {p q : ProcPtr} (h : InvOf ok x k) (hp : (k.proc p).state = .RUNNING)
    (hq : k.proc.first (Table.zombieOf p) = some q) :
    ∃ s', step T (.wait p) k = .ok (.ret (k.proc q).pid) (k.reaped q s') := by
  obtain ⟨res, k', hs, he⟩ := wp_ok (wait_spec (p := p) h)
  cases he with
  | @reaped q' d f s' hq' =>
    obtain rfl : q' = q := Option.some.inj (hq'.symm.trans hq)
    exact ⟨s', eq_ok_of_wp ((wp_whenRunning_of hp).mpr (wp_of_eq hs ⟨rfl, rfl⟩))⟩
  | none hq' =>
    rw [hq] at hq'
    cases hq'
  | slept hq' =>
    rw [hq] at hq'
    cases hq'

end Common

end OsLabs.Xv6
