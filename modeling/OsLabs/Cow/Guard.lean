import OsLabs.Cow.Handler

/-!
# The user bit of a page

`copyuvm` hands a child the flags of the parent's entries, and the fault handler leaves `PTE_U` of
a page it makes writable in place. But the entry of a page it copies is built from scratch, with
`PTE_U` set: a fault on a shared page that was not the user's, such as the guard page of `exec`,
gives it to the user.

* `Line C P k₀ T k`: the runs from `k₀` to `k` of forks and faults of the process `P` and its
  descendants, the slots in `T`, whose accesses meet the condition `C`.
* `user_bit_kept`: without such faults, `PTE_U` of every page of `P` and its descendants stays what
  it was, and an access to a page that is not the user's kills.
* `guard_page_given_away`: a run with such a fault.
-/

namespace OsLabs.Cow

open Xv6 StateError Ledger

section Guard

variable [Layout]

/-! ## The runs -/

/-- The fault of `q` at `va` that the handler gets wrong: the page is copy-on-write and not the
user's, and its frame has another user. -/
def Rebuilt (k : Kernel Kmem) (q : ProcPtr) (va : ℕ) : Prop :=
  ∃ d, k.pgdir q = some d ∧ va / 4096 < UPAGES ∧ (d.ent (va / 4096)).P = true ∧
    (d.ent (va / 4096)).CoW = true ∧ (d.ent (va / 4096)).U = false ∧
    1 < k.phys.kmem.refcount_list (d.ent (va / 4096)).ppn

/-- Forks and faults of `P` and its descendants, in any order and at any address. -/
inductive Line (C : Kernel Kmem → ProcPtr → ℕ → Prop) (P : ProcPtr) (k₀ : Kernel Kmem) :
    Finset ProcPtr → Kernel Kmem → Prop
  | start : Line C P k₀ {P} k₀
  | sched {T : Finset ProcPtr} {k k' : Kernel Kmem} {q : ProcPtr} {res : Result}
      (h : Line C P k₀ T k) (hs : step tree (.sched q) k = .ok res k') : Line C P k₀ T k'
  | yield {T : Finset ProcPtr} {k k' : Kernel Kmem} {q : ProcPtr} {res : Result}
      (h : Line C P k₀ T k) (hs : step tree (.yield q) k = .ok res k') : Line C P k₀ T k'
  | forked {T : Finset ProcPtr} {k k' : Kernel Kmem} {q np : ProcPtr} {pid : ℕ}
      (h : Line C P k₀ T k) (hq : q ∈ T) (hnp : k.proc.first (·.state = .UNUSED) = some np)
      (hs : step tree (.fork q) k = .ok (.ret pid) k') : Line C P k₀ (insert np T) k'
  | forkFailed {T : Finset ProcPtr} {k k' : Kernel Kmem} {q : ProcPtr} (h : Line C P k₀ T k)
      (hq : q ∈ T) (hs : step tree (.fork q) k = .ok (.ret (-1)) k') : Line C P k₀ T k'
  | read {T : Finset ProcPtr} {k k' : Kernel Kmem} {q : ProcPtr} {va : ℕ} {res : Result}
      (h : Line C P k₀ T k) (hq : q ∈ T) (hc : C k q (uint va))
      (hs : step tree (.load q va) k = .ok res k') : Line C P k₀ T k'
  | write {T : Finset ProcPtr} {k k' : Kernel Kmem} {q : ProcPtr} {va : ℕ} {b : UInt8}
      {res : Result} (h : Line C P k₀ T k) (hq : q ∈ T) (hc : C k q (uint va))
      (hs : step tree (.store q va b) k = .ok res k') : Line C P k₀ T k'

/-! ## What a step keeps -/

/-- The process `q` has the user bits of `d₀`. -/
structure Rights (d₀ : Pgdir) (k : Kernel Kmem) (q : ProcPtr) : Prop where
  live : k.live q
  dir : ∃ d, k.pgdir q = some d ∧ ∀ v < UPAGES, (d.ent v).U = (d₀.ent v).U

namespace Rights

variable {d₀ d : Pgdir} {k k' : Kernel Kmem} {q p : ProcPtr}

omit [Layout] in
theorem of_untouched (h : Rights d₀ k q) (hu : Untouched k k' q) : Rights d₀ k' q := by
  obtain ⟨d, hd, hU⟩ := h.dir
  have hmap := hu.pgdir
  rw [hd, Option.map_some] at hmap
  obtain ⟨d', hd', hf⟩ := Option.map_eq_some_iff.mp hmap
  refine ⟨hu.live h.live, d', hd', fun v hv => ?_⟩
  rw [← Pgdir.ent_flush d' v, hf, Pgdir.ent_flush]
  exact hU v hv

omit [Layout] in
theorem of_pgdir (h : Rights d₀ k q) (hl : k'.live q) (hd : k'.pgdir q = k.pgdir q) :
    Rights d₀ k' q := by
  obtain ⟨d, hd', hU⟩ := h.dir
  exact ⟨hl, d, hd.trans hd', hU⟩

omit [Layout] in
/-- Write protection takes no right of access. -/
theorem protected_U {n : ℕ} {d' : Pgdir} (hp : Protected d d' n) (v : ℕ) :
    (d'.ent v).U = (d.ent v).U := by
  rw [hp.ent]
  split
  · exact protect_U _
  · rfl

omit [Layout] in
/-- A failed `fork` of `p`. -/
theorem unborn {np : ProcPtr} {n : ℕ} {s' : Phys Kmem} {d' : Pgdir}
    {pgdir : ProcPtr → Option Pgdir} (h : Rights d₀ k q) (hnp : (k.proc np).state = .UNUSED)
    (hd : k.pgdir p = some d) (hp : Protected d d' n) (hcur : pgdir p = some d')
    (hpg : ∀ j, j ≠ p → j ≠ np → pgdir j = k.pgdir j) : Rights d₀ (k.unborn np s' pgdir) q := by
  have hl := (@Kernel.live_unborn _ _ _ s' _ pgdir hnp).mpr h.live
  have hqn : q ≠ np := fun e => h.live (by rw [e]; exact hnp)
  by_cases hq : q = p
  · subst hq
    obtain ⟨d₁, hd₁, hU⟩ := h.dir
    obtain rfl : d₁ = d := Option.some.inj (hd₁.symm.trans hd)
    exact ⟨hl, d', hcur, fun v hv => (protected_U hp v).trans (hU v hv)⟩
  · exact h.of_pgdir hl (hpg q hq hqn)

omit [Layout] in
/-- The old processes after a `fork` of `p`. -/
theorem born_old {np : ProcPtr} {f n : ℕ} {s' : Phys Kmem} {d' c : Pgdir} (h : Rights d₀ k q)
    (hnp : (k.proc np).state = .UNUSED) (hd : k.pgdir p = some d) (hp : Protected d d' n) :
    Rights d₀ (k.born p np f s' d'.flush c) q := by
  have hl : (k.born p np f s' d'.flush c).live q := Kernel.live_born.mpr (Or.inr h.live)
  have hqn : q ≠ np := fun e => h.live (by rw [e]; exact hnp)
  by_cases hq : q = p
  · subst hq
    obtain ⟨d₁, hd₁, hU⟩ := h.dir
    obtain rfl : d₁ = d := Option.some.inj (hd₁.symm.trans hd)
    exact ⟨hl, d'.flush, by simp [Kernel.born, hqn],
      fun v hv => (protected_U hp v).trans (hU v hv)⟩
  · exact h.of_pgdir hl (by simp [Kernel.born, hq, hqn])

/-- The child after a `fork` of `p`: it has the pages of the parent, which has none beyond its
size. -/
theorem born_new {np : ProcPtr} {f : ℕ} {s' : Phys Kmem} {d' c : Pgdir} (h : Rights d₀ k p)
    (hok : Ok k) (hd : k.pgdir p = some d) (hp : Protected d d' (pages (k.proc p).sz))
    (hc : Child d' c (pages (k.proc p).sz)) : Rights d₀ (k.born p np f s' d'.flush c) np := by
  obtain ⟨d₁, hd₁, hU⟩ := h.dir
  obtain rfl : d₁ = d := Option.some.inj (hd₁.symm.trans hd)
  refine ⟨Kernel.live_born.mpr (Or.inl rfl), c, by simp [Kernel.born], fun v hv => ?_⟩
  rw [← hU v hv]
  by_cases hn : v < pages (k.proc p).sz
  · rw [hc.low v hn, protected_U hp]
  · have hP := hok.tight p _ h.live hd v (Nat.le_of_not_lt hn) hv
    rcases hok.pages p _ h.live hd v hv with hz | ⟨hP', -⟩
    · rw [hc.high v (Nat.le_of_not_lt hn) hv, hz]
    · rw [hP] at hP'
      cases hP'

/-- A `fork` of `p`. -/
theorem fork (h : Rights d₀ k q) (hl : k.live p) (hd : k.pgdir p = some d) {res : Result}
    (he : ForkEffect (CopyEffect d (k.proc p).sz) true 0 k p res k') : Rights d₀ k' q := by
  have hun : ∀ {np}, k.proc.first (·.state = .UNUSED) = some np → (k.proc np).state = .UNUSED :=
    fun hnp => by simpa using Table.first_some hnp
  cases he with
  | full => exact h
  | noStack hnp => exact h.unborn (hun hnp) hd (.refl d) hd fun _ _ _ => rfl
  | @noCopy np f s₁ s₂ s' d' hnp hf hm₁ ho₁ hfree hc ha hk ho =>
    have hne : p ≠ np := fun e => hl (by rw [e]; exact hun hnp)
    cases hc with
    | failed hn hp hk' ho' hlen =>
      refine h.unborn (hun hnp) hd hp ?_ fun j hjp hjn => ?_
      · rw [Function.update_of_ne hne, Function.update_self]
      · rw [Function.update_of_ne hjn, Function.update_of_ne hjp]
  | born hnp hf hm₁ ho₁ hfree hc ha =>
    cases hc with
    | copied hp => exact h.born_old (hun hnp) hd hp

/-- An access of `p` that the handler gets right. -/
theorem access (h : Rights d₀ k q) (hok : Ok k) (hl : k.live p) {va : ℕ} {w : Option UInt8}
    {res : Result} (hc : ¬Rebuilt k p va) (he : AccessEffect p va w k res k') :
    Rights d₀ k' q := by
  have hsame : ∀ {k₁ k₂ : Kernel Kmem}, Rights d₀ k₁ q → SameDirs k₁ k₂ → Rights d₀ k₂ q :=
    fun h₁ hs => h₁.of_pgdir (mt (hs.unused q).mp h₁.live) (by rw [hs.pgdir])
  cases he with
  | direct he => exact hsame h (he.same hl)
  | @fault v _ d d' s' _ hv hup hd hP hC hno hf ha he =>
    refine hsame ?_ (he.same ((Kernel.live_setMem p).mpr hl))
    by_cases hq : q = p
    swap
    · exact h.of_pgdir ((Kernel.live_setMem q).mpr h.live) (Kernel.setMem_of_ne hq).2
    subst hq
    obtain ⟨d₁, hd₁, hU⟩ := h.dir
    obtain rfl : d₁ = d := Option.some.inj (hd₁.symm.trans hd)
    refine ⟨(Kernel.live_setMem q).mpr hl, d'.flush, Kernel.setMem_self.2, fun w hw => ?_⟩
    rw [← hU w hw, Pgdir.ent_flush]
    cases hf with
    | sole h1 hr =>
      rw [hr.ent]
      split
      · rename_i hwv
        rw [hwv]
      · rfl
    | copied h2 hmem hr =>
      rw [hr.ent]
      split
      · -- a copied page is the user's, and was so before
        rename_i hwv
        rw [hwv]
        by_contra hU'
        refine hc ⟨d₁, hd, by rwa [hv], by rwa [hv], by rwa [hv], ?_, ?_⟩
        · rw [hv]
          exact Bool.eq_false_iff.mpr fun e => hU' e.symm
        · rw [hv, hok.inv.acct.count, Kernel.total_eq_rest hl hd, ← add_assoc]
          exact_mod_cast h2
      · rfl

end Rights

/-! ## What a run keeps -/

variable {P : ProcPtr} {k₀ k : Kernel Kmem} {d₀ : Pgdir} {T : Finset ProcPtr}

/-- The invariant of a run without faults the handler gets wrong. -/
theorem Line.rights (h : Line (fun k q va => ¬Rebuilt k q va) P k₀ T k) (hok : Ok k₀)
    (hl : k₀.live P) (hd : k₀.pgdir P = some d₀) : Ok k ∧ ∀ q ∈ T, Rights d₀ k q := by
  induction h with
  | start =>
    refine ⟨hok, fun q hq => ?_⟩
    rw [Finset.mem_singleton.mp hq]
    exact ⟨hl, d₀, hd, fun _ _ => rfl⟩
  | sched h hs ih =>
    obtain ⟨hk, hr⟩ := ih
    have he := hk.effect hs
    refine ⟨he.ok hk, fun q hq => (hr q hq).of_untouched ?_⟩
    cases he with
    | common he =>
      cases he with
      | disabled => exact .refl _ _
      | sched hp hd => exact (untouched_sched hp hd q).1
  | yield h hs ih =>
    obtain ⟨hk, hr⟩ := ih
    have he := hk.effect hs
    refine ⟨he.ok hk, fun q hq => (hr q hq).of_untouched ?_⟩
    cases he with
    | common he =>
      cases he with
      | disabled => exact .refl _ _
      | yield hp =>
        exact ⟨mt (Table.set_unused (live_of_running hp) (by simp) q).mp, set_pid rfl q, rfl, rfl⟩
  | @forked T k k' q np pid h hq hnp hs ih =>
    obtain ⟨hk, hr⟩ := ih
    have he := hk.effect hs
    refine ⟨he.ok hk, fun j hj => ?_⟩
    cases he with
    | common he => cases he
    | @fork _ d _ _ hp hd he =>
      rcases Finset.mem_insert.mp hj with rfl | hj
      · generalize hres : Result.ret (pid : ℤ) = res at he
        cases he with
        | born hnp' hf hm₁ ho₁ hfree hc ha =>
          obtain rfl := Option.some.inj (hnp'.symm.trans hnp)
          cases hc with
          | copied hpr hP hc => exact (hr q hq).born_new hk hd hpr hc
        | _ =>
          have := Result.ret.inj hres
          omega
      · exact (hr j hj).fork (live_of_running hp) hd he
  | @forkFailed T k k' q h hq hs ih =>
    obtain ⟨hk, hr⟩ := ih
    have he := hk.effect hs
    refine ⟨he.ok hk, fun j hj => ?_⟩
    cases he with
    | common he => cases he
    | fork hp hd he => exact (hr j hj).fork (live_of_running hp) hd he
  | read h hq hc hs ih =>
    obtain ⟨hk, hr⟩ := ih
    have he := hk.effect hs
    refine ⟨he.ok hk, fun j hj => ?_⟩
    cases he with
    | common he =>
      cases he with
      | disabled => exact hr j hj
    | load hp he => exact (hr j hj).access hk (live_of_running hp) hc he
  | write h hq hc hs ih =>
    obtain ⟨hk, hr⟩ := ih
    have he := hk.effect hs
    refine ⟨he.ok hk, fun j hj => ?_⟩
    cases he with
    | common he =>
      cases he with
      | disabled => exact hr j hj
    | store hp he => exact (hr j hj).access hk (live_of_running hp) hc he

/-- An access to a present page that is not the user's kills, where the handler gets it right. -/
theorem access_kills (hok : Ok k) {q : ProcPtr} {d : Pgdir} {va v : ℕ} {w : Option UInt8}
    (hl : k.live q) (hd : k.pgdir q = some d) (hva : va < 2 ^ 32) (hv : va / 4096 = v)
    (hup : v < UPAGES) (hP : (d.ent v).P = true) (hU : (d.ent v).U = false)
    (hc : ¬Rebuilt k q va) :
    wp (access tree q va w accessFuel 0) (fun res _ => res = .killed)
      (fun e _ => e = .initExiting ∧ k.initproc = some q) k := by
  obtain ⟨-, f, -, hf, -, -⟩ := hok.inv.live q hl
  -- the end of the access, once the handler kills
  have hend : ∀ {k₁ : Kernel Kmem} {d₁ : Pgdir} {n fuel : ℕ}, k₁.initproc = k.initproc →
      k₁.pgdir q = some d₁ → (d₁.ent v).U = false → kills d₁ va →
      wp (access tree q va w (fuel + 1) n) (fun res _ => res = .killed)
        (fun e _ => e = .initExiting ∧ k.initproc = some q) k₁ := by
    intro k₁ d₁ n fuel hi hd₁ hU₁ hk₁
    have hno : ∀ write, ¬∃ e, d₁.allows va write e := fun write => by
      rw [Pgdir.exists_allows hva hv, Pte.permits, hU₁]
      simp
    refine wp_mono (@access_end_spec _ kills _ _ _ _ _ _ _ _ hd₁ fun _ => ⟨hk₁, ?_⟩) (fun res k' he => ?_)
      fun e k' he => ⟨he.1, hi ▸ he.2.1⟩
    · rw [kills] at hk₁
      simp only [tree, pgflt, hk₁, Bool.false_eq_true, if_false]
    · cases he with
      | load _ hd₂ he =>
        obtain rfl := Option.some.inj (hd₂.symm.trans hd₁)
        exact absurd ⟨_, he⟩ (hno false)
      | store _ hd₂ he =>
        obtain rfl := Option.some.inj (hd₂.symm.trans hd₁)
        exact absurd ⟨_, he⟩ (hno true)
      | killed => rfl
  by_cases hk : kills d va
  · exact hend rfl hd hU hk
  have hhas : d.has (v / 1024) := Pgdir.has_of_ent_ne fun e => by
    rw [e] at hP
    cases hP
  have hfind : d.find va = some (d.ent v) := by
    rw [Pgdir.find_of_has hva (by rwa [hv]), hv]
  have hC : (d.ent v).CoW = true := by
    rw [kills, check_eq hva hv hfind] at hk
    simpa using hk
  have hone : ¬1 < refs (0 + k.rest q + d.holds) (d.ent v).ppn := fun h2 => by
    subst hv
    refine hc ⟨d, hd, hup, hP, hC, hU, ?_⟩
    rw [hok.inv.acct.count, Kernel.total_eq_rest hl hd, ← add_assoc]
    exact_mod_cast h2
  have hno : ¬∃ e, d.allows va w.isSome e := by
    rw [Pgdir.exists_allows hva hv, Pte.permits, hU]
    simp
  refine access_fault_spec hd (by simp [hf]) hno ?_
  refine wp_mono (pgflt_spec hok hl hd hva hk) (fun r s' hs => ?_) fun e s' he => ?_
  · obtain ⟨d', v', rfl, hv', -, -, -, hfault, -⟩ := hs
    obtain rfl : v = v' := hv.symm.trans hv'
    refine ⟨d', rfl, ?_⟩
    cases hfault with
    | copied h2 => exact absurd h2 hone
    | sole h1 hr =>
      have hent : d'.flush.ent v = { d.ent v with CoW := false, W := true } := by
        rw [Pgdir.ent_flush, hr.ent, if_pos rfl]
      have hhas' : d'.flush.has (v / 1024) := Pgdir.has_of_ent_ne fun e => by
        rw [e] at hent
        exact Bool.false_ne_true (congrArg (fun e : Pte => e.W) hent)
      have hfind' : d'.flush.find va = some (d'.flush.ent v) := by
        rw [Pgdir.find_of_has hva (by rwa [hv]), hv]
      refine hend rfl Kernel.setMem_self.2 (by rw [hent]; exact hU) ?_
      rw [kills, check_eq hva hv hfind', hent]
  · obtain ⟨-, ⟨-, -, h2⟩ | hnone⟩ := he
    · rw [hv] at h2
      exact absurd h2 hone
    · rw [hfind] at hnone
      cases hnone

/-- In a run of forks and faults of `P` and its descendants without a fault that the handler gets
wrong, `PTE_U` of every page is in all of them what it was in `P` at the start; and such an access
to a present page that is not the user's kills the process that makes it. -/
theorem user_bit_kept {C : Kernel Kmem → Op → Result → Prop} (h₀ : Reachable tree C k₀)
    (hl : k₀.live P) (hd₀ : k₀.pgdir P = some d₀)
    (h : Line (fun k q va => ¬Rebuilt k q va) P k₀ T k) :
    ∀ q ∈ T, ∃ d, k.pgdir q = some d ∧ (∀ v < UPAGES, (d.ent v).U = (d₀.ent v).U) ∧
      ∀ va, (k.proc q).state = .RUNNING → uint va / 4096 < UPAGES →
        (d.ent (uint va / 4096)).P = true → (d₀.ent (uint va / 4096)).U = false →
        ¬Rebuilt k q (uint va) → ∀ op, op = .load q va ∨ (∃ b, op = .store q va b) →
        wp (step tree op) (fun res _ => res = .killed)
          (fun e _ => e = .initExiting ∧ k.initproc = some q) k := by
  obtain ⟨hok, hr⟩ := h.rights (ok_of_reachable h₀) hl hd₀
  intro q hq
  obtain ⟨d, hd, hU⟩ := (hr q hq).dir
  refine ⟨d, hd, hU, fun va hrun hup hP hU₀ hc op hop => ?_⟩
  have hacc : ∀ w, wp (access tree q (uint va) w accessFuel 0) (fun res _ => res = .killed)
      (fun e _ => e = .initExiting ∧ k.initproc = some q) k := fun w =>
    access_kills hok (hr q hq).live hd (Nat.mod_lt _ (by decide)) rfl hup hP
      ((hU _ hup).trans hU₀) hc
  rcases hop with rfl | ⟨b, rfl⟩
  · exact (wp_whenRunning_of hrun).mpr (hacc none)
  · exact (wp_whenRunning_of hrun).mpr (hacc (some b))

end Guard

/-- A `fork` of `init`. -/
theorem user_bit_kept_init : ∃ (_ : Layout) (k₀ k : Kernel Kmem) (d₀ : Pgdir) (np : ProcPtr),
    Reachable tree anyOp k₀ ∧ k₀.pgdir initSlot = some d₀ ∧
      Line (fun k q va => ¬Rebuilt k q va) initSlot k₀ {np, initSlot} k ∧
      ∃ d, k.pgdir np = some d ∧ ∀ v < UPAGES, (d.ent v).U = (d₀.ent v).U := by
  let L := sampleLayout
  obtain ⟨k, d, hr, hk, ht, hn, -⟩ := exists_single (C := anyOp) fun _ _ _ => trivial
  have hnp : k.proc.first (·.state = .UNUSED) = some ⟨1, by decide⟩ := by
    rw [ht]
    rfl
  obtain ⟨f, s', d', c, hs, -⟩ := Single.fork (n := 38461) hk hnp (by rw [hn]; decide)
  have hline := Line.forked (C := fun k q va => ¬Rebuilt k q va) .start
    (Finset.mem_singleton_self initSlot) hnp hs
  obtain ⟨c', hc', hU, -⟩ := user_bit_kept hr (live_of_running hk.running) hk.dir hline _
    (Finset.mem_insert_self _ _)
  exact ⟨L, k, _, d, _, hr, hk.dir, hline, c', hc', hU⟩

/-- `init` executes a program and forks; the guard page below its stack is then shared. It writes
to the guard page, and the page is the user's. -/
theorem guard_page_given_away : ∃ (_ : Layout) (k₀ k : Kernel Kmem) (T : Finset ProcPtr)
    (d₀ d : Pgdir), Reachable tree anyOp k₀ ∧ k₀.live initSlot ∧ k₀.pgdir initSlot = some d₀ ∧
      Line (fun _ _ _ => True) initSlot k₀ T k ∧ initSlot ∈ T ∧ k.pgdir initSlot = some d ∧
      (d₀.ent 0).P = true ∧ (d₀.ent 0).U = false ∧ (d.ent 0).U = true := by
  let L := sampleLayout
  obtain ⟨k₁, d₁, hr₁, hk₁, ht₁, hn₁, -⟩ := exists_single (C := anyOp) fun _ _ _ => trivial
  obtain ⟨-, f, -, hf, -, -⟩ := hk₁.ok.inv.live initSlot (live_of_running hk₁.running)
  have hfree₁ := hk₁.free
  obtain ⟨res, k₂, hs₂, rfl, s₂, d₂, rfl, hP₀, hU₀, hP₁, hlen₂⟩ := wp_ok (exec_bare hk₁.dir
    (by simp [hf]) (hk₁.ok.inv.acct_rest (live_of_running hk₁.running) hk₁.dir) (by omega))
  set k₂ : Kernel Kmem := { k₁ with
    phys := s₂
    proc := k₁.proc.set initSlot fun q => { q with sz := 8192 }
    pgdir := Function.update k₁.pgdir initSlot (some d₂.flush) } with hk₂
  have hstep₂ : step tree (.exec initSlot (some bare) []) k₁ = .ok (.ret 0) k₂ :=
    eq_ok_of_wp ((wp_whenRunning_of hk₁.running).mpr (wp_of_eq hs₂ ⟨rfl, rfl⟩))
  have hr₂ := Reachable.step hr₁ hstep₂ trivial
  have hok₂ := ok_of_reachable hr₂
  have ht₂ : k₂.proc = (fun q =>
      if q = initSlot then { sz := 8192, state := .RUNNING, pid := 1 } else {}) := by
    funext q
    rw [hk₂]
    dsimp only
    rw [Table.set_apply, ht₁]
    split
    · rfl
    · rename_i hq
      exact if_neg hq
  have hrun₂ : (k₂.proc initSlot).state = .RUNNING := by
    rw [ht₂]
    rfl
  have hsz₂ : pages (k₂.proc initSlot).sz = 2 := by
    rw [ht₂]
    rfl
  have hd₂ : k₂.pgdir initSlot = some d₂.flush :=
    Function.update_self initSlot (some d₂.flush) k₁.pgdir
  have hnp : k₂.proc.first (·.state = .UNUSED) = some ⟨1, by decide⟩ := by
    rw [ht₂]
    rfl
  have hfree₂ : 30000 ≤ k₂.phys.free.length := by
    rw [show k₂.phys.free = s₂.free from rfl]
    omega
  obtain ⟨g, s₃, d₃, c, hs₃, hp₃, hc₃, hlen₃⟩ := step_fork hok₂ hrun₂ hd₂ hnp
    (by rw [show k₂.nextpid = 2 from hn₁]; decide) (fun w hw => by
      rw [hsz₂] at hw
      obtain rfl | rfl : w = 0 ∨ w = 1 := by omega
      · exact hP₀
      · exact hP₁) (by omega)
  rw [hsz₂] at hp₃ hc₃
  set k₃ := k₂.born initSlot ⟨1, by decide⟩ g s₃ d₃.flush c with hk₃
  have hent₃ : d₃.ent 0 = protect (d₂.ent 0) := by rw [hp₃.ent, if_pos Nat.two_pos, Pgdir.ent_flush]
  have hok₃ := (hok₂.effect hs₃).ok hok₂
  have hrun₃ : (k₃.proc initSlot).state = .RUNNING := by
    rw [hk₃, Kernel.born, ht₂]
    rfl
  have hone : initSlot ≠ (⟨1, by decide⟩ : ProcPtr) := by decide
  have hd₃ : k₃.pgdir initSlot = some d₃.flush := by
    simp [hk₃, Kernel.born, Function.update_of_ne hone]
  have hunused : (k₂.proc ⟨1, by decide⟩).state = .UNUSED := by simpa using Table.first_some hnp
  have hP₃ : (d₃.ent 0).P = true := by rw [hent₃, protect_P, hP₀]
  have hfree₃ : k₃.phys.free ≠ [] := fun e => by
    rw [show k₃.phys.free = s₃.free from rfl] at e
    rw [e, List.length_nil] at hlen₃
    omega
  obtain ⟨s₄, d₄, hs₄, -, hU₄⟩ := @step_store_shared _ _ _ hok₃ _ 0 _ 0 hrun₃ hd₃ rfl
    (by decide) hP₃ (by rw [uint]; exact (congrArg (fun e : Pte => e.W) hent₃).trans (protect_W _))
    (hc₃.shared_born (live_of_running hrun₂) hunused Nat.two_pos (by decide) hP₃) hfree₃
  refine ⟨L, k₂, _, _, d₂.flush, d₄, hr₂, live_of_running hrun₂, hd₂,
    (Line.start.forked (Finset.mem_singleton_self _) hnp hs₃).write
      (Finset.mem_insert_of_mem (Finset.mem_singleton_self _)) trivial hs₄,
    Finset.mem_insert_of_mem (Finset.mem_singleton_self _), Kernel.setMem_self.2, hP₀, hU₀, hU₄⟩

end OsLabs.Cow
