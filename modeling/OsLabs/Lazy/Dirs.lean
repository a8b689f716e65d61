import OsLabs.Lazy.System

/-!
# What the operations of the lazy kernel do to address spaces

`Effect.dir`: the directory of a process after an operation is the one that a common operation
leaves, or has been marked by `mmap`, or mended by the page-fault handler, or is that of a new
child. The invariants of the address spaces in later modules are cases over this list.

* `dirs_of_reachable`: what every `DirStep` keeps holds of all address spaces of a run;
* `numpp_spec`: what the counter of physical pages returns where all page tables are there.
-/

namespace OsLabs.Lazy

open Xv6 StateError Ledger
open Base (Kmem)

/-- The process and the address of a user access. -/
def access? : Op → Option (ProcPtr × ℕ)
  | .load p va => some (p, uint va)
  | .store p va _ => some (p, uint va)
  | _ => none

theorem access?_lt {op : Op} {p : ProcPtr} {va : ℕ} (h : access? op = some (p, va)) :
    va < 2 ^ 32 := by
  have huint : ∀ a, uint a < 2 ^ 32 := fun a => Nat.mod_lt _ (by decide)
  cases op with
  | load q a =>
    cases h
    exact huint a
  | store q a b =>
    cases h
    exact huint a
  | _ => cases h

section Dirs

variable [Layout] {x : Ledger ℕ} {k k' : Kernel Kmem} {op : Op} {res : Result} {p q : ProcPtr}
variable {d' : Pgdir}

/-- How the directory of `q` came to be `d'`. -/
inductive DirStep (x : Ledger ℕ) (k : Kernel Kmem) (op : Op) (res : Result) (k' : Kernel Kmem)
    (q : ProcPtr) (d' : Pgdir) : Prop
  | common (h : DirChange x k op res k' q d')
  /-- `mmap` of `m` pages has marked it. -/
  | marked {d : Pgdir} {n : ℤ} {m : ℕ} (hop : op = .mmap q n)
      (hp : (k.proc q).state = .RUNNING) (hd : k.pgdir q = some d) (hn : argint n = m * PGSIZE)
      (hsz : (k'.proc q).sz = (k.proc q).sz + m * PGSIZE)
      (hm : Marked d d' ((k.proc q).sz / PGSIZE) ((k.proc q).sz / PGSIZE + m))
      (hlt : (k'.proc q).sz < KERNLINK + PGSIZE)
  /-- `mmap` has moved the end of the process past the end of the address space. -/
  | wrapped {n : ℤ} {m : ℕ} (hop : op = .mmap q n) (hp : (k.proc q).state = .RUNNING)
      (hd : k.pgdir q = some d') (hn : argint n = m * PGSIZE)
      (hsz : (k.proc q).sz + m * PGSIZE = 2 ^ 32 + (k'.proc q).sz)
  /-- A lazy page has been touched. -/
  | fault {d d₁ : Pgdir} {va v : ℕ} {s' : Phys Kmem} (hop : access? op = some (q, va))
      (hp : (k.proc q).state = .RUNNING) (hd : k.pgdir q = some d) (hv : va / 4096 = v)
      (hL : (d.ent v).LAZY = true) (hf : FaultEffect d v (x + k.rest q) k.phys d₁ s')
      (hd' : d' = d₁.flush) (hsz : (k'.proc q).sz = (k.proc q).sz) (hs : s'.oom = k'.phys.oom)
  /-- It is the child of `p`. -/
  | child {p : ProcPtr} {d c₀ : Pgdir} {m : ℕ → Page} {s' : Phys Kmem} (hop : op = .fork p)
      (hp : (k.proc p).state = .RUNNING) (hd : k.pgdir p = some d)
      (hun : (k.proc q).state = .UNUSED) (hsz : (k'.proc q).sz = (k.proc p).sz)
      (hz : ∀ w < UPAGES, c₀.ent w = Pte.zero) (hker : c₀.KernelOk)
      (hcov : ∀ w < pages (k.proc p).sz, Covered (d.ent w))
      (hc : Child d m c₀ (pages (k.proc p).sz) s' d')

/-- A slot with its old directory. -/
theorem DirStep.same (hl : k.live q) (hd : k.pgdir q = some d')
    (hsz : (k'.proc q).sz = (k.proc q).sz)
    (hr : (k'.proc q).state = .RUNNING → (k.proc q).state = .RUNNING) :
    DirStep x k op res k' q d' :=
  .common (.same hl hd hsz (Or.inl ⟨rfl, hr⟩))

theorem ForkEffect.dir {d : Pgdir} (hp : (k.proc p).state = .RUNNING) (hd : k.pgdir p = some d)
    (he : ForkEffect (CopyEffect d (k.proc p).sz) false x k p res k') (hl : k'.live q)
    (hd' : k'.pgdir q = some d') : DirStep x k (.fork p) res k' q d' := by
  have hlp := live_of_running hp
  -- a fork that has failed and left the directory of the parent as it was
  have hun : ∀ {np : ProcPtr} {s : Phys Kmem} {pgdir : ProcPtr → Option Pgdir},
      (k.proc np).state = .UNUSED → pgdir p = some d →
      (∀ j, j ≠ p → j ≠ np → pgdir j = k.pgdir j) → (k.unborn np s pgdir).live q →
      pgdir q = some d' → DirStep x k (.fork p) res (k.unborn np s pgdir) q d' := by
    intro np s pgdir hnp hcur hpg hl hd'
    have hlq := (Kernel.live_unborn hnp).mp hl
    have hne : q ≠ np := fun e => hlq (by rw [e]; exact hnp)
    have hproc : (k.unborn np s pgdir).proc q = k.proc q := by
      simp [Kernel.unborn, Table.set_ne, hne]
    have hdq : k.pgdir q = some d' := by
      by_cases hqp : q = p
      · rw [hqp] at hd' ⊢
        rw [hd, ← hcur, hd']
      · rw [← hpg q hqp hne, hd']
    exact .same hlq hdq (by rw [hproc]) fun h => by rwa [hproc] at h
  cases he with
  | full => exact .same hl hd' rfl id
  | @noStack np hnp hfree =>
    exact hun (by simpa using Table.first_some hnp) hd (fun _ _ _ => rfl) hl hd'
  | @noCopy np f s₁ s₂ s' d₁ hnp hf hm₁ ho₁ hfree hc ha hk ho =>
    have hnp' : (k.proc np).state = .UNUSED := by simpa using Table.first_some hnp
    have hne : p ≠ np := fun e => hlp (by rw [e]; exact hnp')
    cases hc
    refine hun hnp' ?_ (fun j hjp hjn => ?_) hl hd'
    · rw [Function.update_of_ne hne, Function.update_self]
    · rw [Function.update_of_ne hjn, Function.update_of_ne hjp]
  | @born np f s₁ s' d₁ c hnp hf hm₁ ho₁ hfree hc ha =>
    have hnp' : (k.proc np).state = .UNUSED := by simpa using Table.first_some hnp
    have hne : p ≠ np := fun e => hlp (by rw [e]; exact hnp')
    cases hc with
    | copied hz hker hcov hc hk ho hlen =>
      by_cases hq : q = np
      · subst hq
        obtain rfl : c = d' := by simpa [Kernel.born] using hd'
        exact .child rfl hp hd hnp' (by simp [Kernel.born]) hz hker hcov hc
      · have hproc : (k.born p np f s' d c).proc q = k.proc q := by
          simp [Kernel.born, Table.set_ne, hq]
        have hdq : k.pgdir q = some d' := by
          by_cases hqp : q = p
          · subst hqp
            rw [hd]
            simpa [Kernel.born, hq] using hd'
          · simpa [Kernel.born, hq, hqp] using hd'
        exact .same ((Kernel.live_born.mp hl).resolve_left hq) hdq (by simp [hproc])
          fun h => by simpa [hproc] using h

theorem MmapEffect.dir {n : ℤ} {d : Pgdir} (hp : (k.proc p).state = .RUNNING)
    (hd : k.pgdir p = some d) (he : MmapEffect x k p d (argint n) res k') (hl : k'.live q)
    (hd' : k'.pgdir q = some d') : DirStep x k (.mmap p n) res k' q d' := by
  -- the other slots
  have hother : ∀ {s : Phys Kmem} {new : ℕ} {d₁ : Pgdir}, q ≠ p →
      (k.setMem p s new d₁).live q → (k.setMem p s new d₁).pgdir q = some d' →
      DirStep x k (.mmap p n) res (k.setMem p s new d₁) q d' := by
    intro s new d₁ hq hl hd'
    obtain ⟨h₁, h₂⟩ := @Kernel.setMem_of_ne _ k p q s new d₁ hq
    exact .same ((Kernel.live_setMem q).mp hl) (h₂.symm.trans hd') (by rw [h₁])
      fun h => by rwa [h₁] at h
  cases he with
  | refused => exact .same hl hd' rfl id
  | @marked m s' d₁ hn hlt hm =>
    by_cases hq : q = p
    · subst hq
      obtain rfl : d₁ = d' := Option.some.inj (Kernel.setMem_self.2.symm.trans hd')
      refine .marked rfl hp hd hn Kernel.setMem_self.1 hm.marked ?_
      rw [Kernel.setMem_self.1]
      exact hlt
    · exact hother hq hl hd'
  | @wrapped m new hn hnew =>
    by_cases hq : q = p
    · subst hq
      obtain rfl : d = d' := Option.some.inj (Kernel.setMem_self.2.symm.trans hd')
      refine .wrapped rfl hp hd hn ?_
      rw [Kernel.setMem_self.1]
      exact hnew
    · exact hother hq hl hd'

theorem AccessEffect.dir {va : ℕ} {w : Option UInt8} (hop : access? op = some (p, va))
    (hp : (k.proc p).state = .RUNNING) (he : AccessEffect x p va w k res k') (hl : k'.live q)
    (hd' : k'.pgdir q = some d') : DirStep x k op res k' q d' := by
  have hlp := live_of_running hp
  cases he with
  | direct he =>
    have hs := he.same hlp
    exact .same (hs.same.live q hl) (by rw [← hs.pgdir]; exact hd') (hs.sz q) (hs.running q)
  | @fault v _ d d₁ s' _ hv hd hL hf ha he =>
    have hs := he.same ((Kernel.live_setMem p).mpr hlp)
    have hoom : s'.oom = k'.phys.oom := by
      cases he with
      | load => rfl
      | store => rfl
      | killed => rfl
    have hdq : (k.setMem p s' (k.proc p).sz d₁.flush).pgdir q = some d' := by
      rw [← hs.pgdir]
      exact hd'
    have hlq := hs.same.live q hl
    by_cases hq : q = p
    · subst hq
      obtain rfl : d₁.flush = d' := Option.some.inj (Kernel.setMem_self.2.symm.trans hdq)
      exact .fault hop hp hd hv hL hf rfl ((hs.sz q).trans Kernel.setMem_self.1) hoom
    · obtain ⟨h₁, h₂⟩ := @Kernel.setMem_of_ne _ k p q s' (k.proc p).sz d₁.flush hq
      refine .same ((Kernel.live_setMem q).mp hlq) (h₂.symm.trans hdq) ?_ fun h => ?_
      · rw [hs.sz, h₁]
      · have := hs.running q h
        rwa [h₁] at this

/-- The directories after an operation. -/
theorem Effect.dir (he : Effect x k op res k') (hl : k'.live q) (hd' : k'.pgdir q = some d') :
    DirStep x k op res k' q d' := by
  cases he with
  | common hc => exact .common (hc.dir hl hd')
  | fork hp hd hf => exact ForkEffect.dir hp hd hf hl hd'
  | mmap hp hd hm => exact hm.dir hp hd hl hd'
  | load hp ha => exact ha.dir rfl hp hl hd'
  | store hp ha => exact ha.dir rfl hp hl hd'

/-- An access that was possible is one of a running process. -/
theorem Effect.access {va : ℕ} (he : Effect x k op res k') (hop : access? op = some (q, va))
    (hr : res ≠ .disabled) :
    (k.proc q).state = .RUNNING ∧ ∃ w, AccessEffect x q va w k res k' := by
  cases he with
  | common hc =>
    cases hc <;> first | exact absurd rfl hr | cases hop
  | fork => cases hop
  | mmap => cases hop
  | load hp ha =>
    cases hop
    exact ⟨hp, none, ha⟩
  | store hp ha =>
    cases hop
    exact ⟨hp, _, ha⟩

/-- An access of a running process is possible. -/
theorem Effect.ne_disabled {va : ℕ} (he : Effect x k op res k') (hop : access? op = some (q, va))
    (hp : (k.proc q).state = .RUNNING) : ∃ w, AccessEffect x q va w k res k' := by
  cases he with
  | common hc =>
    cases hc with
    | disabled hno =>
      cases op with
      | load =>
        cases hop
        exact absurd hp hno
      | store =>
        cases hop
        exact absurd hp hno
      | _ => cases hop
    | _ => cases hop
  | fork => cases hop
  | mmap => cases hop
  | load _ ha =>
    cases hop
    exact ⟨none, ha⟩
  | store _ ha =>
    cases hop
    exact ⟨_, ha⟩

/-- An operation ends no process but its own. -/
theorem Effect.active (he : Effect x k op res k') (h : k.active q) (hx : op ≠ .exit q)
    (ha : ∀ va, access? op ≠ some (q, va)) : k'.active q := by
  have hnew : ∀ {np : ProcPtr}, k.proc.first (·.state = .UNUSED) = some np → q ≠ np :=
    fun hnp e => h.1 (by
      rw [e]
      simpa using Table.first_some hnp)
  have hun : ∀ {np : ProcPtr} {s : Phys Kmem} {pgdir : ProcPtr → Option Pgdir}, q ≠ np →
      (k.unborn np s pgdir).active q := fun hne => by
    rw [Kernel.active, Kernel.unborn]
    simpa [Table.set_ne, hne] using (show _ ∧ _ from h)
  have hacc : ∀ {p : ProcPtr} {va : ℕ} {w : Option UInt8}, q ≠ p →
      AccessEffect x p va w k res k' → k'.active q := by
    intro p va w hq he
    cases he with
    | direct he => exact he.active hq h
    | fault _ _ _ _ _ he => exact he.active hq (Kernel.active_setMem.mpr h)
  cases he with
  | common hc => exact hc.active h hx
  | fork hp hd hf =>
    cases hf with
    | full => exact h
    | noStack hnp => exact hun (hnew hnp)
    | noCopy hnp => exact hun (hnew hnp)
    | born hnp =>
      rw [Kernel.active, Kernel.born]
      simpa [Table.set_ne, hnew hnp] using (show _ ∧ _ from h)
  | mmap hp hd hm =>
    cases hm with
    | refused => exact h
    | marked => exact Kernel.active_setMem.mpr h
    | wrapped => exact Kernel.active_setMem.mpr h
  | @load p va _ _ hp he => exact hacc (fun e => ha (uint va) (by rw [e]; rfl)) he
  | @store p va b _ _ hp he => exact hacc (fun e => ha (uint va) (by rw [e]; rfl)) he

/-- The process that a `fork` makes. -/
theorem Effect.active_child (he : Effect x k (.fork p) res k') (hnew : ¬k.live q)
    (hl : k'.live q) : k'.active q := by
  cases he with
  | common hc =>
    cases hc with
    | disabled => exact absurd hl hnew
  | fork hp hd hf =>
    cases hf with
    | full => exact absurd hl hnew
    | noStack hnp =>
      exact absurd ((Kernel.live_unborn (by simpa using Table.first_some hnp)).mp hl) hnew
    | noCopy hnp =>
      exact absurd ((Kernel.live_unborn (by simpa using Table.first_some hnp)).mp hl) hnew
    | born hnp =>
      obtain rfl := (Kernel.live_born.mp hl).resolve_right hnew
      rw [Kernel.active, Kernel.born]
      simp

/-- The directory of a process that the operation does not concern. -/
theorem DirStep.kept (hs : DirStep x k op res k' q d') (hl : k.live q)
    (h₁ : ∀ n, op ≠ .sbrk q n) (h₂ : ∀ n, op ≠ .mmap q n)
    (h₃ : ∀ ip argv, op ≠ .exec q ip argv) (h₄ : ∀ va, access? op ≠ some (q, va)) :
    (k'.proc q).sz = (k.proc q).sz ∧ ∃ d, k.pgdir q = some d ∧ (d' = d ∨ d' = d.flush) := by
  cases hs with
  | common hs =>
    cases hs with
    | same hl hd hsz hs => exact ⟨hsz, _, hd, hs.imp_left And.left⟩
    | sbrk hop => exact absurd hop (h₁ _)
    | image hop => exact absurd hop (h₃ _ _)
  | marked hop => exact absurd hop (h₂ _)
  | wrapped hop => exact absurd hop (h₂ _)
  | fault hop => exact absurd hop (h₄ _)
  | child hop hp hd hun => exact absurd hun hl

/-- The address spaces of all processes of `k` are as `P` says. -/
def AllDirs (P : ℕ → Pgdir → Prop) (k : Kernel Kmem) : Prop :=
  ∀ q d, k.live q → k.pgdir q = some d → P (k.proc q).sz d

/-- What the first address space meets and every `DirStep` keeps holds in all reachable states. -/
theorem dirs_of_reachable {C : Kernel Kmem → Op → Result → Prop} {P : ℕ → Pgdir → Prop}
    (hboot : ∀ r d, Image r d 1 → P PGSIZE d)
    (hstep : ∀ x k op res k' q d', InvOf LazyOk x k → AllDirs P k → C k op res →
      DirStep x k op res k' q d' → P (k'.proc q).sz d')
    (h : Reachable tree C k) : Ok k ∧ AllDirs P k := by
  refine h.induct (P := fun k => Ok k ∧ AllDirs P k) (fun M k hb => ?_)
    fun k op res k' ih hc hs => ?_
  · refine ⟨⟨0, hb.invOf shape_lazyOk⟩, fun q d hl hd => ?_⟩
    obtain rfl := hb.eq_of_live hl
    obtain ⟨d', hd', hi, -⟩ := hb.dir
    obtain rfl : d' = d := Option.some.inj (hd'.symm.trans hd)
    rw [hb.sz]
    exact hboot _ _ hi
  · obtain ⟨⟨x, hx⟩, hP⟩ := ih
    have he := effect_of_step hx hs
    exact ⟨he.ok hx, fun q d hl hd => hstep x k op res k' q d hx hP hc (he.dir hl hd)⟩

end Dirs

/-! ## The counters -/

/-- The present pages below `n`. -/
def present (d : Pgdir) (n : ℕ) : Finset ℕ := (Finset.range n).filter fun v => (d.ent v).P = true

theorem mem_present {d : Pgdir} {n v : ℕ} : v ∈ present d n ↔ v < n ∧ (d.ent v).P = true := by
  rw [present, Finset.mem_filter, Finset.mem_range]

theorem card_present_le (d : Pgdir) (n : ℕ) : (present d n).card ≤ n :=
  (Finset.card_filter_le _ _).trans (le_of_eq (Finset.card_range n))

theorem card_present_succ (d : Pgdir) (n : ℕ) :
    (present d (n + 1)).card = (present d n).card + if (d.ent n).P then 1 else 0 := by
  rw [present, Finset.range_add_one, Finset.filter_insert, ← present]
  split
  · exact Finset.card_insert_of_notMem fun h => absurd (mem_present.mp h).1 (Nat.lt_irrefl n)
  · rfl

section Counters

variable {k : Kernel Kmem} {p : ProcPtr} {d : Pgdir}

theorem numvp_eq : numvp p k = .ok ((k.proc p).sz / PGSIZE) k := rfl

/-- The loop of `numpp` when it has counted the pages below `v`. -/
theorem numppLoop_spec (hd : k.pgdir p = some d) (hsz : (k.proc p).sz < KERNLINK + PGSIZE)
    (htab : ∀ v < pages (k.proc p).sz, d.has (v / 1024)) : ∀ {fuel v : ℕ},
    pages (k.proc p).sz - v < fuel → v ≤ pages (k.proc p).sz →
    wp (numppLoop p fuel (v * 4096) (present d v).card)
      (fun c k' => c = (present d (pages (k.proc p).sz)).card ∧ k' = k) (fun _ _ => False) k := by
  rw [KERNLINK_PGSIZE] at hsz
  intro fuel
  induction fuel with
  | zero => intro v h; exact absurd h (Nat.not_lt_zero _)
  | succ fuel ih =>
    intro v hfuel hv
    have hlt : v * 4096 < (k.proc p).sz ↔ v < pages (k.proc p).sz := by
      simp only [pages]
      omega
    unfold numppLoop
    simp only [wp_bind, wp_get]
    by_cases hv' : v < pages (k.proc p).sz
    swap
    · obtain rfl : v = pages (k.proc p).sz := by omega
      rw [if_neg (by rwa [hlt])]
      exact ⟨rfl, rfl⟩
    have hlow := hlt.mpr hv'
    have hnext : uint (v * 4096 + PGSIZE) = (v + 1) * 4096 := by
      simp only [uint, PGSIZE]
      omega
    rw [if_pos hlow]
    simp only [wp_bind, present_or_not, wp_getPgdir hd, Pgdir.find_page (by omega) (htab v hv'),
      wp_pure, hnext]
    have hgo := @ih (v + 1) (by omega) hv'
    rw [card_present_succ] at hgo
    cases hP : (d.ent v).P with
    | true => simpa only [hP, if_true] using hgo
    | false => simpa only [hP, Bool.false_eq_true, if_false, Nat.add_zero] using hgo

/-- With all page tables in place `numpp` returns the number of present pages below the end. -/
theorem numpp_spec (hd : k.pgdir p = some d) (hsz : (k.proc p).sz < KERNLINK + PGSIZE)
    (htab : ∀ v < pages (k.proc p).sz, d.has (v / 1024)) :
    numpp p k = .ok (present d (pages (k.proc p).sz)).card k := by
  have hfuel : pages (k.proc p).sz - 0 < loopFuel := by
    rw [KERNLINK_PGSIZE] at hsz
    simp only [pages, loopFuel]
    omega
  have hloop : wp (numppLoop p loopFuel (0 * 4096) (present d 0).card) _ _ k :=
    numppLoop_spec hd hsz htab hfuel (Nat.zero_le _)
  rw [Nat.zero_mul] at hloop
  exact eq_ok_of_wp hloop

end Counters

end OsLabs.Lazy
