import OsLabs.Lazy.System

/-!
# The kernel without tricks

`copyuvm` of `src/xv6-public-master/vm.c` copies every page at once, and a page fault kills. On a
directory without lazy pages this is what the tree with `mmap` does too, so the specification of its
`copyuvm` is used here.

* `copyuvm_eq_lazy`: the two are the same on such directories;
* `EagerOk` and `inv_of_reachable`: all directories of this tree are such.
-/

namespace OsLabs.Eager

open Xv6 StateError Ledger
open Base (Kmem)

section Code

variable [Layout]

/-- The loop of `copyuvm` from the address `i` on, with the directory `d` of the child; the flag is
false where the source goes to `bad`. -/
def copyuvmLoop (pgdir : Pgdir) (sz : ℕ) : ℕ → Pgdir → ℕ → K Kmem (Bool × Pgdir)
  | 0, _, _ => throw .hang
  | fuel + 1, d, i =>
    if i < sz then
      match pgdir.find i with
      | none => throw .copyuvmExist
      | some pte =>
        if !pte.P then throw .copyuvmPresent
        else do
          match ← kalloc with
          | none => return (false, d)
          | some mem => do
            modify fun s => s.fill mem (s.mem pte.ppn)
            let r ← mappages d i PGSIZE mem pte.toFlags
            if r.2 then copyuvmLoop pgdir sz fuel r.1 (uint (i + PGSIZE))
            else do
              kfree mem
              return (false, r.1)
    else return (true, d)

/-- Given a parent's directory, create a copy of it for a child; the parent's stays. -/
def copyuvm (pgdir : Pgdir) (sz : ℕ) : K Kmem (Option Pgdir × Pgdir) := do
  match ← setupkvm with
  | none => return (none, pgdir)
  | some d => do
    let r ← copyuvmLoop pgdir sz loopFuel d 0
    if r.1 then return (some r.2, pgdir)
    else do
      freevm r.2
      return (none, pgdir)

/-- The unmodified tree. -/
def tree : Xv6.Tree Kmem where
  copyuvm := copyuvm
  reload := false
  pgflt _ _ := return none
  switch := false
  mmap _ _ := return .ret (-1)

end Code

section Copy

variable [Layout] {pgdir d : Pgdir} {sz : ℕ}

theorem copyuvmLoop_eq_lazy (h : ∀ v, (pgdir.ent v).LAZY = false) (fuel : ℕ) :
    ∀ (d : Pgdir) (i : ℕ), i < 2 ^ 32 →
      copyuvmLoop pgdir sz fuel d i = Lazy.copyuvmLoop pgdir sz fuel d i := by
  induction fuel with
  | zero => exact fun _ _ _ => rfl
  | succ fuel ih =>
    intro d i hi
    unfold copyuvmLoop Lazy.copyuvmLoop
    cases hf : pgdir.find i with
    | none => rfl
    | some pte =>
      obtain ⟨-, rfl⟩ := Pgdir.find_eq_some hi hf
      have hnext : uint (i + PGSIZE) < 2 ^ 32 := Nat.mod_lt _ (by decide)
      simp only [h, Bool.not_false, if_true]
      refine ite_congr rfl (fun _ => ite_congr rfl (fun _ => rfl) fun _ => ?_) fun _ => rfl
      apply bind_congr
      intro o
      cases o with
      | none => rfl
      | some mem =>
        exact bind_congr fun _ => bind_congr fun r =>
          ite_congr rfl (fun _ => ih _ _ hnext) fun _ => rfl

/-- Without lazy pages `copyuvm` is that of the tree with `mmap`. -/
theorem copyuvm_eq_lazy (h : ∀ v, (pgdir.ent v).LAZY = false) :
    copyuvm pgdir sz = Lazy.copyuvm pgdir sz := by
  unfold copyuvm Lazy.copyuvm
  apply bind_congr
  intro o
  cases o with
  | none => rfl
  | some d => exact congrArg (· >>= _) (copyuvmLoop_eq_lazy h loopFuel d 0 (by decide))

end Copy

/-! ## The invariant -/

/-- An address space of this tree. -/
structure EagerOk (sz : ℕ) (d : Pgdir) : Prop where
  small : Small sz d
  lazy : ∀ v, (d.ent v).LAZY = false

section Shape

variable {sz : ℕ} {d : Pgdir}

theorem lazy_of_kernelOk (h : d.KernelOk) {v : ℕ} (hv : UPAGES ≤ v) : (d.ent v).LAZY = false :=
  (h v hv).2.2.1

/-- `sbrk` makes no page lazy. -/
theorem EagerOk.sbrk [Layout] {d' : Pgdir} {r : Ledger ℕ} {s s' : Phys Kmem} {sz' : ℕ} {n : ℤ}
    {res : Result} (h : EagerOk sz d) (he : SbrkEffect r s d sz n res s' sz' d') :
    EagerOk sz' d' := by
  have hsmall := shape_small.sbrk h.small he
  have hcl : ∀ {d' : Pgdir} {lo : ℕ}, d.Cleared d' lo (pages sz) →
      ∀ v < UPAGES, (d'.ent v).LAZY = false := by
    intro d' lo hc v hv
    rw [hc.ent]
    split
    · rfl
    · exact h.lazy v
  refine ⟨hsmall, fun v => ?_⟩
  rcases Nat.lt_or_ge v UPAGES with hv | hv
  swap
  · exact lazy_of_kernelOk hsmall.2 hv
  cases he with
  | same => exact h.lazy v
  | refused => exact h.lazy v
  | grown hn hnew hlt ho hg hf hk hlen =>
    rw [Pgdir.ent_flush]
    by_cases hin : pages sz ≤ v ∧ v < pages sz'
    · rw [hg.flags v hin.1 hin.2]
    · rw [hg.out v (by omega)]
      exact h.lazy v
  | @failed _ new _ hn hnew hlt ho hu hk hlen =>
    by_cases hin : pages sz ≤ v ∧ v < pages new
    · rcases (hu.absent v hin.1 hin.2).2 with e | e
      · rw [e]
        rfl
      · rw [e]
        exact h.lazy v
    · rw [hu.out v (by omega)]
      exact h.lazy v
  | shrunk hn hnew hpos ho hc hk => exact hcl hc v hv
  | emptied hn hz ho hc hk => exact hcl hc v hv

theorem shape_eager [Layout] : Shape Kmem EagerOk where
  bounded h := .of_le h.small.1
  flush h := ⟨h.small, h.lazy⟩
  image {r sz d} hsz hi := by
    refine ⟨(@shape_small Kmem _ _).image hsz hi, fun v => ?_⟩
    rcases Nat.lt_or_ge v UPAGES with hv | hv
    · rcases Nat.lt_or_ge v (pages sz) with hlow | hhigh
      · exact (hi.low v hlow).2.2.2
      · rw [hi.high v hhigh hv]
        rfl
    · exact lazy_of_kernelOk hi.kernel hv
  sbrk h he := h.sbrk he

/-- The copy for a child. -/
theorem EagerOk.child {m : ℕ → Page} {c₀ c : Pgdir} {s : Phys Kmem} (h : EagerOk sz d)
    (hz : ∀ w < UPAGES, c₀.ent w = Pte.zero) (hker : c₀.KernelOk)
    (hc : Lazy.Child d m c₀ (pages sz) s c) : EagerOk sz c := by
  have hpg := pages_le_UPAGES h.small.1
  have hkernel : c.KernelOk := hker.congr fun v hv => hc.high v (by omega)
  refine ⟨⟨h.small.1, hkernel⟩, fun v => ?_⟩
  rcases Nat.lt_or_ge v (pages sz) with hv | hv
  · rw [(hc.copy v hv (h.lazy v)).2.1]
    exact h.lazy v
  · rcases Nat.lt_or_ge v UPAGES with hup | hup
    · rw [hc.high v hv, hz v hup]
      rfl
    · exact lazy_of_kernelOk hkernel hup

end Shape

section System

variable [Layout] {x : Ledger ℕ} {k k' : Kernel Kmem} {p : ProcPtr}

/-- What an operation of this kernel can do. Every page fault kills. -/
inductive Effect (x : Ledger ℕ) (k : Kernel Kmem) : Op → Result → Kernel Kmem → Prop
  | common {op : Op} {res : Result} {k' : Kernel Kmem} (h : CommonEffect x k op res k') :
      Effect x k op res k'
  | fork {p : ProcPtr} {d : Pgdir} {res : Result} {k' : Kernel Kmem}
      (hp : (k.proc p).state = .RUNNING) (hd : k.pgdir p = some d)
      (h : ForkEffect (Lazy.CopyEffect d (k.proc p).sz) false x k p res k') :
      Effect x k (.fork p) res k'
  | mmap {p : ProcPtr} {n : ℤ} : Effect x k (.mmap p n) (.ret (-1)) k
  | load {p : ProcPtr} {va : ℕ} {res : Result} {k' : Kernel Kmem}
      (hp : (k.proc p).state = .RUNNING)
      (h : AccessEnd (fun _ _ => True) p (uint va) none 0 k res k') : Effect x k (.load p va) res k'
  | store {p : ProcPtr} {va : ℕ} {b : UInt8} {res : Result} {k' : Kernel Kmem}
      (hp : (k.proc p).state = .RUNNING)
      (h : AccessEnd (fun _ _ => True) p (uint va) (some b) 0 k res k') :
      Effect x k (.store p va b) res k'

theorem fork_spec (h : InvOf EagerOk x k) (hl : k.live p) {d : Pgdir} (hd : k.pgdir p = some d) :
    wp (forkWith copyuvm false p) (ForkEffect (Lazy.CopyEffect d (k.proc p).sz) false x k p)
      (fun e _ => e = .pidOverflow ∧ k.nextpid = INT_MAX ∨
        ∃ n, Lazy.CopyStop d (k.proc p).sz n e) k := by
  have hok := (h.of_live hl hd).2
  have hpg := pages_le_UPAGES hok.small.1
  rw [UPAGES_eq] at hpg
  have hcopy := fun (r : Ledger ℕ) (s : Phys Kmem) (ha : Acct InRange s.kmem (r + d.holds)) =>
    @Lazy.copyuvm_spec _ r s d (k.proc p).sz (by rw [UPAGES_eq]; omega) ha
  simp only [← copyuvm_eq_lazy hok.lazy] at hcopy
  refine wp_mono (forkWith_spec h hl hd hcopy) (fun _ _ he => he) fun e _ he => ?_
  rcases he.2 with he | ⟨s₁, f, -, n, -, hn⟩
  · exact Or.inl he
  · exact Or.inr ⟨n, hn⟩

theorem step_spec (h : InvOf EagerOk x k) (op : Op) :
    wp (step tree op) (Effect x k op) (fun _ _ => True) k := by
  by_cases hop : op.common = true
  · exact wp_mono (common_spec tree shape_eager h hop) (fun _ _ he => .common he)
      fun _ _ _ => trivial
  have haccess : ∀ {p : ProcPtr} (va : ℕ) (w : Option UInt8), k.live p →
      wp (access tree p va w accessFuel 0) (AccessEnd (fun _ _ => True) p va w 0 k)
        (fun _ _ => True) k := by
    intro p va w hl
    obtain ⟨d, -, hd, -⟩ := h.live p hl
    exact wp_mono (access_end_spec hd fun _ => ⟨trivial, rfl⟩) (fun _ _ he => he)
      fun _ _ _ => trivial
  cases op with
  | fork p =>
    refine wp_whenRunning (fun hp => ?_) fun hp => .common (.disabled hp)
    obtain ⟨d, -, hd, -⟩ := h.live p (live_of_running hp)
    exact wp_mono (fork_spec h (live_of_running hp) hd) (fun _ _ he => .fork hp hd he)
      fun _ _ _ => trivial
  | mmap p n => exact wp_whenRunning (fun _ => .mmap) fun hp => .common (.disabled hp)
  | load p va =>
    refine wp_whenRunning (fun hp => ?_) fun hp => .common (.disabled hp)
    exact wp_post (haccess _ _ (live_of_running hp)) fun _ _ he => .load hp he
  | store p va b =>
    refine wp_whenRunning (fun hp => ?_) fun hp => .common (.disabled hp)
    exact wp_post (haccess _ _ (live_of_running hp)) fun _ _ he => .store hp he
  | _ => exact absurd rfl hop

/-- The parent's directory stays, and the child's is in order. -/
theorem fork_inv (h : InvOf EagerOk x k) (hl : k.live p) {d : Pgdir} (hd : k.pgdir p = some d)
    {res : Result} (hf : ForkEffect (Lazy.CopyEffect d (k.proc p).sz) false x k p res k') :
    InvOf EagerOk x k' := by
  have hok := (h.of_live hl hd).2
  refine hf.inv h hl shape_eager.flush fun r s res s' hc => ?_
  cases hc with
  | copied hz hker hcov hc hk ho hlen =>
    exact ⟨hok, fun d₂ h₂ => Option.some.inj h₂ ▸ hok.child hz hker hc⟩
  | failed => exact ⟨hok, fun d₂ h₂ => by cases h₂⟩

theorem Effect.inv {op : Op} {res : Result} (h : InvOf EagerOk x k) (he : Effect x k op res k') :
    InvOf EagerOk x k' := by
  cases he with
  | common hc => exact hc.inv shape_eager h
  | fork hp hd hf => exact fork_inv h (live_of_running hp) hd hf
  | mmap => exact h
  | load hp ha => exact (ha.same (live_of_running hp)).inv h
  | store hp ha => exact (ha.same (live_of_running hp)).inv h

/-- Every reachable state is in order. -/
theorem inv_of_reachable {C : Kernel Kmem → Op → Result → Prop} (h : Reachable tree C k) :
    InvOf EagerOk 0 k :=
  h.induct (fun _ _ hb => hb.invOf shape_eager) fun _ op _ _ ih _ hs =>
    Effect.inv ih (of_ok (step_spec ih op) hs)

end System

end OsLabs.Eager
