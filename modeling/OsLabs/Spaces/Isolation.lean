import OsLabs.Spaces.Cow
import OsLabs.Cow.Family
import OsLabs.Spaces.Lazy
import OsLabs.Lazy.Steps
import Mathlib.Logic.Relation

/-!
# Isolation

Under copy-on-write, no operation of another process changes what a process sees, even while they
share frames: not a write, not a `fork`, `exec` or `sbrk`, whether or not they succeed for want of
memory, and not the reaping of a relative. There is no condition on the operations here, but a run
ends where the fault handler follows a null pointer: where no frame is free for its copy, and at an
address without a page table. Nothing is said about what the kernel does after that. The same holds
in the lazy kernel.

* `CommonEffect.mem_of_ne` and `ForkEffect.mem_of_ne`: the operations of all trees;
* `Effect.mem_of_ne`: one operation of the copy-on-write kernel;
* `memory_isolated`: any number of them, and `memory_undisturbed` in the lazy kernel.
-/

namespace OsLabs.Xv6

open StateError Ledger

section Frames

variable {κ : Type} [Kalloc κ] {x : Ledger ℕ} {k k' : Kernel κ} {p q : ProcPtr} {op : Op}
variable {res : Result}

/-- `sbrk` leaves the frames of the others alone. -/
theorem SbrkEffect.keeps {r : Ledger ℕ} {s s' : Phys κ} {d d' : Pgdir} {sz sz' : ℕ} {n : ℤ}
    (he : SbrkEffect r s d sz n res s' sz' d') : Keeps r s s' := by
  cases he with
  | same | refused => exact .refl _ _
  | grown _ _ _ _ _ _ hk => exact hk.left
  | failed _ _ _ _ _ hk => exact hk.left
  | shrunk _ _ _ _ _ hk => exact hk.left
  | emptied _ _ _ _ hk => exact hk.left

omit [Kalloc κ] in
theorem Kernel.spaces_setMem_of_ne {r : Ledger ℕ} {s' : Phys κ} {sz : ℕ} {d' : Pgdir}
    (hl : k.live p) (hk : Keeps (r + k.rest p) k.phys s') (hq : q ≠ p) :
    (k.setMem p s' sz d').spaces.mem q = k.spaces.mem q := by
  rw [Kernel.spaces_setMem hl hk]
  exact Function.update_of_ne hq _ _

/-- The common operations change the memory of the process that performs them only. -/
theorem CommonEffect.mem_of_ne [Layout] [LawfulKalloc κ]
    (ha : Acct InRange k.phys.kmem (x + k.total)) (he : CommonEffect x k op res k')
    (hq : k.active q) (hne : op.actor ≠ some q) : k'.spaces.mem q = k.spaces.mem q := by
  -- the frames that `q` uses, among all allocated ones
  have huses : ∀ d, k.live q → k.pgdir q = some d → ∀ f, refs d.uses f ≤ refs k.total f := by
    intro d hl hd f
    rw [Kernel.total_eq_rest hl hd]
    simp only [Pgdir.holds, refs_add]
    omega
  cases he with
  | disabled => rfl
  | @sched p d hp hd =>
    have hslot := @Kernel.spaces_setSlot _
      { k with pgdir := Function.update k.pgdir p (some d.flush) } p
      (fun q => { q with state := .RUNNING, chan := none }) (by simp [Kernel.live, hp]) rfl
      (by simp)
    rw [Kernel.spaces_flush hd] at hslot
    exact congrFun (congrArg Spaces.mem hslot) q
  | yield hp =>
    exact congrFun (congrArg Spaces.mem (Kernel.spaces_setSlot (live_of_running hp) rfl
      (by simp))) q
  | @sbrk p _ _ _ _ hp hd hm =>
    obtain ⟨s', sz', d', rfl, -, -, hs⟩ := hm
    exact Kernel.spaces_setMem_of_ne (live_of_running hp) hs.keeps fun e => hne (by rw [e]; rfl)
  | execFail ha' hk =>
    exact Kernel.spaces_mem_congr Iff.rfl rfl (fun _ => rfl) fun hl d hd =>
      d.shows_keeps hk.right (huses d hl hd)
  | @execOk p _ _ s' d₀ d sz hp hd ha' hk =>
    exact Kernel.spaces_setMem_of_ne (live_of_running hp) hk fun e => hne (by rw [e]; rfl)
  | @exit p hp =>
    exact congrFun (congrArg Spaces.mem (Kernel.spaces_setTable (fun q => Table.exit_sz ..)
      (Table.exit_unused _ (live_of_running hp)))) q
  | wait hp hw =>
    cases hw with
    | @reaped z d f s' hz hd hf r hr ha' hk ho =>
      have hst := (Table.zombieOf_iff.mp (Table.first_some hz)).2
      have hqz : q ≠ z := fun e => hq.2 (by rw [e]; exact hst)
      rw [Kernel.spaces_reaped (by simp [Kernel.live, hst]) hd hf hr hk]
      exact Function.update_of_ne hqz _ _
    | none => rfl
    | slept =>
      exact congrFun (congrArg Spaces.mem (Kernel.spaces_setSlot (live_of_running hp) rfl
        (by simp))) q
  | kallocNone =>
    exact Kernel.spaces_mem_congr Iff.rfl rfl (fun _ => rfl) fun _ _ _ => rfl
  | kallocSome hf ha' hm ho =>
    exact Kernel.spaces_mem_congr Iff.rfl rfl (fun _ => rfl) fun _ d _ =>
      d.shows_keeps (.of_mem_eq hm) fun _ => le_refl _
  | @kfree f s' r hf hr ha' hk ho =>
    refine Kernel.spaces_mem_congr Iff.rfl rfl (fun _ => rfl) fun hl d hd => ?_
    refine d.shows_keeps hk.right fun g => ?_
    have h₁ := huses d hl hd g
    rw [hr, refs_add] at h₁
    by_cases hg : g = f
    · -- the frame is the kernel's alone, and so not one of `q`
      subst hg
      have hexcl : ((x + k.total) g).2 ≠ 0 := by
        rw [hr, Pi.add_apply, Pi.add_apply, excl_self]
        simp
      have h₂ := (LawfulKalloc.exact_of_acct ha).excl_alone g hexcl
      have h₃ := congrArg Prod.fst h₂
      rw [Kernel.total_eq_rest hl hd] at h₃
      simp only [Pi.add_apply, Prod.fst_add, d.holds_fst] at h₃
      omega
    · rw [refs_excl, if_neg hg] at h₁
      omega

/-- `fork` changes the memory of no process that is there, if `copyuvm` keeps the frames of the
others. -/
theorem ForkEffect.mem_of_ne [Layout] [LawfulKalloc κ]
    {CP : Ledger ℕ → Phys κ → Option Pgdir × Pgdir → Phys κ → Prop} {reload : Bool}
    (hcp : ∀ {r s res s'}, CP r s res s' → Keeps r s s')
    (he : ForkEffect CP reload x k p res k') (hq : k.active q) (hqp : q ≠ p) :
    k'.spaces.mem q = k.spaces.mem q ∧ k'.active q := by
  have hqn : ∀ {np : ProcPtr}, k.proc.first (·.state = .UNUSED) = some np → q ≠ np := fun h e =>
    hq.1 (by rw [e]; simpa using Table.first_some h)
  -- a slot that is not touched, where the frames of `q` are kept
  have hkept : ∀ {k' : Kernel κ}, k'.proc q = k.proc q → k'.pgdir q = k.pgdir q →
      Keeps (x + k.rest p) k.phys k'.phys → k'.spaces.mem q = k.spaces.mem q ∧ k'.active q := by
    intro k' hproc hpg hk
    refine ⟨Kernel.spaces_mem_congr (by rw [hproc]) (by rw [hproc]) (fun _ => hpg)
      fun hl d hd => d.shows_keeps hk.right fun f => refs_uses_le_rest hqp hl hd f, ?_⟩
    rw [Kernel.active, hproc]
    exact hq
  cases he with
  | full => exact ⟨rfl, hq⟩
  | @noStack np hnp =>
    exact hkept (by simp [Kernel.unborn, Table.set_ne _ _ (hqn hnp)]) rfl (.of_mem_eq rfl)
  | @noCopy np f s₁ s₂ s' d' hnp hf hm₁ ho₁ hfree hc ha hk =>
    have hne := hqn hnp
    refine hkept (by simp [Kernel.unborn, Table.set_ne _ _ hne]) ?_ ?_
    · simp only [Kernel.unborn, Function.update_of_ne hne, Function.update_of_ne hqp]
    · exact (Keeps.of_mem_eq hm₁).trans ((hcp hc).left.trans hk.left)
  | @born np f s₁ s' d' d₂ hnp hf hm₁ ho₁ hfree hc ha =>
    have hne := hqn hnp
    refine hkept (by simp [Kernel.born, Table.set_ne _ _ hne]) ?_ ?_
    · simp only [Kernel.born, Function.update_of_ne hne, Function.update_of_ne hqp]
    · exact (Keeps.of_mem_eq hm₁).trans (hcp hc).left

omit [Kalloc κ] in
/-- An access changes the memory of its own process only, if the frame of a page that may be
written has no other claim. -/
theorem AccessEnd.mem_of_ne {kills : Pgdir → ℕ → Prop} {va n : ℕ} {w : Option UInt8} {d : Pgdir}
    (hl : k.live p) (hd : k.pgdir p = some d) (hva : va < 2 ^ 32)
    (h1 : ∀ v, (d.ent v).P = true → (d.ent v).U = true → (d.ent v).W = true →
      v < UPAGES ∧ refs (x + k.total) (d.ent v).ppn ≤ 1)
    (he : AccessEnd kills p va w n k res k') (hqp : q ≠ p) :
    k'.spaces.mem q = k.spaces.mem q := by
  cases he with
  | load => rfl
  | @store d₀ e b hw hd' ha =>
    obtain rfl := Option.some.inj (hd'.symm.trans hd)
    obtain ⟨rfl, hp⟩ := (Pgdir.allows_iff hva rfl).mp ha
    simp only [Pte.permits, Bool.not_true, Bool.false_or, Bool.and_eq_true] at hp
    obtain ⟨⟨hP, hU⟩, hW⟩ := hp
    obtain ⟨hu, h1⟩ := h1 _ hP hU hW
    exact Kernel.spaces_poke_of_ne hl hd hu hP h1 hqp
  | killed hd' hno hk hi =>
    refine Kernel.spaces_mem_congr (Table.kill_unused hl q) ?_ (fun _ => rfl) fun _ _ _ => rfl
    change (Table.kill k.proc p k.initproc q).sz = _
    rw [Table.kill, Table.exit_sz, Table.set_ne _ _ hqp]

end Frames

end OsLabs.Xv6

namespace OsLabs.Cow

open Xv6 StateError Ledger

section Isolation

variable [Layout] {k k' : Kernel Kmem} {p q : ProcPtr} {op : Op} {res : Result}

theorem CopyEffect.keeps {d₀ : Pgdir} {sz : ℕ} {r : Ledger ℕ} {s s' : Phys Kmem}
    {res : Option Pgdir × Pgdir} (h : CopyEffect d₀ sz r s res s') : Keeps r s s' := by
  cases h with
  | copied hp hP hc hm => exact .of_mem_eq hm
  | failed hn hp hk => exact hk.left

omit [Layout] in
theorem FaultEffect.keeps {d d' : Pgdir} {v : ℕ} {r : Ledger ℕ} {s s' : Phys Kmem}
    (h : FaultEffect d v r s d' s') : Keeps r s s' := by
  cases h with
  | sole => exact .refl _ _
  | @copied mem _ h2 hmem hd hc hk =>
    refine fun f hf => hk f fun e => hf ?_
    have h₀ := refs_eq_zero.mpr hmem
    rw [refs_add] at h₀
    rw [e]
    exact refs_eq_zero.mp (by omega)

/-- An access changes the memory of its own process only. -/
theorem Ok.end_mem_of_ne (h : Ok k) (hl : k.live p) {va n : ℕ} (hva : va < 2 ^ 32)
    {w : Option UInt8} (he : AccessEnd kills p va w n k res k') (hqp : q ≠ p) :
    k'.spaces.mem q = k.spaces.mem q := by
  obtain ⟨d, -, hd, -⟩ := h.inv.live p hl
  refine he.mem_of_ne (x := 0) hl hd hva (fun v hP hU hW => ?_) hqp
  have hu : v < UPAGES := by
    by_contra hge
    rw [((h.inv.of_live hl hd).2.2 _ (Nat.le_of_not_lt hge)).1] at hU
    cases hU
  obtain ⟨-, -, -, h1⟩ := (h.pages p d hl hd _ hu).resolve_left fun e => by
    rw [e] at hP
    cases hP
  exact ⟨hu, h1 hW⟩

theorem AccessEffect.mem_of_ne (h : Ok k) (hl : k.live p) {va : ℕ} (hva : va < 2 ^ 32)
    {w : Option UInt8} (he : AccessEffect p va w k res k') (hq : k.active q) (hqp : q ≠ p) :
    k'.spaces.mem q = k.spaces.mem q ∧ k'.active q := by
  cases he with
  | direct he => exact ⟨h.end_mem_of_ne hl hva he hqp, he.active hqp hq⟩
  | fault hv hup hd hP hC hno hf ha he =>
    have hok := h.fault hl hd hup hP hf ha
    refine ⟨(hok.end_mem_of_ne ((Kernel.live_setMem p).mpr hl) hva he hqp).trans ?_,
      he.active hqp (Kernel.active_setMem.mpr hq)⟩
    exact Kernel.spaces_setMem_of_ne (r := 0) hl hf.keeps hqp

/-- An operation of another process leaves what `q` sees as it is, and `q` goes on. -/
theorem Effect.mem_of_ne (h : Ok k) (he : Effect k op res k') (hq : k.active q)
    (hne : op.actor ≠ some q) : k'.spaces.mem q = k.spaces.mem q ∧ k'.active q := by
  have huint : ∀ va, uint va < 2 ^ 32 := fun va => Nat.mod_lt _ (by decide)
  cases he with
  | common hc =>
    exact ⟨hc.mem_of_ne h.inv.acct hq hne, hc.active hq fun e => hne (by rw [e]; rfl)⟩
  | fork hp hd hf => exact hf.mem_of_ne CopyEffect.keeps hq fun e => hne (by rw [e]; rfl)
  | load hp ha =>
    exact ha.mem_of_ne h (live_of_running hp) (huint _) hq fun e => hne (by rw [e]; rfl)
  | store hp ha =>
    exact ha.mem_of_ne h (live_of_running hp) (huint _) hq fun e => hne (by rw [e]; rfl)
  | mmap => exact ⟨rfl, hq⟩

/-- A step that is not one of `q`. -/
def OfOthers (q : ProcPtr) (k k' : Kernel Kmem) : Prop :=
  ∃ op res, op.actor ≠ some q ∧ step tree op k = .ok res k'

/-- Whatever the other processes do, short of a fault whose handler follows a null pointer, a
process sees the same memory until it acts itself. -/
theorem memory_isolated {C : Kernel Kmem → Op → Result → Prop} (h : Reachable tree C k)
    (hq : k.active q) (hs : Relation.ReflTransGen (OfOthers q) k k') :
    k'.spaces.mem q = k.spaces.mem q ∧ k'.active q := by
  have hall : Ok k' ∧ k'.spaces.mem q = k.spaces.mem q ∧ k'.active q := by
    induction hs with
    | refl => exact ⟨ok_of_reachable h, rfl, hq⟩
    | tail _ hstep ih =>
      obtain ⟨op, res, hne, hstep⟩ := hstep
      obtain ⟨hok, hm, hact⟩ := ih
      have he := hok.effect hstep
      obtain ⟨hm', hact'⟩ := he.mem_of_ne hok hact hne
      exact ⟨he.ok hok, hm'.trans hm, hact'⟩
  exact hall.2

end Isolation

/-- After a `fork` the parent writes to the shared page, and the child does not see it. -/
theorem memory_isolated_child : ∃ (_ : Layout) (k k' : Kernel Kmem) (q : ProcPtr) (b : UInt8),
    Reachable tree anyOp k ∧ q ≠ initSlot ∧ k.active q ∧
      step tree (.store initSlot 0 b) k = .ok (.written 1) k' ∧
      k'.spaces.mem q = k.spaces.mem q ∧ k'.active q := by
  obtain ⟨k, k', d, d', hr, -, hq, -, -, hs, -⟩ := exists_written (C := anyOp) fun _ _ _ _ => trivial
  let _ := sampleLayout
  have hactive : k.active ⟨1, by decide⟩ := by simp [Kernel.active, hq]
  have hone : Op.actor (.store initSlot 0 0x41) ≠ some ⟨1, by decide⟩ := by decide
  exact ⟨sampleLayout, k, k', _, _, hr, by decide, hactive, hs,
    memory_isolated hr hactive (.single ⟨_, _, hone, hs⟩)⟩

end OsLabs.Cow

namespace OsLabs.Lazy

open Xv6 StateError Ledger
open Base (Kmem)

section Isolation

variable [Layout] {x : Ledger ℕ} {k k' : Kernel Kmem} {p q : ProcPtr} {op : Op} {res : Result}

theorem CopyEffect.keeps {d : Pgdir} {sz : ℕ} {r : Ledger ℕ} {s s' : Phys Kmem}
    {res : Option Pgdir × Pgdir} (h : CopyEffect d sz r s res s') : Keeps r s s' := by
  cases h with
  | copied hz hker hcov hc hk => exact hk.left
  | failed hshort hk => exact hk.left

theorem FaultEffect.keeps {d d' : Pgdir} {v : ℕ} {r : Ledger ℕ} {s s' : Phys Kmem}
    (h : FaultEffect d v r s d' s') : Keeps r s s' := by
  cases h with
  | filled hv hmem hfree hd hm => exact ((Keeps.fill zeroPage hmem).trans (.of_mem_eq hm)).left
  | spent => exact .of_mem_eq rfl
  | beyond => exact .refl _ _

/-- An access changes the memory of its own process only. -/
theorem end_mem_of_ne (h : InvOf LazyOk x k) (hl : k.live p) {va n : ℕ} (hva : va < 2 ^ 32)
    {w : Option UInt8} (he : AccessEnd kills p va w n k res k') (hqp : q ≠ p) :
    k'.spaces.mem q = k.spaces.mem q := by
  obtain ⟨d, -, hd, -⟩ := h.live p hl
  refine he.mem_of_ne (x := x) hl hd hva (fun v hP hU _ => ⟨?_, h.acct.single _⟩) hqp
  by_contra hge
  rw [((h.of_live hl hd).2.ent v).closed (Nat.le_of_not_lt hge)] at hU
  cases hU

theorem AccessEffect.mem_of_ne (h : InvOf LazyOk x k) (hl : k.live p) {va : ℕ} (hva : va < 2 ^ 32)
    {w : Option UInt8} (he : AccessEffect x p va w k res k') (hqp : q ≠ p) :
    k'.spaces.mem q = k.spaces.mem q := by
  cases he with
  | direct he => exact end_mem_of_ne h hl hva he hqp
  | @fault v _ d d' s' _ hv hd hL hf ha he =>
    have hok := (h.of_live hl hd).2.fault hf
    have hinv : InvOf LazyOk x (k.setMem p s' (k.proc p).sz d'.flush) :=
      h.setMem hl ha ⟨hok.lt, hok.ent⟩
    refine (end_mem_of_ne hinv ((Kernel.live_setMem p).mpr hl) hva he hqp).trans ?_
    exact Kernel.spaces_setMem_of_ne hl hf.keeps hqp

theorem MmapEffect.mem_of_ne {d : Pgdir} {n : ℤ} (hl : k.live p)
    (he : MmapEffect x k p d n res k') (hqp : q ≠ p) : k'.spaces.mem q = k.spaces.mem q := by
  cases he with
  | refused => rfl
  | marked hn hlt hm => exact Kernel.spaces_setMem_of_ne (r := 0) hl (.of_mem_eq hm.mem) hqp
  | wrapped => exact Kernel.spaces_setMem_of_ne (r := 0) hl (.refl _ _) hqp

/-- An operation of another process leaves what `q` sees as it is, and `q` goes on. -/
theorem Effect.mem_of_ne (h : InvOf LazyOk x k) (he : Effect x k op res k') (hq : k.active q)
    (hne : op.actor ≠ some q) : k'.spaces.mem q = k.spaces.mem q ∧ k'.active q := by
  have huint : ∀ va, uint va < 2 ^ 32 := fun va => Nat.mod_lt _ (by decide)
  refine ⟨?_, he.active hq (fun e => hne (by rw [e]; rfl)) fun va e => hne ?_⟩
  · cases he with
    | common hc => exact hc.mem_of_ne h.acct hq hne
    | fork hp hd hf => exact (hf.mem_of_ne CopyEffect.keeps hq fun e => hne (by rw [e]; rfl)).1
    | mmap hp hd hm => exact hm.mem_of_ne (live_of_running hp) fun e => hne (by rw [e]; rfl)
    | load hp ha =>
      exact ha.mem_of_ne h (live_of_running hp) (huint _) fun e => hne (by rw [e]; rfl)
    | store hp ha =>
      exact ha.mem_of_ne h (live_of_running hp) (huint _) fun e => hne (by rw [e]; rfl)
  · cases op with
    | load | store =>
      obtain ⟨rfl, -⟩ := Prod.mk.inj (Option.some.inj e)
      rfl
    | _ => cases e

/-- A step that is not one of `q`. -/
def OfOthers (q : ProcPtr) (k k' : Kernel Kmem) : Prop :=
  ∃ op res, op.actor ≠ some q ∧ step tree op k = .ok res k'

/-- Whatever the other processes do, a process sees the same memory until it acts itself, even where
`mmap` has lost frames or marked pages of the kernel. -/
theorem memory_undisturbed {C : Kernel Kmem → Op → Result → Prop} (h : Reachable tree C k)
    (hq : k.active q) (hs : Relation.ReflTransGen (OfOthers q) k k') :
    k'.spaces.mem q = k.spaces.mem q ∧ k'.active q := by
  have hall : Ok k' ∧ k'.spaces.mem q = k.spaces.mem q ∧ k'.active q := by
    induction hs with
    | refl => exact ⟨ok_of_reachable h, rfl, hq⟩
    | tail _ hstep ih =>
      obtain ⟨op, res, hne, hstep⟩ := hstep
      obtain ⟨⟨x, hx⟩, hm, hact⟩ := ih
      have he := effect_of_step hx hstep
      obtain ⟨hm', hact'⟩ := he.mem_of_ne hx hact hne
      exact ⟨he.ok hx, hm'.trans hm, hact'⟩
  exact hall.2

end Isolation

/-- After a `fork` the parent writes to its page, and the child does not see it. -/
theorem memory_undisturbed_child : ∃ (_ : Layout) (k k' : Kernel Kmem) (q : ProcPtr) (b : UInt8),
    Reachable tree anyOp k ∧ q ≠ initSlot ∧ k.active q ∧
      step tree (.store initSlot 0 b) k = .ok (.written 0) k' ∧
      k'.spaces.mem q = k.spaces.mem q ∧ k'.active q := by
  obtain ⟨k₀, d, hr₀, hk₀⟩ := exists_started (C := anyOp) fun _ _ _ _ _ => trivial
  let _ := sampleLayout
  obtain ⟨f, s, c, hs₀⟩ := hk₀.fork
  set k := k₀.born initSlot ⟨1, by decide⟩ f s d c with hke
  have hr : Reachable tree anyOp k := .step hr₀ hs₀ trivial
  have hactive : k.active ⟨1, by decide⟩ := by simp [hke, Kernel.active, Kernel.born]
  have hne : initSlot ≠ ⟨1, by decide⟩ := by decide
  have hrun : (k.proc initSlot).state = .RUNNING := by
    rw [hke, Kernel.born]
    dsimp only
    rw [Table.set_ne _ _ hne]
    exact hk₀.running
  have hd : k.pgdir initSlot = some d := by
    rw [hke, Kernel.born]
    dsimp only
    rw [Function.update_of_ne hne, Function.update_self]
  obtain ⟨x, hx⟩ := ok_of_reachable hr
  obtain ⟨k', hs, -⟩ := @step_store _ _ _ _ _ 0 0x41 hx hrun hd hk₀.user
  have hone : Op.actor (.store initSlot 0 0x41) ≠ some ⟨1, by decide⟩ := by decide
  exact ⟨sampleLayout, k, k', _, _, hr, hne.symm, hactive, hs,
    memory_undisturbed hr hactive (.single ⟨_, _, hone, hs⟩)⟩

end OsLabs.Lazy
