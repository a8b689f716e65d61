import OsLabs.Lazy.Copy
import OsLabs.Lazy.Mmap
import OsLabs.Xv6.Boot

/-!
# The lazy kernel

The invariant `Ok` of the lazy kernel: the accounts are in order, up to the frames that `mmap` has
lost by marking present pages, and every address space is as `LazyOk` says. It may reach into the
pages at the start of the kernel's part, which hold no frame that `kfree` accepts.

* `step_spec`: what the operations do (`Effect`) and how they can stop (`Stop`);
* `Effect.ok` and `ok_of_reachable`: every operation keeps the invariant.
-/

namespace OsLabs.Lazy

open Xv6 StateError Ledger
open Base (Kmem)

/-- The entry `e` of page `v`: not both lazy and present, and closed to user code and without a
frame of the allocator in the kernel's part. -/
structure EntryOk (v : ℕ) (e : Pte) : Prop where
  excl : e.LAZY = true → e.P = false
  closed : UPAGES ≤ v → e.U = false
  kernel : UPAGES ≤ v → v < UPAGES + 257 → e.ppn = v - UPAGES

namespace EntryOk

variable {v : ℕ} {e : Pte}

theorem user (hv : v < UPAGES) (h : e.LAZY = true → e.P = false) : EntryOk v e :=
  ⟨h, fun hge => absurd hv (Nat.not_lt.mpr hge), fun hge => absurd hv (Nat.not_lt.mpr hge)⟩

theorem of_kernelOk {d : Pgdir} (h : d.KernelOk) (hv : UPAGES ≤ v) : EntryOk v (d.ent v) := by
  obtain ⟨hU, -, hL, hlow⟩ := h v hv
  refine ⟨fun hl => ?_, fun _ => hU, fun _ hlt => (hlow hlt).2⟩
  rw [hL] at hl
  cases hl

theorem mark (h : EntryOk v e) : EntryOk v (lazyPte e) := ⟨fun _ => rfl, h.closed, h.kernel⟩

theorem clear (h : EntryOk v e) : EntryOk v { e with LAZY := false } :=
  ⟨fun hl => (by cases hl), h.closed, h.kernel⟩

end EntryOk

/-- The address space of a process. -/
structure LazyOk (sz : ℕ) (d : Pgdir) : Prop where
  lt : sz < KERNLINK + PGSIZE
  ent : ∀ v, EntryOk v (d.ent v)

section Shape

variable {sz : ℕ} {d d' : Pgdir}

theorem lt_of_lt_KERNBASE (h : sz < KERNBASE) : sz < KERNLINK + PGSIZE := by
  rw [KERNBASE_eq] at h
  rw [KERNLINK_PGSIZE]
  omega

theorem LazyOk.pages_le (h : LazyOk sz d) : pages sz ≤ UPAGES + 257 := by
  have := h.lt
  rw [KERNLINK_PGSIZE] at this
  rw [UPAGES_eq]
  simp only [pages]
  omega

/-- The frames of the first pages of the kernel. -/
theorem not_inRange_low [L : Layout] {f : ℕ} (hf : f < 257) : ¬InRange f := by
  have h₁ := L.text_lt
  have h₂ := L.data_le
  rw [KERNLINK_eq] at h₁
  rw [not_inRange, KERNBASE_eq, PGSIZE]
  omega

theorem LazyOk.bounded [Layout] (h : LazyOk sz d) : d.Bounded sz := by
  refine ⟨h.lt, fun v h₁ h₂ _ => ?_⟩
  have h₃ := h.pages_le
  have h₄ : v < UPAGES + 257 := by omega
  rw [(h.ent v).kernel h₁ h₄]
  exact not_inRange_low (by omega)

theorem LazyOk.image {r : Ledger ℕ} (hsz : sz < KERNBASE) (hi : Image r d (pages sz)) :
    LazyOk sz d := by
  refine ⟨lt_of_lt_KERNBASE hsz, fun v => ?_⟩
  rcases Nat.lt_or_ge v UPAGES with hv | hv
  · refine .user hv fun hl => ?_
    rcases Nat.lt_or_ge v (pages sz) with hlow | hhigh
    · rw [(hi.low v hlow).2.2.2] at hl
      cases hl
    · rw [hi.high v hhigh hv]
      rfl
  · exact .of_kernelOk hi.kernel hv

theorem LazyOk.sbrk [Layout] {r : Ledger ℕ} {s s' : Phys Kmem} {sz' : ℕ} {n : ℤ} {res : Result}
    (h : LazyOk sz d) (he : SbrkEffect r s d sz n res s' sz' d') : LazyOk sz' d' := by
  have hzero : ∀ {v}, v < UPAGES → EntryOk v Pte.zero := fun hv => .user hv fun _ => rfl
  have hcl : ∀ {d' : Pgdir} {lo : ℕ}, d.Cleared d' lo (pages sz) → ∀ v, EntryOk v (d'.ent v) := by
    intro d' lo hc v
    rcases Nat.lt_or_ge v UPAGES with hv | hv
    · rw [hc.ent]
      split
      · exact hzero hv
      · exact h.ent v
    · rw [hc.kernel v hv]
      exact h.ent v
  cases he with
  | same => exact ⟨h.lt, h.ent⟩
  | refused => exact h
  | grown hn hnew hlt ho hg hf hk hlen =>
    have hle := pages_le_UPAGES (le_of_lt hlt)
    refine ⟨lt_of_lt_KERNBASE hlt, fun v => ?_⟩
    rw [Pgdir.ent_flush]
    by_cases hin : pages sz ≤ v ∧ v < pages sz'
    · refine .user (by omega) fun hl => ?_
      rw [hg.flags v hin.1 hin.2] at hl
      cases hl
    · rw [hg.out v (by omega)]
      exact h.ent v
  | @failed _ new _ hn hnew hlt ho hu hk hlen =>
    have hle := pages_le_UPAGES (le_of_lt hlt)
    refine ⟨h.lt, fun v => ?_⟩
    by_cases hin : pages sz ≤ v ∧ v < pages new
    · rcases (hu.absent v hin.1 hin.2).2 with e | e
      · rw [e]
        exact hzero (by omega)
      · rw [e]
        exact h.ent v
    · rw [hu.out v (by omega)]
      exact h.ent v
  | shrunk hn hnew hpos ho hc hk =>
    exact ⟨lt_of_le_of_lt (by omega) h.lt, fun v => hcl hc v⟩
  | emptied hn hz ho hc hk => exact ⟨h.lt, hcl hc⟩

theorem shape_lazyOk [Layout] : Shape Kmem LazyOk where
  bounded h := h.bounded
  flush h := ⟨h.lt, h.ent⟩
  image hsz hi := .image hsz hi
  sbrk h he := h.sbrk he

theorem LazyOk.marked {new lo hi : ℕ} (h : LazyOk sz d) (hnew : new < KERNLINK + PGSIZE)
    (hm : Marked d d' lo hi) : LazyOk new d' := by
  refine ⟨hnew, fun v => ?_⟩
  rw [hm.ent]
  split
  · exact (h.ent v).mark
  · exact h.ent v

theorem LazyOk.child {m : ℕ → Page} {c₀ c : Pgdir} {s : Phys Kmem} (h : LazyOk sz d)
    (hz : ∀ w < UPAGES, c₀.ent w = Pte.zero) (hker : c₀.KernelOk)
    (hc : Child d m c₀ (pages sz) s c) : LazyOk sz c := by
  have hc₀ : ∀ v, EntryOk v (c₀.ent v) := fun v => by
    rcases Nat.lt_or_ge v UPAGES with hv | hv
    · rw [hz v hv]
      exact .user hv fun _ => rfl
    · exact .of_kernelOk hker hv
  refine ⟨h.lt, fun v => ?_⟩
  rcases Nat.lt_or_ge v (pages sz) with hv | hv
  · cases hL : (d.ent v).LAZY with
    | true =>
      rw [hc.marked v hv hL]
      exact (hc₀ v).mark
    | false =>
      obtain ⟨hup, hfl, -⟩ := hc.copy v hv hL
      refine .user hup fun hl => ?_
      rw [hfl, hL] at hl
      cases hl
  · rw [hc.high v hv]
    exact hc₀ v

end Shape

section System

variable [Layout]

/-- The invariant. -/
def Ok (k : Kernel Kmem) : Prop := ∃ x, InvOf LazyOk x k

/-! ## What the operations do -/

/-- The faults on which the handler kills: the page is not lazy. -/
def kills (d : Pgdir) (va : ℕ) : Prop := check_if_lazy_or_not d va = false

/-- What a user access at `va` of the process `p`, to read or to write `w`, does. -/
inductive AccessEffect (x : Ledger ℕ) (p : ProcPtr) (va : ℕ) (w : Option UInt8)
    (k : Kernel Kmem) : Result → Kernel Kmem → Prop
  | direct {res : Result} {k' : Kernel Kmem} (h : AccessEnd kills p va w 0 k res k') :
      AccessEffect x p va w k res k'
  /-- A fault on a lazy page, and the instruction again. -/
  | fault {v : ℕ} {k' : Kernel Kmem} {d d' : Pgdir} {s' : Phys Kmem} {res : Result}
      (hv : va / 4096 = v) (hd : k.pgdir p = some d) (hL : (d.ent v).LAZY = true)
      (hf : FaultEffect d v (x + k.rest p) k.phys d' s')
      (ha : Acct InRange s'.kmem (x + k.rest p + d'.holds))
      (h : AccessEnd kills p va w 1 (k.setMem p s' (k.proc p).sz d'.flush) res k') :
      AccessEffect x p va w k res k'

/-- What an operation of the lazy kernel can do. -/
inductive Effect (x : Ledger ℕ) (k : Kernel Kmem) : Op → Result → Kernel Kmem → Prop
  | common {op : Op} {res : Result} {k' : Kernel Kmem} (h : CommonEffect x k op res k') :
      Effect x k op res k'
  | fork {p : ProcPtr} {d : Pgdir} {res : Result} {k' : Kernel Kmem}
      (hp : (k.proc p).state = .RUNNING) (hd : k.pgdir p = some d)
      (h : ForkEffect (CopyEffect d (k.proc p).sz) false x k p res k') : Effect x k (.fork p) res k'
  | mmap {p : ProcPtr} {n : ℤ} {d : Pgdir} {res : Result} {k' : Kernel Kmem}
      (hp : (k.proc p).state = .RUNNING) (hd : k.pgdir p = some d)
      (h : MmapEffect x k p d (argint n) res k') : Effect x k (.mmap p n) res k'
  | load {p : ProcPtr} {va : ℕ} {res : Result} {k' : Kernel Kmem}
      (hp : (k.proc p).state = .RUNNING) (h : AccessEffect x p (uint va) none k res k') :
      Effect x k (.load p va) res k'
  | store {p : ProcPtr} {va : ℕ} {b : UInt8} {res : Result} {k' : Kernel Kmem}
      (hp : (k.proc p).state = .RUNNING) (h : AccessEffect x p (uint va) (some b) k res k') :
      Effect x k (.store p va b) res k'

/-- An access stops the kernel where it kills `init`: the page is neither open to it nor lazy, or
lazy and without a frame to be had for it. -/
def AccessStop (k : Kernel Kmem) (p : ProcPtr) (va : ℕ) (write : Bool) (e : Panic) : Prop :=
  e = .initExiting ∧ k.initproc = some p ∧ ∃ d, k.pgdir p = some d ∧
    (¬∃ e, d.allows va write e) ∧
    ((d.ent (va / 4096)).LAZY = true → k.phys.free = [] ∨ UPAGES ≤ va / 4096 + 1)

/-- How an operation can stop. -/
def Stop (k : Kernel Kmem) (op : Op) (e : Panic) : Prop :=
  match op with
  | .fork p => k.proc.first (·.state = .UNUSED) ≠ none ∧ (e = .pidOverflow ∧ k.nextpid = INT_MAX ∨
      ∃ d n, k.pgdir p = some d ∧ k.phys.free.length = n + 66 ∧ CopyStop d (k.proc p).sz n e)
  | .mmap p n => ∃ d, k.pgdir p = some d ∧ MmapStop k p d (argint n) e
  | .load p va => AccessStop k p (uint va) false e
  | .store p va _ => AccessStop k p (uint va) true e
  | op => CommonStop k op e

variable {x : Ledger ℕ} {k k' : Kernel Kmem} {p : ProcPtr}

/-- What a user access does. -/
theorem access_spec (h : InvOf LazyOk x k) (hl : k.live p) {va : ℕ} (hva : va < 2 ^ 32)
    {w : Option UInt8} :
    wp (access tree p va w accessFuel 0) (AccessEffect x p va w k)
      (fun e _ => AccessStop k p va w.isSome e) k := by
  obtain ⟨d, f, hd, hf, hok⟩ := h.live p hl
  have hkill : ∀ {d : Pgdir}, kills d va → tree.pgflt d va = pure none := fun hk => by
    rw [kills] at hk
    simp only [tree, pgflt, hk, Bool.false_eq_true, if_false]
  generalize hv : va / 4096 = v
  by_cases hend : (∃ e, d.allows va w.isSome e) ∨ kills d va
  · refine wp_mono (@access_end_spec _ kills _ _ _ _ _ _ _ _ hd fun hn => ?_)
      (fun _ _ he => .direct he) fun e _ he => ⟨he.1, he.2.1, d, hd, he.2.2, fun hL => ?_⟩
    · exact ⟨hend.resolve_left hn, hkill (hend.resolve_left hn)⟩
    · have hk := hend.resolve_left he.2.2
      rw [kills, check_eq hva rfl, hL] at hk
      cases hk
  obtain ⟨hno, hk⟩ := not_or.mp hend
  have hL : (d.ent v).LAZY = true := by
    rw [kills, check_eq hva hv] at hk
    simpa using hk
  refine access_fault_spec hd (by simp [hf]) hno ?_
  refine wp_mono (pgflt_spec hva hv hL ((hok.ent v).excl hL) (h.acct_rest hl hd))
    (fun r s' hs => ?_) fun _ _ h => h.elim
  obtain ⟨d', rfl, hfault, ha⟩ := hs
  -- the mark is gone, so a second fault kills
  have hL' : (d'.flush.ent v).LAZY = false := by
    rw [Pgdir.ent_flush]
    cases hfault with
    | filled _ _ _ hr => rw [hr.ent, if_pos rfl]
    | spent _ _ hr => rw [hr.ent, if_pos rfl]
    | beyond _ hr => rw [hr.ent, if_pos rfl]
  have hk' : kills d'.flush va := (check_eq hva hv).trans hL'
  refine ⟨d', rfl, wp_mono (@access_end_spec _ kills _ _ _ _ _ _ _ _ Kernel.setMem_self.2
    fun _ => ⟨hk', hkill hk'⟩) (fun _ _ he => .fault hv hd hL hfault ha he)
    fun e _ he => ⟨he.1, he.2.1, d, hd, hno, fun _ => ?_⟩⟩
  rw [hv]
  cases hfault with
  | filled _ _ _ hr =>
    refine absurd ?_ he.2.2
    rw [Pgdir.exists_allows hva hv, Pgdir.ent_flush, hr.ent, if_pos rfl]
    simp [Pte.permits]
  | spent _ hfree => exact Or.inl hfree
  | beyond hge => exact Or.inr hge

/-- What the operations do, and how they can stop. -/
theorem step_spec (h : InvOf LazyOk x k) (op : Op) :
    wp (step tree op) (Effect x k op) (fun e _ => Stop k op e) k := by
  have huint : ∀ va, uint va < 2 ^ 32 := fun va => Nat.mod_lt _ (by decide)
  by_cases hop : op.common = true
  · refine wp_mono (common_spec tree shape_lazyOk h hop) (fun _ _ he => .common he)
      fun e k' he => ?_
    cases op <;> first | exact he | cases hop
  cases op with
  | fork p =>
    refine wp_whenRunning (fun hp => ?_) fun hp => .common (.disabled hp)
    have hl := live_of_running hp
    obtain ⟨d, f, hd, hf, hok⟩ := h.live p hl
    refine wp_mono (@forkWith_spec _ _ _ _ _ _ _ _ _ _ (CopyEffect d (k.proc p).sz) _ _ h hl hd
      fun r s ha => copyuvm_spec hok.pages_le ha) (fun _ _ he => .fork hp hd he) ?_
    rintro e k' ⟨hnp, hpid | ⟨s₁, g, hfree, n, hn, hc⟩⟩
    · exact ⟨hnp, Or.inl hpid⟩
    · refine ⟨hnp, Or.inr ⟨d, n, hd, ?_, hc⟩⟩
      rw [hfree, List.length_cons, hn]
  | mmap p n =>
    refine wp_whenRunning (fun hp => ?_) fun hp => .common (.disabled hp)
    have hl := live_of_running hp
    obtain ⟨d, f, hd, hf, hok⟩ := h.live p hl
    exact wp_mono (sys_mmap_spec (by simp [hf]) hd hok.lt (h.acct_rest hl hd))
      (fun _ _ he => .mmap hp hd he) fun e _ he => ⟨d, hd, he⟩
  | load p va =>
    refine wp_whenRunning (fun hp => ?_) fun hp => .common (.disabled hp)
    exact wp_post (access_spec h (live_of_running hp) (huint va)) fun _ _ he => .load hp he
  | store p va b =>
    refine wp_whenRunning (fun hp => ?_) fun hp => .common (.disabled hp)
    exact wp_post (access_spec h (live_of_running hp) (huint va)) fun _ _ he => .store hp he
  | _ => exact absurd rfl hop

/-! ## The invariant -/

theorem LazyOk.fault {sz v : ℕ} {r : Ledger ℕ} {s s' : Phys Kmem} {d d' : Pgdir}
    (h : LazyOk sz d) (hf : FaultEffect d v r s d' s') : LazyOk sz d' := by
  have hrep : ∀ {e : Pte}, EntryOk v e → Replaced d d' v e → LazyOk sz d' := fun he hr => by
    refine ⟨h.lt, fun w => ?_⟩
    rw [hr.ent]
    split
    · rename_i hw
      rwa [hw]
    · exact h.ent w
  cases hf with
  | filled hv _ _ hr => exact hrep (.user (Nat.lt_of_succ_lt hv) fun hl => by cases hl) hr
  | spent _ _ hr => exact hrep (h.ent v).clear hr
  | beyond _ hr => exact hrep (h.ent v).clear hr

theorem AccessEffect.inv {va : ℕ} {w : Option UInt8} {res : Result} (h : InvOf LazyOk x k)
    (hl : k.live p) (he : AccessEffect x p va w k res k') : InvOf LazyOk x k' := by
  cases he with
  | direct he => exact (he.same hl).inv h
  | @fault v _ d d' s' _ hv hd hL hf ha he =>
    have hok := (h.of_live hl hd).2.fault hf
    have h₁ : InvOf LazyOk x (k.setMem p s' (k.proc p).sz d'.flush) :=
      h.setMem hl ha ⟨hok.lt, hok.ent⟩
    exact (he.same ((Kernel.live_setMem p).mpr hl)).inv h₁

theorem MmapEffect.inv {n : ℤ} {d : Pgdir} {res : Result} (h : InvOf LazyOk x k) (hl : k.live p)
    (hd : k.pgdir p = some d) (hn : n < 2 ^ 31) (he : MmapEffect x k p d n res k') : Ok k' := by
  have hok := (h.of_live hl hd).2
  cases he with
  | refused => exact ⟨x, h⟩
  | marked _ hlt hm =>
    obtain ⟨x', ha, -⟩ := hm.acct
    exact ⟨x', h.setMem hl ha (hok.marked hlt hm.marked)⟩
  | @wrapped m new hn' hnew =>
    refine ⟨x, h.setMem hl (h.acct_rest hl hd) ⟨lt_of_le_of_lt ?_ hok.lt, hok.ent⟩⟩
    simp only [PGSIZE] at hn' hnew
    omega

/-- Every operation keeps the invariant. -/
theorem Effect.ok {op : Op} {res : Result} (h : InvOf LazyOk x k) (he : Effect x k op res k') :
    Ok k' := by
  cases he with
  | common hc => exact ⟨x, hc.inv shape_lazyOk h⟩
  | @fork p d _ _ hp hd hf =>
    have hl := live_of_running hp
    have hok := (h.of_live hl hd).2
    refine ⟨x, hf.inv h hl shape_lazyOk.flush fun r s res s' hc => ?_⟩
    cases hc with
    | copied hz hker hcov hc hk ho hlen =>
      exact ⟨hok, fun d₂ h₂ => Option.some.inj h₂ ▸ hok.child hz hker hc⟩
    | failed => exact ⟨hok, fun d₂ h₂ => by cases h₂⟩
  | mmap hp hd hm => exact hm.inv h (live_of_running hp) hd (argint_bounds _).2
  | load hp ha => exact ⟨x, ha.inv h (live_of_running hp)⟩
  | store hp ha => exact ⟨x, ha.inv h (live_of_running hp)⟩

/-- An operation that ends does what `Effect` says. -/
theorem effect_of_step {op : Op} {res : Result} (h : InvOf LazyOk x k)
    (hs : step tree op k = .ok res k') : Effect x k op res k' :=
  of_ok (step_spec h op) hs

/-- Every reachable state is in order. -/
theorem ok_of_reachable {C : Kernel Kmem → Op → Result → Prop} (h : Reachable tree C k) : Ok k :=
  h.induct (fun _ _ hb => ⟨0, hb.invOf shape_lazyOk⟩) fun _ _ _ _ ⟨_, ih⟩ _ hs =>
    (effect_of_step ih hs).ok ih

end System

end OsLabs.Lazy
