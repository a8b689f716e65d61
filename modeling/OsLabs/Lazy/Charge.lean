import OsLabs.Lazy.Counting

/-!
# Pages are charged on first touch

After `mmap` the process `p` and the children it forks read and write pages of the new region.
`Touching` follows such a run with a record of the pages each of them has accessed, itself or
through the parent it was forked from; other processes do as they like.

* `Member`: what holds of a process of the family, from its record;
* `Touching.members`: it holds throughout the run;
* `numpp_charged`: `numpp` exceeds its value before `mmap` by the number of recorded pages.
-/

namespace OsLabs.Lazy

open Xv6 StateError Ledger
open Base (Kmem)

/-! ## Runs over a region -/

/-- The operation is none of a recorded process, up to scheduling, waiting and failed forks. -/
def Bystander (T : ProcPtr → Option (Finset ℕ)) (k k' : Kernel Kmem) : Op → Prop
  | .fork q => T q = none ∨ ∀ np, k'.live np → k.live np
  | .sbrk q _ | .mmap q _ | .load q _ | .store q _ _ | .exec q _ _ | .exit q => T q = none
  | .sched _ | .yield _ | .wait _ | .kalloc | .kfree _ => True

/-- The runs from `k₁` in which the process `p` and its new descendants access pages of
`lo ≤ v < hi` and fork, without a failing `kalloc`. The record has the pages that each of them has
accessed, or its parent before the fork. -/
inductive Touching [Layout] (lo hi : ℕ) (k₁ : Kernel Kmem) (p : ProcPtr) :
    Kernel Kmem → (ProcPtr → Option (Finset ℕ)) → Prop
  | start : Touching lo hi k₁ p k₁ (Function.update (fun _ => none) p (some ∅))
  | access {k k' : Kernel Kmem} {T : ProcPtr → Option (Finset ℕ)} {q : ProcPtr} {t : Finset ℕ}
      {op : Op} {va : ℕ} {res : Result} (h : Touching lo hi k₁ p k T) (hq : T q = some t)
      (hop : access? op = some (q, va)) (hlo : lo ≤ va / PGSIZE) (hhi : va / PGSIZE < hi)
      (hs : step tree op k = .ok res k') (hr : res ≠ .disabled) (ho : k'.phys.oom = false) :
      Touching lo hi k₁ p k' (Function.update T q (some (insert (va / PGSIZE) t)))
  | fork {k k' : Kernel Kmem} {T : ProcPtr → Option (Finset ℕ)} {q np : ProcPtr} {t : Finset ℕ}
      {res : Result} (h : Touching lo hi k₁ p k T) (hq : T q = some t)
      (hs : step tree (.fork q) k = .ok res k') (hnew : ¬k.live np) (hnp : k'.live np)
      (ho : k'.phys.oom = false) : Touching lo hi k₁ p k' (Function.update T np (some t))
  | other {k k' : Kernel Kmem} {T : ProcPtr → Option (Finset ℕ)} {op : Op} {res : Result}
      (h : Touching lo hi k₁ p k T) (hs : step tree op k = .ok res k')
      (hb : Bystander T k k' op) (ho : k'.phys.oom = false) : Touching lo hi k₁ p k' T

/-- The address space of a recorded process: below `lo` the pages of `B` are present, in the region
those of `t`, and the others are lazy. -/
structure Charged (lo hi : ℕ) (B t : Finset ℕ) (d : Pgdir) : Prop where
  tables : ∀ v < hi, d.has (v / 1024)
  old : ∀ v < lo, (d.ent v).P = true ↔ v ∈ B
  touched : ∀ v ∈ t, (d.ent v).toFlags = { P := true, W := true, U := true }
  rest : ∀ v, lo ≤ v → v < hi → v ∉ t → (d.ent v).LAZY = true

/-- A recorded process. -/
structure Member (lo hi : ℕ) (B : Finset ℕ) (k : Kernel Kmem) (q : ProcPtr) (t : Finset ℕ) :
    Prop where
  active : k.active q
  sz : (k.proc q).sz = hi * PGSIZE
  region : ∀ v ∈ t, lo ≤ v ∧ v < hi
  dir : ∃ d, k.pgdir q = some d ∧ Charged lo hi B t d

section Charge

variable {lo hi : ℕ} {B t : Finset ℕ} {d d' : Pgdir} {k k' : Kernel Kmem} {p q : ProcPtr}

/-- The pages that `numpp` counts. -/
theorem Charged.card_present (h : Charged lo hi B t d) (hB : ∀ v ∈ B, v < lo)
    (ht : ∀ v ∈ t, lo ≤ v ∧ v < hi) (hle : lo ≤ hi) (hex : ∀ v, EntryOk v (d.ent v)) :
    (present d hi).card = B.card + t.card := by
  have hset : present d hi = B ∪ t := by
    ext v
    rw [mem_present, Finset.mem_union]
    rcases Nat.lt_or_ge v lo with hlow | hhigh
    · have hnt : v ∉ t := fun hv => absurd (ht v hv).1 (Nat.not_le.mpr hlow)
      rw [h.old v hlow]
      exact ⟨fun hv => Or.inl hv.2, fun hv => ⟨by omega, hv.resolve_right hnt⟩⟩
    · have hnB : v ∉ B := fun hv => absurd (hB v hv) (Nat.not_lt.mpr hhigh)
      constructor
      · rintro ⟨hv, hP⟩
        refine Or.inr (by_contra fun hnt => ?_)
        rw [(hex v).excl (h.rest v hhigh hv hnt)] at hP
        cases hP
      · intro hv
        have hvt := hv.resolve_left hnB
        exact ⟨(ht v hvt).2, by rw [h.touched v hvt]⟩
  rw [hset, Finset.card_union_of_disjoint]
  refine Finset.disjoint_left.mpr fun v hvB hvt => ?_
  exact absurd (ht v hvt).1 (Nat.not_le.mpr (hB v hvB))

theorem Charged.flush (h : Charged lo hi B t d) : Charged lo hi B t d.flush :=
  ⟨h.tables, h.old, h.touched, h.rest⟩

/-- A page of the region gets a frame. -/
theorem Charged.fill {v mem : ℕ} (h : Charged lo hi B t d) (hlo : lo ≤ v)
    (hr : Replaced d d' v { P := true, W := true, U := true, ppn := mem }) :
    Charged lo hi B (insert v t) d' := by
  refine ⟨fun w hw => (hr.has _).mpr (h.tables w hw), fun w hw => ?_, fun w hw => ?_,
    fun w h₁ h₂ h₃ => ?_⟩
  · rw [hr.ent, if_neg (by omega)]
    exact h.old w hw
  · rw [hr.ent]
    split
    · rfl
    · rename_i hne
      exact h.touched w ((Finset.mem_insert.mp hw).resolve_left hne)
  · rw [Finset.mem_insert, not_or] at h₃
    rw [hr.ent, if_neg h₃.1]
    exact h.rest w h₁ h₂ h₃.2

/-- The child has the same pages. -/
theorem Charged.child {m : ℕ → Page} {c₀ c : Pgdir} {s : Phys Kmem} (h : Charged lo hi B t d)
    (hle : lo ≤ hi) (ht : ∀ v ∈ t, lo ≤ v ∧ v < hi) (hex : ∀ v, EntryOk v (d.ent v))
    (hc : Child d m c₀ hi s c) : Charged lo hi B t c := by
  have hP : ∀ v < hi, (c.ent v).P = (d.ent v).P := by
    intro v hv
    cases hL : (d.ent v).LAZY with
    | true =>
      rw [hc.marked v hv hL, (hex v).excl hL]
      rfl
    | false => rw [(hc.copy v hv hL).2.1]
  refine ⟨fun v hv => (hc.has _).mpr (Or.inr ⟨v, hv, rfl⟩), fun v hv => ?_, fun v hv => ?_,
    fun v h₁ h₂ h₃ => ?_⟩
  · rw [hP v (by omega)]
    exact h.old v hv
  · have hfl := h.touched v hv
    rw [(hc.copy v (ht v hv).2 (by rw [hfl])).2.1, hfl]
  · rw [hc.marked v h₂ (h.rest v h₁ h₂ h₃)]
    rfl

end Charge

/-! ## The members of the family -/

section Members

variable [Layout] {x : Ledger ℕ} {lo hi : ℕ} {B t : Finset ℕ} {k k' : Kernel Kmem}
variable {p q : ProcPtr} {op : Op} {res : Result}

/-- The count of a member. -/
theorem Member.numpp_eq (h : Member lo hi B k q t) (hk : InvOf LazyOk x k)
    (hB : ∀ v ∈ B, v < lo) (hle : lo ≤ hi) : numpp q k = .ok (B.card + t.card) k := by
  obtain ⟨d, hd, hc⟩ := h.dir
  have hok := (hk.of_live h.active.1 hd).2
  have hpg : pages (k.proc q).sz = hi := by
    rw [h.sz]
    simp only [pages, PGSIZE]
    omega
  have htab : ∀ v < pages (k.proc q).sz, d.has (v / 1024) := by
    rw [hpg]
    exact hc.tables
  rw [numpp_spec hd hok.lt htab, hpg, hc.card_present hB h.region hle hok.ent]

/-- Operations that do not concern a member. -/
theorem Member.keep (h : Member lo hi B k q t) (hk : InvOf LazyOk x k)
    (he : Effect x k op res k') (hx : op ≠ .exit q) (h₁ : ∀ n, op ≠ .sbrk q n)
    (h₂ : ∀ n, op ≠ .mmap q n) (h₃ : ∀ ip argv, op ≠ .exec q ip argv)
    (h₄ : ∀ va, access? op ≠ some (q, va)) : Member lo hi B k' q t := by
  have hact := he.active h.active hx h₄
  obtain ⟨x', hk'⟩ := he.ok hk
  obtain ⟨d', -, hd', -⟩ := hk'.live q hact.1
  obtain ⟨hsz, d, hd, hs⟩ := (he.dir hact.1 hd').kept h.active.1 h₁ h₂ h₃ h₄
  obtain ⟨d₀, hd₀, hc⟩ := h.dir
  obtain rfl : d = d₀ := Option.some.inj (hd.symm.trans hd₀)
  refine ⟨hact, hsz.trans h.sz, h.region, d', hd', ?_⟩
  rcases hs with rfl | rfl
  · exact hc
  · exact hc.flush

/-- A member touches a page of the region. -/
theorem Member.access (h : Member lo hi B k q t) (hk : InvOf LazyOk x k) (hhi : hi < UPAGES)
    (he : Effect x k op res k') {va : ℕ} (hop : access? op = some (q, va))
    (hr : res ≠ .disabled) (hlo : lo ≤ va / PGSIZE) (hlt : va / PGSIZE < hi)
    (ho : k'.phys.oom = false) : Member lo hi B k' q (insert (va / PGSIZE) t) := by
  have hva := access?_lt hop
  obtain ⟨hrun, w, hacc⟩ := he.access hop hr
  obtain ⟨d, hd, hc⟩ := h.dir
  have hl := h.active.1
  have hex := (hk.of_live hl hd).2.ent
  generalize hv : va / PGSIZE = v at hlo hlt ⊢
  have hreg : ∀ u ∈ insert v t, lo ≤ u ∧ u < hi := by
    intro u hu
    rcases Finset.mem_insert.mp hu with rfl | hu
    · exact ⟨hlo, hlt⟩
    · exact h.region u hu
  cases hacc with
  | direct hend =>
    have hvt : v ∈ t := by
      -- an untouched page is lazy, and an access to it faults
      by_contra hnt
      have hL := hc.rest v hlo hlt hnt
      have hno : ∀ {b}, ¬∃ e, d.allows va b e := fun {b} => by
        rw [Pgdir.exists_allows hva hv, Pte.permits, (hex v).excl hL]
        simp
      cases hend with
      | load _ hd' ha => exact hno ⟨_, Option.some.inj (hd'.symm.trans hd) ▸ ha⟩
      | store _ hd' ha => exact hno ⟨_, Option.some.inj (hd'.symm.trans hd) ▸ ha⟩
      | killed hd' _ hkill =>
        obtain rfl := Option.some.inj (hd.symm.trans hd')
        rw [kills, check_eq hva hv, hL] at hkill
        cases hkill
    obtain ⟨hproc, hpg⟩ := hend.of_allows hd (allows_of_flags hva hv (hc.touched v hvt))
    rw [Finset.insert_eq_of_mem hvt]
    exact ⟨by rw [Kernel.active, hproc]; exact h.active, by rw [hproc]; exact h.sz, h.region, d,
      by rw [hpg]; exact hd, hc⟩
  | @fault v' _ d₀ d₁ s' _ hv' hd' hL hf ha hend =>
    obtain rfl : d = d₀ := Option.some.inj (hd.symm.trans hd')
    obtain rfl : v = v' := hv.symm.trans hv'
    have hoom : s'.oom = false := by
      rw [← ho]
      cases hend with
      | load => rfl
      | store => rfl
      | killed => rfl
    cases hf with
    | filled hup hmem hfree hrep hm ho' =>
      have hfl : (d₁.flush.ent v).toFlags = { P := true, W := true, U := true } := by
        rw [Pgdir.ent_flush, hrep.ent, if_pos rfl]
      obtain ⟨hproc, hpg⟩ := hend.of_allows Kernel.setMem_self.2 (allows_of_flags hva hv hfl)
      refine ⟨?_, ?_, hreg, d₁.flush, by rw [hpg]; exact Kernel.setMem_self.2,
        (hc.fill hlo hrep).flush⟩
      · rw [Kernel.active, hproc]
        exact Kernel.active_setMem.mpr h.active
      · rw [hproc, Kernel.setMem_self.1]
        exact h.sz
    | spent => cases hoom
    | beyond hge => omega

/-- A child of a member. -/
theorem Member.fork {np : ProcPtr} (h : Member lo hi B k q t) (hk : InvOf LazyOk x k)
    (hle : lo ≤ hi) (he : Effect x k (.fork q) res k') (hnew : ¬k.live np) (hnp : k'.live np) :
    Member lo hi B k' np t := by
  obtain ⟨x', hk'⟩ := he.ok hk
  obtain ⟨d', -, hd', -⟩ := hk'.live np hnp
  obtain ⟨d, hd, hc⟩ := h.dir
  have hex := (hk.of_live h.active.1 hd).2.ent
  have hact := he.active_child hnew hnp
  have hpg : pages (k.proc q).sz = hi := by
    rw [h.sz]
    simp only [pages, PGSIZE]
    omega
  cases he.dir hnp hd' with
  | common hs =>
    cases hs with
    | same hl => exact absurd hl hnew
    | sbrk hop => cases hop
    | image hop => cases hop
  | marked hop => cases hop
  | wrapped hop => cases hop
  | fault hop => cases hop
  | child hop hp hd₁ hun hsz hz hker hcov hch =>
    cases hop
    obtain rfl := Option.some.inj (hd.symm.trans hd₁)
    rw [hpg] at hch
    exact ⟨hact, hsz.trans h.sz, h.region, d', hd', hc.child hle h.region hex hch⟩

/-- Throughout a run over the region the records are right. -/
theorem Touching.members {k₁ : Kernel Kmem} {T : ProcPtr → Option (Finset ℕ)}
    (h : Touching lo hi k₁ p k T) (hok : Ok k₁) (hle : lo ≤ hi) (hhi : hi < UPAGES)
    (hp : Member lo hi B k₁ p ∅) : Ok k ∧ ∀ q t, T q = some t → Member lo hi B k q t := by
  induction h with
  | start =>
    refine ⟨hok, fun q t hq => ?_⟩
    by_cases hqp : q = p
    · subst hqp
      rw [Function.update_self] at hq
      cases hq
      exact hp
    · rw [Function.update_of_ne hqp] at hq
      cases hq
  | @access k k' T q t op va res h hq hop hlo hlt hs hr ho ih =>
    obtain ⟨⟨x, hx⟩, hm⟩ := ih
    have he := effect_of_step hx hs
    refine ⟨he.ok hx, fun j tj hj => ?_⟩
    by_cases hjq : j = q
    · subst hjq
      rw [Function.update_self] at hj
      cases hj
      exact (hm j t hq).access hx hhi he hop hr hlo hlt ho
    · rw [Function.update_of_ne hjq] at hj
      have hne : ∀ va', access? op ≠ some (j, va') := fun va' e => by
        rw [hop] at e
        cases e
        exact hjq rfl
      refine (hm j tj hj).keep hx he ?_ ?_ ?_ ?_ hne
      all_goals
        intros
        rintro rfl
        cases hop
  | @fork k k' T q np t res h hq hs hnew hnp ho ih =>
    obtain ⟨⟨x, hx⟩, hm⟩ := ih
    have he := effect_of_step hx hs
    refine ⟨he.ok hx, fun j tj hj => ?_⟩
    by_cases hjn : j = np
    · subst hjn
      rw [Function.update_self] at hj
      cases hj
      exact (hm q t hq).fork hx hle he hnew hnp
    · rw [Function.update_of_ne hjn] at hj
      exact (hm j tj hj).keep hx he (by simp) (by simp) (by simp) (by simp) (by simp [access?])
  | @other k k' T op res h hs hb ho ih =>
    obtain ⟨⟨x, hx⟩, hm⟩ := ih
    have he := effect_of_step hx hs
    refine ⟨he.ok hx, fun j tj hj => ?_⟩
    have hsome : T j ≠ none := by simp [hj]
    refine (hm j tj hj).keep hx he ?_ ?_ ?_ ?_ ?_
    · rintro rfl
      exact hsome hb
    · rintro n rfl
      exact hsome hb
    · rintro n rfl
      exact hsome hb
    · rintro ip argv rfl
      exact hsome hb
    · intro va hop
      cases op <;> cases hop <;> exact hsome hb

/-! ## What is charged -/

/-- The end of the process `p` stays at a page boundary, and no `kalloc` fails. -/
def Steady (p : ProcPtr) (k : Kernel Kmem) (op : Op) (res : Result) : Prop :=
  ∀ k', step tree op k = .ok res k' →
    (k'.live p → (k'.proc p).sz % PGSIZE = 0) ∧ k'.phys.oom = false

theorem whole_of_steady (h : Reachable tree (Steady p) k) : Ok k ∧ WholeSlot k p := by
  refine h.induct (P := fun k => Ok k ∧ WholeSlot k p) (fun M k hb => ?_)
    fun k op res k' ih hc hs => ?_
  · refine ⟨⟨0, hb.invOf shape_lazyOk⟩, fun d hl hd => ?_⟩
    obtain rfl := hb.eq_of_live hl
    obtain ⟨d', hd', hi, -⟩ := hb.dir
    obtain rfl : d' = d := Option.some.inj (hd'.symm.trans hd)
    rw [hb.sz]
    exact .image hi
  · obtain ⟨⟨x, hx⟩, hw⟩ := ih
    have he := effect_of_step hx hs
    exact ⟨he.ok hx, fun d hl hd => (he.dir hl hd).whole hw ((hc k' hs).1 hl)⟩

omit [Layout] in
/-- The process that has called `mmap`. -/
theorem Member.of_marked {m : ℕ} {d d' : Pgdir} {s' : Phys Kmem} (hw : WholeSlot k p)
    (hp : (k.proc p).state = .RUNNING) (hd : k.pgdir p = some d)
    (hm : Marked d d' ((k.proc p).sz / PGSIZE) ((k.proc p).sz / PGSIZE + m)) :
    Member ((k.proc p).sz / PGSIZE) ((k.proc p).sz / PGSIZE + m)
      (present d ((k.proc p).sz / PGSIZE)) (k.setMem p s' ((k.proc p).sz + m * PGSIZE) d') p ∅ := by
  have hwhole := hw d (live_of_running hp) hd
  have hal := hwhole.aligned
  simp only [PGSIZE] at hal hm ⊢
  refine ⟨Kernel.active_setMem.mpr (Kernel.active_of_running hp), ?_, by simp, d',
    Kernel.setMem_self.2, fun v hv => (hm.has _).mpr ?_, fun v hv => ?_, by simp,
    fun v h₁ h₂ _ => ?_⟩
  · rw [Kernel.setMem_self.1]
    simp only [PGSIZE]
    omega
  · rcases Nat.lt_or_ge v ((k.proc p).sz / 4096) with hlow | hhigh
    · refine Or.inl (hwhole.tables v ?_)
      simp only [pages]
      omega
    · exact Or.inr ⟨v, hhigh, hv, rfl⟩
  · rw [hm.ent, if_neg (by omega), mem_present]
    exact ⟨fun hP => ⟨hv, hP⟩, fun h => h.2⟩
  · rw [hm.ent, if_pos ⟨h₁, h₂⟩]
    rfl

/-- `mmap` of `m` pages adds them to `numvp` and leaves `numpp` as it is; from there on `numpp` of
the process and its children exceeds its old value by the number of pages accessed. -/
theorem numpp_charged {k₀ : Kernel Kmem} {d : Pgdir} {n : ℤ} {m : ℕ}
    (h₀ : Reachable tree (Steady p) k₀) (hp : (k₀.proc p).state = .RUNNING)
    (hd : k₀.pgdir p = some d) (hn : argint n = m * PGSIZE)
    (hlt : (k₀.proc p).sz + m * PGSIZE < KERNBASE)
    (hfree : (missing d ((k₀.proc p).sz / PGSIZE) ((k₀.proc p).sz / PGSIZE + m)).card ≤
      k₀.phys.free.length) :
    ∃ k₁ v c, step tree (.mmap p n) k₀ = .ok (.ret (k₀.proc p).sz) k₁ ∧
      numvp p k₀ = .ok v k₀ ∧ numpp p k₀ = .ok c k₀ ∧
      numvp p k₁ = .ok (v + m) k₁ ∧ numpp p k₁ = .ok c k₁ ∧
      ∀ k T, Touching ((k₀.proc p).sz / PGSIZE) ((k₀.proc p).sz / PGSIZE + m) k₁ p k T →
        ∀ q t, T q = some t → numpp q k = .ok (c + t.card) k := by
  obtain ⟨⟨x, hx⟩, hw⟩ := whole_of_steady h₀
  have hl := live_of_running hp
  have hok := (hx.of_live hl hd).2
  obtain ⟨s', d', hs, hm⟩ := step_mmap hx hp hd hn (lt_of_lt_KERNBASE hlt) hfree
  obtain ⟨x₁, hx₁⟩ := (effect_of_step hx hs).ok hx
  have hM : Member _ _ _ (k₀.setMem p s' _ d') p ∅ := .of_marked hw hp hd hm.marked
  have hal := (hw d hl hd).aligned
  have hpg : pages (k₀.proc p).sz = (k₀.proc p).sz / PGSIZE := by
    simp only [pages, PGSIZE] at hal ⊢
    omega
  have hhi : (k₀.proc p).sz / PGSIZE + m < UPAGES := by
    rw [KERNBASE_eq] at hlt
    rw [UPAGES_eq]
    simp only [PGSIZE] at hlt ⊢
    omega
  have hB : ∀ v ∈ present d ((k₀.proc p).sz / PGSIZE), v < (k₀.proc p).sz / PGSIZE :=
    fun v hv => (mem_present.mp hv).1
  have hle := Nat.le_add_right ((k₀.proc p).sz / PGSIZE) m
  have hpp := numpp_spec hd hok.lt (hw d hl hd).tables
  rw [hpg] at hpp
  refine ⟨_, _, _, hs, numvp_eq, hpp, ?_, hM.numpp_eq hx₁ hB hle, fun k T hT q t hq => ?_⟩
  · rw [numvp_eq, hM.sz, Nat.mul_div_cancel _ (by decide)]
  · obtain ⟨⟨x', hx'⟩, hall⟩ := hT.members ⟨x₁, hx₁⟩ hle hhi hM
    exact (hall q t hq).numpp_eq hx' hB hle

end Members

/-- `init` maps a page and reads it. -/
theorem numpp_charged_started : ∃ (_ : Layout) (k₀ k₁ k₂ : Kernel Kmem) (p : ProcPtr)
    (res : Result) (c : ℕ), Reachable tree (Steady p) k₀ ∧ (k₀.proc p).state = .RUNNING ∧
    step tree (.mmap p PGSIZE) k₀ = .ok (.ret PGSIZE) k₁ ∧
    step tree (.load p PGSIZE) k₁ = .ok res k₂ ∧
    numpp p k₀ = .ok c k₀ ∧ numpp p k₁ = .ok c k₁ ∧ numpp p k₂ = .ok (c + 1) k₂ := by
  let L := sampleLayout
  obtain ⟨k₀, d, hr, hk⟩ := exists_started (C := Steady initSlot) fun k k' d hs hst k'' hs' => by
    cases hs.symm.trans hs'
    exact ⟨fun _ => by rw [hst.sz]; rfl, hst.oom⟩
  have hn : argint (PGSIZE : ℕ) = (1 : ℕ) * PGSIZE := by decide
  have hlt : (k₀.proc initSlot).sz + 1 * PGSIZE < KERNBASE := by rw [hk.sz]; decide
  have hone : (k₀.proc initSlot).sz / PGSIZE = 1 := by rw [hk.sz]; rfl
  have hcard := card_missing_le d 1 (1 + 1)
  have hroom := hk.free
  have hfree : (missing d ((k₀.proc initSlot).sz / PGSIZE)
      ((k₀.proc initSlot).sz / PGSIZE + 1)).card ≤ k₀.phys.free.length := by
    rw [hone]
    omega
  obtain ⟨k₁, v, c, hs, -, hc₀, -, hc₁, htouch⟩ :=
    numpp_charged hr hk.running hk.dir hn hlt hfree
  have hret : step tree (.mmap initSlot PGSIZE) k₀ = .ok (.ret PGSIZE) k₁ := by rw [hs, hk.sz]
  obtain ⟨s', d', hs', hm⟩ := step_mmap hk.inv hk.running hk.dir hn (lt_of_lt_KERNBASE hlt) hfree
  cases hs.symm.trans hs'
  obtain ⟨x₁, hx₁⟩ := (effect_of_step hk.inv hs).ok hk.inv
  have hmk := hm.marked
  have hlen := hm.len
  rw [hone] at htouch hmk
  rw [hmk.numTables (by decide)] at hlen
  obtain ⟨b, s₂, d₂, mem, hload, -, ho⟩ := @step_load_lazy _ _ _ initSlot d' PGSIZE hx₁
    ((congrArg Proc.state (Table.set_self ..)).trans hk.running) Kernel.setMem_self.2 (by decide)
    (by rw [hmk.ent]; rfl) (by decide) (by
      intro hnil
      change s'.free = [] at hnil
      rw [hnil, List.length_nil] at hlen
      omega)
  refine ⟨L, k₀, _, _, initSlot, _, c, hr, hk.running, hret, hload, hc₀, hc₁, ?_⟩
  have hva : uint PGSIZE / PGSIZE = 1 := rfl
  have hop : access? (.load initSlot PGSIZE) = some (initSlot, uint PGSIZE) := rfl
  have hT := Touching.access .start (Function.update_self ..) hop (le_of_eq hva.symm)
    (hva.trans_lt (Nat.lt_succ_self 1)) hload (by simp) (ho.trans (hm.oom.trans hk.oom))
  exact htouch _ _ hT initSlot _ (Function.update_self ..)

end OsLabs.Lazy
