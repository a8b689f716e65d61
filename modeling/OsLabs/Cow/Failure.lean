import OsLabs.Cow.Handler
import OsLabs.Cow.Spawn

/-!
# When memory runs out

What the copy-on-write kernel leaves behind when an operation cannot get a frame, or is refused.

* `fork_rolls_back`: a `fork` that returns `-1` gives everything back, and has at most taken from
  the parent the right to write to pages nobody else uses, which the next write gives back.
* `sbrk_unnoticed_iff`: an `sbrk` that returns `-1` changes nothing the process can see, unless it
  asks for the size 0: then all pages are gone.
* `fault_never_harmless`: a write fault that finds the free list empty has already dropped its
  reference to the shared frame, and goes on to copy through the null pointer.
-/

namespace OsLabs.Cow

open Xv6 StateError Ledger

section Same

variable [Layout] {a b : Kmem} {o : Ledger ℕ}

/-- The ledger determines the free list, up to its order, and the counts. -/
theorem Balanced.same (ha : Balanced InRange a o) (hb : Balanced InRange b o) :
    (∀ f, f ∈ b.freelist ↔ f ∈ a.freelist) ∧ b.refcount_list = a.refcount_list := by
  refine ⟨fun f => ?_, ?_⟩
  · rw [hb.exact.mem_free, ha.exact.mem_free]
  · funext f
    rw [hb.count, ha.count]

end Same

/-! ## A failed `fork` -/

section Fork

variable [Layout] {k k' : Kernel Kmem} {p : ProcPtr}

/-- What a failed `fork` may do to an entry of the parent: take `PTE_W` away for `PTE_CoW`, where
nobody else uses the frame. -/
structure Restored (k' : Kernel Kmem) (e e' : Pte) : Prop where
  ppn : e'.ppn = e.ppn
  P : e'.P = e.P
  U : e'.U = e.U
  writable : e.W = true →
    e'.W = true ∨ e'.CoW = true ∧ k'.phys.kmem.refcount_list e'.ppn = 1
  other : e.W = false → e' = e

/-- A `fork` of `p` from `k` to `k'` has been undone. -/
structure RolledBack (p : ProcPtr) (k k' : Kernel Kmem) : Prop where
  free : ∀ f, f ∈ k'.phys.kmem.freelist ↔ f ∈ k.phys.kmem.freelist
  refcount : ∀ f, k'.phys.kmem.refcount_list f = k.phys.kmem.refcount_list f
  live : ∀ q, k'.live q ↔ k.live q
  pte : ∀ d, k.pgdir p = some d → ∃ d', k'.pgdir p = some d' ∧
    ∀ v < UPAGES, Restored k' (d.ent v) (d'.ent v)

omit [Layout] in
theorem Restored.refl (k' : Kernel Kmem) (e : Pte) : Restored k' e e :=
  ⟨rfl, rfl, rfl, Or.inl, fun _ => rfl⟩

/-- A writable page of a process is used by nobody else. -/
theorem Ok.refcount_of_W (h : Ok k) (hl : k.live p) {d : Pgdir} (hd : k.pgdir p = some d) {v : ℕ}
    (hv : v < UPAGES) (hW : (d.ent v).W = true) :
    k.phys.kmem.refcount_list (d.ent v).ppn = 1 := by
  rcases h.pages p d hl hd v hv with hz | ⟨hP, -, -, hn⟩
  · rw [hz] at hW
    cases hW
  · have hle := hn hW
    have hpos := held_of_present (x := 0) hl hd hv hP
    have hcount := h.inv.acct.count (d.ent v).ppn
    omega

omit [Layout] in
/-- The pages that have been protected before memory ran out. -/
theorem Protected.restored {d d' : Pgdir} {n v : ℕ} (hp : Protected d d' n)
    (hcount : (d.ent v).W = true → k'.phys.kmem.refcount_list (d.ent v).ppn = 1) :
    Restored k' (d.ent v) (d'.ent v) := by
  rw [hp.ent]
  split
  · refine ⟨protect_ppn _, protect_P _, protect_U _, fun hW => Or.inr ⟨?_, ?_⟩, fun hW => ?_⟩
    · rw [protect_CoW, hW, Bool.true_or]
    · rw [protect_ppn]
      exact hcount hW
    · rw [protect, if_neg (by rw [hW]; decide)]
  · exact .refl _ _

/-- A `fork` that returns `-1` has been undone. -/
theorem fork_rolls_back {C : Kernel Kmem → Op → Result → Prop} (h : Reachable tree C k)
    (hs : step tree (.fork p) k = .ok (.ret (-1)) k') : RolledBack p k k' := by
  have hok := ok_of_reachable h
  generalize hres : Result.ret (-1) = res at hs
  cases hok.effect hs with
  | common he =>
    cases he with
    | disabled => cases hres
  | @fork _ d _ _ hp hd he =>
    have hl := live_of_running hp
    have hbal := hok.inv.acct_rest hl hd
    cases he with
    | full => exact ⟨fun _ => Iff.rfl, fun _ => rfl, fun _ => Iff.rfl, fun d₁ hd₁ =>
        ⟨d₁, hd₁, fun v _ => .refl _ _⟩⟩
    | @noStack np hnp =>
      have hun : (k.proc np).state = .UNUSED := by simpa using Table.first_some hnp
      exact ⟨fun _ => Iff.rfl, fun _ => rfl, fun _ => Kernel.live_unborn hun, fun d₁ hd₁ =>
        ⟨d₁, hd₁, fun v _ => .refl _ _⟩⟩
    | @noCopy np f s₁ s₂ s' d' hnp _ _ _ _ hc ha =>
      have hun : (k.proc np).state = .UNUSED := by simpa using Table.first_some hnp
      have hne : p ≠ np := fun e => hl (by rw [e]; exact hun)
      cases hc with
      | failed _ hprot =>
        rw [hprot.holds] at ha
        obtain ⟨hfree, hcount⟩ := Balanced.same hbal ha
        refine ⟨hfree, fun f => congrFun hcount f, fun _ => Kernel.live_unborn hun, fun d₁ hd₁ => ?_⟩
        obtain rfl : d = d₁ := Option.some.inj (hd.symm.trans hd₁)
        refine ⟨d', ?_, fun v hv => hprot.restored fun hW => ?_⟩
        · dsimp only [Kernel.unborn]
          rw [Function.update_of_ne hne, Function.update_self]
        · exact (congrFun hcount _).trans (hok.refcount_of_W hl hd hv hW)
    | born => cases hres

/-! ## A failed `sbrk` -/

/-- An operation of `p` from `k` to `k'` has changed nothing that the process can see, and keeps
no new frame but for page tables. -/
structure Unnoticed (p : ProcPtr) (k k' : Kernel Kmem) : Prop where
  sz : (k'.proc p).sz = (k.proc p).sz
  pte : ∀ d, k.pgdir p = some d → ∃ d', k'.pgdir p = some d' ∧ ∀ v < UPAGES,
    (d.ent v).P = true ∨ (d'.ent v).P = true → d'.ent v = d.ent v
  refcount : ∀ f, k.mapCount f ≠ 0 →
    k'.phys.kmem.refcount_list f = k.phys.kmem.refcount_list f
  data : ∀ f, f ∈ k.phys.kmem.freelist → f ∉ k'.phys.kmem.freelist →
    ∃ d' i t, k'.pgdir p = some d' ∧ d'.pde i = some t ∧ f = t.frame

omit [Layout] in
theorem Unnoticed.refl (p : ProcPtr) (k : Kernel Kmem) : Unnoticed p k k :=
  ⟨rfl, fun d hd => ⟨d, hd, fun _ _ _ => rfl⟩, fun _ _ => rfl, fun _ hf hf' => absurd hf hf'⟩

/-- New page tables are all that can be left of a change that leaves the entries alone. -/
theorem Ok.unnoticed (h : Ok k) (hl : k.live p) {d d' : Pgdir} (hd : k.pgdir p = some d)
    {s' : Phys Kmem} (hframe : d'.frame = d.frame) (hent : ∀ v < UPAGES, d'.ent v = d.ent v)
    (ha : Balanced InRange s'.kmem (0 + k.rest p + d'.holds)) :
    Unnoticed p k (k.setMem p s' (k.proc p).sz d') := by
  have huses : d'.uses = d.uses := Pgdir.uses_congr fun v hv => by rw [hent v hv]
  have hbal := h.inv.acct_rest hl hd
  have hfst : ∀ f, ((0 + k.rest p + d'.holds) f).1 = ((0 + k.rest p + d.holds) f).1 := fun f => by
    simp only [Pi.add_apply, Prod.fst_add, Pgdir.holds_fst, huses]
  refine ⟨Kernel.setMem_self.1, fun d₁ hd₁ => ?_, fun f hf => ?_, fun f hf hf' => ?_⟩
  · obtain rfl : d = d₁ := Option.some.inj (hd.symm.trans hd₁)
    exact ⟨d', Kernel.setMem_self.2, fun v hv _ => hent v hv⟩
  · -- a mapped frame is nobody's exclusively, before or after
    have h₁ : ((0 + k.rest p + d.holds) f).1 ≠ 0 := by
      rwa [add_assoc, ← Kernel.total_eq_rest hl hd, zero_add, Kernel.total_fst]
    have h₂ : ((0 + k.rest p + d'.holds) f).1 ≠ 0 := by rwa [hfst f]
    have hx : ∀ {o : Ledger ℕ} {a : Kmem}, Balanced InRange a o → (o f).1 ≠ 0 → (o f).2 = 0 := by
      intro o a hb h1
      by_contra h2
      rw [hb.exact.excl_alone f h2] at h1
      exact h1 rfl
    have hs : (k.setMem p s' (k.proc p).sz d').phys.kmem.refcount_list f =
        refs (0 + k.rest p + d'.holds) f := ha.count f
    rw [hs, hbal.count f, refs, refs, hx ha h₂, hx hbal h₁, hfst f]
  · have h₀ := (hbal.exact.mem_free.mp hf).2
    have h₁ : (0 + k.rest p + d'.holds) f ≠ 0 := fun e =>
      hf' (ha.exact.mem_free.mpr ⟨(hbal.exact.mem_free.mp hf).1, e⟩)
    simp only [Pgdir.holds, hframe, huses, Pi.add_apply, ne_eq, add_eq_zero] at h₀ h₁
    have ht : d'.tables f ≠ 0 := fun e => h₁ ⟨h₀.1, ⟨h₀.2.1.1, e⟩, h₀.2.2⟩
    have hsnd : (d'.tables f).2 ≠ 0 := fun e => ht (Prod.ext (d'.tables_fst f) e)
    obtain ⟨i, -, t, hi, rfl⟩ := Pgdir.tables_snd_ne_zero.mp hsnd
    exact ⟨d', i, t, Kernel.setMem_self.2, hi, rfl⟩

/-- The entry of a page that is not present is zero. -/
theorem Ok.ent_of_not_P (h : Ok k) (hl : k.live p) {d : Pgdir} (hd : k.pgdir p = some d) {v : ℕ}
    (hv : v < UPAGES) (hP : (d.ent v).P = false) : d.ent v = Pte.zero := by
  rcases h.pages p d hl hd v hv with hz | ⟨hP', -⟩
  · exact hz
  · rw [hP] at hP'
    cases hP'

/-- An `sbrk` that returns `-1` changes nothing the process can see, unless the process has a page
and asks for the size 0. -/
theorem sbrk_unnoticed_iff {C : Kernel Kmem → Op → Result → Prop} {n : ℤ}
    (h : Reachable tree C k) (hs : step tree (.sbrk p n) k = .ok (.ret (-1)) k') :
    Unnoticed p k k' ↔ ¬((k.proc p).sz + argint n = 0 ∧
      ∃ d, k.pgdir p = some d ∧ ∃ v < UPAGES, (d.ent v).P = true) := by
  have hok := ok_of_reachable h
  generalize hres : Result.ret (-1) = res at hs
  cases hok.effect hs with
  | common he =>
    cases he with
    | disabled => cases hres
    | @sbrk _ _ d _ _ hp hd he =>
      have hl := live_of_running hp
      obtain ⟨s', sz', d', rfl, ha, -, he⟩ := he
      cases he with
      | same => cases hres
      | grown => cases hres
      | shrunk => cases hres
      | refused hr =>
        refine iff_of_true (hok.unnoticed hl hd rfl (fun _ _ => rfl) ha) ?_
        rintro ⟨hz, d₁, hd₁, v, hv, hP⟩
        obtain rfl : d = d₁ := Option.some.inj (hd.symm.trans hd₁)
        rcases hr with hr | ⟨hneg, h0⟩
        · rw [KERNBASE_eq] at hr
          omega
        · omega
      | @failed s₁ new d₁ hpos hnew hlt ho hu =>
        refine iff_of_true (hok.unnoticed hl hd hu.frame (fun v hv => ?_) ha) fun hz => by omega
        by_cases hin : pages (k.proc p).sz ≤ v ∧ v < pages new
        · have hzero := hok.ent_of_not_P hl hd hv (hok.tight p d hl hd v hin.1 hv)
          rcases (hu.absent v hin.1 hin.2).2 with e | e
          · rw [e, hzero]
          · exact e
        · exact hu.out v (by omega)
      | emptied hneg hz ho hc =>
        have hent : ∀ v, v < pages (k.proc p).sz → (d.ent v).P = true → d'.ent v = Pte.zero := by
          intro v hv hP
          rw [hc.ent, if_pos ⟨Nat.zero_le v, hv, hP⟩]
        constructor
        · rintro hun ⟨-, d₁, hd₁, v, hv, hP⟩
          obtain rfl : d = d₁ := Option.some.inj (hd.symm.trans hd₁)
          have hlt : v < pages (k.proc p).sz := by
            by_contra hge
            rw [hok.tight p d hl hd v (Nat.le_of_not_lt hge) hv] at hP
            cases hP
          obtain ⟨d₂, hd₂, hsame⟩ := hun.pte d hd
          obtain rfl : d' = d₂ := Option.some.inj (Kernel.setMem_self.2.symm.trans hd₂)
          have := hsame v hv (Or.inl hP)
          rw [hent v hlt hP] at this
          rw [← this] at hP
          cases hP
        · intro hno
          refine hok.unnoticed hl hd hc.frame (fun v hv => ?_) ha
          rw [hc.ent, if_neg]
          rintro ⟨-, -, hP⟩
          exact hno ⟨hz, d, hd, v, hv, hP⟩

/-! ## A write fault that finds no frame -/

/-- The page tables, the counts and the frames of `k'` are those of `k`. -/
structure SameMemory (k k' : Kernel Kmem) : Prop where
  ent : ∀ q d, k.pgdir q = some d → ∃ d', k'.pgdir q = some d' ∧ ∀ v, d'.ent v = d.ent v
  refcount : ∀ f, k'.phys.kmem.refcount_list f = k.phys.kmem.refcount_list f
  mem : ∀ f, k'.phys.mem f = k.phys.mem f

/-- The handling of a fault of `p` at `va` leaves the memory as it was, however it ends. -/
def FaultHarmless (k : Kernel Kmem) (p : ProcPtr) (va : ℕ) : Prop :=
  wp (trapPgflt tree p va) (fun _ k' => SameMemory k k') (fun _ k' => SameMemory k k') k

/-- The handler drops the reference to a shared frame before it asks for another one. -/
theorem trapPgflt_exhausted {d : Pgdir} {va : ℕ} (hd : k.pgdir p = some d) (hva : va < 2 ^ 32)
    (hcow : CowPage d va) (hfree : k.phys.kmem.freelist = [])
    (hsh : 1 < k.phys.kmem.refcount_list (d.ent (va / 4096)).ppn) :
    ∃ k', trapPgflt tree p va k = .error .nullDeref k' ∧
      k'.phys.kmem.refcount_list (d.ent (va / 4096)).ppn =
        k.phys.kmem.refcount_list (d.ent (va / 4096)).ppn - 1 := by
  have hfind := Pgdir.find_of_has hva hcow.1
  have hcheck : check_CoW_bit_set_or_not d va = true := by
    rw [check_CoW_bit_set_or_not, hfind]
    exact hcow.2.2
  refine ⟨{ k with phys := { k.phys with
    kmem := k.phys.kmem.setRef (d.ent (va / 4096)).ppn
      (k.phys.kmem.refcount_list (d.ent (va / 4096)).ppn - 1)
    oom := true } }, eq_error_of_wp ?_, ?_⟩
  · unfold trapPgflt
    simp only [wp_bind, wp_getPgdir hd, wp_onPhys]
    change wp (pgflt d va) _ _ k.phys
    rw [pgflt, if_pos hcheck, makeCopy, hfind]
    simp only [wp_bind, wp_get_refcount]
    rw [if_pos hsh]
    simp only [wp_bind, decrease_refcount, wp_modify, kalloc, wp_get, Kmem.setRef_freelist, hfree,
      wp_set, wp_pure, wp_throw]
    exact ⟨trivial, trivial⟩
  · rw [Kmem.setRef_apply, if_pos rfl]

/-- A fault on a shared copy-on-write page that finds the free list empty is never harmless: the
count of the shared frame is one too low afterwards. -/
theorem fault_never_harmless {d : Pgdir} {va : ℕ} (hd : k.pgdir p = some d) (hva : va < 2 ^ 32)
    (hcow : CowPage d va) (hfree : k.phys.kmem.freelist = [])
    (hsh : 1 < k.phys.kmem.refcount_list (d.ent (va / 4096)).ppn) : ¬FaultHarmless k p va := by
  obtain ⟨k', hk', hcount⟩ := trapPgflt_exhausted hd hva hcow hfree hsh
  intro hh
  have := (of_error hh hk').refcount (d.ent (va / 4096)).ppn
  omega

/-- The kernel can take all free frames. -/
theorem exists_exhausted (h : Reachable tree anyOp k) : ∃ k', Reachable tree anyOp k' ∧
    k'.phys.free = [] ∧ k'.proc = k.proc ∧ k'.pgdir = k.pgdir ∧ k'.nextpid = k.nextpid ∧
    ∀ f, refs k.total f ≤ refs k'.total f := by
  obtain ⟨k', hk', hfree, hrest⟩ :=
    exists_free (fun _ _ => trivial) (fun k h => ⟨_, (ok_of_reachable h).inv.acct⟩) h (Nat.zero_le _)
  exact ⟨k', hk', List.eq_nil_of_length_eq_zero hfree, hrest⟩

end Fork

/-- An `sbrk` of the first process comes to an end. -/
theorem Single.sbrk [Layout] {k : Kernel Kmem} {d : Pgdir} {m : ℕ} (h : Single k d m) (n : ℤ) :
    ∃ (res : Result) (k' : Kernel Kmem), step tree (.sbrk initSlot n) k = .ok res k' ∧
      MemPost 0 k initSlot (SbrkEffect (0 + k.rest initSlot) k.phys d PGSIZE (argint n)) res k' := by
  have hstop : ∀ e k', ¬Stop k (.sbrk initSlot n) e k' := by
    have hl := live_of_running h.running
    rintro e k' ⟨d₁, hd₁, ⟨-, v, hge, hv, hP⟩ | ⟨-, ho⟩⟩
    · rw [h.ok.tight initSlot d₁ hl hd₁ v hge hv] at hP
      cases hP
    · exact Pgdir.not_overlaps (h.ok.inv.of_live hl hd₁).2.1 ho
  obtain ⟨res, k', hs, he⟩ :=
    wp_ok (wp_mono (step_spec h.ok (.sbrk initSlot n)) (fun _ _ h => h) hstop)
  refine ⟨res, k', hs, ?_⟩
  cases he with
  | common he =>
    cases he with
    | disabled hno => exact absurd h.running hno
    | @sbrk _ _ d₁ _ _ _ hd₁ he =>
      obtain rfl : d₁ = d := Option.some.inj (hd₁.symm.trans h.dir)
      rw [h.sz] at he
      exact he

/-- `init` has grown to 1025 pages, and 67 frames are free: enough for a kernel stack, a directory,
the kernel's page tables and one page table for the user. -/
theorem exists_crowded : letI := sampleLayout
    ∃ (k : Kernel Kmem) (d : Pgdir), Reachable tree anyOp k ∧
      (k.proc initSlot).state = .RUNNING ∧ (k.proc initSlot).sz = 1025 * 4096 ∧
      k.pgdir initSlot = some d ∧ (∀ w < 1025, (d.ent w).P = true ∧ (d.ent w).W = true) ∧
      k.nextpid = 2 ∧ k.proc.first (·.state = .UNUSED) ≠ none ∧ k.phys.free.length = 67 := by
  let L := sampleLayout
  obtain ⟨k₀, d₀, hr₀, hk₀, ht, hn, -, -, hW⟩ := exists_single (C := anyOp) fun _ _ _ => trivial
  obtain ⟨res, k₁, hs, s', sz', d', rfl, -, -, he⟩ := hk₀.sbrk 4194304
  have harg : argint 4194304 = 4194304 := by decide
  have hfree := hk₀.free
  rw [harg, PGSIZE] at he
  cases he with
  | same h => omega
  | refused h =>
    rw [KERNBASE_eq] at h
    omega
  | failed _ hnew _ _ _ _ hlen =>
    simp only [pages] at hlen
    omega
  | shrunk hneg => omega
  | emptied hneg => omega
  | @grown _ _ d₁ _ hnew _ _ hg _ _ hlen =>
    obtain rfl : sz' = 1025 * 4096 := by omega
    have hold : pages 4096 = 1 := rfl
    have hpages : pages (1025 * 4096) = 1025 := rfl
    rw [hold, hpages] at hg hlen
    obtain ⟨k, hr, hfree', hproc, hpg, hpid, -⟩ := exists_free (fun _ _ => trivial)
      (fun _ h => ⟨_, (ok_of_reachable h).inv.acct⟩) (.step hr₀ hs trivial)
      (show 67 ≤ s'.free.length by omega)
    refine ⟨k, d₁.flush, hr, ?_, ?_, ?_, fun w hw => ?_, hpid.trans hn, ?_, hfree'⟩
    · rw [hproc]
      exact (congrArg Proc.state (Table.set_self ..)).trans hk₀.running
    · rw [hproc]
      exact Kernel.setMem_self.1
    · rw [hpg]
      exact Kernel.setMem_self.2
    · rw [Pgdir.ent_flush]
      by_cases h0 : w < 1
      · obtain rfl := Nat.lt_one_iff.mp h0
        rw [hg.out 0 (Or.inl h0)]
        exact ⟨hk₀.P, hW⟩
      · have hfl := hg.flags w (by omega) hw
        exact ⟨congrArg Flags.P hfl, congrArg Flags.W hfl⟩
    · have hslot : ((k₀.setMem initSlot s' (1025 * 4096) d₁.flush).proc.first
          (·.state = .UNUSED)) = some ⟨1, by decide⟩ := by
        rw [Kernel.setMem, ht]
        rfl
      rw [hproc, hslot]
      exact Option.some_ne_none _

/-- A `fork` that runs out of memory at the second page table, when the pages of the first one have
been shared: the parent's first page is left copy-on-write, and all else is as before. -/
theorem fork_rolls_back_shared : ∃ (_ : Layout) (k k' : Kernel Kmem) (p : ProcPtr) (d d' : Pgdir),
    Reachable tree anyOp k ∧ step tree (.fork p) k = .ok (.ret (-1)) k' ∧
      k.pgdir p = some d ∧ k'.pgdir p = some d' ∧ (d.ent 0).W = true ∧
      (d'.ent 0).W = false ∧ (d'.ent 0).CoW = true ∧ RolledBack p k k' := by
  let L := sampleLayout
  obtain ⟨k, d, hr, hrun, hsz, hd, hpages, hn, hslot, hfree⟩ := exists_crowded
  have hl := live_of_running hrun
  have hone : pages (k.proc initSlot).sz = 1025 := by rw [hsz]; rfl
  have htables : userTables (k.proc initSlot).sz = 2 := by rw [userTables, hone]
  have hwp : wp (step tree (.fork initSlot)) (fun res k' => res = .ret (-1) ∧
      ∃ n d', 0 < n ∧ Protected d d' n ∧ k'.pgdir initSlot = some d') (fun _ _ => False) k := by
    refine (wp_whenRunning_of hrun).mpr ?_
    refine wp_mono (fork_copied (ok_of_reachable hr) hl hd) (fun res k' he => ?_) fun _ _ he => ?_
    · cases he with
      | full hnone => exact absurd hnone hslot
      | noStack _ hnil =>
        rw [hnil] at hfree
        cases hfree
      | noCopy hnp _ _ _ hcons hc =>
        rw [hcons, List.length_cons] at hfree
        obtain ⟨n, hpos, hp⟩ := hc.shares rfl (by omega)
        have hne : initSlot ≠ _ := fun e => hl (by rw [e]; exact of_decide_eq_true (Table.first_some hnp))
        refine ⟨rfl, n, _, hpos, hp, ?_⟩
        change Function.update (Function.update k.pgdir initSlot _) _ none initSlot = _
        rw [Function.update_of_ne hne, Function.update_self]
      | born _ _ _ _ hcons hc =>
        have hroom := hc.frames _ rfl
        rw [hcons, List.length_cons] at hfree
        omega
    · rcases he with hmax | ⟨w, hw, habs⟩
      · exact absurd (hn.symm.trans hmax) (by decide)
      · rw [(hpages w (hone ▸ hw)).1] at habs
        cases habs
  obtain ⟨res, k', hs, rfl, n, d', hpos, hp, hd'⟩ := wp_ok hwp
  have hW := (hpages 0 (by decide)).2
  have hent : d'.ent 0 = protect (d.ent 0) := by rw [hp.ent, if_pos hpos]
  refine ⟨L, k, k', initSlot, d, d', hr, hs, hd, hd', hW, ?_, ?_, fork_rolls_back hr hs⟩
  · rw [hent, protect_W]
  · rw [hent, protect_CoW, hW, Bool.true_or]

/-- The frames that an `sbrk` adds were free. -/
theorem Ok.new_pages_le [Layout] {k : Kernel Kmem} {p : ProcPtr} (h : Ok k) (hl : k.live p)
    {d d' : Pgdir} (hd : k.pgdir p = some d) {s' : Phys Kmem} {sz' lo hi : ℕ}
    (h' : Ok (k.setMem p s' sz' d')) (hhi : hi ≤ UPAGES)
    (hP : ∀ w, lo ≤ w → w < hi → (d'.ent w).P = true)
    (hnew : NewPages (0 + k.rest p + d.holds) s' d' lo hi) : hi - lo ≤ k.phys.free.length := by
  have hl' : (k.setMem p s' sz' d').live p := (Kernel.live_setMem p).mpr hl
  have hd' : (k.setMem p s' sz' d').pgdir p = some d' := Kernel.setMem_self.2
  have hinj : Set.InjOn (fun w => (d'.ent w).ppn) (Finset.Ico lo hi : Set ℕ) := by
    intro v hv w hw he
    obtain ⟨hv₁, hv₂⟩ := Finset.mem_Ico.mp hv
    obtain ⟨hw₁, hw₂⟩ := Finset.mem_Ico.mp hw
    exact h'.inj p d' hl' hd' v w (hv₂.trans_le hhi) (hw₂.trans_le hhi) (hP v hv₁ hv₂)
      (hP w hw₁ hw₂) he
  have hsub : (Finset.Ico lo hi).image (fun w => (d'.ent w).ppn) ⊆ k.phys.free.toFinset := by
    intro f hf
    obtain ⟨w, hw, rfl⟩ := Finset.mem_image.mp hf
    obtain ⟨hw₁, hw₂⟩ := Finset.mem_Ico.mp hw
    have hheld := held_of_present (x := 0) hl' hd' (hw₂.trans_le hhi) (hP w hw₁ hw₂)
    have hdom := h'.inv.acct.exact.held_dom _ (refs_pos.mp hheld)
    have hzero := (hnew w hw₁ hw₂).1
    rw [add_assoc, ← Kernel.total_eq_rest hl hd] at hzero
    exact List.mem_toFinset.mpr (h.inv.acct.exact.mem_free.mpr ⟨hdom, hzero⟩)
  calc hi - lo = ((Finset.Ico lo hi).image fun w => (d'.ent w).ppn).card := by
        rw [Finset.card_image_of_injOn hinj, Nat.card_Ico]
    _ ≤ k.phys.free.toFinset.card := Finset.card_le_card hsub
    _ ≤ k.phys.free.length := List.toFinset_card_le _

/-- `init` asks for two pages when one frame is left. The page it gets is taken back. -/
theorem sbrk_unnoticed_undone : ∃ (_ : Layout) (k k' : Kernel Kmem) (p : ProcPtr),
    Reachable tree anyOp k ∧ (k.proc p).sz = 4096 ∧ k.phys.free.length = 1 ∧
      step tree (.sbrk p 8192) k = .ok (.ret (-1)) k' ∧ Unnoticed p k k' := by
  let L := sampleLayout
  obtain ⟨k₀, d, hr₀, hk₀, -⟩ := exists_single (C := anyOp) fun _ _ _ => trivial
  have hroom := hk₀.free
  obtain ⟨k, hr, hfree, hproc, hpg, -⟩ := exists_free (n := 1) (fun _ _ => trivial)
    (fun _ h => ⟨_, (ok_of_reachable h).inv.acct⟩) hr₀ (by omega)
  have hk : Single k d 1 := ⟨ok_of_reachable hr, by rw [hproc, hk₀.running], by rw [hproc, hk₀.sz],
    by rw [hpg, hk₀.dir], hk₀.P, hk₀.U, hfree.ge, by rw [hproc]; exact hk₀.zombie⟩
  have hsz : (k.proc initSlot).sz = 4096 := hk.sz
  obtain ⟨res, k', hs, s', sz', d', rfl, -, -, he⟩ := hk.sbrk 8192
  have harg : argint 8192 = 8192 := by decide
  rw [harg, PGSIZE] at he
  have hres : res = .ret (-1) := by
    cases he with
    | same h => omega
    | shrunk hneg => omega
    | grown _ hnew _ _ hg hf =>
      obtain rfl : sz' = 3 * 4096 := by omega
      have hle := hk.ok.new_pages_le (live_of_running hk.running) hk.dir
        ((hk.ok.effect hs).ok hk.ok) (show 3 ≤ UPAGES by decide)
        (fun w h₁ h₂ => congrArg Flags.P (hg.flags w h₁ h₂)) hf
      exact absurd hle (by rw [hfree]; decide)
    | _ => rfl
  rw [hres] at hs
  refine ⟨L, k, _, initSlot, hr, hsz, hfree, hs, (sbrk_unnoticed_iff hr hs).mpr fun hz => ?_⟩
  rw [hsz, harg] at hz
  omega

/-- `init` gives back its only page; `sbrk` returns `-1`, and the page is gone. -/
theorem sbrk_to_zero_noticed : ∃ (_ : Layout) (k k' : Kernel Kmem) (p : ProcPtr),
    Reachable tree anyOp k ∧ step tree (.sbrk p (-4096)) k = .ok (.ret (-1)) k' ∧
      ¬Unnoticed p k k' := by
  let L := sampleLayout
  obtain ⟨k, d, hr, hk, -⟩ := exists_single (C := anyOp) fun _ _ _ => trivial
  obtain ⟨res, k', hs, s', sz', d', rfl, -, -, he⟩ := hk.sbrk (-4096)
  have harg : argint (-4096) = -4096 := by decide
  rw [harg, PGSIZE] at he
  cases he with
  | same h => omega
  | refused h =>
    rw [KERNBASE_eq] at h
    omega
  | grown hpos => omega
  | failed hpos => omega
  | shrunk _ hnew hpos => omega
  | emptied _ _ _ hc =>
    refine ⟨L, k, _, initSlot, hr, hs, fun hun => ?_⟩
    obtain ⟨d₂, hd₂, hsame⟩ := hun.pte d hk.dir
    obtain rfl : d' = d₂ := Option.some.inj (Kernel.setMem_self.2.symm.trans hd₂)
    have h₀ := hsame 0 (by decide) (Or.inl hk.P)
    have hP := hk.P
    rw [hc.ent, if_pos ⟨le_refl 0, by decide, hP⟩] at h₀
    rw [← h₀] at hP
    cases hP

/-- After `fork` the page of `init` is shared, and then the last free frame goes. -/
theorem exists_shared_exhausted : letI := sampleLayout
    ∃ (k : Kernel Kmem) (d : Pgdir), Reachable tree anyOp k ∧
      (k.proc initSlot).state = .RUNNING ∧ k.pgdir initSlot = some d ∧ CowPage d 0 ∧
      k.phys.kmem.freelist = [] ∧ 1 < k.phys.kmem.refcount_list (d.ent (0 / 4096)).ppn := by
  let L := sampleLayout
  obtain ⟨k₁, d₁, hr₁, hk₁, ht₁, hn₁, -⟩ := exists_single (C := anyOp) fun _ _ _ => trivial
  obtain ⟨f, s₂, d, c, hs₂, hk₂, hW, -, hsh⟩ := @Single.fork _ _ _ _ ⟨1, by decide⟩ hk₁
    (by rw [ht₁]; rfl) (by rw [hn₁]; decide)
  obtain ⟨k, hr, hfree, hproc, hpg, -, hle⟩ := exists_exhausted (.step hr₁ hs₂ trivial)
  have hd : k.pgdir initSlot = some d := by rw [hpg, hk₂.dir]
  have hrun : (k.proc initSlot).state = .RUNNING := by rw [hproc, hk₂.running]
  have hok := ok_of_reachable hr
  have hC : (d.ent 0).CoW = true := by
    rcases hok.pages initSlot d (live_of_running hrun) hd 0 (by decide) with hz | ⟨-, -, hC, -⟩
    · have hP := hk₂.P
      rw [hz] at hP
      cases hP
    · rw [hC, hW]
      rfl
  refine ⟨k, d, hr, hrun, hd, ⟨?_, hk₂.P, hC⟩, hfree, ?_⟩
  · refine Pgdir.has_of_ent_ne fun e => ?_
    have hP := hk₂.P
    rw [e] at hP
    cases hP
  · have hcount := hok.inv.acct.count (d.ent 0).ppn
    have hge := hle (d.ent 0).ppn
    rw [zero_add] at hcount hsh
    change 1 < k.phys.kmem.refcount_list (d.ent 0).ppn
    omega

/-- Such a fault. -/
theorem fault_never_harmless_shared : ∃ (_ : Layout) (k : Kernel Kmem) (p : ProcPtr) (d : Pgdir),
    Reachable tree anyOp k ∧ k.pgdir p = some d ∧ CowPage d 0 ∧ k.phys.kmem.freelist = [] ∧
      ¬FaultHarmless k p 0 := by
  let L := sampleLayout
  obtain ⟨k, d, hr, -, hd, hcow, hfree, hsh⟩ := exists_shared_exhausted
  exact ⟨L, k, initSlot, d, hr, hd, hcow, hfree,
    fault_never_harmless hd (by decide) hcow hfree hsh⟩

/-- `init` has forked, the free list is empty, and `init` writes to its page: the handler stops at
the null pointer, with the count of the frame one lower than before. -/
theorem fault_drops_reference : ∃ (_ : Layout) (k k' : Kernel Kmem) (p : ProcPtr) (d : Pgdir),
    Reachable tree anyOp k ∧ (k.proc p).state = .RUNNING ∧ k.pgdir p = some d ∧ CowPage d 0 ∧
      k.phys.kmem.freelist = [] ∧ 1 < k.phys.kmem.refcount_list (d.ent 0).ppn ∧
      trapPgflt tree p 0 k = .error .nullDeref k' ∧ ¬SameMemory k k' ∧ ¬FaultHarmless k p 0 := by
  let L := sampleLayout
  obtain ⟨k, d, hr, hrun, hd, hcow, hfree, hsh⟩ := exists_shared_exhausted
  obtain ⟨k', hk', hcount⟩ := trapPgflt_exhausted hd (by decide) hcow hfree hsh
  have hne : ¬SameMemory k k' := fun hm => by
    have := hm.refcount (d.ent (0 / 4096)).ppn
    omega
  refine ⟨L, k, k', initSlot, d, hr, hrun, hd, hcow, hfree, hsh, hk', hne, fun hh => ?_⟩
  have hm := of_error hh hk'
  exact hne hm

end OsLabs.Cow
