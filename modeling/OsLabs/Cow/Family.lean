import OsLabs.Cow.Refcount

/-!
# A family gives back what it takes

A process forks, it and its children write to their pages, the children exit and the process waits
for all of them. `Family P k₀ kids k` are the runs of this kind from `k₀` to `k`, in which the
children with the pids `kids` have not been waited for yet.

* `Kin` is the invariant of such a run: everybody else is as at the start, a slot that has come
  into use is a child's, and the parent's pages are where they were, or in frames that nobody but
  the family ever held.
* `family_conserves_memory`: after the last `wait` the free list is as long as before the first
  `fork`, but for the pages of the parent that were shared at the start and have been copied.
-/

namespace OsLabs.Cow

open Xv6 StateError Ledger

/-! ## The runs -/

/-- What may happen between the first `fork` and the last `wait`: the process `P` forks, waits and
accesses memory, its children access memory and exit, and anybody is scheduled. -/
inductive Move (P : ProcPtr) (k : Kernel Kmem) : Op → Result → Finset ℕ → Finset ℕ → Prop
  | sched {q : ProcPtr} {res : Result} {kids : Finset ℕ} : Move P k (.sched q) res kids kids
  | yield {q : ProcPtr} {res : Result} {kids : Finset ℕ} : Move P k (.yield q) res kids kids
  | forked {pid : ℕ} {kids : Finset ℕ} : Move P k (.fork P) (.ret pid) kids (insert pid kids)
  | forkFailed {kids : Finset ℕ} : Move P k (.fork P) (.ret (-1)) kids kids
  | read {q : ProcPtr} {va n : ℕ} {b : UInt8} {kids : Finset ℕ}
      (hq : q = P ∨ (k.proc q).pid ∈ kids) : Move P k (.load q va) (.byte b n) kids kids
  | write {q : ProcPtr} {va n : ℕ} {b : UInt8} {kids : Finset ℕ}
      (hq : q = P ∨ (k.proc q).pid ∈ kids) : Move P k (.store q va b) (.written n) kids kids
  | exit {q : ProcPtr} {res : Result} {kids : Finset ℕ} (hq : (k.proc q).pid ∈ kids) :
      Move P k (.exit q) res kids kids
  | waited {pid : ℕ} {kids : Finset ℕ} (h : pid ∈ kids) :
      Move P k (.wait P) (.ret pid) kids (kids.erase pid)
  | waiting {kids : Finset ℕ} : Move P k (.wait P) .slept kids kids

section Family

variable [Layout]

/-- The runs of the family of `P` from `k₀`, by the pids of the children still to be waited for. -/
inductive Family (P : ProcPtr) (k₀ : Kernel Kmem) : Finset ℕ → Kernel Kmem → Prop
  | start : Family P k₀ ∅ k₀
  | move {kids kids' : Finset ℕ} {k k' : Kernel Kmem} {op : Op} {res : Result}
      (h : Family P k₀ kids k) (hs : step tree op k = .ok res k')
      (hm : Move P k op res kids kids') : Family P k₀ kids' k'

/-! ## The parent's directory -/

/-- The pages of `d` are those of `d₀`, in the same frames or in frames unheld in `r`. -/
structure Keeping (r : Ledger ℕ) (d₀ d : Pgdir) : Prop where
  frame : d.frame = d₀.frame
  pde : ∀ i, (d.pde i).map PTable.frame = (d₀.pde i).map PTable.frame
  P : ∀ v < UPAGES, (d.ent v).P = (d₀.ent v).P
  ppn : ∀ v < UPAGES, (d.ent v).ppn = (d₀.ent v).ppn ∨ r (d.ent v).ppn = 0

namespace Keeping

variable {r : Ledger ℕ} {d₀ d d' : Pgdir}

omit [Layout] in
theorem of_protected {n : ℕ} (h : Keeping r d₀ d) (hp : Protected d d' n) : Keeping r d₀ d' := by
  have hent : ∀ v, (d'.ent v).P = (d.ent v).P ∧ (d'.ent v).ppn = (d.ent v).ppn := fun v => by
    rw [hp.ent]
    split
    · exact ⟨protect_P _, protect_ppn _⟩
    · exact ⟨rfl, rfl⟩
  refine ⟨hp.frame.trans h.frame, fun i => (hp.pde i).trans (h.pde i), fun v hv => ?_,
    fun v hv => ?_⟩
  · rw [(hent v).1, h.P v hv]
  · rw [(hent v).2]
    exact h.ppn v hv

omit [Layout] in
theorem flush (h : Keeping r d₀ d) : Keeping r d₀ d.flush := ⟨h.frame, h.pde, h.P, h.ppn⟩

omit [Layout] in
theorem fault {v : ℕ} {rest o : Ledger ℕ} {s s' : Phys Kmem} (h : Keeping r d₀ d)
    (hP : (d.ent v).P = true) (hf : FaultEffect d v rest s d' s') (ho : rest + d.holds = o)
    (hr : ∀ f, o f = 0 → r f = 0) : Keeping r d₀ d' := by
  have hrep : ∀ {e : Pte}, Replaced d d' v e → e.P = true →
      (e.ppn = (d.ent v).ppn ∨ r e.ppn = 0) → Keeping r d₀ d' := by
    intro e hd he hppn
    refine ⟨hd.frame.trans h.frame, fun i => (hd.pde i).trans (h.pde i), fun w hw => ?_,
      fun w hw => ?_⟩
    · rw [hd.ent]
      split
      · rename_i hwv
        rw [he, ← h.P w hw, hwv, hP]
      · exact h.P w hw
    · rw [hd.ent]
      split
      · rename_i hwv
        rcases hppn with hs | hz
        · have := h.ppn w hw
          rwa [hwv, ← hs, ← hwv] at this
        · exact Or.inr hz
      · exact h.ppn w hw
  cases hf with
  | sole h1 hd => exact hrep hd hP (Or.inl rfl)
  | copied h2 hmem hd => exact hrep hd rfl (Or.inr (hr _ (ho ▸ hmem)))

end Keeping

/-! ## The invariant of a run -/

/-- The slot `q` is in use with the same pid, stack and directory, up to what has been flushed. -/
structure Untouched (k k' : Kernel Kmem) (q : ProcPtr) : Prop where
  live : k.live q → k'.live q
  pid : (k'.proc q).pid = (k.proc q).pid
  kstack : k'.kstack q = k.kstack q
  pgdir : (k'.pgdir q).map Pgdir.flush = (k.pgdir q).map Pgdir.flush

omit [Layout] in
theorem Untouched.refl (k : Kernel Kmem) (q : ProcPtr) : Untouched k k q := ⟨id, rfl, rfl, rfl⟩

omit [Layout] in
theorem Untouched.trans {k₀ k k' : Kernel Kmem} {q : ProcPtr} (h : Untouched k₀ k q)
    (h' : Untouched k k' q) : Untouched k₀ k' q :=
  ⟨h'.live ∘ h.live, h'.pid.trans h.pid, h'.kstack.trans h.kstack, h'.pgdir.trans h.pgdir⟩

omit [Layout] in
theorem Untouched.holds {k k' : Kernel Kmem} {q : ProcPtr} (h : Untouched k k' q) (hl : k.live q) :
    k'.slotHolds q = k.slotHolds q := by
  have helim : ∀ o : Option Pgdir, (o.map Pgdir.flush).elim 0 Pgdir.holds = o.elim 0 Pgdir.holds :=
    fun o => by cases o <;> rfl
  rw [Kernel.slotHolds, Kernel.slotHolds, if_neg hl, if_neg (h.live hl), h.kstack, ← helim,
    h.pgdir, helim]

/-- What is held without the pages of the parent. -/
def without (P : ProcPtr) (k : Kernel Kmem) (d : Pgdir) : Ledger ℕ :=
  0 + k.rest P + (excl d.frame + d.tables)

/-- What holds during a run of the family of `P` from `k₀`, where `d₀` is the directory of `P`. -/
structure Kin (P : ProcPtr) (k₀ : Kernel Kmem) (d₀ : Pgdir) (kids : Finset ℕ) (k : Kernel Kmem) :
    Prop where
  ok : Ok k
  kpgdir : k.kpgdir = k₀.kpgdir
  held : k.held = k₀.held
  nextpid : k₀.nextpid ≤ k.nextpid
  kids_new : ∀ pid ∈ kids, k₀.nextpid ≤ pid
  old : ∀ q, k₀.live q → q ≠ P → Untouched k₀ k q
  new : ∀ q, ¬k₀.live q → k.live q → (k.proc q).pid ∈ kids
  live : k.live P
  pid : (k.proc P).pid = (k₀.proc P).pid
  kstack : k.kstack P = k₀.kstack P
  dir : ∃ d, k.pgdir P = some d ∧ Keeping (without P k₀ d₀) d₀ d

namespace Kin

variable {P : ProcPtr} {k₀ k k' : Kernel Kmem} {d₀ d : Pgdir} {kids kids' : Finset ℕ}

omit [Layout] in
/-- The kernel's own frames are the same. -/
theorem ownHolds (hk : k.kpgdir = k₀.kpgdir) (hh : k.held = k₀.held) :
    k.ownHolds = k₀.ownHolds := by
  rw [Kernel.ownHolds, Kernel.ownHolds, hk, hh]

/-- What others held at the start is held. -/
theorem refs_without_le (h : Kin P k₀ d₀ kids k) (f : ℕ) :
    refs (without P k₀ d₀) f ≤ refs (0 + k.total) f := by
  obtain ⟨d, hd, hkeep⟩ := h.dir
  have hslot : ∀ q ∈ Finset.univ.erase P, refs (k₀.slotHolds q) f ≤ refs (k.slotHolds q) f := by
    intro q hq
    by_cases hl : k₀.live q
    · rw [(h.old q hl (Finset.ne_of_mem_erase hq)).holds hl]
    · rw [Kernel.live, not_not] at hl
      rw [Kernel.slotHolds, if_pos hl, refs_zero]
      exact Nat.zero_le _
  have hsum := Finset.sum_le_sum hslot
  rw [← refs_sum, ← refs_sum] at hsum
  rw [without, Kernel.total_eq_rest h.live hd, Kernel.rest, Kernel.rest,
    ownHolds h.kpgdir h.held, h.kstack, Pgdir.holds, hkeep.frame, Pgdir.tables_congr hkeep.pde]
  simp only [refs_add]
  omega

/-- A frame that is free is none of the others' at the start. -/
theorem without_eq_zero (h : Kin P k₀ d₀ kids k) {f : ℕ} (hf : (0 + k.total) f = 0) :
    without P k₀ d₀ f = 0 := by
  have h₁ := h.refs_without_le f
  rw [refs_eq_zero.mpr hf] at h₁
  exact refs_eq_zero.mp (Nat.le_zero.mp h₁)

/-- A child of the family is none of the processes of the start. -/
theorem not_live_of_kid (h₀ : Ok k₀) (h : Kin P k₀ d₀ kids k) {q : ProcPtr}
    (hq : (k.proc q).pid ∈ kids) : ¬k₀.live q ∧ q ≠ P := by
  have hlt : ∀ q, (k₀.proc q).pid < k₀.nextpid := h₀.inv.pids.lt
  have hge := h.kids_new _ hq
  have hP : q ≠ P := fun e => by
    rw [e, h.pid] at hge
    exact absurd (hlt P) (Nat.not_lt.mpr hge)
  refine ⟨fun hl => ?_, hP⟩
  rw [(h.old q hl hP).pid] at hge
  exact absurd (hlt q) (Nat.not_lt.mpr hge)

/-- A move, by what it does to the slots. -/
theorem update (h : Kin P k₀ d₀ kids k) (hok : Ok k') (hk : k'.kpgdir = k.kpgdir)
    (hh : k'.held = k.held) (hn : k.nextpid ≤ k'.nextpid)
    (hkids : ∀ pid ∈ kids', pid ∈ kids ∨ k.nextpid ≤ pid)
    (hold : ∀ q, k₀.live q → q ≠ P → Untouched k k' q)
    (hnew : ∀ q, ¬k₀.live q → k'.live q → (k'.proc q).pid ∈ kids')
    (hP : k'.live P ∧ (k'.proc P).pid = (k.proc P).pid ∧ k'.kstack P = k.kstack P)
    (hdir : ∃ d, k'.pgdir P = some d ∧ Keeping (without P k₀ d₀) d₀ d) :
    Kin P k₀ d₀ kids' k' :=
  ⟨hok, hk.trans h.kpgdir, hh.trans h.held, h.nextpid.trans hn,
    fun pid hp => (hkids pid hp).elim (h.kids_new pid) h.nextpid.trans,
    fun q hl hq => (h.old q hl hq).trans (hold q hl hq), hnew, hP.1, hP.2.1.trans h.pid,
    hP.2.2.trans h.kstack, hdir⟩

/-- A move that touches no slot. -/
theorem still (h : Kin P k₀ d₀ kids k) (hok : Ok k') (hk : k'.kpgdir = k.kpgdir)
    (hh : k'.held = k.held) (hn : k'.nextpid = k.nextpid) (ht : ∀ q, Untouched k k' q)
    (hl : ∀ q, k'.live q → k.live q) : Kin P k₀ d₀ kids k' := by
  refine h.update hok hk hh hn.ge (fun _ => Or.inl) (fun q _ _ => ht q) (fun q h₀ hq => ?_)
    ⟨(ht P).live h.live, (ht P).pid, (ht P).kstack⟩ ?_
  · rw [(ht q).pid]
    exact h.new q h₀ (hl q hq)
  · obtain ⟨d, hd, hkeep⟩ := h.dir
    have hmap := (ht P).pgdir
    rw [hd, Option.map_some] at hmap
    obtain ⟨d', hd', hf⟩ := Option.map_eq_some_iff.mp hmap
    refine ⟨d', hd', ?_⟩
    have hk' := hkeep.flush
    rw [← hf] at hk'
    exact ⟨hk'.frame, hk'.pde, hk'.P, hk'.ppn⟩

/-- A failed `fork`. -/
theorem unborn {np : ProcPtr} {n : ℕ} {s' : Phys Kmem} {d' : Pgdir}
    {pgdir : ProcPtr → Option Pgdir} (h : Kin P k₀ d₀ kids k) (hok : Ok (k.unborn np s' pgdir))
    (hnp : (k.proc np).state = .UNUSED) (hd : k.pgdir P = some d) (hp : Protected d d' n)
    (hcur : pgdir P = some d') (hpg : ∀ j, j ≠ P → j ≠ np → pgdir j = k.pgdir j) :
    Kin P k₀ d₀ kids (k.unborn np s' pgdir) := by
  obtain ⟨d₁, hd₁, hkeep⟩ := h.dir
  obtain rfl : d₁ = d := Option.some.inj (hd₁.symm.trans hd)
  have hne : ∀ q, k.live q → q ≠ np := fun q hl e => hl (by rw [e]; exact hnp)
  have hsame : ∀ q, q ≠ np → (k.unborn np s' pgdir).proc q = k.proc q ∧
      (k.unborn np s' pgdir).kstack q = k.kstack q := fun q hq =>
    ⟨by simp [Kernel.unborn, Table.set_ne, hq], by simp [Kernel.unborn, hq]⟩
  have hP := hsame P (hne P h.live)
  refine h.update hok rfl rfl (Nat.le_succ _) (fun _ => Or.inl) (fun q hl hq => ?_)
    (fun q h₀ hl => ?_) ⟨by rw [Kernel.live, hP.1]; exact h.live, by rw [hP.1], hP.2⟩
    ⟨d', hcur, hkeep.of_protected hp⟩
  · have hqn := hne q ((h.old q hl hq).live hl)
    have hs := hsame q hqn
    exact ⟨fun hlq => by rwa [Kernel.live, hs.1], by rw [hs.1], hs.2,
      congrArg (Option.map Pgdir.flush) (hpg q hq hqn)⟩
  · have hlq := (Kernel.live_unborn hnp).mp hl
    rw [(hsame q (hne q hlq)).1]
    exact h.new q h₀ hlq

/-- A `fork` that succeeds: the child is one more of the family. -/
theorem born {np : ProcPtr} {f : ℕ} {s' : Phys Kmem} {d' c : Pgdir} {n : ℕ}
    (h : Kin P k₀ d₀ kids k) (hok : Ok (k.born P np f s' d'.flush c))
    (hnp : (k.proc np).state = .UNUSED) (hd : k.pgdir P = some d) (hp : Protected d d' n) :
    Kin P k₀ d₀ (insert k.nextpid kids) (k.born P np f s' d'.flush c) := by
  obtain ⟨d₁, hd₁, hkeep⟩ := h.dir
  obtain rfl : d₁ = d := Option.some.inj (hd₁.symm.trans hd)
  have hne : ∀ q, k.live q → q ≠ np := fun q hl e => hl (by rw [e]; exact hnp)
  have hsame : ∀ q, q ≠ np → (k.born P np f s' d'.flush c).proc q = k.proc q ∧
      (k.born P np f s' d'.flush c).kstack q = k.kstack q := fun q hq =>
    ⟨by simp [Kernel.born, Table.set_ne, hq], by simp [Kernel.born, hq]⟩
  have hPn := hne P h.live
  have hP := hsame P hPn
  refine h.update hok rfl rfl (Nat.le_succ _) (fun pid hpid => ?_) (fun q hl hq => ?_)
    (fun q h₀ hl => ?_) ⟨by rw [Kernel.live, hP.1]; exact h.live, by rw [hP.1], hP.2⟩
    ⟨d'.flush, by simp [Kernel.born, hPn], (hkeep.of_protected hp).flush⟩
  · rcases Finset.mem_insert.mp hpid with rfl | hpid
    · exact Or.inr (le_refl _)
    · exact Or.inl hpid
  · have hqn := hne q ((h.old q hl hq).live hl)
    have hs := hsame q hqn
    exact ⟨fun hlq => by rwa [Kernel.live, hs.1], by rw [hs.1], hs.2,
      by simp [Kernel.born, hq, hqn]⟩
  · by_cases hqn : q = np
    · subst hqn
      simp [Kernel.born]
    · rw [(hsame q hqn).1]
      exact Finset.mem_insert_of_mem
        (h.new q h₀ ((Kernel.live_born.mp hl).resolve_left hqn))

theorem fork (h : Kin P k₀ d₀ kids k) (hd : k.pgdir P = some d) (hok : Ok k') {res : Result}
    (he : ForkEffect (CopyEffect d (k.proc P).sz) true 0 k P res k') :
    (res = .ret (-1) → Kin P k₀ d₀ kids k') ∧
      ∀ pid : ℕ, res = .ret pid → Kin P k₀ d₀ (insert pid kids) k' := by
  have hneg : ∀ {pid : ℕ} {Q : Prop}, Result.ret (-1) = .ret pid → Q := fun he => by
    have := Result.ret.inj he
    omega
  cases he with
  | full => exact ⟨fun _ => h, fun _ he => hneg he⟩
  | @noStack np hnp hfree =>
    have hun : (k.proc np).state = .UNUSED := by simpa using Table.first_some hnp
    exact ⟨fun _ => h.unborn hok hun hd (.refl d) hd fun _ _ _ => rfl, fun _ he => hneg he⟩
  | @noCopy np f s₁ s₂ s' d' hnp hf hm₁ ho₁ hfree hc ha hk ho =>
    have hun : (k.proc np).state = .UNUSED := by simpa using Table.first_some hnp
    have hne : P ≠ np := fun e => h.live (by rw [e]; exact hun)
    refine ⟨fun _ => ?_, fun _ he => hneg he⟩
    cases hc with
    | failed hn hp hk' ho' hlen =>
      refine h.unborn hok hun hd hp ?_ fun j hjp hjn => ?_
      · rw [Function.update_of_ne hne, Function.update_self]
      · rw [Function.update_of_ne hjn, Function.update_of_ne hjp]
  | @born np f s₁ s' d' c hnp hf hm₁ ho₁ hfree hc ha =>
    have hun : (k.proc np).state = .UNUSED := by simpa using Table.first_some hnp
    cases hc with
    | copied hp hP hc hm ho hlen =>
      refine ⟨fun he => ?_, fun pid he => ?_⟩
      · have := Result.ret.inj he
        omega
      · obtain rfl : k.nextpid = pid := by exact_mod_cast Result.ret.inj he
        exact h.born hok hun hd hp

theorem same (h : Kin P k₀ d₀ kids k) (hok : Ok k') (hs : SameDirs k k') :
    Kin P k₀ d₀ kids k' :=
  h.still hok hs.kpgdir hs.held hs.nextpid (fun q => ⟨mt (hs.unused q).mp, hs.pid q,
    by rw [hs.kstack], by rw [hs.pgdir]⟩) hs.same.live

/-- New memory for a member of the family. -/
theorem setMem (h₀ : Ok k₀) (h : Kin P k₀ d₀ kids k) {q : ProcPtr} {s' : Phys Kmem} {d' : Pgdir}
    (hq : q = P ∨ (k.proc q).pid ∈ kids) (hok : Ok (k.setMem q s' (k.proc q).sz d'))
    (hd' : q = P → Keeping (without P k₀ d₀) d₀ d') :
    Kin P k₀ d₀ kids (k.setMem q s' (k.proc q).sz d') := by
  have hlive := @Kernel.live_setMem _ k q s' (k.proc q).sz d'
  have hproc : (k.setMem q s' (k.proc q).sz d').proc = k.proc := by rw [Kernel.setMem_sz_self]
  refine h.update hok rfl rfl (le_refl _) (fun _ => Or.inl) (fun j hl hj => ?_) (fun j hj hl => ?_)
    ⟨(hlive P).mpr h.live, by rw [hproc], rfl⟩ ?_
  · have hjq : j ≠ q := by
      rintro rfl
      rcases hq with rfl | hq
      · exact hj rfl
      · exact (h.not_live_of_kid h₀ hq).1 hl
    exact ⟨(hlive j).mpr, by rw [hproc], rfl,
      congrArg (Option.map Pgdir.flush) (Kernel.setMem_of_ne hjq).2⟩
  · rw [hproc]
    exact h.new j hj ((hlive j).mp hl)
  · obtain ⟨d, hd, hkeep⟩ := h.dir
    by_cases hqP : q = P
    · subst hqP
      exact ⟨d', Kernel.setMem_self.2, hd' rfl⟩
    · exact ⟨d, (Kernel.setMem_of_ne (Ne.symm hqP)).2.trans hd, hkeep⟩

/-- An access of a member of the family. -/
theorem access (h₀ : Ok k₀) (h : Kin P k₀ d₀ kids k) {q : ProcPtr} {va : ℕ} {w : Option UInt8}
    {res : Result} (hq : q = P ∨ (k.proc q).pid ∈ kids) (hl : k.live q) (hok : Ok k')
    (he : AccessEffect q va w k res k') : Kin P k₀ d₀ kids k' := by
  cases he with
  | direct he => exact h.same hok (he.same hl)
  | @fault v _ d₁ d' s' _ hv hup hd hP hC hno hf ha he =>
    refine (h.setMem h₀ hq (h.ok.fault hl hd hup hP hf ha) fun hqP => ?_).same hok
      (he.same ((Kernel.live_setMem q).mpr hl))
    subst hqP
    obtain ⟨d, hd₁, hkeep⟩ := h.dir
    obtain rfl : d = d₁ := Option.some.inj (hd₁.symm.trans hd)
    refine (hkeep.fault hP hf (o := 0 + k.total) ?_ fun f hf => h.without_eq_zero hf).flush
    rw [Kernel.total_eq_rest hl hd, add_assoc]

/-- The parent reaps a child. -/
theorem reaped {q : ProcPtr} {s' : Phys Kmem} (h₀ : Ok k₀) (h : Kin P k₀ d₀ kids k)
    (hq : (k.proc q).pid ∈ kids) (hok : Ok (k.reaped q s')) :
    Kin P k₀ d₀ (kids.erase (k.proc q).pid) (k.reaped q s') := by
  obtain ⟨hnl, hqP⟩ := h.not_live_of_kid h₀ hq
  have hsame : ∀ j, j ≠ q → (k.reaped q s').proc j = k.proc j ∧
      (k.reaped q s').kstack j = k.kstack j := fun j hj =>
    ⟨by simp [Kernel.reaped, Table.reap, Table.set_ne, hj], by simp [Kernel.reaped, hj]⟩
  have hP := hsame P (Ne.symm hqP)
  refine h.update hok rfl rfl (le_refl _) (fun pid hpid => Or.inl (Finset.mem_of_mem_erase hpid))
    (fun j hl hj => ?_) (fun j hj hl => ?_)
    ⟨by rw [Kernel.live, hP.1]; exact h.live, by rw [hP.1], hP.2⟩ h.dir
  · have hs := hsame j fun e => hnl (e ▸ hl)
    exact ⟨fun hlj => by rwa [Kernel.live, hs.1], by rw [hs.1], hs.2, rfl⟩
  · obtain ⟨hjq, hlj⟩ := Kernel.live_reaped.mp hl
    rw [(hsame j hjq).1]
    exact Finset.mem_erase.mpr ⟨h.ok.inv.pids.ne j q hjq
      (Nat.pos_iff_ne_zero.mp (h.ok.inv.pids.pos j hlj)), h.new j hj hlj⟩

/-- A change of the table only. -/
theorem setTable {t : Table} (h : Kin P k₀ d₀ kids k) (hok : Ok { k with proc := t })
    (hpid : ∀ q, (t q).pid = (k.proc q).pid)
    (hst : ∀ q, (t q).state = .UNUSED ↔ (k.proc q).state = .UNUSED) :
    Kin P k₀ d₀ kids { k with proc := t } :=
  h.still hok rfl rfl rfl (fun q => ⟨mt (hst q).mp, hpid q, rfl, rfl⟩) fun q => mt (hst q).mpr

end Kin

omit [Layout] in
/-- A slot whose pid stays. -/
theorem set_pid {t : Table} {p : ProcPtr} {f : Proc → Proc} (hf : (f (t p)).pid = (t p).pid)
    (q : ProcPtr) : (t.set p f q).pid = (t q).pid := by
  rw [Table.set_apply]
  split
  · rename_i hq
    rw [hq, hf]
  · rfl

omit [Layout] in
/-- Scheduling a process leaves all slots in place. -/
theorem untouched_sched {k : Kernel Kmem} {q : ProcPtr} {d : Pgdir}
    (hp : (k.proc q).state = .RUNNABLE) (hd : k.pgdir q = some d) (j : ProcPtr) :
    let k' : Kernel Kmem := { k with
      proc := k.proc.set q fun q => { q with state := .RUNNING, chan := none }
      pgdir := Function.update k.pgdir q (some d.flush) }
    Untouched k k' j ∧ (k'.live j → k.live j) := by
  have hl : k.live q := by simp [Kernel.live, hp]
  have hst := Table.set_unused (f := fun q => { q with state := .RUNNING, chan := none }) hl
    (by simp) j
  refine ⟨⟨mt hst.mp, set_pid rfl j, rfl, ?_⟩, mt hst.mpr⟩
  by_cases hj : j = q
  · subst hj
    simp [hd, Pgdir.flush]
  · simp [hj]

/-- Every move of the family keeps the invariant. -/
theorem Kin.move {P : ProcPtr} {k₀ k k' : Kernel Kmem} {d₀ : Pgdir} {kids kids' : Finset ℕ}
    {op : Op} {res : Result} (h₀ : Ok k₀) (h : Kin P k₀ d₀ kids k)
    (hs : step tree op k = .ok res k') (hm : Move P k op res kids kids') :
    Kin P k₀ d₀ kids' k' := by
  have he := h.ok.effect hs
  have hok := he.ok h.ok
  cases hm with
  | @sched q =>
    cases he with
    | common he =>
      cases he with
      | disabled => exact h
      | sched hp hd =>
        have ht := untouched_sched hp hd
        exact h.still hok rfl rfl rfl (fun j => (ht j).1) fun j => (ht j).2
  | @yield q =>
    cases he with
    | common he =>
      cases he with
      | disabled => exact h
      | yield hp =>
        exact h.setTable hok (fun j => set_pid rfl j)
          fun j => Table.set_unused (live_of_running hp) (by simp) j
  | forked =>
    cases he with
    | fork hp hd he => exact (h.fork hd hok he).2 _ rfl
    | common he => cases he
  | forkFailed =>
    cases he with
    | fork hp hd he => exact (h.fork hd hok he).1 rfl
    | common he => cases he
  | read hq =>
    cases he with
    | load hp he => exact h.access h₀ hq (live_of_running hp) hok he
    | common he => cases he
  | write hq =>
    cases he with
    | store hp he => exact h.access h₀ hq (live_of_running hp) hok he
    | common he => cases he
  | exit hq =>
    cases he with
    | common he =>
      cases he with
      | disabled => exact h
      | exit hp =>
        exact h.setTable hok (fun j => Table.exit_pid ..)
          fun j => Table.exit_unused _ (live_of_running hp) j
  | @waited pid _ hpid =>
    cases he with
    | common he =>
      cases he with
      | wait hp hw =>
        generalize hr : Result.ret pid = res at hw
        cases hw with
        | @reaped q d f s' hq hd hf r hr' ha hk ho =>
          obtain rfl : pid = (k.proc q).pid := by exact_mod_cast Result.ret.inj hr
          exact h.reaped h₀ hpid hok
        | none =>
          have := Result.ret.inj hr
          omega
        | slept => cases hr
  | waiting =>
    cases he with
    | common he =>
      cases he with
      | wait hp hw =>
        cases hw with
        | slept =>
          exact h.setTable hok (fun j => set_pid rfl j)
            fun j => Table.set_unused (live_of_running hp) (by simp) j

/-- A run of the family. -/
theorem Family.kin {P : ProcPtr} {k₀ k : Kernel Kmem} {d₀ : Pgdir} {kids : Finset ℕ} (h₀ : Ok k₀)
    (hl : k₀.live P) (hd : k₀.pgdir P = some d₀) (h : Family P k₀ kids k) :
    Kin P k₀ d₀ kids k := by
  induction h with
  | start =>
    exact ⟨h₀, rfl, rfl, le_refl _, fun _ hp => absurd hp (Finset.notMem_empty _),
      fun q _ _ => .refl k₀ q, fun q hn hq => absurd hq hn, hl, rfl, rfl, d₀, hd,
      rfl, fun _ => rfl, fun _ _ => rfl, fun _ _ => Or.inl rfl⟩
  | move _ hs hm ih => exact ih.move h₀ hs hm

/-! ## Counting -/

/-- The frames the kernel manages. -/
def frames : Finset ℕ := (Finset.range NFRAMES).filter InRange

theorem mem_frames {f : ℕ} : f ∈ frames ↔ InRange f := by
  rw [frames, Finset.mem_filter, Finset.mem_range]
  exact ⟨fun h => h.2, fun h => ⟨(inRange_iff.mp h).2, h⟩⟩

/-- The pages of `d` in frames that nobody else holds, together with the free frames, are all the
frames that nobody else holds. -/
theorem length_free_add_card {free : List ℕ} {r : Ledger ℕ} {d : Pgdir}
    (hex : Exact InRange free (r + d.uses)) (hinj : d.Inj) :
    free.length + ((Finset.range UPAGES).filter fun v =>
      (d.ent v).P = true ∧ r (d.ent v).ppn = 0).card = (frames.filter fun f => r f = 0).card := by
  have hzero : ∀ f, (r + d.uses) f = 0 ↔ r f = 0 ∧ d.uses f = 0 := fun f => by
    rw [Pi.add_apply, add_eq_zero]
  set own := (Finset.range UPAGES).filter fun v => (d.ent v).P = true ∧ r (d.ent v).ppn = 0
    with hown
  have hmem : ∀ {v}, v ∈ own → v < UPAGES ∧ (d.ent v).P = true ∧ r (d.ent v).ppn = 0 := by
    intro v hv
    obtain ⟨h₁, h₂⟩ := Finset.mem_filter.mp hv
    exact ⟨Finset.mem_range.mp h₁, h₂⟩
  have hcard : (own.image fun v => (d.ent v).ppn).card = own.card :=
    Finset.card_image_of_injOn fun v hv w hw he => by
      obtain ⟨hv, hPv, -⟩ := hmem hv
      obtain ⟨hw, hPw, -⟩ := hmem hw
      exact hinj v w hv hw hPv hPw he
  have hused : ∀ {v}, v ∈ own → d.uses (d.ent v).ppn ≠ 0 := fun hv =>
    refs_pos.mp (Pgdir.refs_uses_pos (hmem hv).1 (hmem hv).2.1)
  have hdisj : Disjoint (frames.filter fun f => (r + d.uses) f = 0)
      (own.image fun v => (d.ent v).ppn) := by
    rw [Finset.disjoint_left]
    intro f hf hi
    obtain ⟨v, hv, rfl⟩ := Finset.mem_image.mp hi
    exact hused hv ((hzero _).mp (Finset.mem_filter.mp hf).2).2
  have hunion : (frames.filter fun f => (r + d.uses) f = 0) ∪ (own.image fun v => (d.ent v).ppn) =
      frames.filter fun f => r f = 0 := by
    ext f
    rw [Finset.mem_union, Finset.mem_filter, Finset.mem_filter, Finset.mem_image, hzero]
    constructor
    · rintro (⟨hf, h0, -⟩ | ⟨v, hv, rfl⟩)
      · exact ⟨hf, h0⟩
      · refine ⟨mem_frames.mpr (hex.held_dom _ fun h => hused hv ((hzero _).mp h).2), ?_⟩
        exact (hmem hv).2.2
    · rintro ⟨hf, h0⟩
      by_cases hu : d.uses f = 0
      · exact Or.inl ⟨hf, h0, hu⟩
      · obtain ⟨v, hv, hP, rfl⟩ := Pgdir.exists_of_refs_uses_pos (refs_pos.mpr hu)
        exact Or.inr ⟨v, Finset.mem_filter.mpr ⟨Finset.mem_range.mpr hv, hP, h0⟩, rfl⟩
  rw [hex.length_free fun f => mem_frames, ← hcard, ← Finset.card_union_of_disjoint hdisj, hunion]

omit [Layout] in
/-- The accounts of a kernel, split at the pages of the parent. -/
theorem without_add_uses {P : ProcPtr} {k : Kernel Kmem} {d : Pgdir} (hl : k.live P)
    (hd : k.pgdir P = some d) : 0 + k.total = without P k d + d.uses := by
  rw [without, Kernel.total_eq_rest hl hd, Pgdir.holds]
  abel

/-- When no child is left, everything but the parent's pages is as at the start. -/
theorem Kin.without_eq {P : ProcPtr} {k₀ k : Kernel Kmem} {d₀ d : Pgdir} (h : Kin P k₀ d₀ ∅ k)
    (hd : k.pgdir P = some d) : without P k d = without P k₀ d₀ := by
  obtain ⟨d₁, hd₁, hkeep⟩ := h.dir
  obtain rfl : d₁ = d := Option.some.inj (hd₁.symm.trans hd)
  have hslot : ∀ q ∈ Finset.univ.erase P, k.slotHolds q = k₀.slotHolds q := by
    intro q hq
    by_cases hl : k₀.live q
    · exact (h.old q hl (Finset.ne_of_mem_erase hq)).holds hl
    · have hl' : ¬k.live q := fun hq => absurd (h.new q hl hq) (Finset.notMem_empty _)
      rw [Kernel.live, not_not] at hl hl'
      rw [Kernel.slotHolds, Kernel.slotHolds, if_pos hl, if_pos hl']
  rw [without, without, Kernel.rest, Kernel.rest, ownHolds h.kpgdir h.held,
    Finset.sum_congr rfl hslot, h.kstack, hkeep.frame, Pgdir.tables_congr hkeep.pde]

/-- The pages of the parent that were shared at the start and are in another frame now. -/
def copies (k₀ : Kernel Kmem) (d₀ d : Pgdir) : ℕ :=
  ((Finset.range UPAGES).filter fun v => (d₀.ent v).P = true ∧
    1 < k₀.phys.kmem.refcount_list (d₀.ent v).ppn ∧ (d.ent v).ppn ≠ (d₀.ent v).ppn).card

/-- A page is shared exactly when its frame is held without it. -/
theorem Ok.shared_iff {P : ProcPtr} {k : Kernel Kmem} {d : Pgdir} (h : Ok k) (hl : k.live P)
    (hd : k.pgdir P = some d) {v : ℕ} (hv : v < UPAGES) (hP : (d.ent v).P = true) :
    1 < k.phys.kmem.refcount_list (d.ent v).ppn ↔ without P k d (d.ent v).ppn ≠ 0 := by
  have huses : refs d.uses (d.ent v).ppn = 1 := by
    refine le_antisymm ?_ (Pgdir.refs_uses_pos hv hP)
    rw [Pgdir.refs_uses_eq_card, Finset.card_le_one]
    intro a ha b hb
    obtain ⟨ha, hPa, hea⟩ := Finset.mem_filter.mp ha
    obtain ⟨hb, hPb, heb⟩ := Finset.mem_filter.mp hb
    exact h.inj P d hl hd a b (Finset.mem_range.mp ha) (Finset.mem_range.mp hb) hPa hPb
      (hea.trans heb.symm)
  rw [h.inv.acct.count, without_add_uses hl hd, refs_add, huses, ← refs_pos]
  omega

omit [Layout] in
/-- The pages alone in their frame now are those that were so at the start, and the copies. -/
theorem card_split {r : Ledger ℕ} {k₀ : Kernel Kmem} {d₀ d : Pgdir} (hk : Keeping r d₀ d)
    (hs : ∀ v < UPAGES, (d₀.ent v).P = true →
      (1 < k₀.phys.kmem.refcount_list (d₀.ent v).ppn ↔ r (d₀.ent v).ppn ≠ 0)) :
    ((Finset.range UPAGES).filter fun v => (d.ent v).P = true ∧ r (d.ent v).ppn = 0).card =
      ((Finset.range UPAGES).filter fun v => (d₀.ent v).P = true ∧ r (d₀.ent v).ppn = 0).card +
        copies k₀ d₀ d := by
  have hdisj : Disjoint ((Finset.range UPAGES).filter fun v => (d₀.ent v).P = true ∧
      r (d₀.ent v).ppn = 0) ((Finset.range UPAGES).filter fun v => (d₀.ent v).P = true ∧
      1 < k₀.phys.kmem.refcount_list (d₀.ent v).ppn ∧ (d.ent v).ppn ≠ (d₀.ent v).ppn) := by
    rw [Finset.disjoint_left]
    intro v h₁ h₂
    obtain ⟨hv, hP, h0⟩ := Finset.mem_filter.mp h₁
    obtain ⟨-, -, hsh, -⟩ := Finset.mem_filter.mp h₂
    exact (hs v (Finset.mem_range.mp hv) hP).mp hsh h0
  rw [copies, ← Finset.card_union_of_disjoint hdisj]
  refine congrArg Finset.card (Finset.ext fun v => ?_)
  rw [Finset.mem_union, Finset.mem_filter, Finset.mem_filter, Finset.mem_filter, Finset.mem_range]
  constructor
  · rintro ⟨hv, hP, h0⟩
    rw [hk.P v hv] at hP
    by_cases hr : r (d₀.ent v).ppn = 0
    · exact Or.inl ⟨hv, hP, hr⟩
    · exact Or.inr ⟨hv, hP, (hs v hv hP).mpr hr, fun e => hr (e ▸ h0)⟩
  · rintro (⟨hv, hP, h0⟩ | ⟨hv, hP, -, hne⟩)
    · refine ⟨hv, (hk.P v hv).trans hP, ?_⟩
      rcases hk.ppn v hv with e | e
      · rw [e]
        exact h0
      · exact e
    · exact ⟨hv, (hk.P v hv).trans hP, (hk.ppn v hv).resolve_left hne⟩

/-- What is free after the last `wait`, with what has been copied, is what was free before. -/
theorem Family.count {C : Kernel Kmem → Op → Result → Prop} {P : ProcPtr} {k₀ k : Kernel Kmem}
    {d₀ d : Pgdir} (hf : Family P k₀ ∅ k) (h₀ : Reachable tree C k₀) (hl : k₀.live P)
    (hd₀ : k₀.pgdir P = some d₀) (hd : k.pgdir P = some d) :
    get_count_of_free_pages_right_now k.phys.kmem + copies k₀ d₀ d =
      get_count_of_free_pages_right_now k₀.phys.kmem := by
  have hok := ok_of_reachable h₀
  have hkin := hf.kin hok hl hd₀
  obtain ⟨d', hd', hkeep⟩ := hkin.dir
  obtain rfl : d' = d := Option.some.inj (hd'.symm.trans hd)
  have hacct₀ := hok.inv.acct.exact
  rw [without_add_uses hl hd₀] at hacct₀
  have hacct := hkin.ok.inv.acct.exact
  rw [without_add_uses hkin.live hd, hkin.without_eq hd] at hacct
  have hcount₀ := length_free_add_card hacct₀ (hok.inj P d₀ hl hd₀)
  have hcount := length_free_add_card hacct (hkin.ok.inj P d' hkin.live hd)
  -- the pages alone in their frame now are those that were so before, and the copies
  have hsplit := card_split hkeep fun v hv hPv => hok.shared_iff hl hd₀ hv hPv
  unfold get_count_of_free_pages_right_now
  omega

/-- After the last `wait` the free list is as long as before the first `fork`, less one for every
page of the parent that was shared before and has been copied since. So it is as long as before
where the parent shared no page. -/
theorem family_conserves_memory {C : Kernel Kmem → Op → Result → Prop} {P : ProcPtr}
    {k₀ k : Kernel Kmem} (h₀ : Reachable tree C k₀) (hP : (k₀.proc P).state = .RUNNING)
    (hf : Family P k₀ ∅ k) :
    ∃ d₀ d, k₀.pgdir P = some d₀ ∧ k.pgdir P = some d ∧
      get_count_of_free_pages_right_now k.phys.kmem + copies k₀ d₀ d =
        get_count_of_free_pages_right_now k₀.phys.kmem ∧
      ((∀ v < UPAGES, (d₀.ent v).P = true →
          k₀.phys.kmem.refcount_list (d₀.ent v).ppn ≤ 1) →
        get_count_of_free_pages_right_now k.phys.kmem =
          get_count_of_free_pages_right_now k₀.phys.kmem) := by
  have hok := ok_of_reachable h₀
  have hl := live_of_running hP
  obtain ⟨d₀, f, hd₀, -, -, -⟩ := hok.inv.live P hl
  obtain ⟨d, hd, -⟩ := (hf.kin hok hl hd₀).dir
  have hmain := hf.count h₀ hl hd₀ hd
  refine ⟨d₀, d, hd₀, hd, hmain, fun halone => ?_⟩
  have hnone : copies k₀ d₀ d = 0 := by
    rw [copies, Finset.card_eq_zero, Finset.filter_eq_empty_iff]
    rintro v hv ⟨hPv, hsh, -⟩
    have := halone v (Finset.mem_range.mp hv) hPv
    omega
  rw [← hmain, hnone, add_zero]

/-! ## A run that loses memory -/

/-- The last child is scheduled, exits and is waited for. -/
theorem Family.finish {P q : ProcPtr} {k₀ k : Kernel Kmem} {d : Pgdir}
    (hf : Family P k₀ {(k.proc q).pid} k) (hok : Ok k) (hP : (k.proc P).state = .RUNNING)
    (hd : k.pgdir P = some d) (hq : (k.proc q).state = .RUNNABLE)
    (hpar : (k.proc q).parent = some P) (hz : ∀ j, (k.proc j).state ≠ .ZOMBIE)
    (hi : k.initproc ≠ some q) : ∃ k', Family P k₀ ∅ k' ∧ k'.pgdir P = some d := by
  have hPq : P ≠ q := fun e => by
    rw [e, hq] at hP
    cases hP
  have hqP : (k.proc q).parent ≠ some q := fun e => hPq (Option.some.inj (hpar.symm.trans e))
  obtain ⟨c, f, hc, hks, -, -⟩ := hok.inv.live q (by rw [Kernel.live, hq]; decide)
  have hs₁ := step_sched (T := tree) hq hc (by rw [hks]; exact Option.some_ne_none f)
  set k₁ : Kernel Kmem := { k with
    proc := k.proc.set q fun q => { q with state := .RUNNING, chan := none }
    pgdir := Function.update k.pgdir q (some c.flush) } with hk₁
  have hq₁ : k₁.proc q = { k.proc q with state := .RUNNING, chan := none } :=
    Table.set_self k.proc q fun q => { q with state := .RUNNING, chan := none }
  have hne₁ : ∀ j, j ≠ q → k₁.proc j = k.proc j := fun j hj =>
    Table.set_ne k.proc (fun q => { q with state := .RUNNING, chan := none }) hj
  have hs₂ := step_exit (T := tree) (k := k₁) (p := q) (by rw [hq₁]) hi
  have hok₁ := (hok.effect hs₁).ok hok
  have hok₂ := (hok₁.effect hs₂).ok hok₁
  set k₂ : Kernel Kmem := { k₁ with proc := k₁.proc.exit q k₁.initproc } with hk₂
  have hzero : (k₂.proc q).state = .ZOMBIE := Table.exit_state_self _ _ _
  have hpid : (k₂.proc q).pid = (k.proc q).pid := by
    rw [hk₂, Table.exit_pid, hq₁]
  have hzombie : Table.zombieOf P (k₂.proc q) = true := by
    refine Table.zombieOf_iff.mpr ⟨?_, hzero⟩
    rw [hk₂, Table.exit_parent_of_ne, hq₁]
    · exact hpar
    · rw [hq₁]
      exact hqP
  have hfirst : k₂.proc.first (Table.zombieOf P) = some q := by
    cases hj : k₂.proc.first (Table.zombieOf P) with
    | none =>
      rw [Table.first_none hj q] at hzombie
      cases hzombie
    | some j =>
      have hjz := (Table.zombieOf_iff.mp (Table.first_some hj)).2
      by_cases hjq : j = q
      · rw [hjq]
      · rcases Table.exit_state_ne k₁.proc q k₁.initproc hjq with e | ⟨-, e⟩
        · exact absurd (e.symm.trans hjz) (by rw [hne₁ j hjq]; exact hz j)
        · exact absurd (e.symm.trans hjz) (by decide)
  have hP₂ : (k₂.proc P).state = .RUNNING := by
    have hP₁ : (k₁.proc P).state = .RUNNING := by rw [hne₁ P hPq, hP]
    rcases Table.exit_state_ne k₁.proc q k₁.initproc hPq with e | ⟨e, -⟩
    · exact e.trans hP₁
    · exact absurd (hP₁.symm.trans e) (by decide)
  obtain ⟨s', hs₃⟩ := step_wait (T := tree) hok₂.inv hP₂ hfirst
  rw [hpid] at hs₃
  have hmem : (k₁.proc q).pid ∈ ({(k.proc q).pid} : Finset ℕ) := by
    rw [hq₁, Finset.mem_singleton]
  refine ⟨k₂.reaped q s', ?_, (Function.update_of_ne hPq _ _).trans hd⟩
  have hlast := ((hf.move hs₁ .sched).move hs₂ (.exit hmem)).move hs₃
    (.waited (Finset.mem_singleton_self _))
  rwa [Finset.erase_singleton] at hlast

/-- `init` forks, writes to its page, and waits for the child. -/
theorem Single.family {k : Kernel Kmem} {d : Pgdir} {n : ℕ} {np : ProcPtr}
    (h : Single k d (n + 1540)) (hnp : k.proc.first (·.state = .UNUSED) = some np)
    (hpid : k.nextpid ≠ INT_MAX) (hi : k.initproc = some initSlot) :
    ∃ k' d', Family initSlot k ∅ k' ∧ k'.pgdir initSlot = some d' ∧
      (d'.ent 0).ppn ≠ (d.ent 0).ppn := by
  have hne : initSlot ≠ np := fun e => by
    have hunused : (k.proc np).state = .UNUSED := by simpa using Table.first_some hnp
    have := h.running
    rw [e, hunused] at this
    cases this
  obtain ⟨f, s₁, d₁, c, hs₁, hk₁, hW, hppn, hsh⟩ := Single.fork (n := n + 1) h hnp hpid
  set k₁ := k.born initSlot np f s₁ d₁ c with hk₁e
  have hfree : k₁.phys.free ≠ [] := fun e => by
    have := hk₁.free
    rw [e, List.length_nil] at this
    omega
  obtain ⟨s₂, d₂, hs₂, hne₂, -⟩ := @step_store_shared _ _ _ hk₁.ok _ 0 _ 0 hk₁.running hk₁.dir rfl
    (by decide) hk₁.P hW hsh hfree
  set k₂ := k₁.setMem initSlot s₂ (k₁.proc initSlot).sz d₂ with hk₂e
  have hok₂ := (hk₁.ok.effect hs₂).ok hk₁.ok
  have ht₂ : k₂.proc = k₁.proc := by rw [hk₂e, Kernel.setMem_sz_self]
  have hi₂ : k₂.initproc ≠ some np := fun e => hne (Option.some.inj (hi.symm.trans e))
  have hd₂ : k₂.pgdir initSlot = some d₂ := by
    rw [hk₂e]
    exact Function.update_self initSlot (some d₂) k₁.pgdir
  have hchild : k₂.proc np = { k.proc np with
      sz := (k.proc initSlot).sz, parent := some initSlot, state := .RUNNABLE, pid := k.nextpid } := by
    rw [ht₂, hk₁e, Kernel.born]
    exact Table.set_self k.proc np fun q => { q with
      sz := (k.proc initSlot).sz, parent := some initSlot, state := .RUNNABLE, pid := k.nextpid }
  have hfam : Family initSlot k {(k₂.proc np).pid} k₂ := by
    rw [hchild, ← insert_empty_eq k.nextpid]
    exact (Family.start.move hs₁ .forked).move hs₂ (.write (Or.inl rfl))
  obtain ⟨k', hk', hd'⟩ := hfam.finish hok₂ (by rw [ht₂]; exact hk₁.running) hd₂
    (by rw [hchild]) (by rw [hchild]) (by rw [ht₂]; exact hk₁.zombie) hi₂
  refine ⟨k', d₂, hk', hd', ?_⟩
  rw [← hppn]
  exact hne₂

end Family

/-- A run of `init` right after boot. -/
theorem family_conserves_memory_init : ∃ (_ : Layout) (P : ProcPtr) (k₀ k : Kernel Kmem),
    Reachable tree anyOp k₀ ∧ (k₀.proc P).state = .RUNNING ∧ Family P k₀ ∅ k ∧ k₀ ≠ k ∧
      ∃ d₀ d, k₀.pgdir P = some d₀ ∧ k.pgdir P = some d ∧
        get_count_of_free_pages_right_now k.phys.kmem + copies k₀ d₀ d =
          get_count_of_free_pages_right_now k₀.phys.kmem := by
  let L := sampleLayout
  obtain ⟨k₁, d₁, hr₁, hk₁, ht₁, hn₁, hi₁, -⟩ := exists_single (C := anyOp) fun _ _ _ => trivial
  obtain ⟨k, d, hk, hd, hne⟩ := @Single.family _ _ _ 38460 ⟨1, by decide⟩ hk₁
    (by rw [ht₁]; rfl) (by rw [hn₁]; decide) hi₁
  have hchanged : k₁ ≠ k := fun e => by
    obtain rfl : d = d₁ := Option.some.inj (hd.symm.trans (e ▸ hk₁.dir))
    exact hne rfl
  obtain ⟨d₀, d', hd₀, hd', hcount, -⟩ := family_conserves_memory hr₁ hk₁.running hk
  exact ⟨L, initSlot, k₁, k, hr₁, hk₁.running, hk, hchanged, d₀, d', hd₀, hd', hcount⟩

/-- Where the parent has shared its page before the first `fork`, memory is missing after the last
`wait`: `init` forks a child that stays; then it forks a second one, writes to its page, and waits
for the second child. -/
theorem family_loses_memory : ∃ (_ : Layout) (P : ProcPtr) (k₀ k : Kernel Kmem),
    Reachable tree anyOp k₀ ∧ (k₀.proc P).state = .RUNNING ∧ Family P k₀ ∅ k ∧
      get_count_of_free_pages_right_now k.phys.kmem <
        get_count_of_free_pages_right_now k₀.phys.kmem := by
  let L := sampleLayout
  obtain ⟨k₁, d₁, hr₁, hk₁, ht₁, hn₁, hi₁, -⟩ := exists_single (C := anyOp) fun _ _ _ => trivial
  -- the child that stays has slot 1 and pid 2, the one that is waited for has slot 2 and pid 3
  obtain ⟨f₂, s₂, d₂, c₂, hs₂, hk₂, -, -, hsh₂⟩ := @Single.fork _ _ _ _ ⟨1, by decide⟩ hk₁
    (by rw [ht₁]; rfl) (by rw [hn₁]; decide)
  set k₂ := k₁.born initSlot ⟨1, by decide⟩ f₂ s₂ d₂ c₂ with hk₂e
  have ht₂ : k₂.proc = k₁.proc.set ⟨1, by decide⟩ fun q => { q with
    sz := (k₁.proc initSlot).sz, parent := some initSlot, state := .RUNNABLE, pid := 2 } := by
    rw [hk₂e, Kernel.born, hn₁]
  have hn₂ : k₂.nextpid = 3 := congrArg Nat.succ hn₁
  have hr₂ := Reachable.step hr₁ hs₂ trivial
  obtain ⟨k, d, hk, hd, hne⟩ := @Single.family _ _ _ 36000 ⟨2, by decide⟩
    ⟨hk₂.ok, hk₂.running, hk₂.sz, hk₂.dir, hk₂.P, hk₂.U, le_trans (by decide) hk₂.free, hk₂.zombie⟩
    (by rw [ht₂, ht₁]; rfl) (by rw [hn₂]; decide) hi₁
  have hcount := hk.count hr₂ (live_of_running hk₂.running) hk₂.dir hd
  have hshared : 1 < k₂.phys.kmem.refcount_list (d₂.ent 0).ppn := by
    have := hk₂.ok.inv.acct.count (d₂.ent 0).ppn
    omega
  have hcopied : 0 < copies k₂ d₂ d := by
    refine Finset.card_pos.mpr ⟨0, Finset.mem_filter.mpr ⟨?_, hk₂.P, hshared, hne⟩⟩
    exact Finset.mem_range.mpr (by decide)
  exact ⟨L, initSlot, k₂, k, hr₂, hk₂.running, hk, by omega⟩

end OsLabs.Cow
