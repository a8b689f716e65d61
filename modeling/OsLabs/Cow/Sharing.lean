import OsLabs.Cow.System

/-!
# Sharing and copying

When the operations of the copy-on-write kernel succeed, and what the first process can do.

* `step_fork`: with enough memory `fork` makes a child, and parent and child share the pages.
* `step_store_shared`: a write to a shared page moves it to another frame.
* `exists_written`: `init` forks, and writes to the page that it shares with its child.
-/

namespace OsLabs.Cow

open Xv6 StateError Ledger

section Sharing

variable [Layout] {k : Kernel Kmem} {p : ProcPtr}

/-! ## Operations that are possible -/

/-- With enough memory `fork` makes a child. -/
theorem step_fork (h : Ok k) {d : Pgdir} {np : ProcPtr} (hp : (k.proc p).state = .RUNNING)
    (hd : k.pgdir p = some d) (hnp : k.proc.first (·.state = .UNUSED) = some np)
    (hpid : k.nextpid ≠ INT_MAX) (hP : ∀ w < pages (k.proc p).sz, (d.ent w).P = true)
    (hfree : 1539 ≤ k.phys.free.length) :
    ∃ f s' d' c, step tree (.fork p) k = .ok (.ret k.nextpid) (k.born p np f s' d'.flush c) ∧
      Protected d d' (pages (k.proc p).sz) ∧ Child d' c (pages (k.proc p).sz) ∧
      k.phys.free.length ≤ s'.free.length + 1538 := by
  have hstop : ∀ e k', ¬Stop k (.fork p) e k' := by
    rintro e k' ⟨-, ⟨-, hmax⟩ | ⟨-, d₁, hd₁, w, hw, hPw⟩⟩
    · exact hpid hmax
    · obtain rfl : d₁ = d := Option.some.inj (hd₁.symm.trans hd)
      rw [hP w hw] at hPw
      cases hPw
  obtain ⟨res, k', hs, he⟩ := wp_ok (wp_mono (step_spec h (.fork p)) (fun _ _ h => h) hstop)
  cases he with
  | common he =>
    cases he with
    | disabled hn => exact absurd hp hn
  | @fork _ d₁ _ _ _ hd₁ he =>
    obtain rfl : d₁ = d := Option.some.inj (hd₁.symm.trans hd)
    cases he with
    | full hnone =>
      rw [hnp] at hnone
      cases hnone
    | noStack _ hnone =>
      rw [hnone] at hfree
      simp at hfree
    | noCopy _ _ _ _ hcons hc =>
      cases hc with
      | failed _ _ _ _ hlen =>
        rw [hcons, List.length_cons] at hfree
        omega
    | @born np' f s₁ s' d' c hnp' _ _ _ hcons hc =>
      obtain rfl : np' = np := Option.some.inj (hnp'.symm.trans hnp)
      cases hc with
      | copied hprot _ hchild _ _ hlen =>
        refine ⟨f, s', d', c, hs, hprot, hchild, ?_⟩
        rw [hcons, List.length_cons]
        omega

omit [Layout] in
/-- After `fork` parent and child share a page. -/
theorem Child.shared_born {np : ProcPtr} {f n v : ℕ} {s : Phys Kmem} {d c : Pgdir}
    (hc : Child d c n) (hl : k.live p) (hnp : (k.proc np).state = .UNUSED) (hv : v < n)
    (hup : v < UPAGES) (hP : (d.ent v).P = true) :
    1 < refs (0 + (k.born p np f s d.flush c).total) (d.ent v).ppn := by
  have h₁ := Pgdir.refs_uses_pos hup hP
  have h₂ : 0 < refs c.uses (d.ent v).ppn := by
    rw [← hc.low v hv] at hP ⊢
    exact Pgdir.refs_uses_pos hup hP
  rw [Kernel.total_born hl hnp]
  simp only [Pgdir.holds, refs_add, Pgdir.uses_flush]
  omega

/-- A write to a page that is shared moves it to another frame, as a page of the user. -/
theorem step_store_shared (h : Ok k) {d : Pgdir} {va v : ℕ} {b : UInt8}
    (hp : (k.proc p).state = .RUNNING) (hd : k.pgdir p = some d) (hv : uint va / 4096 = v)
    (hup : v < UPAGES) (hP : (d.ent v).P = true) (hW : (d.ent v).W = false)
    (hsh : 1 < refs (0 + k.total) (d.ent v).ppn) (hfree : k.phys.free ≠ []) :
    ∃ s' d', step tree (.store p va b) k = .ok (.written 1) (k.setMem p s' (k.proc p).sz d') ∧
      (d'.ent v).ppn ≠ (d.ent v).ppn ∧ (d'.ent v).U = true := by
  have hva : uint va < 2 ^ 32 := Nat.mod_lt _ (by decide)
  have hl := live_of_running hp
  obtain ⟨-, f, -, hf, -, -⟩ := h.inv.live p hl
  have hC : (d.ent v).CoW = true := by
    rcases h.pages p d hl hd v hup with hz | ⟨-, -, hC, -⟩
    · rw [hz] at hP
      cases hP
    · rw [hC, hW]
      rfl
  have hhas : d.has (v / 1024) := Pgdir.has_of_ent_ne fun e => by simp [e, Pte.zero] at hP
  have hfind : d.find (uint va) = some (d.ent v) := by
    rw [Pgdir.find_of_has hva (by rwa [hv]), hv]
  have hno : ¬∃ e, d.allows (uint va) (some b).isSome e := by
    rw [Pgdir.exists_allows hva hv, Pte.permits, hW]
    simp
  have hk : ¬kills d (uint va) := by
    rw [kills, check_eq hva hv hfind, hC]
    decide
  have hwp : wp (step tree (.store p va b)) (fun res k' => res = .written 1 ∧ ∃ s' d',
      k' = k.setMem p s' (k.proc p).sz d' ∧ (d'.ent v).ppn ≠ (d.ent v).ppn ∧ (d'.ent v).U = true)
      (fun _ _ => False) k := by
    refine (wp_whenRunning_of hp).mpr (access_fault_spec hd (by simp [hf]) hno ?_)
    refine wp_mono (pgflt_spec h hl hd hva hk) (fun r s' hs => ?_) fun e s' he => ?_
    swap
    · obtain ⟨-, ⟨-, hnone, -⟩ | hnone⟩ := he
      · exact hfree hnone
      · rw [hfind] at hnone
        cases hnone
    obtain ⟨d', v', rfl, hv', -, -, -, hfault, -⟩ := hs
    obtain rfl : v = v' := hv.symm.trans hv'
    refine ⟨d', rfl, ?_⟩
    cases hfault with
    | sole h1 =>
      rw [Kernel.total_eq_rest hl hd, ← add_assoc] at hsh
      omega
    | @copied mem _ _ hmem hr =>
      have hent : d'.flush.ent v = { P := true, W := true, U := true, ppn := mem } := by
        rw [Pgdir.ent_flush, hr.ent, if_pos rfl]
      have hallow : ∃ e, d'.flush.allows (uint va) (some b).isSome e := by
        rw [Pgdir.exists_allows hva hv, hent]
        rfl
      refine wp_mono (@access_end_spec _ kills _ _ _ _ _ _ _ _ Kernel.setMem_self.2
        fun hno => absurd hallow hno) (fun res k' he => ?_) fun e _ he => absurd hallow he.2.2
      cases he with
      | load hw => cases hw
      | store =>
        refine ⟨rfl, _, d'.flush, rfl, ?_, by rw [hent]⟩
        rw [hent]
        rintro rfl
        have := held_of_present (x := 0) hl hd hup hP
        rw [Kernel.total_eq_rest hl hd, ← add_assoc, refs_eq_zero.mpr hmem] at this
        exact Nat.lt_irrefl 0 this
      | killed hd₂ hno =>
        obtain rfl := Option.some.inj (Kernel.setMem_self.2.symm.trans hd₂)
        exact absurd hallow hno
  obtain ⟨res, k', hs, rfl, s', d', rfl, hne, hU⟩ := wp_ok hwp
  exact ⟨s', d', hs, hne, hU⟩

/-! ## The first process forks -/

/-- `init` is running with one page, and there is memory for further forks. -/
structure Single (k : Kernel Kmem) (d : Pgdir) (n : ℕ) : Prop where
  ok : Ok k
  running : (k.proc initSlot).state = .RUNNING
  sz : (k.proc initSlot).sz = PGSIZE
  dir : k.pgdir initSlot = some d
  P : (d.ent 0).P = true
  U : (d.ent 0).U = true
  free : n ≤ k.phys.free.length
  zombie : ∀ j, (k.proc j).state ≠ .ZOMBIE

/-- A `fork` by `init` leaves its page shared. -/
theorem Single.fork {k : Kernel Kmem} {d : Pgdir} {n : ℕ} {np : ProcPtr}
    (h : Single k d (n + 1539)) (hnp : k.proc.first (·.state = .UNUSED) = some np)
    (hpid : k.nextpid ≠ INT_MAX) :
    ∃ f s' d' c, step tree (.fork initSlot) k = .ok (.ret k.nextpid)
        (k.born initSlot np f s' d' c) ∧
      Single (k.born initSlot np f s' d' c) d' n ∧ (d'.ent 0).W = false ∧
      (d'.ent 0).ppn = (d.ent 0).ppn ∧
      1 < refs (0 + (k.born initSlot np f s' d' c).total) (d'.ent 0).ppn := by
  have hone : pages (k.proc initSlot).sz = 1 := by rw [h.sz]; rfl
  have hunused : (k.proc np).state = .UNUSED := by simpa using Table.first_some hnp
  have hne : initSlot ≠ np := fun e => by
    have := h.running
    rw [e, hunused] at this
    cases this
  have hP : ∀ w < pages (k.proc initSlot).sz, (d.ent w).P = true := fun w hw => by
    rw [hone] at hw
    rw [Nat.lt_one_iff.mp hw]
    exact h.P
  have hlen := h.free
  obtain ⟨f, s', d', c, hs, hp, hc, hfree⟩ :=
    step_fork h.ok h.running h.dir hnp hpid hP (by omega)
  rw [hone] at hp hc
  have hent : d'.ent 0 = protect (d.ent 0) := by rw [hp.ent, if_pos Nat.one_pos]
  have hP' : (d'.ent 0).P = true := by rw [hent, protect_P, h.P]
  have hUP : 0 < UPAGES := by decide
  refine ⟨f, s', d'.flush, c, hs, ⟨(h.ok.effect hs).ok h.ok, ?_, ?_, ?_, hP', ?_, ?_, ?_⟩, ?_, ?_, ?_⟩
  · exact (congrArg Proc.state (Table.set_ne _ _ hne)).trans h.running
  · exact (congrArg Proc.sz (Table.set_ne _ _ hne)).trans h.sz
  · exact (Function.update_of_ne hne _ _).trans (Function.update_self _ _ _)
  · rw [Pgdir.ent_flush, hent, protect_U, h.U]
  · rw [Kernel.born]
    dsimp only
    omega
  · intro j
    rw [Kernel.born]
    dsimp only
    rw [Table.set_apply]
    split
    · exact ProcState.noConfusion
    · exact h.zombie j
  · rw [Pgdir.ent_flush, hent, protect_W]
  · rw [Pgdir.ent_flush, hent, protect_ppn]
  · exact hc.shared_born (live_of_running h.running) hunused Nat.one_pos hUP hP'

end Sharing

/-- `init` runs after boot. -/
theorem exists_single {C : Kernel Kmem → Op → Result → Prop}
    (hC : ∀ k p res, C k (.sched p) res) : letI := sampleLayout
    ∃ (k : Kernel Kmem) (d : Pgdir), Reachable tree C k ∧ Single k d 40000 ∧
      k.proc = (fun q => if q = initSlot then { sz := PGSIZE, state := .RUNNING, pid := 1 } else {}) ∧
      k.nextpid = 2 ∧ k.initproc = some initSlot ∧ (∀ i < 512, d.has i → i = 0) ∧
      (d.ent 0).W = true := by
  let L := sampleLayout
  obtain ⟨k, hboot, hb⟩ := boot_ok (κ := Kmem) sample_fits
  obtain ⟨d, hd, hi, hU, -, hhas⟩ := hb.dir
  have hok := ok_of_booted hb
  have hrun : (k.proc initSlot).state = .RUNNABLE := by rw [hb.table]; rfl
  obtain ⟨d', f, hd', hf, -, -⟩ := hok.inv.live initSlot (by rw [Kernel.live, hrun]; decide)
  have hs := step_sched (T := tree) hrun hd (by rw [hf]; exact Option.some_ne_none f)
  have hlen := hb.free
  refine ⟨_, d.flush, .step (.boot hboot) hs (hC ..),
    ⟨(hok.effect hs).ok hok, ?_, ?_, ?_, (hi.low 0 Nat.one_pos).1, hU, ?_, fun j => ?_⟩,
    ?_, hb.nextpid, hb.initproc, hhas, (hi.low 0 Nat.one_pos).2.1⟩
  · exact congrArg Proc.state (Table.set_self _ _ _)
  · refine (congrArg Proc.sz (Table.set_self _ _ _)).trans ?_
    rw [hb.table]
    rfl
  · exact Function.update_self initSlot (some d.flush) k.pgdir
  · dsimp only
    omega
  · dsimp only
    rw [Table.set_apply, hb.table]
    split
    · exact ProcState.noConfusion
    · rename_i hj
      dsimp only
      rw [if_neg hj]
      exact ProcState.noConfusion
  · funext q
    dsimp only
    rw [Table.set_apply, hb.table]
    split
    · rfl
    · rename_i hq
      exact if_neg hq

/-- `init` forks, and then writes to the page that the child in slot 1 has too. -/
theorem exists_written {C : Kernel Kmem → Op → Result → Prop}
    (hC : ∀ k op res, (∀ p n, op ≠ .sbrk p n) → C k op res) : letI := sampleLayout
    ∃ (k k' : Kernel Kmem) (d d' : Pgdir), Reachable tree C k ∧
      (k.proc initSlot).state = .RUNNING ∧ (k.proc ⟨1, by decide⟩).state = .RUNNABLE ∧
      k.pgdir initSlot = some d ∧ 1 < k.phys.kmem.refcount_list (d.ent 0).ppn ∧
      step tree (.store initSlot 0 0x41) k = .ok (.written 1) k' ∧
      k'.pgdir initSlot = some d' ∧ (d'.ent 0).ppn ≠ (d.ent 0).ppn := by
  let L := sampleLayout
  obtain ⟨k₀, d₀, hr₀, hk₀, ht, hn, -⟩ := exists_single (C := C) fun _ _ _ => hC _ _ _ fun _ _ h => by cases h
  have hnp : k₀.proc.first (·.state = .UNUSED) = some ⟨1, by decide⟩ := by
    rw [ht]
    rfl
  obtain ⟨f, s, d, c, hs, hk, hW, -, hsh⟩ := Single.fork (n := 38461) hk₀ hnp (by rw [hn]; decide)
  set k := k₀.born initSlot ⟨1, by decide⟩ f s d c with hke
  have hfree : k.phys.free ≠ [] := fun e => by
    have := hk.free
    rw [e, List.length_nil] at this
    omega
  obtain ⟨s', d', hs', hne, -⟩ := @step_store_shared _ _ _ hk.ok _ 0 _ 0x41 hk.running hk.dir rfl
    (by decide) hk.P hW hsh hfree
  have hchild : (k.proc ⟨1, by decide⟩).state = .RUNNABLE := by
    rw [hke, Kernel.born]
    exact congrArg Proc.state (Table.set_self ..)
  have hcount := hk.ok.inv.acct.count (d.ent 0).ppn
  exact ⟨k, _, d, d',
    .step hr₀ hs (hC _ _ _ fun _ _ h => by cases h), hk.running, hchild, hk.dir, by omega, hs',
    Kernel.setMem_self.2, hne⟩

end OsLabs.Cow
