import OsLabs.Xv6.Common

/-!
# What the common operations do to address spaces

`CommonEffect.dir`: the directory of a process that is there afterwards is the one it had before,
or what `sbrk` made of it, or a new image. Three invariants of directories are derived from this
for all trees at once.

* `Pages ok`: every entry below `KERNBASE` is as the tree's policy `ok` wants it, given the number
  of claims on its frame; a `Policy` accepts the entries the common operations make.
* `Tight`: no page beyond the end of a process is present.
* `Inj`: a directory maps a frame in one place only.
-/

namespace OsLabs.Xv6

open StateError Ledger

section Dirs

variable {κ : Type} [Kalloc κ] [Layout] [LawfulKalloc κ]
variable {x : Ledger ℕ} {k k' : Kernel κ} {op : Op} {res : Result}

/-- How the directory of `q` came to be `d'`. -/
inductive DirChange (x : Ledger ℕ) (k : Kernel κ) (op : Op) (res : Result) (k' : Kernel κ)
    (q : ProcPtr) (d' : Pgdir) : Prop
  /-- It was there before; nothing stale is left where the process has been loaded again. -/
  | same {d : Pgdir} (hl : k.live q) (hd : k.pgdir q = some d)
      (hsz : (k'.proc q).sz = (k.proc q).sz)
      (hs : d' = d ∧ ((k'.proc q).state = .RUNNING → (k.proc q).state = .RUNNING) ∨ d' = d.flush)
  | sbrk {d : Pgdir} {n : ℤ} {s' : Phys κ} {sz' : ℕ} (hop : op = .sbrk q n)
      (hl : (k.proc q).state = .RUNNING) (hd : k.pgdir q = some d) (hs : k'.phys = s')
      (hsz : (k'.proc q).sz = sz')
      (he : SbrkEffect (x + k.rest q) k.phys d (k.proc q).sz (argint n) res s' sz' d')
      (ht : k'.total = k.rest q + d'.holds)
  | image {d : Pgdir} {ip : Option Inode} {argv : List (List UInt8)} (hop : op = .exec q ip argv)
      (hl : (k.proc q).state = .RUNNING) (hd : d' = d.flush)
      (hsz : (k'.proc q).sz < KERNBASE) (hal : (k'.proc q).sz % PGSIZE = 0)
      (hpos : 0 < (k'.proc q).sz) (ht : k'.total = k.rest q + d'.holds)
      (hi : Image (x + k.rest q) d (pages (k'.proc q).sz))

omit [LawfulKalloc κ] [Kalloc κ] [Layout] in
/-- The slots besides the one whose memory was changed. -/
theorem Kernel.setMem_of_ne {p q : ProcPtr} {s : Phys κ} {sz : ℕ} {d : Pgdir} (h : q ≠ p) :
    (k.setMem p s sz d).proc q = k.proc q ∧ (k.setMem p s sz d).pgdir q = k.pgdir q :=
  ⟨by simp [setMem, Table.set_ne, h], Function.update_of_ne h _ _⟩

omit [LawfulKalloc κ] [Kalloc κ] [Layout] in
theorem Kernel.setMem_self {p : ProcPtr} {s : Phys κ} {sz : ℕ} {d : Pgdir} :
    ((k.setMem p s sz d).proc p).sz = sz ∧ (k.setMem p s sz d).pgdir p = some d :=
  ⟨by simp [setMem], Function.update_self ..⟩

/-- The directories after a common operation. -/
theorem CommonEffect.dir (he : CommonEffect x k op res k') {q : ProcPtr} {d' : Pgdir}
    (hl : k'.live q) (hd : k'.pgdir q = some d') : DirChange x k op res k' q d' := by
  -- a slot with its old directory
  have hold : ∀ {k' : Kernel κ}, k'.live q → k.pgdir q = some d' →
      (k'.live q → k.live q) → (k'.proc q).sz = (k.proc q).sz →
      ((k'.proc q).state = .RUNNING → (k.proc q).state = .RUNNING) →
      DirChange x k op res k' q d' := fun hl hd hl' hsz hr =>
    .same (hl' hl) hd hsz (Or.inl ⟨rfl, hr⟩)
  have hkept : ∀ {k' : Kernel κ}, k'.live q → k.pgdir q = some d' → k'.proc q = k.proc q →
      DirChange x k op res k' q d' := fun hl hd hq =>
    hold hl hd (fun h => by rwa [Kernel.live, hq] at h) (by rw [hq]) fun h => by rwa [hq] at h
  cases he with
  | disabled => exact hkept hl hd rfl
  | @sched p d hp hdp =>
    by_cases hq : q = p
    · subst hq
      obtain rfl : d.flush = d' := by simpa using hd
      exact .same (by simp [Kernel.live, hp]) hdp (by simp) (Or.inr rfl)
    · have hd' : k.pgdir q = some d' := (Function.update_of_ne hq _ _).symm.trans hd
      exact hkept hl hd' (by simp [Table.set_ne, hq])
  | @yield p hp =>
    by_cases hq : q = p
    · subst hq
      exact hold hl hd (fun _ => live_of_running hp) (by simp) fun _ => hp
    · exact hkept hl hd (by simp [Table.set_ne, hq])
  | @sbrk p n d res k' hp hdp hm =>
    obtain ⟨s', sz', d₁, rfl, ha, hg, he⟩ := hm
    by_cases hq : q = p
    · subst hq
      obtain ⟨hsz, hd₁⟩ := @Kernel.setMem_self _ k q s' sz' d₁
      obtain rfl : d₁ = d' := Option.some.inj (hd₁.symm.trans hd)
      exact .sbrk rfl hp hdp rfl hsz he (Kernel.total_setMem (live_of_running hp))
    · obtain ⟨h₁, h₂⟩ := @Kernel.setMem_of_ne _ k _ _ s' sz' d₁ hq
      exact hkept hl (h₂.symm.trans hd) h₁
  | execFail ha hk => exact hkept hl hd rfl
  | @execOk p _ _ s' d₀ d sz hp hdp ha hk hsz hal hpos hi =>
    by_cases hq : q = p
    · subst hq
      obtain ⟨hsz', hd₁⟩ := @Kernel.setMem_self _ k q s' sz d.flush
      obtain rfl : d.flush = d' := Option.some.inj (hd₁.symm.trans hd)
      refine .image rfl hp rfl ?_ ?_ ?_ (Kernel.total_setMem (live_of_running hp)) ?_
      all_goals rw [hsz']; assumption
    · obtain ⟨h₁, h₂⟩ := @Kernel.setMem_of_ne _ k _ _ s' sz d.flush hq
      exact hkept hl (h₂.symm.trans hd) h₁
  | @exit p hp =>
    refine hold hl hd (fun h e => h ((Table.exit_unused _ (live_of_running hp) q).mpr e))
      (Table.exit_sz ..) fun h => ?_
    by_cases hq : q = p
    · subst hq
      exact hp
    · rcases Table.exit_state_ne k.proc p k.initproc hq with e | ⟨-, e⟩
      · exact e.symm.trans h
      · rw [e] at h
        cases h
  | @wait p res k' hp hw =>
    cases hw with
    | @reaped z d f s' hz hdz hf r hr ha hk ho =>
      obtain ⟨hqz, hlq⟩ := Kernel.live_reaped.mp hl
      exact hkept hl hd (by simp [Kernel.reaped, Table.reap, Table.set_ne, hqz])
    | none => exact hkept hl hd rfl
    | slept =>
      by_cases hq : q = p
      · subst hq
        exact hold hl hd (fun _ => live_of_running hp) (by simp) fun _ => hp
      · exact hkept hl hd (by simp [Table.set_ne, hq])
  | kallocNone => exact hkept hl hd rfl
  | kallocSome => exact hkept hl hd rfl
  | kfree => exact hkept hl hd rfl

/-! ## Invariants of directories -/

/-- A condition on entries, by the number of claims on their frame, that the entries made by the
common operations meet. -/
structure Policy (ok : ℕ → Pte → Prop) : Prop where
  zero : ∀ n, ok n Pte.zero
  fresh : ∀ e : Pte, e.P = true → e.W = true → e.CoW = false → e.LAZY = false → ok 1 e
  mono : ∀ {n m : ℕ} {e : Pte}, ok n e → m ≤ max n 1 → ok m e

omit [Kalloc κ] [Layout] [LawfulKalloc κ]

/-- Every entry below `KERNBASE` of a slot in use meets `ok`. -/
def Pages (ok : ℕ → Pte → Prop) (x : Ledger ℕ) (k : Kernel κ) : Prop :=
  ∀ q d, k.live q → k.pgdir q = some d → ∀ v < UPAGES,
    ok (refs (x + k.total) (d.ent v).ppn) (d.ent v)

/-- No page beyond the end of a process is present. -/
def Tight (k : Kernel κ) : Prop :=
  ∀ q d, k.live q → k.pgdir q = some d → ∀ v, pages (k.proc q).sz ≤ v → v < UPAGES →
    (d.ent v).P = false

/-- The directory maps no frame twice below `KERNBASE`. -/
def Pgdir.Inj (d : Pgdir) : Prop :=
  ∀ v w, v < UPAGES → w < UPAGES → (d.ent v).P = true → (d.ent w).P = true →
    (d.ent v).ppn = (d.ent w).ppn → v = w

/-- No directory maps a frame twice. -/
def Injective (k : Kernel κ) : Prop := ∀ q d, k.live q → k.pgdir q = some d → d.Inj

theorem Pgdir.inj_of_refs {d : Pgdir} {v w : ℕ} (hv : v < UPAGES) (hw : w < UPAGES)
    (hPv : (d.ent v).P = true) (hPw : (d.ent w).P = true) (h : (d.ent v).ppn = (d.ent w).ppn)
    (h1 : refs d.uses (d.ent v).ppn ≤ 1) : v = w := by
  rw [Pgdir.refs_uses_eq_card, Finset.card_le_one] at h1
  refine h1 v ?_ w ?_
  · exact Finset.mem_filter.mpr ⟨Finset.mem_range.mpr hv, hPv, rfl⟩
  · exact Finset.mem_filter.mpr ⟨Finset.mem_range.mpr hw, hPw, h.symm⟩

/-- The frame of a present page is held. -/
theorem held_of_present {q : ProcPtr} {d : Pgdir} {v : ℕ} (hl : k.live q)
    (hd : k.pgdir q = some d) (hv : v < UPAGES) (hP : (d.ent v).P = true) :
    0 < refs (x + k.total) (d.ent v).ppn := by
  have := Pgdir.refs_uses_pos hv hP
  rw [Kernel.total_eq_rest hl hd]
  simp only [Pgdir.holds, refs_add]
  omega

/-- The frames of another process are among the rest. -/
theorem refs_uses_le_rest {p q : ProcPtr} {d : Pgdir} (hq : q ≠ p) (hl : k.live q)
    (hd : k.pgdir q = some d) (f : ℕ) : refs d.uses f ≤ refs (k.rest p) f := by
  have hslot : k.slotHolds q = (k.kstack q).elim 0 excl + d.holds := by
    rw [Kernel.slotHolds, if_neg hl, hd, Option.elim_some]
  rw [Kernel.rest, ← Finset.add_sum_erase _ _ (Finset.mem_erase.mpr ⟨hq, Finset.mem_univ q⟩),
    hslot]
  simp only [Pgdir.holds, refs_add]
  omega

section SetMem

variable {p : ProcPtr} {s : Phys κ} {sz : ℕ} {d : Pgdir}

theorem Pages.setMem {ok : ℕ → Pte → Prop} {x' : Ledger ℕ} (hok : Policy ok) (h : Pages ok x k)
    (hl : k.live p) (hg : Grow (x + k.total) (x' + k.rest p + d.holds))
    (hd : ∀ v < UPAGES, ok (refs (x' + k.rest p + d.holds) (d.ent v).ppn) (d.ent v)) :
    Pages ok x' (k.setMem p s sz d) := by
  intro q d₁ hl₁ hd₁ v hv
  rw [Kernel.total_setMem hl, ← add_assoc]
  by_cases hq : q = p
  · subst hq
    obtain rfl : d = d₁ := Option.some.inj (Kernel.setMem_self.2.symm.trans hd₁)
    exact hd v hv
  · exact hok.mono (h q d₁ ((Kernel.live_setMem q).mp hl₁)
      ((Kernel.setMem_of_ne hq).2.symm.trans hd₁) v hv) (hg _)

theorem Tight.setMem (h : Tight k)
    (hd : ∀ v, pages sz ≤ v → v < UPAGES → (d.ent v).P = false) : Tight (k.setMem p s sz d) := by
  intro q d₁ hl₁ hd₁ v hge hv
  by_cases hq : q = p
  · subst hq
    obtain rfl : d = d₁ := Option.some.inj (Kernel.setMem_self.2.symm.trans hd₁)
    rw [Kernel.setMem_self.1] at hge
    exact hd v hge hv
  · rw [(Kernel.setMem_of_ne hq).1] at hge
    exact h q d₁ ((Kernel.live_setMem q).mp hl₁) ((Kernel.setMem_of_ne hq).2.symm.trans hd₁) v hge
      hv

theorem Injective.setMem (h : Injective k) (hd : d.Inj) : Injective (k.setMem p s sz d) := by
  intro q d₁ hl₁ hd₁
  by_cases hq : q = p
  · subst hq
    obtain rfl : d = d₁ := Option.some.inj (Kernel.setMem_self.2.symm.trans hd₁)
    exact hd
  · exact h q d₁ ((Kernel.live_setMem q).mp hl₁) ((Kernel.setMem_of_ne hq).2.symm.trans hd₁)

end SetMem

variable [Kalloc κ] [Layout] [LawfulKalloc κ]

/-- The policy is kept by the common operations. -/
theorem CommonEffect.pages {ok : ℕ → Pte → Prop} (hok : Policy ok) (hp : Pages ok x k)
    (he : CommonEffect x k op res k') : Pages ok x k' := by
  intro q d' hl' hd' v hv
  have hg := he.grow
  -- an entry that was there before
  have hold : ∀ {d : Pgdir}, k.live q → k.pgdir q = some d →
      ok (refs (x + k'.total) (d.ent v).ppn) (d.ent v) := fun hl hd =>
    hok.mono (hp q _ hl hd v hv) (hg _)
  cases he.dir hl' hd' with
  | same hl hd _ hs =>
    rcases hs with ⟨rfl, -⟩ | rfl
    · exact hold hl hd
    · rw [Pgdir.ent_flush]
      exact hold hl hd
  | @sbrk d n s' sz' hop hr hd hs' hsz hs ht =>
    have hl := live_of_running hr
    have htot : x + k.total = x + k.rest q + d.holds := by
      rw [add_assoc, ← Kernel.total_eq_rest hl hd]
    cases hs with
    | same =>
      rw [Pgdir.ent_flush]
      exact hold hl hd
    | refused => exact hold hl hd
    | grown hn hnew hlt ho hgr hf hk =>
      by_cases hin : Xv6.pages (k.proc q).sz ≤ v ∧ v < Xv6.pages sz'
      · have hfl := hgr.flags v hin.1 hin.2
        have h0 := (hf v hin.1 hin.2).1
        refine hok.mono (hok.fresh _ ?_ ?_ ?_ ?_) (le_trans (hg _) ?_)
        iterate 4 rw [Pgdir.ent_flush, hfl]
        rw [Pgdir.ent_flush, htot, refs_eq_zero.mpr h0]
        omega
      · have := hgr.out v (by omega)
        rw [Pgdir.ent_flush, this]
        exact hold hl hd
    | @failed _ new _ hn hnew hlt ho hu hk =>
      by_cases hin : Xv6.pages (k.proc q).sz ≤ v ∧ v < Xv6.pages new
      · rcases (hu.absent v hin.1 hin.2).2 with e | e
        · rw [e]
          exact hok.zero _
        · rw [e]
          exact hold hl hd
      · rw [hu.out v (by omega)]
        exact hold hl hd
    | shrunk hn hnew hpos ho hc hk =>
      rw [Pgdir.ent_flush, hc.ent]
      split
      · exact hok.zero _
      · exact hold hl hd
    | emptied hn hz ho hc hk =>
      rw [hc.ent]
      split
      · exact hok.zero _
      · exact hold hl hd
  | @image d _ _ _ hr hd hsz hal hpos ht hi =>
    subst hd
    rw [Pgdir.ent_flush]
    by_cases hlow : v < Xv6.pages (k'.proc q).sz
    · obtain ⟨hP, hW, hC, hL⟩ := hi.low v hlow
      have := hi.alone v hv hP
      rw [ht, Pgdir.holds_flush, ← add_assoc, this]
      exact hok.fresh _ hP hW hC hL
    · rw [hi.high v (by omega) hv]
      exact hok.zero _

theorem CommonEffect.tight (h : Tight k) (he : CommonEffect x k op res k') : Tight k' := by
  intro q d' hl' hd' v hge hv
  cases he.dir hl' hd' with
  | same hl hd hsz hs =>
    rw [hsz] at hge
    rcases hs with ⟨rfl, -⟩ | rfl
    · exact h q _ hl hd v hge hv
    · exact h q _ hl hd v hge hv
  | @sbrk d n s' sz' hop hr hd hs' hsz hs ht =>
    have hold := h q d (live_of_running hr) hd v
    rw [hsz] at hge
    cases hs with
    | grown hn hnew hlt ho hgr hf hk =>
      have hle := pages_mono (show (k.proc q).sz ≤ sz' by omega)
      rw [Pgdir.ent_flush, hgr.out v (Or.inr hge)]
      exact hold (le_trans hle hge) hv
    | @failed _ new _ hn hnew hlt ho hu hk =>
      by_cases hin : v < Xv6.pages new
      · exact (hu.absent v hge hin).1
      · rw [hu.out v (by omega)]
        exact hold hge hv
    | shrunk hn hnew hpos ho hc hk =>
      rw [Pgdir.ent_flush, hc.ent]
      split
      · rfl
      · rename_i hn
        by_contra hP
        refine hP (hold ?_ hv)
        by_contra hlt
        exact hn ⟨hge, by omega, by simpa using hP⟩
    | emptied hn hz ho hc hk =>
      rw [hc.ent]
      split
      · rfl
      · exact hold hge hv
    | same => exact hold hge hv
    | refused => exact hold hge hv
  | @image d _ _ _ hr hd hsz hal hpos ht hi =>
    subst hd
    rw [Pgdir.ent_flush, hi.high v hge hv]
    rfl

omit [Kalloc κ] [Layout] [LawfulKalloc κ] in
/-- Only pages that were there before. -/
theorem Pgdir.Inj.sub {d d' : Pgdir} (h : d.Inj)
    (hs : ∀ v < UPAGES, (d'.ent v).P = true → d'.ent v = d.ent v) : d'.Inj := by
  intro v w hv hw hPv hPw he
  have ev := hs v hv hPv
  have ew := hs w hw hPw
  rw [ev] at hPv
  rw [ew] at hPw
  rw [ev, ew] at he
  exact h v w hv hw hPv hPw he

theorem CommonEffect.injective (h : Injective k) (he : CommonEffect x k op res k') :
    Injective k' := by
  intro q d' hl' hd'
  have hg := he.grow
  cases he.dir hl' hd' with
  | same hl hd hsz hs =>
    rcases hs with ⟨rfl, -⟩ | rfl
    · exact h q _ hl hd
    · exact (h q _ hl hd).sub fun _ _ _ => rfl
  | @sbrk d n s' sz' hop hr hd hs' hsz hs ht =>
    have hl := live_of_running hr
    have hold := h q d hl hd
    have htot : x + k.total = x + k.rest q + d.holds := by
      rw [add_assoc, ← Kernel.total_eq_rest hl hd]
    cases hs with
    | same => exact hold
    | refused => exact hold
    | @grown _ _ d₁ hn hnew hlt ho hgr hf hk =>
      -- a new page is alone in its frame
      have hnew : ∀ v w, Xv6.pages (k.proc q).sz ≤ v → v < Xv6.pages sz' → v < UPAGES →
          w < UPAGES → (d₁.ent v).P = true → (d₁.ent w).P = true →
          (d₁.ent v).ppn = (d₁.ent w).ppn → v = w := by
        intro v w h₁ h₂ hv hw hPv hPw he
        refine Pgdir.inj_of_refs hv hw hPv hPw he ?_
        have h₃ := hg (d₁.ent v).ppn
        rw [htot, refs_eq_zero.mpr (hf v h₁ h₂).1, ht] at h₃
        simp only [Pgdir.holds, Pgdir.uses_flush, refs_add] at h₃
        omega
      intro v w hv hw hPv hPw he
      by_cases hin : Xv6.pages (k.proc q).sz ≤ v ∧ v < Xv6.pages sz'
      · exact hnew v w hin.1 hin.2 hv hw hPv hPw he
      by_cases hin' : Xv6.pages (k.proc q).sz ≤ w ∧ w < Xv6.pages sz'
      · exact (hnew w v hin'.1 hin'.2 hw hv hPw hPv he.symm).symm
      simp only [Pgdir.ent_flush, hgr.out v (by omega)] at hPv he
      simp only [Pgdir.ent_flush, hgr.out w (by omega)] at hPw he
      exact hold v w hv hw hPv hPw he
    | @failed _ new _ hn hnew hlt ho hu hk =>
      refine hold.sub fun v hv hP => hu.out v ?_
      by_contra hin
      rw [(hu.absent v (by omega) (by omega)).1] at hP
      cases hP
    | shrunk hn hnew hpos ho hc hk =>
      refine hold.sub fun v hv hP => ?_
      rw [Pgdir.ent_flush, hc.ent] at hP ⊢
      split
      · rename_i hin
        rw [if_pos hin] at hP
        cases hP
      · rfl
    | emptied hn hz ho hc hk =>
      refine hold.sub fun v hv hP => ?_
      rw [hc.ent] at hP ⊢
      split
      · rename_i hin
        rw [if_pos hin] at hP
        cases hP
      · rfl
  | @image d _ _ _ hr hd hsz hal hpos ht hi =>
    subst hd
    intro v w hv hw hPv hPw he
    refine Pgdir.inj_of_refs (d := d) hv hw hPv hPw he ?_
    have := hi.alone v hv hPv
    simp only [Pgdir.holds, refs_add] at this
    omega

end Dirs

end OsLabs.Xv6
