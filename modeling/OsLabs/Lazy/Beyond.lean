import OsLabs.Lazy.Steps

/-!
# Nothing beyond the break

`deallocuvm` clears the entries of present pages only, so a shrinking `sbrk` leaves lazy pages
behind the new end of the process; and an `mmap` whose new size wraps around leaves all of them.

* `nothing_beyond`: in every run without the two no page between the end of a process and
  `KERNBASE` is present or lazy, an access there kills, and `allocuvm` never maps a page twice;
* `shrink_leaves_lazy`: `mmap`, `sbrk` down, and the access does not kill.
-/

namespace OsLabs.Lazy

open Xv6 StateError Ledger
open Base (Kmem)

/-- No page between the end of the process and `KERNBASE` is present or lazy. -/
def NothingBeyond (sz : ℕ) (d : Pgdir) : Prop :=
  ∀ v, pages sz ≤ v → v < UPAGES → (d.ent v).P = false ∧ (d.ent v).LAZY = false

/-- A shrinking `sbrk` gives back no lazy page, and no `mmap` wraps around. -/
def leavesNothing (k : Kernel Kmem) (op : Op) (_ : Result) : Prop :=
  match op with
  | .sbrk p n => (k.proc p).state = .RUNNING → ∀ (d : Pgdir) (new : ℕ), k.pgdir p = some d →
      argint n < 0 → (new : ℤ) = (k.proc p).sz + argint n → 0 < new →
      ∀ v, pages new ≤ v → v < pages (k.proc p).sz → v < UPAGES → (d.ent v).LAZY = false
  | .mmap p n => (k.proc p).state = .RUNNING → argint n % PGSIZE = 0 →
      (k.proc p).sz + argint n < 2 ^ 32
  | _ => True

section Beyond

variable [Layout] {x : Ledger ℕ} {k k' : Kernel Kmem} {op : Op} {res : Result} {p q : ProcPtr}
variable {d : Pgdir}

omit [Layout] in
theorem NothingBeyond.image {r : Ledger ℕ} {sz : ℕ} (hi : Image r d (pages sz)) :
    NothingBeyond sz d := by
  intro v h₁ h₂
  rw [hi.high v h₁ h₂]
  exact ⟨rfl, rfl⟩

omit [Layout] in
/-- The entries beyond the end are old ones, or zero. -/
theorem NothingBeyond.of_ent {sz sz' : ℕ} {d' : Pgdir} (h : NothingBeyond sz d)
    (he : ∀ v, pages sz' ≤ v → v < UPAGES → d'.ent v = Pte.zero ∨
      pages sz ≤ v ∧ d'.ent v = d.ent v) : NothingBeyond sz' d' := by
  intro v h₁ h₂
  rcases he v h₁ h₂ with e | ⟨hge, e⟩
  · rw [e]
    exact ⟨rfl, rfl⟩
  · rw [e]
    exact h v hge h₂

theorem NothingBeyond.sbrk {r : Ledger ℕ} {s s' : Phys Kmem} {sz sz' : ℕ} {d' : Pgdir} {n : ℤ}
    (h : NothingBeyond sz d) (hL : ∀ new : ℕ, n < 0 → (new : ℤ) = sz + n → 0 < new →
      ∀ v, pages new ≤ v → v < pages sz → v < UPAGES → (d.ent v).LAZY = false)
    (he : SbrkEffect r s d sz n res s' sz' d') :
    NothingBeyond sz' d' := by
  have hsame : ∀ {d' : Pgdir}, (∀ v, d'.ent v = d.ent v ∨ d'.ent v = Pte.zero) →
      NothingBeyond sz d' := fun hd => h.of_ent fun v h₁ _ =>
    (hd v).symm.imp_right fun e => ⟨h₁, e⟩
  cases he with
  | same => exact h
  | refused => exact h
  | @grown _ _ d' hpos hnew hlt ho hg =>
    have hle : pages sz ≤ pages sz' := pages_mono (by omega)
    exact h.of_ent fun v h₁ _ => Or.inr ⟨hle.trans h₁, hg.out v (Or.inr h₁)⟩
  | @failed _ new _ hpos hnew hlt ho hu =>
    refine hsame fun v => ?_
    by_cases hin : pages sz ≤ v ∧ v < pages new
    · exact (hu.absent v hin.1 hin.2).2.symm
    · exact Or.inl (hu.out v (by omega))
  | @shrunk _ _ d₁ hneg hnew hpos ho hc =>
    intro v h₁ h₂
    rw [Pgdir.ent_flush, hc.ent]
    split
    · exact ⟨rfl, rfl⟩
    · rename_i hno
      rcases Nat.lt_or_ge v (pages sz) with hlt | hge
      · exact ⟨by simpa using fun hP => hno ⟨h₁, hlt, hP⟩, hL sz' hneg hnew hpos v h₁ hlt h₂⟩
      · exact h v hge h₂
  | emptied hneg hz ho hc =>
    refine hsame fun v => ?_
    rw [hc.ent]
    split
    · exact Or.inr rfl
    · exact Or.inl rfl

/-- Every operation of such a run leaves nothing beyond the end. -/
theorem DirStep.nothingBeyond {d' : Pgdir} (h : AllDirs NothingBeyond k)
    (hc : leavesNothing k op res) (hs : DirStep x k op res k' q d') :
    NothingBeyond (k'.proc q).sz d' := by
  cases hs with
  | common hs =>
    cases hs with
    | same hl hd hsz hs =>
      have hold := h q _ hl hd
      rw [hsz]
      rcases hs with ⟨rfl, -⟩ | rfl
      · exact hold
      · exact hold
    | @sbrk d n s' sz' hop hp hd hs' hsz he ht =>
      subst hop
      rw [hsz]
      exact (h q d (live_of_running hp) hd).sbrk (fun new => hc hp d new hd) he
    | @image d _ _ hop hp hd hsz hal hpos ht hi =>
      subst hd
      exact NothingBeyond.image (d := d) hi
  | @marked d n m hop hp hd hn hsz hm =>
    refine (h q d (live_of_running hp) hd).of_ent fun v h₁ h₂ => Or.inr ⟨?_, ?_⟩
    · rw [hsz] at h₁
      exact (pages_mono (Nat.le_add_right _ _)).trans h₁
    · rw [hsz] at h₁
      simp only [pages, PGSIZE] at h₁ hm
      rw [hm.ent, if_neg (by omega)]
  | @wrapped n m hop hp hd hn hsz =>
    subst hop
    have hlt := hc hp
    simp only [hn, PGSIZE] at hlt
    simp only [PGSIZE] at hsz
    omega
  | @fault d d₁ va v s' hop hp hd hv hL hf hd' hsz hs =>
    have hold := h q d (live_of_running hp) hd
    obtain ⟨e, hr⟩ := hf.replaced
    subst hd'
    rw [hsz]
    refine hold.of_ent fun w h₁ h₂ => Or.inr ⟨h₁, ?_⟩
    rw [Pgdir.ent_flush, hr.ent, if_neg]
    rintro rfl
    rw [(hold w h₁ h₂).2] at hL
    cases hL
  | @child p d c₀ m s' hop hp hd hun hsz hz hker hcov hc =>
    rw [hsz]
    refine (h p d (live_of_running hp) hd).of_ent fun v h₁ h₂ => Or.inl ?_
    rw [hc.high v h₁, hz v h₂]

/-- An access to a page that is not lazy, or not below `KERNBASE`, and that the entry does not
permit, ends the process. -/
theorem AccessEffect.killed {va : ℕ} {w : Option UInt8} (he : AccessEffect x p va w k res k')
    (hd : k.pgdir p = some d) (hva : va < 2 ^ 32)
    (hno : (d.ent (va / 4096)).permits w.isSome = false)
    (hL : (d.ent (va / 4096)).LAZY = true → UPAGES ≤ va / 4096 + 1) : res = .killed := by
  have hnot : ∀ {d₁ : Pgdir}, d₁.ent (va / 4096) = d.ent (va / 4096) ∨
      d₁.ent (va / 4096) = { d.ent (va / 4096) with LAZY := false } →
      ¬∃ e, d₁.allows va w.isSome e := by
    intro d₁ he
    rw [Pgdir.exists_allows hva rfl]
    rcases he with e | e
    · rw [e, hno]
      simp
    · rw [e]
      change ¬(d.ent (va / 4096)).permits w.isSome = true
      rw [hno]
      simp
  cases he with
  | direct he => exact he.eq_killed hd (hnot (Or.inl rfl))
  | @fault v _ d₀ d₁ s' _ hv hd₀ hL' hf ha he =>
    obtain rfl := Option.some.inj (hd.symm.trans hd₀)
    subst hv
    cases hf with
    | filled hlt => exact absurd (hL hL') (Nat.not_le.mpr hlt)
    | spent hlt => exact absurd (hL hL') (Nat.not_le.mpr hlt)
    | beyond _ hr =>
      refine he.eq_killed Kernel.setMem_self.2 (hnot (Or.inr ?_))
      rw [Pgdir.ent_flush, hr.ent, if_pos rfl]

/-- In every run in which no `sbrk` gives back a lazy page and no `mmap` wraps around: nothing is
present or lazy between the end of a process and `KERNBASE`, an access at or beyond its end kills
the process, and no call of `allocuvm` ends in `panic("remap")`. -/
theorem nothing_beyond (h : Reachable tree leavesNothing k) :
    AllDirs NothingBeyond k ∧
    (∀ op p va, access? op = some (p, va) → (k.proc p).state = .RUNNING →
      PGROUNDUP (k.proc p).sz ≤ va →
      wp (step tree op) (fun res _ => res = .killed) (fun e _ => e = .initExiting) k) ∧
    ∀ op e k', (∀ p, op ≠ .fork p) → step tree op k = .error e k' → e ≠ .remap := by
  obtain ⟨⟨x, hx⟩, hd⟩ := dirs_of_reachable (fun _ _ hi => .image hi)
    (fun _ _ _ _ _ _ _ _ hall hc hs => hs.nothingBeyond hall hc) h
  refine ⟨hd, fun op p va hop hp hge => ?_, fun op e k' hop hs => ?_⟩
  · have hl := live_of_running hp
    obtain ⟨d, -, hdir, -, hok⟩ := hx.live p hl
    have hva := access?_lt hop
    have hpg : pages (k.proc p).sz ≤ va / 4096 := by
      have hlt := hok.lt
      rw [KERNLINK_PGSIZE] at hlt
      simp only [PGROUNDUP, uint, PGSIZE] at hge
      simp only [pages]
      omega
    refine wp_mono (step_spec hx op) (fun res k' he => ?_) fun e _ he => ?_
    · obtain ⟨w, ha⟩ := he.ne_disabled hop hp
      rcases Nat.lt_or_ge (va / 4096) UPAGES with hup | hup
      · obtain ⟨hP, hL⟩ := hd p d hl hdir _ hpg hup
        refine ha.killed hdir hva (by simp [Pte.permits, hP]) fun h => ?_
        rw [hL] at h
        cases h
      · refine ha.killed hdir hva (by simp [Pte.permits, (hok.ent _).closed hup]) fun _ => ?_
        exact Nat.le_succ_of_le hup
    · cases op with
      | load => exact he.1
      | store => exact he.1
      | _ => cases hop
  · have hstop := of_error (step_spec hx op) hs
    cases op with
    | fork p => exact absurd rfl (hop p)
    | mmap p n =>
      obtain ⟨d, -, m, -, -, ⟨rfl, -⟩ | ⟨rfl, -⟩⟩ := hstop
      · simp
      · simp
    | load p va =>
      rw [hstop.1]
      simp
    | store p va b =>
      rw [hstop.1]
      simp
    | sbrk p n =>
      obtain ⟨d, hdir, ⟨-, v, h₁, h₂, hP⟩ | ⟨rfl, -⟩⟩ := hstop
      · rw [(hd p d (live_of_running (running_of_error hs)) hdir v h₁ h₂).1] at hP
        cases hP
      · simp
    | exec p ip argv =>
      rw [show e = _ from hstop]
      simp
    | exit p =>
      rw [hstop.1]
      simp
    | sched => exact hstop.elim
    | yield => exact hstop.elim
    | wait => exact hstop.elim
    | kalloc => exact hstop.elim
    | kfree => exact hstop.elim

end Beyond

/-- The run that has started `init`. -/
theorem nothing_beyond_started : ∃ (_ : Layout) (k : Kernel Kmem) (p : ProcPtr),
    Reachable tree leavesNothing k ∧ (k.proc p).state = .RUNNING ∧ AllDirs NothingBeyond k ∧
    wp (step tree (.load p PGSIZE)) (fun res _ => res = .killed) (fun e _ => e = .initExiting)
      k := by
  let L := sampleLayout
  obtain ⟨k, d, hr, hk⟩ := exists_started (C := leavesNothing) fun _ _ _ _ _ => trivial
  obtain ⟨hall, hkill, -⟩ := nothing_beyond hr
  refine ⟨L, k, initSlot, hr, hk.running, hall, hkill _ initSlot _ rfl hk.running ?_⟩
  rw [hk.sz]
  decide

/-- `init` maps a page and gives it back with `sbrk(-4096)`: it is still lazy. -/
theorem shrink_leaves_lazy : ∃ (_ : Layout) (k : Kernel Kmem) (p : ProcPtr) (d : Pgdir),
    Reachable tree anyOp k ∧ (k.proc p).state = .RUNNING ∧ k.pgdir p = some d ∧
    (k.proc p).sz = PGSIZE ∧ (d.ent 1).LAZY = true ∧ ¬AllDirs NothingBeyond k := by
  let L := sampleLayout
  obtain ⟨k, d, hr, hk⟩ := exists_shrunk
  refine ⟨L, k, initSlot, d, hr, hk.running, hk.dir, hk.sz, hk.lazy, fun hall => ?_⟩
  have hno := hall initSlot d (live_of_running hk.running) hk.dir 1 (by rw [hk.sz]; decide)
    (by decide)
  cases hno.2.symm.trans hk.lazy

end OsLabs.Lazy
