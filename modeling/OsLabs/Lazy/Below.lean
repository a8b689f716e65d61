import OsLabs.Lazy.Steps

/-!
# Everything below the break

`copyuvm` and the counter of physical pages take it for granted that every page below the end of
the process is present or lazy. Three operations break this: `mmap` marks one page too few where
the old end is no page boundary, the page-fault handler takes the mark from a page that it has no
frame for, and `sbrk(-sz)` gives all pages back and leaves the size as it was.

* `covered_below`: in every run without these every page below the end is present or lazy, and
  not both, and neither `copyuvm` nor `present_or_not` misses an entry;
* `mmap_misses_page`: `sbrk(100)` and `mmap(4096)`.
-/

namespace OsLabs.Lazy

open Xv6 StateError Ledger
open Base (Kmem)

/-- Every page below the end of the process is present or lazy. -/
def CoveredBelow (sz : ℕ) (d : Pgdir) : Prop := ∀ v < pages sz, Covered (d.ent v)

/-- The operation is none of the three. -/
structure KeepsCover [Layout] (k : Kernel Kmem) (op : Op) (res : Result) : Prop where
  /-- `mmap` finds the page of its new end, if it ends within one, present or lazy. -/
  mmap : ∀ (p : ProcPtr) (n : ℤ) (d : Pgdir) (new : ℕ), op = .mmap p n →
    (k.proc p).state = .RUNNING → k.pgdir p = some d → 0 < argint n → argint n % PGSIZE = 0 →
    (new : ℤ) = (k.proc p).sz + argint n → new < 2 ^ 32 → new % PGSIZE ≠ 0 →
    Covered (d.ent (new / PGSIZE))
  /-- A fault on a lazy page below the end finds a frame, and the page ends below `KERNBASE`. -/
  access : ∀ p va d, access? op = some (p, va) → (k.proc p).state = .RUNNING →
    k.pgdir p = some d → va / PGSIZE < pages (k.proc p).sz →
    (d.ent (va / PGSIZE)).LAZY = true → k.phys.free ≠ [] ∧ va / PGSIZE + 1 < UPAGES
  /-- `sbrk(-sz)` finds no page present. -/
  sbrk : ∀ p n d, op = .sbrk p n → (k.proc p).state = .RUNNING → k.pgdir p = some d →
    (k.proc p).sz + argint n = 0 →
    ∀ v < pages (k.proc p).sz, v < UPAGES → (d.ent v).P = false

section Below

variable [Layout] {x : Ledger ℕ} {k k' : Kernel Kmem} {op : Op} {res : Result} {p q : ProcPtr}
variable {d : Pgdir}

omit [Layout] in
theorem CoveredBelow.of_ent {sz sz' : ℕ} {d' : Pgdir} (h : CoveredBelow sz d)
    (hle : pages sz' ≤ pages sz) (he : ∀ v < pages sz', d'.ent v = d.ent v) :
    CoveredBelow sz' d' := fun v hv => by
  rw [he v hv]
  exact h v (hv.trans_le hle)

theorem CoveredBelow.sbrk {r : Ledger ℕ} {s s' : Phys Kmem} {sz sz' : ℕ} {d' : Pgdir} {n : ℤ}
    (h : CoveredBelow sz d) (hz : sz + n = 0 → ∀ v < pages sz, v < UPAGES → (d.ent v).P = false)
    (he : SbrkEffect r s d sz n res s' sz' d') : CoveredBelow sz' d' := by
  cases he with
  | same => exact h
  | refused => exact h
  | @grown _ _ d' hpos hnew hlt ho hg =>
    intro v hv
    rw [Pgdir.ent_flush]
    rcases Nat.lt_or_ge v (pages sz) with hlow | hhigh
    · rw [hg.out v (Or.inl hlow)]
      exact h v hlow
    · exact Or.inl (by rw [hg.flags v hhigh hv])
  | failed hpos hnew hlt ho hu => exact h.of_ent (le_refl _) fun v hv => hu.out v (Or.inl hv)
  | @shrunk _ _ d₁ hneg hnew hpos ho hc =>
    refine h.of_ent (pages_mono (by omega)) fun v hv => ?_
    rw [Pgdir.ent_flush, hc.ent, if_neg (by omega)]
  | emptied hneg hzero ho hc =>
    refine h.of_ent (le_refl _) fun v hv => ?_
    rcases Nat.lt_or_ge v UPAGES with hup | hup
    · rw [hc.ent, hz hzero v hv hup, if_neg (by simp)]
    · exact hc.kernel v hup

/-- Every operation of such a run keeps the pages below the end covered. -/
theorem DirStep.coveredBelow {d' : Pgdir} (h : AllDirs CoveredBelow k)
    (hc : KeepsCover k op res) (hs : DirStep x k op res k' q d') :
    CoveredBelow (k'.proc q).sz d' := by
  cases hs with
  | common hs =>
    cases hs with
    | same hl hd hsz hs =>
      have hold := h q _ hl hd
      rw [hsz]
      rcases hs with ⟨rfl, -⟩ | rfl
      · exact hold
      · exact hold
    | @sbrk d n s' sz' hop hp hd hs' hsz he ht =>
      rw [hsz]
      exact (h q d (live_of_running hp) hd).sbrk (hc.sbrk q n d hop hp hd) he
    | @image d _ _ hop hp hd hsz hal hpos ht hi =>
      subst hd
      exact fun v hv => Or.inl (hi.low v hv).1
  | @marked d n m hop hp hd hn hsz hm hlt =>
    intro v hv
    have hold := h q d (live_of_running hp) hd
    have hcov := hc.mmap q n d (k'.proc q).sz hop hp hd
    have hmax := (argint_bounds n).2
    rw [hsz] at hv hcov hlt
    rw [KERNLINK_PGSIZE] at hlt
    simp only [PGSIZE, pages] at hv hcov hm hn hlt
    by_cases hin : (k.proc q).sz / 4096 ≤ v ∧ v < (k.proc q).sz / 4096 + m
    · rw [hm.ent, if_pos hin]
      exact Or.inr rfl
    rw [hm.ent, if_neg hin]
    by_cases hlow : v < pages (k.proc q).sz
    · exact hold v hlow
    -- the page of the new end
    simp only [pages] at hlow
    have hve : ((k.proc q).sz + m * 4096) / 4096 = v := by omega
    rw [hve] at hcov
    exact hcov (by omega) (by omega) (by omega) (by omega) (by omega)
  | @wrapped n m hop hp hd hn hsz =>
    have hmax := (argint_bounds n).2
    simp only [PGSIZE] at hsz hn
    exact (h q d' (live_of_running hp) hd).of_ent (pages_mono (by omega)) fun _ _ => rfl
  | @fault d d₁ va v s' hop hp hd hv hL hf hd' hsz hs =>
    have hold := h q d (live_of_running hp) hd
    subst hd' hv
    rw [hsz]
    intro w hw
    rw [Pgdir.ent_flush]
    have hfind := hc.access q va d hop hp hd
    simp only [PGSIZE] at hfind
    have hother : ∀ {e : Pte}, Replaced d d₁ (va / 4096) e → w ≠ va / 4096 →
        Covered (d₁.ent w) := fun hr hne => by
      rw [hr.ent, if_neg hne]
      exact hold w hw
    by_cases hwv : w = va / 4096
    · obtain ⟨hne, hlt⟩ := hfind (hwv ▸ hw) hL
      cases hf with
      | filled _ _ _ hr => exact Or.inl (by rw [hwv, hr.ent, if_pos rfl])
      | spent _ hnil => exact absurd hnil hne
      | beyond hge => exact absurd hge (Nat.not_le.mpr hlt)
    · obtain ⟨e, hr⟩ := hf.replaced
      exact hother hr hwv
  | @child p d c₀ m s' hop hp hd hun hsz hz hker hcov hc =>
    rw [hsz]
    intro v hv
    cases hL : (d.ent v).LAZY with
    | true =>
      rw [hc.marked v hv hL]
      exact Or.inr rfl
    | false =>
      refine Or.inl ?_
      rw [(hc.copy v hv hL).2.1]
      exact (hcov v hv).resolve_right (by simp [hL])

/-- In every run whose operations all keep the cover: every page below the end of a process has a
page table, and is present or lazy but not both; `fork` never finds a page missing; and
`present_or_not` never follows a null pointer. -/
theorem covered_below (h : Reachable tree KeepsCover k) :
    AllDirs (fun sz d => ∀ v < pages sz, d.has (v / 1024) ∧
      ((d.ent v).P = true ∧ (d.ent v).LAZY = false ∨
        (d.ent v).P = false ∧ (d.ent v).LAZY = true)) k ∧
    (∀ p e k', step tree (.fork p) k = .error e k' → e ≠ .copyuvmExist ∧ e ≠ .copyuvmPresent) ∧
    ∀ p va, k.live p → va < (k.proc p).sz → ∃ b, present_or_not p va k = .ok b k := by
  obtain ⟨⟨x, hx⟩, hall⟩ := dirs_of_reachable (P := CoveredBelow)
    (fun _ _ hi v hv => Or.inl (hi.low v hv).1)
    (fun _ _ _ _ _ _ _ _ hall hc hs => hs.coveredBelow hall hc) h
  have hhas : ∀ {d : Pgdir} {v : ℕ}, Covered (d.ent v) → d.has (v / 1024) := fun hc =>
    Pgdir.has_of_ent_ne fun e => by
      rw [e] at hc
      rcases hc with h | h <;> cases h
  refine ⟨fun q d hl hd v hv => ?_, fun p e k' hs => ?_, fun p va hl hva => ?_⟩
  · have hcov := hall q d hl hd v hv
    have hex := ((hx.of_live hl hd).2.ent v).excl
    refine ⟨hhas hcov, ?_⟩
    cases hL : (d.ent v).LAZY with
    | true => exact Or.inr ⟨hex hL, rfl⟩
    | false => exact Or.inl ⟨hcov.resolve_right (by simp [hL]), rfl⟩
  · have hl := live_of_running (running_of_error hs)
    obtain ⟨-, ⟨rfl, -⟩ | ⟨d, n, hd, -, v, hv, -, -, hstop⟩⟩ := of_error (step_spec hx (.fork p)) hs
    · simp
    · rcases hstop with ⟨-, hno⟩ | ⟨rfl, -⟩ | ⟨rfl, -⟩
      · exact absurd (hall p d hl hd v hv) hno
      · simp
      · simp
  · obtain ⟨d, -, hd, -, hok⟩ := hx.live p hl
    have hlt := hok.lt
    rw [KERNLINK_PGSIZE] at hlt
    have hv : va / 4096 < pages (k.proc p).sz := by
      simp only [pages]
      omega
    refine ⟨(d.ent (va / 4096)).P, eq_ok_of_wp ?_⟩
    unfold present_or_not
    simp only [wp_bind, wp_getPgdir hd,
      Pgdir.find_of_has (show va < 2 ^ 32 by omega) (hhas (hall p d hl hd _ hv)), wp_pure, and_self]

end Below

/-- The run that has started `init`. -/
theorem covered_below_started : ∃ (_ : Layout) (k : Kernel Kmem) (p : ProcPtr),
    Reachable tree KeepsCover k ∧ (k.proc p).state = .RUNNING ∧
    ∃ b, present_or_not p 0 k = .ok b k := by
  let L := sampleLayout
  obtain ⟨k, d, hr, hk⟩ := exists_started (C := KeepsCover) fun _ _ _ _ _ =>
    ⟨fun _ _ _ _ h => (by cases h), fun _ _ _ h => (by cases h), fun _ _ _ h => (by cases h)⟩
  refine ⟨L, k, initSlot, hr, hk.running,
    (covered_below hr).2.2 initSlot 0 (live_of_running hk.running) ?_⟩
  rw [hk.sz]
  decide

/-- After `sbrk(100)` and `mmap(4096)` the process ends in page 2, which is neither present nor
lazy. -/
theorem mmap_misses_page : ∃ (_ : Layout) (k : Kernel Kmem) (p : ProcPtr) (d : Pgdir),
    Reachable tree anyOp k ∧ (k.proc p).state = .RUNNING ∧ k.pgdir p = some d ∧
    2 * PGSIZE < (k.proc p).sz ∧ (d.ent 2).P = false ∧ (d.ent 2).LAZY = false := by
  let L := sampleLayout
  obtain ⟨k, k', d, d', hr, hk⟩ := exists_unaligned
  have hent : d'.ent 2 = Pte.zero := by
    rw [hk.marked.ent, if_neg (by decide)]
    exact hk.high
  refine ⟨L, k', initSlot, d', .step hr hk.step trivial, hk.running', hk.dir', ?_, ?_, ?_⟩
  · rw [hk.sz']
    decide
  · rw [hent]
    rfl
  · rw [hent]
    rfl

end OsLabs.Lazy
