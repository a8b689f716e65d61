import OsLabs.Himzu.Kalloc

/-!
# The pages of the other copy-on-write tree

The loops of `copyuvm`, `allocuvm` and `deallocuvm` and the fault handler of the tree `Himzu`, for
one entry below `KERNBASE`.

* `copyPage_spec`: a page of the user is shared, any other page is copied;
* `handle_spec`: the handler copies a page whose count at the physical address is above 1;
* `freePage_spec`: the frame of a page that is freed comes on the free list.
-/

namespace OsLabs.Himzu

open Xv6 StateError

section Code

variable [Layout]

/-- `walkpgdir` in `mappages`: the frame of a new page table, where the directory needs one. -/
def pageTable (table : Bool) : M (Option (List ℕ)) := do
  if table then do
    match ← kalloc with
    | none => return none
    | some pt => do
      modify fun s => s.fill pt zeroPage
      return some [pt]
  else return some []

/-- The loop of `copyuvm` for one entry: the entry of the parent afterwards, that of the child and
the page tables, or nothing where it goes to `bad`. -/
def copyPage (table : Bool) (pte : Pte) : M (Option (Pte × Pte × List ℕ)) := do
  if pte.U then do
    let pte := { pte with W := false }
    increase_ref (pte.ppn * PGSIZE)
    match ← pageTable table with
    | none => throw .uninitialised
    | some ts => return some (pte, { pte with P := true }, ts)
  else do
    match ← kalloc with
    | none => return none
    | some mem => do
      modify fun s => s.fill mem (s.mem pte.ppn)
      match ← pageTable table with
      | none => do
        kfree mem
        return none
      | some ts => return some (pte, { pte with P := true, ppn := mem }, ts)

/-- The loop of `allocuvm` for one page: the page tables and the entry. Where there is no frame for
a page table, `mem` is left to be freed after `deallocuvm`. -/
def allocPage (table : Bool) : M (List ℕ × Option Pte) := do
  match ← kalloc with
  | none => return ([], none)
  | some mem => do
    modify fun s => s.fill mem zeroPage
    match ← pageTable table with
    | none => return ([mem], none)
    | some ts => return (ts, some { W := true, U := true, P := true, ppn := mem })

/-- The loop of `deallocuvm` for one entry that is present. -/
def freePage (pte : Pte) : M Unit := do
  if pte.ppn * PGSIZE = 0 then throw .kfree else kfree pte.ppn

/-- The handler for the entry `pte`: whether it succeeds, and the entry afterwards. -/
def handle_T_PGFLT_COW (pte : Pte) : M (Bool × Pte) := do
  let pa := pte.ppn * PGSIZE
  if PHYSTOP < pa then throw .handle_T_PGFLT_COW
  else do
    let n ← get_ref pa
    if n ≤ 1 then
      if n = 0 then return (false, pte) else return (true, { pte with W := true })
    else do
      match ← kalloc with
      | none => return (false, pte)
      | some mem => do
        modify fun s => s.fill mem (s.mem pte.ppn)
        return (true, { U := true, W := true, P := true, ppn := mem })

end Code

/-! ## One page -/

section Pages

variable {dom : ℕ → Prop} {s : Phys Kmem} {e : Pte} {table : Bool}

theorem pageTable_spec (h : Kmem.Ok dom s.kmem) :
    wp (pageTable table) (fun r t => Kmem.Ok dom t.kmem ∧ SameShares s t ∧ match r with
      | none => table = true ∧ t.kmem = s.kmem
      | some ts => s.kmem.freelist = ts ++ t.kmem.freelist) (fun _ _ => False) s := by
  unfold pageTable
  simp only [wp_ite, wp_bind, wp_pure]
  refine ⟨fun ht => ?_, fun _ => ⟨h, SameShares.refl s, (List.nil_append _).symm⟩⟩
  refine wp_post (kalloc_spec h) fun r t hr => ?_
  cases r with
  | none => exact ⟨hr.1, hr.2.1, ht, hr.2.2.2⟩
  | some pt => exact ⟨hr.1, hr.2.1, hr.2.2⟩

/-- The frames in the order in which they are taken: that of the page, then the page tables. -/
theorem allocPage_spec (h : Kmem.Ok dom s.kmem) :
    wp (allocPage table) (fun r t => Kmem.Ok dom t.kmem ∧ SameShares s t ∧
      s.kmem.freelist = (r.2.map Pte.ppn).toList ++ r.1 ++ t.kmem.freelist ∧
      (∀ e, r.2 = some e → e.P = true ∧ e.U = true) ∧
      (r.2 = none → table = true ∨ s.kmem.freelist = [])) (fun _ _ => False) s := by
  unfold allocPage
  simp only [wp_bind]
  refine wp_post (kalloc_spec h) fun r t hr => ?_
  obtain ⟨hk, hshare, hr⟩ := hr
  cases r with
  | none =>
    refine ⟨hk, hshare, congrArg Kmem.freelist hr.2.symm, fun e he => ?_, fun _ => Or.inr hr.1⟩
    cases he
  | some mem =>
    simp only [wp_bind, wp_modify]
    refine wp_post (pageTable_spec (s := t.fill mem zeroPage) hk) fun r u hu => ?_
    have hshare' : SameShares s u := hshare.trans hu.2.1
    cases r with
    | none =>
      refine ⟨hu.1, hshare', ?_, fun e he => ?_, fun _ => Or.inl hu.2.2.1⟩
      · rw [hr, hu.2.2.2]
        rfl
      · cases he
    | some ts =>
      refine ⟨hu.1, hshare', hr.trans (congrArg (List.cons mem) hu.2.2), fun e he => ?_,
        fun he => ?_⟩
      · obtain rfl := Option.some.inj he
        exact ⟨rfl, rfl⟩
      · cases he

/-- The child's entry has the frame of the parent's, which is write-protected then, or a frame of
its own. -/
theorem copyPage_spec [Layout] (h : Kmem.Ok dom s.kmem) (hd : ∀ f, dom f → InRange f)
    (h0 : e.ppn ≠ 0) :
    wp (copyPage table e) (fun r t => Kmem.Ok dom t.kmem ∧ match r with
      | none => t.kmem.freelist = s.kmem.freelist ∧ e.U = false
      | some (e₁, e₂, ts) => (e₁.P = e.P ∧ e₁.ppn = e.ppn) ∧ e₂.P = true ∧
          (e.U = true ∧ e₁.W = false ∧ e₂.ppn = e.ppn ∧ s.kmem.freelist = ts ++ t.kmem.freelist ∨
            e.U = false ∧ s.kmem.freelist = e₂.ppn :: ts ++ t.kmem.freelist))
      (fun _ _ => e.U = true ∧
        (PHYSTOP < e.ppn * PGSIZE ∨ s.kmem.refs_count e.ppn < 0 ∨ table = true)) s := by
  unfold copyPage
  simp only [wp_ite, wp_bind]
  refine ⟨fun hU => ?_, fun hU => ?_⟩
  · have hppn : e.ppn * PGSIZE / PGSIZE = e.ppn := Nat.mul_div_cancel _ (by decide)
    refine wp_mono (increase_ref_spec h (by rwa [hppn])) (fun _ t ht => ?_) fun _ _ he => ?_
    · refine wp_mono (pageTable_spec ht.1) (fun r u hu => ?_) fun _ _ hf => hf.elim
      cases r with
      | none => exact ⟨hU, Or.inr (Or.inr hu.2.2.1)⟩
      | some ts => exact ⟨hu.1, ⟨rfl, rfl⟩, rfl, Or.inl ⟨hU, rfl, rfl, ht.2.symm.trans hu.2.2⟩⟩
    · rw [hppn] at he
      exact ⟨hU, he.imp_right Or.inl⟩
  · have hU : e.U = false := Bool.eq_false_iff.mpr hU
    refine wp_mono (kalloc_spec h) (fun r t hr => ?_) fun _ _ hf => hf.elim
    obtain ⟨hk, -, hr⟩ := hr
    cases r with
    | none => exact ⟨hk, congrArg Kmem.freelist hr.2, hU⟩
    | some mem =>
      have hmem : mem ∈ s.kmem.freelist := by
        rw [hr]
        exact List.mem_cons_self
      have hnd := h.nodup
      rw [hr, List.nodup_cons] at hnd
      simp only [wp_bind, wp_modify]
      refine wp_mono (pageTable_spec (s := t.fill mem (t.mem e.ppn)) hk) (fun r u hu => ?_)
        fun _ _ hf => hf.elim
      cases r with
      | none =>
        -- `mem` goes back to where it came from
        have hkmem : u.kmem = t.kmem := hu.2.2.2
        have hdom := h.sub mem hmem
        simp only [wp_bind]
        refine wp_mono (kfree_spec hu.1 hdom (hd mem hdom) (hkmem ▸ hnd.1)) (fun _ v hv => ?_)
          fun _ _ hf => hf.elim
        refine ⟨hv.1, ?_, hU⟩
        rw [hv.2.2, hkmem, hr]
      | some ts =>
        have hfree := hr.trans (congrArg (List.cons mem) hu.2.2)
        exact ⟨hu.1, ⟨rfl, rfl⟩, rfl, Or.inr ⟨hU, hfree⟩⟩

/-- A page of the user is shared if its count is not negative. -/
theorem copyPage_share [Layout] (h : Kmem.Ok dom s.kmem) (hd : ∀ f, dom f → InRange f)
    (hin : InRange e.ppn) (hU : e.U = true) (hn : 0 ≤ s.kmem.refs_count e.ppn) :
    wp (copyPage false e) (fun r _ => ∃ e₁ e₂ ts, r = some (e₁, e₂, ts) ∧
      (e₁.P = e.P ∧ e₁.ppn = e.ppn) ∧ e₁.W = false ∧ e₂.P = true ∧ e₂.ppn = e.ppn)
      (fun _ _ => False) s := by
  refine wp_mono (copyPage_spec h hd hin.ne_zero) (fun r _ hr => ?_) ?_
  · cases r with
    | none =>
      rw [hU] at hr
      cases hr.2.2
    | some r =>
      obtain ⟨e₁, e₂, ts⟩ := r
      obtain ⟨-, h₁, hP₂, ⟨-, hW, hf₂, -⟩ | ⟨hno, -⟩⟩ := hr
      · exact ⟨e₁, e₂, ts, rfl, h₁, hW, hP₂, hf₂⟩
      · rw [hU] at hno
        cases hno
  · rintro _ _ ⟨-, hlt | hlt | ht⟩
    · exact absurd hin.2.le (Nat.not_le.mpr hlt)
    · exact absurd hn (not_le.mpr hlt)
    · cases ht

theorem freePage_spec [Layout] (h : Kmem.Ok dom s.kmem) (hf : dom e.ppn) (hin : InRange e.ppn)
    (hused : e.ppn ∉ s.kmem.freelist) :
    wp (freePage e) (fun _ t => Kmem.Ok dom t.kmem ∧ t.kmem.freelist = e.ppn :: s.kmem.freelist)
      (fun _ _ => False) s := by
  have h0 : e.ppn * PGSIZE ≠ 0 := Nat.mul_ne_zero hin.ne_zero (by decide)
  unfold freePage
  rw [if_neg h0]
  exact wp_post (kfree_spec h hf hin hused) fun _ t ht => ⟨ht.1, ht.2.2⟩

/-- The handler gives the entry a frame of its own where the count at its physical address is above
1 and there is a free frame; otherwise the entry keeps its frame. -/
theorem handle_spec (h : Kmem.Ok dom s.kmem) :
    wp (handle_T_PGFLT_COW e) (fun r t => Kmem.Ok dom t.kmem ∧
      if 1 < s.kmem.refs_count e.ppn ∧ s.kmem.freelist ≠ [] then
        r.2.P = true ∧ s.kmem.freelist = r.2.ppn :: t.kmem.freelist
      else (r.2.P = e.P ∧ r.2.ppn = e.ppn) ∧ t.kmem.freelist = s.kmem.freelist)
      (fun _ _ => PHYSTOP < e.ppn * PGSIZE) s := by
  unfold handle_T_PGFLT_COW
  simp only [wp_ite, wp_throw, wp_bind]
  refine ⟨id, fun _ => ?_⟩
  refine wp_of_eq get_ref_eq ?_
  rw [Nat.mul_div_cancel _ (show 0 < PGSIZE by decide)]
  simp only [wp_pure]
  refine ⟨fun hle => ?_, fun hgt => ?_⟩
  · rw [if_neg fun hc => absurd hc.1 (not_lt.mpr hle)]
    exact ⟨fun _ => ⟨h, ⟨trivial, trivial⟩, trivial⟩, fun _ => ⟨h, ⟨trivial, trivial⟩, trivial⟩⟩
  · refine wp_mono (kalloc_spec h) (fun r t hr => ?_) fun _ _ hf => hf.elim
    obtain ⟨hk, -, hr⟩ := hr
    cases r with
    | none =>
      rw [wp_pure, if_neg fun hc => hc.2 hr.1, hr.2]
      exact ⟨h, ⟨rfl, rfl⟩, rfl⟩
    | some mem =>
      have hne : s.kmem.freelist ≠ [] := by
        rw [hr]
        exact List.cons_ne_nil _ _
      simp only [wp_bind, wp_modify, wp_pure]
      rw [if_pos ⟨not_le.mp hgt, hne⟩]
      exact ⟨hk, trivial, hr⟩

end Pages

end OsLabs.Himzu
