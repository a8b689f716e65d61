import OsLabs.Xv6.Vm

/-!
# Specifications of `walkpgdir` and `mappages`

Under a ledger `r + d.tables`, with `r` everything but the page tables of the directory `d`, both
functions account for the page tables they create and leave all frame contents alone.

* `Pgdir.Ext d d'`: `d'` is `d` with further, empty page tables.
* `walkpgdir_spec`: the entry exists in an extension of `d`, or memory has run out.
* `mappages_page_spec`: mapping a single absent page is one store into an extension.
* `mappagesLoop_range`: mapping a range of absent pages changes the entries of the range only,
  creates page tables for the range only, and consumes one free frame for each.
-/

namespace OsLabs.Xv6

open StateError Ledger

/-- `d'` is `d` with further, empty page tables. -/
structure Pgdir.Ext (d d' : Pgdir) : Prop where
  frame : d'.frame = d.frame
  ent : ∀ v, d'.ent v = d.ent v
  pde : ∀ i, d.has i → d'.pde i = d.pde i
  stale : d'.stale = d.stale

namespace Pgdir.Ext

theorem refl (d : Pgdir) : d.Ext d := ⟨rfl, fun _ => rfl, fun _ _ => rfl, rfl⟩

theorem addTable {d : Pgdir} {i f : ℕ} (h : ¬d.has i) : d.Ext (d.addTable i f) :=
  ⟨rfl, ent_addTable h, fun j hj => Function.update_of_ne (fun e : j = i => h (e ▸ hj)) _ _,
    rfl⟩

theorem has {d d' : Pgdir} (h : d.Ext d') (i : ℕ) (hi : d.has i) : d'.has i := by
  rwa [Pgdir.has, h.pde i hi]

theorem refs_tables_le {d d' : Pgdir} (h : d.Ext d') (f : ℕ) :
    refs d.tables f ≤ refs d'.tables f := by
  unfold tables
  rw [refs_sum, refs_sum]
  refine Finset.sum_le_sum fun i _ => ?_
  by_cases hi : d.has i
  · rw [h.pde i hi]
  · simp only [Pgdir.has, ne_eq, not_not] at hi
    simp [hi]

theorem uses {d d' : Pgdir} (h : d.Ext d') : d'.uses = d.uses :=
  uses_congr fun v _ => by rw [h.ent]

end Pgdir.Ext

/-- The number of page tables of a directory. -/
def Pgdir.numTables (d : Pgdir) : ℕ :=
  ((Finset.range NPDENTRIES).filter fun i => (d.pde i).isSome).card

namespace Pgdir

theorem numTables_addTable {d : Pgdir} {i f : ℕ} (hi : i < NPDENTRIES) (hd : ¬d.has i) :
    (d.addTable i f).numTables = d.numTables + 1 := by
  simp only [has, ne_eq, not_not] at hd
  have hset : ((Finset.range NPDENTRIES).filter fun j => ((d.addTable i f).pde j).isSome) =
      insert i ((Finset.range NPDENTRIES).filter fun j => (d.pde j).isSome) := by
    ext j
    rw [Finset.mem_insert, Finset.mem_filter, Finset.mem_filter]
    by_cases hj : j = i
    · subst hj; simp [hi, addTable]
    · simp [hj, addTable]
  rw [numTables, numTables, hset, Finset.card_insert_of_notMem (by simp [hd])]

theorem numTables_store (d : Pgdir) (va : ℕ) (e : Pte) :
    (d.store va e).numTables = d.numTables := by
  refine congrArg Finset.card (Finset.filter_congr fun i _ => ?_)
  have := @has_store d va e i
  simpa only [has, ← Option.isSome_iff_ne_none] using this

theorem numTables_le_max (d : Pgdir) : d.numTables ≤ 1024 :=
  (Finset.card_filter_le _ _).trans (le_of_eq (Finset.card_range _))

/-- The page tables of a directory, bounded by a set of indexes that contains them. -/
theorem numTables_le {d : Pgdir} (t : Finset ℕ) (h : ∀ i, d.has i → i ∈ t) :
    d.numTables ≤ t.card := by
  refine Finset.card_le_card fun i hi => h i ?_
  simp only [Finset.mem_filter] at hi
  exact Option.isSome_iff_ne_none.mp hi.2

theorem numTables_eq {d : Pgdir} (t : Finset ℕ) (ht : t ⊆ Finset.range NPDENTRIES)
    (h : ∀ i, d.has i ↔ i ∈ t) : d.numTables = t.card := by
  refine le_antisymm (numTables_le t fun i => (h i).mp) (Finset.card_le_card fun i hi => ?_)
  exact Finset.mem_filter.mpr ⟨ht hi, Option.isSome_iff_ne_none.mpr ((h i).mpr hi)⟩

theorem deref_of_has {d : Pgdir} {va : ℕ} (h : va < 2 ^ 32) (hd : d.has (va / 4096 / 1024)) :
    d.deref va = d.ent (va / 4096) := by
  rw [deref, find_of_has h hd, Option.getD_some]

end Pgdir

variable {κ : Type} [Kalloc κ]

/-- The free frames. -/
def Phys.free (s : Phys κ) : List ℕ := Kalloc.freelist s.kmem

variable {dom : ℕ → Prop} {s : Phys κ} {r : Ledger ℕ} {d : Pgdir}

/-- Mapping a page that is present already. -/
theorem mappages_remap {v ppn : ℕ} {perm : Flags} (hv : v < 2 ^ 20) (hP : (d.ent v).P = true)
    {Q : Pgdir × Bool → Phys κ → Prop} {E : Panic → Phys κ → Prop} :
    wp (mappages d (v * 4096) PGSIZE ppn perm) Q E s ↔ E .remap s := by
  have hfirst : PGROUNDDOWN (v * 4096) = v * 4096 := by
    simp only [PGROUNDDOWN, PGSIZE]
    omega
  have hhas : d.has (v / 1024) := Pgdir.has_of_ent_ne fun e => by simp [e, Pte.zero] at hP
  obtain ⟨t, ht⟩ := Option.ne_none_iff_exists'.mp hhas
  have hvv : v * 4096 / 4096 = v := by omega
  have hderef : (d.deref (v * 4096)).P = true := by
    rw [Pgdir.deref_of_has (by omega) (by rwa [hvv]), hvv, hP]
  unfold mappages
  rw [hfirst, loopFuel]
  unfold mappagesLoop walkpgdir
  rw [PDX_page hv, ht]
  simp only [wp_bind, wp_pure, hderef, if_true, wp_throw]

/-- Mapping an absent page whose page table is there. -/
theorem mappages_has {v ppn : ℕ} {perm : Flags} (hv : v < 2 ^ 20) (hhas : d.has (v / 1024))
    (hP : (d.ent v).P = false) {Q : Pgdir × Bool → Phys κ → Prop} {E : Panic → Phys κ → Prop} :
    wp (mappages d (v * 4096) PGSIZE ppn perm) Q E s ↔
      Q (d.store (v * 4096) { perm with ppn := ppn, P := true }, true) s := by
  have hfirst : PGROUNDDOWN (v * 4096) = v * 4096 := by
    simp only [PGROUNDDOWN, PGSIZE]
    omega
  have hlast : PGROUNDDOWN (uint (v * 4096 + PGSIZE - 1)) = v * 4096 := by
    simp only [PGROUNDDOWN, uint, PGSIZE]
    omega
  obtain ⟨t, ht⟩ := Option.ne_none_iff_exists'.mp hhas
  have hvv : v * 4096 / 4096 = v := by omega
  have hderef : (d.deref (v * 4096)).P = false := by
    rw [Pgdir.deref_of_has (by omega) (by rwa [hvv]), hvv, hP]
  unfold mappages
  rw [hfirst, hlast, loopFuel]
  unfold mappagesLoop walkpgdir
  rw [PDX_page hv, ht]
  simp only [wp_bind, wp_pure, hderef, Bool.false_eq_true, if_false, if_true]

variable [Layout] [LawfulKalloc κ]

/-- With `alloc`, the page table was there, or is a new one in a frame nobody held, or there is no
frame left for it. -/
theorem walkpgdir_spec {va : ℕ} (hva : va < 2 ^ 32) (ha : Acct dom s.kmem (r + d.tables)) :
    wp (walkpgdir d va true) (fun res s' => match res with
      | none => s' = { s with oom := true } ∧ s.free = [] ∧ ¬d.has (va / 4096 / 1024)
      | some d' => (d.has (va / 4096 / 1024) ∧ d' = d ∧ s' = s) ∨
          (¬d.has (va / 4096 / 1024) ∧ ∃ f, d' = d.addTable (va / 4096 / 1024) f ∧
            (r + d.tables) f = 0 ∧ Acct dom s'.kmem (r + d'.tables) ∧ s'.mem = s.mem ∧
            s'.oom = s.oom ∧ s.free = f :: s'.free))
      (fun _ _ => False) s := by
  have hi : va / 4096 / 1024 < NPDENTRIES := by
    simp only [NPDENTRIES]
    omega
  unfold walkpgdir
  rw [PDX_eq hva]
  cases hd : d.pde (va / 4096 / 1024) with
  | some t =>
    simp only [wp_pure]
    exact Or.inl ⟨by simp [Pgdir.has, hd], trivial, trivial⟩
  | none =>
    have hnot : ¬d.has (va / 4096 / 1024) := by simp [Pgdir.has, hd]
    simp only [if_true, wp_bind]
    refine wp_post (LawfulKalloc.kalloc_spec ha) fun res s' h => ?_
    cases res with
    | none => exact ⟨h.1, h.2, hnot⟩
    | some f =>
      obtain ⟨hf, hacct, hmem, hoom, hfree⟩ := h
      refine Or.inr ⟨hnot, f, rfl, hf, ?_, hmem, hoom, hfree⟩
      rw [Pgdir.tables_addTable hi hnot, ← add_assoc]
      exact hacct _ (isClaim_excl f)

/-- The same as an extension of the directory. -/
theorem walkpgdir_ext {va : ℕ} (hva : va < 2 ^ 32) (ha : Acct dom s.kmem (r + d.tables)) :
    wp (walkpgdir d va true) (fun res s' => match res with
      | none => s' = { s with oom := true } ∧ s.free = [] ∧ ¬d.has (va / 4096 / 1024)
      | some d' => d.Ext d' ∧ d'.has (va / 4096 / 1024) ∧
          (∀ i, d'.has i → d.has i ∨ i = va / 4096 / 1024) ∧ Acct dom s'.kmem (r + d'.tables) ∧
          Grow (r + d.tables) (r + d'.tables) ∧ s'.mem = s.mem ∧ s'.oom = s.oom ∧
          s'.free.length + d'.numTables = s.free.length + d.numTables)
      (fun _ _ => False) s := by
  have hi : va / 4096 / 1024 < NPDENTRIES := by
    simp only [NPDENTRIES]
    omega
  refine wp_post (walkpgdir_spec hva ha) fun res s' h => ?_
  cases res with
  | none => exact h
  | some d' =>
    rcases h with ⟨hhas, rfl, rfl⟩ | ⟨hnot, f, rfl, hf, hacct, hmem, hoom, hfree⟩
    · exact ⟨.refl _, hhas, fun i hi => Or.inl hi, ha, .refl _, rfl, rfl, rfl⟩
    · refine ⟨.addTable hnot, (Pgdir.has_addTable _).mpr (Or.inl rfl), fun i hi =>
        ((Pgdir.has_addTable i).mp hi).symm, hacct, ?_, hmem, hoom, ?_⟩
      · rw [Pgdir.tables_addTable hi hnot, ← add_assoc]
        exact .add_claim hf (isClaim_excl f)
      · rw [Pgdir.numTables_addTable hi hnot, hfree, List.length_cons]
        omega

/-- One round of `mappages` on an absent page: no page table, or the store and then the rest. -/
theorem mappagesLoop_round {perm : Flags} {last fuel v ppn : ℕ} (hv : v < 2 ^ 20)
    (ha : Acct dom s.kmem (r + d.tables)) (hP : (d.ent v).P = false)
    {Q : Pgdir × Bool → Phys κ → Prop} {E : Panic → Phys κ → Prop}
    (hnone : s.free = [] → ¬d.has (v / 1024) → Q (d, false) { s with oom := true })
    (hsome : ∀ d₁ s₁, d.Ext d₁ → d₁.has (v / 1024) → (∀ i, d₁.has i → d.has i ∨ i = v / 1024) →
      Acct dom s₁.kmem (r + d₁.tables) → Grow (r + d.tables) (r + d₁.tables) → s₁.mem = s.mem →
      s₁.oom = s.oom → s₁.free.length + d₁.numTables = s.free.length + d.numTables →
      wp (if v * 4096 = last then
          return (d₁.store (v * 4096) { perm with ppn := ppn, P := true }, true)
        else mappagesLoop perm last fuel (d₁.store (v * 4096) { perm with ppn := ppn, P := true })
          (uint (v * 4096 + PGSIZE)) (ppn + 1)) Q E s₁) :
    wp (mappagesLoop perm last (fuel + 1) d (v * 4096) ppn) Q E s := by
  have hva : v * 4096 < 2 ^ 32 := by omega
  have hvv : v * 4096 / 4096 = v := by omega
  unfold mappagesLoop
  simp only [wp_bind]
  refine wp_mono (walkpgdir_ext hva ha) (fun res s₁ h => ?_) fun _ _ h => h.elim
  cases res with
  | none =>
    obtain ⟨rfl, hfree, hhas⟩ := h
    exact hnone hfree (by rwa [hvv] at hhas)
  | some d₁ =>
    rw [hvv] at h
    obtain ⟨hext, hhas, honly, hacct, hgrow, hmem, hoom, hlen⟩ := h
    have hderef : (d₁.deref (v * 4096)).P = false := by
      rw [Pgdir.deref_of_has hva (by rwa [hvv]), hvv, hext.ent, hP]
    simp only [hderef]
    exact hsome d₁ s₁ hext hhas honly hacct hgrow hmem hoom hlen

/-- Mapping a single absent page. -/
theorem mappages_page_spec {perm : Flags} {v ppn : ℕ} (hv : v < 2 ^ 20)
    (ha : Acct dom s.kmem (r + d.tables)) (hP : (d.ent v).P = false) :
    wp (mappages d (v * 4096) PGSIZE ppn perm) (fun res s' =>
      Acct dom s'.kmem (r + res.1.tables) ∧ Grow (r + d.tables) (r + res.1.tables) ∧
      s'.mem = s.mem ∧
      (res.2 = true → s'.oom = s.oom ∧
        s'.free.length + res.1.numTables = s.free.length + d.numTables ∧
        ∃ d₁, d.Ext d₁ ∧ d₁.has (v / 1024) ∧ (∀ i, d₁.has i → d.has i ∨ i = v / 1024) ∧
          res.1 = d₁.store (v * 4096) { perm with ppn := ppn, P := true }) ∧
      (res.2 = false → res.1 = d ∧ s'.oom = true ∧ s.free = [] ∧ ¬d.has (v / 1024)))
      (fun _ _ => False) s := by
  have hlast : PGROUNDDOWN (uint (v * 4096 + PGSIZE - 1)) = v * 4096 := by
    simp only [PGROUNDDOWN, uint, PGSIZE]
    omega
  have hfirst : PGROUNDDOWN (v * 4096) = v * 4096 := by
    simp only [PGROUNDDOWN, PGSIZE]
    omega
  unfold mappages
  rw [hlast, hfirst, loopFuel]
  refine mappagesLoop_round hv ha hP (fun hfree hnot => ?_) fun d₁ s₁ hext hhas honly hacct hgrow
    hmem hoom hlen => ?_
  · exact ⟨ha, .refl _, rfl, by simp, fun _ => ⟨rfl, rfl, hfree, hnot⟩⟩
  · simp only [if_true, wp_pure, Pgdir.tables_store]
    refine ⟨hacct, hgrow, hmem, fun _ => ⟨hoom, ?_, d₁, hext, hhas, honly, rfl⟩, by simp⟩
    rw [Pgdir.numTables_store, hlen]

/-- Mapping the absent pages `v, …, v + n`. -/
theorem mappagesLoop_range {perm : Flags} (n : ℕ) : ∀ {fuel v ppn : ℕ} {s : Phys κ} {d : Pgdir},
    n < fuel → v + n < 2 ^ 20 → Acct dom s.kmem (r + d.tables) →
    (∀ w, v ≤ w → w ≤ v + n → (d.ent w).P = false) →
    wp (mappagesLoop perm ((v + n) * 4096) fuel d (v * 4096) ppn) (fun res s' =>
      Acct dom s'.kmem (r + res.1.tables) ∧ Grow (r + d.tables) (r + res.1.tables) ∧
      s'.mem = s.mem ∧ res.1.frame = d.frame ∧
      (∀ w, w < v ∨ v + n < w → res.1.ent w = d.ent w) ∧
      (∀ w, v ≤ w → w ≤ v + n → res.2 = false ∧ res.1.ent w = d.ent w ∨
        res.1.ent w = { perm with ppn := ppn + (w - v), P := true }) ∧
      (∀ i, res.1.has i → d.has i ∨ v / 1024 ≤ i ∧ i ≤ (v + n) / 1024) ∧
      s'.free.length + res.1.numTables = s.free.length + d.numTables ∧
      (res.2 = true → s'.oom = s.oom ∧
        ∀ i, d.has i ∨ v / 1024 ≤ i ∧ i ≤ (v + n) / 1024 → res.1.has i) ∧
      (res.2 = false → s'.oom = true ∧ s'.free = [] ∧
        ∃ i, v / 1024 ≤ i ∧ i ≤ (v + n) / 1024 ∧ ¬res.1.has i))
      (fun _ _ => False) s := by
  induction n with
  | zero =>
    intro fuel v ppn s d hfuel hv ha hP
    obtain ⟨fuel, rfl⟩ := Nat.exists_eq_succ_of_ne_zero (Nat.ne_of_gt hfuel)
    have hva : v * 4096 < 2 ^ 32 := by omega
    have hvv : v * 4096 / 4096 = v := by omega
    refine mappagesLoop_round (by omega) ha (hP v (le_refl _) (by omega)) (fun hfree hnot => ?_)
      fun d₁ s₁ hext hhas honly hacct hgrow hmem hoom hlen => ?_
    · exact ⟨ha, .refl _, rfl, rfl, fun _ _ => rfl, fun _ _ _ => Or.inl ⟨rfl, rfl⟩,
        fun i hi => Or.inl hi, rfl, by simp, fun _ => ⟨rfl, hfree, v / 1024, le_refl _, by omega, hnot⟩⟩
    · have hent := Pgdir.ent_store (e := { perm with ppn := ppn, P := true }) hva
        (by rwa [hvv] : d₁.has (v * 4096 / 4096 / 1024))
      rw [hvv] at hent
      simp only [Nat.add_zero, if_true, wp_pure, Pgdir.tables_store, Pgdir.frame_store,
        Pgdir.has_store, Pgdir.numTables_store, hent]
      refine ⟨hacct, hgrow, hmem, hext.frame, fun w hw => ?_, fun w h₁ h₂ => Or.inr ?_,
        fun i hi => ?_, hlen, fun _ => ⟨hoom, fun i hi => ?_⟩, by simp⟩
      · rw [if_neg (by omega), hext.ent]
      · rw [if_pos (by omega), show w - v = 0 by omega, Nat.add_zero]
      · rcases honly i hi with h | rfl
        · exact Or.inl h
        · exact Or.inr ⟨le_refl _, le_refl _⟩
      · rcases hi with hi | ⟨h₁, h₂⟩
        · exact hext.has i hi
        · rwa [le_antisymm h₂ h₁]
  | succ n ih =>
    intro fuel v ppn s d hfuel hv ha hP
    obtain ⟨fuel, rfl⟩ := Nat.exists_eq_succ_of_ne_zero (Nat.ne_of_gt (Nat.zero_lt_of_lt hfuel))
    have hva : v * 4096 < 2 ^ 32 := by omega
    have hvv : v * 4096 / 4096 = v := by omega
    refine mappagesLoop_round (by omega) ha (hP v (le_refl _) (by omega)) (fun hfree hnot => ?_)
      fun d₁ s₁ hext hhas honly hacct hgrow hmem hoom hlen => ?_
    · exact ⟨ha, .refl _, rfl, rfl, fun _ _ => rfl, fun _ _ _ => Or.inl ⟨rfl, rfl⟩,
        fun i hi => Or.inl hi, rfl, by simp, fun _ => ⟨rfl, hfree, v / 1024, le_refl _, by omega, hnot⟩⟩
    · have hent := Pgdir.ent_store (e := { perm with ppn := ppn, P := true }) hva
        (by rwa [hvv] : d₁.has (v * 4096 / 4096 / 1024))
      rw [hvv] at hent
      have hnext : uint (v * 4096 + PGSIZE) = (v + 1) * 4096 := by
        simp only [uint, PGSIZE]
        omega
      rw [if_neg (by omega), hnext, show v + (n + 1) = v + 1 + n by omega]
      refine wp_post (ih (by omega) (by omega) (by rwa [Pgdir.tables_store]) fun w h₁ h₂ => ?_)
        fun res s' h => ?_
      · rw [hent, if_neg (by omega), hext.ent]
        exact hP w (by omega) (by omega)
      · simp only [Pgdir.tables_store, Pgdir.frame_store, Pgdir.has_store, Pgdir.numTables_store,
          hent] at h
        obtain ⟨hacct', hgrow', hmem', hframe', hout, hin, honly', hlen', hok, hbad⟩ := h
        refine ⟨hacct', hgrow.trans hgrow', hmem'.trans hmem, hframe'.trans hext.frame,
          fun w hw => ?_, fun w h₁ h₂ => ?_, fun i hi => ?_, hlen'.trans hlen,
          fun hr => ⟨(hok hr).1.trans hoom, fun i hi => (hok hr).2 i ?_⟩, fun hr => ?_⟩
        · rw [hout w (by omega), if_neg (by omega), hext.ent]
        · by_cases hwv : w = v
          · refine Or.inr ?_
            rw [hout w (by omega), if_pos hwv, hwv, Nat.sub_self, Nat.add_zero]
          · have := hin w (by omega) (by omega)
            rwa [if_neg hwv, hext.ent, show ppn + 1 + (w - (v + 1)) = ppn + (w - v) by omega] at this
        · rcases honly' i hi with h | h
          · rcases honly i h with h | rfl
            · exact Or.inl h
            · exact Or.inr ⟨le_refl _, by omega⟩
          · exact Or.inr ⟨by omega, by omega⟩
        · rcases hi with hi | ⟨h₁, h₂⟩
          · exact Or.inl (hext.has i hi)
          · by_cases hiv : i = v / 1024
            · exact Or.inl (hiv ▸ hhas)
            · exact Or.inr ⟨by omega, h₂⟩
        · obtain ⟨ho, hfree, i, h₁, h₂, hi⟩ := hbad hr
          exact ⟨ho, hfree, i, by omega, h₂, hi⟩

end OsLabs.Xv6
