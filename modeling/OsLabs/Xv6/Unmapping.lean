import OsLabs.Xv6.Mapping
import Mathlib.Algebra.BigOperators.Intervals

/-!
# Specifications of `deallocuvm` and `freevm`

* `deallocuvm_spec`: exactly the present pages of the range are given back and their entries
  cleared; every frame still held afterwards keeps its contents.
* `freevm_spec`: everything the directory holds is given back.

They panic only where a page of the kernel lies below the old size.
-/

namespace OsLabs.Xv6

open StateError Ledger

/-- `d'` is `d` with the present entries of the pages `lo ≤ w < hi` cleared. -/
structure Pgdir.Cleared (d d' : Pgdir) (lo hi : ℕ) : Prop where
  frame : d'.frame = d.frame
  pde : ∀ i, (d'.pde i).map PTable.frame = (d.pde i).map PTable.frame
  ent : ∀ w, d'.ent w = if lo ≤ w ∧ w < hi ∧ (d.ent w).P = true then Pte.zero else d.ent w
  kernel : ∀ w, UPAGES ≤ w → d'.ent w = d.ent w

namespace Pgdir.Cleared

variable {d d' d'' : Pgdir} {lo hi : ℕ}

theorem tables (h : d.Cleared d' lo hi) : d'.tables = d.tables := tables_congr h.pde

theorem has (h : d.Cleared d' lo hi) (i : ℕ) : d'.has i ↔ d.has i := by
  have := h.pde i
  unfold Pgdir.has
  cases h₁ : d'.pde i <;> cases h₂ : d.pde i <;> simp_all

theorem pteHold (h : d.Cleared d' lo hi) (w : ℕ) :
    Pgdir.pteHold (d'.ent w) = Pgdir.pteHold (d.ent w) ∨ Pgdir.pteHold (d'.ent w) = 0 := by
  rw [h.ent]
  split
  · exact Or.inr pteHold_zero
  · exact Or.inl rfl

/-- No frame gains a user. -/
theorem refs_le (h : d.Cleared d' lo hi) (f : ℕ) : refs d'.uses f ≤ refs d.uses f := by
  unfold uses
  rw [refs_sum, refs_sum]
  refine Finset.sum_le_sum fun w _ => ?_
  rcases h.pteHold w with e | e
  · rw [e]
  · rw [e, refs_zero]
    exact Nat.zero_le _

theorem held (h : d.Cleared d' lo hi) {r : Ledger ℕ} {f : ℕ} (hf : (r + d'.uses) f ≠ 0) :
    (r + d.uses) f ≠ 0 := by
  rw [← refs_pos, refs_add] at hf ⊢
  have := h.refs_le f
  omega

theorem grow (h : d.Cleared d' lo hi) (r : Ledger ℕ) : Grow (r + d.uses) (r + d'.uses) := by
  refine Grow.of_le fun f => ?_
  rw [refs_add, refs_add]
  have := h.refs_le f
  omega

/-- Clearing nothing. -/
theorem refl (d : Pgdir) (h : hi ≤ lo) : d.Cleared d lo hi :=
  ⟨rfl, fun _ => rfl, fun w => by rw [if_neg (by omega)], fun _ _ => rfl⟩

/-- Clearing up to `KERNBASE` from 0 on leaves no user page. -/
theorem uses_eq_zero (h : d.Cleared d' 0 UPAGES) : d'.uses = 0 := by
  refine Finset.sum_eq_zero fun w hw => ?_
  rw [h.ent]
  split
  · exact pteHold_zero
  · rename_i hP
    refine pteHold_of_not_P ?_
    simpa [Finset.mem_range.mp hw] using hP

end Pgdir.Cleared

/-- The size `sz` ends in the first page of the kernel's text at most, and the frames of the pages
from `KERNBASE` up to it are none that `kfree` accepts. -/
def Pgdir.Bounded [Layout] (d : Pgdir) (sz : ℕ) : Prop :=
  sz < KERNLINK + PGSIZE ∧
    ∀ v, UPAGES ≤ v → v < pages sz → (d.ent v).P = true → ¬InRange (d.ent v).ppn

/-- A page at or above `KERNBASE` is present below the size `sz`. -/
def Pgdir.Overlaps (d : Pgdir) (sz : ℕ) : Prop :=
  ∃ v, UPAGES ≤ v ∧ v < pages sz ∧ (d.ent v).P = true

theorem Pgdir.not_overlaps {d : Pgdir} {sz : ℕ} (h : sz ≤ KERNBASE) : ¬d.Overlaps sz := by
  rintro ⟨v, h₁, h₂, -⟩
  exact absurd (h₂.trans_le (pages_le_UPAGES h)) (Nat.not_lt.mpr h₁)

namespace Pgdir.Bounded

variable [Layout] {d : Pgdir} {sz : ℕ}

theorem of_le (h : sz ≤ KERNBASE) : d.Bounded sz := by
  refine ⟨?_, fun v h₁ h₂ => absurd (h₂.trans_le (pages_le_UPAGES h)) (Nat.not_lt.mpr h₁)⟩
  simp only [KERNLINK, PGSIZE]
  omega

theorem pages_le (h : d.Bounded sz) : pages sz ≤ UPAGES + 257 := by
  have := h.1
  simp only [KERNLINK, KERNBASE, EXTMEM, PGSIZE] at this
  rw [UPAGES_eq]
  simp only [pages]
  omega

end Pgdir.Bounded

variable {κ : Type} [Kalloc κ] [Layout] [LawfulKalloc κ]
variable {dom : ℕ → Prop} {s : Phys κ} {r : Ledger ℕ} {d : Pgdir}

/-- The loop of `deallocuvm` from page `v` on. The induction is on the fuel; a missing page table
lets the loop jump, over pages that have no entry to clear. -/
theorem deallocuvmLoop_spec {oldsz : ℕ} :
    ∀ {fuel v : ℕ} {s : Phys κ} {d : Pgdir}, d.Bounded oldsz → v ≤ UPAGES + 1024 →
    pages oldsz - v < fuel → Acct dom s.kmem (r + d.uses) →
    wp (deallocuvmLoop oldsz fuel d (v * 4096)) (fun d' s' =>
      d.Cleared d' v (pages oldsz) ∧ Acct dom s'.kmem (r + d'.uses) ∧ Keeps (r + d'.uses) s s' ∧
      s'.oom = s.oom) (fun e _ => e = .kfree ∧ d.Overlaps oldsz) s := by
  intro fuel
  induction fuel with
  | zero => intro v s d _ _ h _; exact absurd h (Nat.not_lt_zero _)
  | succ fuel ih =>
    intro v s d hold hv hfuel ha
    have hpg := hold.pages_le
    rw [UPAGES_eq] at hv hpg
    have hlt : v * 4096 < oldsz ↔ v < pages oldsz := by
      simp only [pages]
      omega
    unfold deallocuvmLoop
    by_cases hv' : v < pages oldsz
    swap
    · rw [if_neg (by rwa [hlt])]
      exact ⟨.refl d (by omega), ha, .refl _ _, rfl⟩
    rw [if_pos (hlt.mpr hv')]
    have hva : v * 4096 < 2 ^ 32 := by omega
    have hvv : v * 4096 / 4096 = v := by omega
    have hnext : uint (v * 4096 + PGSIZE) = (v + 1) * 4096 := by
      simp only [uint, PGSIZE]
      omega
    cases hfind : d.find (v * 4096) with
    | none =>
      have hnot := Pgdir.find_eq_none hva hfind
      rw [hvv] at hnot
      have hskip : PGADDR (PDX (v * 4096) + 1) 0 0 = (v / 1024 + 1) * 1024 * 4096 := by
        rw [PDX_page (by omega)]
        simp only [PGADDR, uint]
        omega
      rw [hskip]
      refine wp_post (ih hold (by rw [UPAGES_eq]; omega) (by omega) ha) fun d' s' h => ?_
      obtain ⟨hcl, hacct, hkeep, hoom⟩ := h
      refine ⟨⟨hcl.frame, hcl.pde, fun w => ?_, hcl.kernel⟩, hacct, hkeep, hoom⟩
      rw [hcl.ent]
      by_cases hw : w / 1024 = v / 1024
      · have hz : d.ent w = Pte.zero := Pgdir.ent_of_not_has (by rwa [hw])
        simp [hz]
      · have : (v / 1024 + 1) * 1024 ≤ w ↔ v ≤ w := by omega
        simp only [this]
    | some pte =>
      obtain ⟨hhas, hent⟩ := Pgdir.find_eq_some hva hfind
      rw [hvv] at hhas hent
      subst hent
      by_cases hP : (d.ent v).P = true
      · by_cases hup : v < 524288
        swap
        · -- a page of the kernel, which `kfree` does not accept
          have hge : UPAGES ≤ v := by
            rw [UPAGES_eq]
            omega
          have hstop : d.Overlaps oldsz := ⟨v, hge, hv', hP⟩
          simp only [hP, if_true]
          by_cases hz : (d.ent v).ppn = 0
          · rw [if_pos hz]
            exact ⟨rfl, hstop⟩
          · rw [if_neg hz, wp_bind]
            exact wp_mono (LawfulKalloc.kfree_out (hold.2 v hge hv' hP)) (fun _ _ h => h.elim)
              fun e _ he => ⟨he, hstop⟩
        -- the page is given back and its entry cleared
        have hhas' : d.has (v * 4096 / 4096 / 1024) := by rwa [hvv]
        have huse := Pgdir.uses_store (e := Pte.zero) (show v * 4096 < KERNBASE by
          rw [KERNBASE_eq]; omega) (by rwa [hvv])
        rw [hvv, Pgdir.pteHold_of_P hP, Pgdir.pteHold_zero, add_zero] at huse
        have hacct : Acct dom s.kmem (r + (d.store (v * 4096) Pte.zero).uses +
            shared (d.ent v).ppn) := by
          rwa [add_assoc, huse]
        have hppn : (d.ent v).ppn ≠ 0 := by
          refine (Acct.inRange hacct fun hz => ?_).ne_zero
          rw [Pi.add_apply, add_eq_zero] at hz
          exact (isClaim_shared _).self_ne_zero hz.2
        simp only [hP, if_true, hppn, if_false, wp_bind, hnext]
        refine wp_mono (LawfulKalloc.kfree_spec (isClaim_shared _) hacct) (fun _ s₁ h₁ => ?_)
          fun _ _ h => h.elim
        obtain ⟨hacct₁, hkeep₁, -, hoom₁⟩ := h₁
        have hker : ∀ w, UPAGES ≤ w → (d.store (v * 4096) Pte.zero).ent w = d.ent w := by
          intro w hw
          rw [UPAGES_eq] at hw
          rw [Pgdir.ent_store hva hhas', if_neg (by omega)]
        have hold' : (d.store (v * 4096) Pte.zero).Bounded oldsz := by
          refine ⟨hold.1, fun w h₁ h₂ => ?_⟩
          rw [hker w h₁]
          exact hold.2 w h₁ h₂
        refine wp_mono (ih hold' (by rw [UPAGES_eq]; omega) (by omega) hacct₁) (fun d' s' h => ?_)
          fun e _ he => ?_
        swap
        · obtain ⟨rfl, w, h₁, h₂, hPw⟩ := he
          rw [hker w h₁] at hPw
          exact ⟨rfl, w, h₁, h₂, hPw⟩
        obtain ⟨hcl, hacct', hkeep', hoom'⟩ := h
        refine ⟨⟨by rw [hcl.frame, Pgdir.frame_store], fun i => ?_, fun w => ?_, fun w hw => ?_⟩,
          hacct', .trans (hkeep₁.mono fun f hf => hcl.held hf) hkeep', hoom'.trans hoom₁⟩
        · rw [hcl.pde, Pgdir.pde_store_frame]
        · rw [hcl.ent, Pgdir.ent_store hva (by rwa [hvv]), hvv]
          by_cases hw : w = v
          · simp [hw, hv', hP]
          · have : v + 1 ≤ w ↔ v ≤ w := by omega
            simp only [hw, if_false, this]
        · rw [hcl.kernel w hw, hker w hw]
      · have hP' : (d.ent v).P = false := by simpa using hP
        simp only [hP', hnext, Bool.false_eq_true, if_false]
        refine wp_post (ih hold (by rw [UPAGES_eq]; omega) (by omega) ha) fun d' s' h => ?_
        obtain ⟨hcl, hacct', hkeep', hoom'⟩ := h
        refine ⟨⟨hcl.frame, hcl.pde, fun w => ?_, hcl.kernel⟩, hacct', hkeep', hoom'⟩
        rw [hcl.ent]
        by_cases hw : w = v
        · simp [hw, hP']
        · have : v + 1 ≤ w ↔ v ≤ w := by omega
          simp only [this]

theorem deallocuvm_spec {oldsz newsz : ℕ} (hold : d.Bounded oldsz)
    (ha : Acct dom s.kmem (r + d.uses)) :
    wp (deallocuvm d oldsz newsz) (fun res s' =>
      res.1 = (if newsz ≥ oldsz then oldsz else newsz) ∧
      d.Cleared res.2 (pages newsz) (pages oldsz) ∧ Acct dom s'.kmem (r + res.2.uses) ∧
      Keeps (r + res.2.uses) s s' ∧ s'.oom = s.oom) (fun e _ => e = .kfree ∧ d.Overlaps oldsz)
      s := by
  unfold deallocuvm
  by_cases h : newsz ≥ oldsz
  · rw [if_pos h, if_pos h]
    exact ⟨rfl, .refl d (pages_mono h), ha, .refl _ _, rfl⟩
  · have hlt := hold.1
    have hpg := hold.pages_le
    have hnew := pages_mono (show newsz ≤ oldsz by omega)
    rw [UPAGES_eq] at hpg
    simp only [KERNLINK, KERNBASE, EXTMEM, PGSIZE] at hlt
    rw [if_neg h, if_neg h, PGROUNDUP_of_lt (by simp only [PGSIZE]; omega)]
    simp only [wp_bind, wp_pure]
    refine wp_post (deallocuvmLoop_spec hold (by rw [UPAGES_eq]; omega) ?_ ha)
      fun d' s' h => ⟨trivial, h⟩
    simp only [loopFuel]
    omega

/-- The page tables with indexes from `i` on are given back. -/
theorem freeTables_spec (n : ℕ) : ∀ {i : ℕ} {s : Phys κ},
    Acct dom s.kmem (r + ∑ j ∈ Finset.Ico i (i + n), (d.pde j).elim 0 fun t => excl t.frame) →
    wp (freeTables d n i) (fun _ s' => Acct dom s'.kmem r ∧ Keeps r s s' ∧ s'.oom = s.oom)
      (fun _ _ => False) s := by
  induction n with
  | zero =>
    intro i s ha
    simp only [Finset.Ico_self, Finset.sum_empty, add_zero] at ha
    exact ⟨ha, .refl _ _, rfl⟩
  | succ n ih =>
    intro i s ha
    rw [Finset.sum_eq_sum_Ico_succ_bot (by omega), show i + (n + 1) = i + 1 + n by omega] at ha
    unfold freeTables
    cases hd : d.pde i with
    | none =>
      simp only [hd, Option.elim_none, zero_add] at ha
      exact ih ha
    | some t =>
      simp only [hd, Option.elim_some] at ha
      rw [add_comm (excl t.frame), ← add_assoc] at ha
      simp only [wp_bind]
      refine wp_post (LawfulKalloc.kfree_spec (isClaim_excl _) ha) fun _ s₁ h₁ => ?_
      obtain ⟨ha₁, hk₁, -, ho₁⟩ := h₁
      refine wp_post (ih ha₁) fun _ s' h => ?_
      exact ⟨h.1, hk₁.left.trans h.2.1, h.2.2.trans ho₁⟩

theorem freevm_spec (ha : Acct dom s.kmem (r + d.holds)) :
    wp (freevm d) (fun _ s' => Acct dom s'.kmem r ∧ Keeps r s s' ∧ s'.oom = s.oom)
      (fun _ _ => False) s := by
  have hsplit : r + d.holds = r + excl d.frame + d.tables + d.uses := by
    unfold Pgdir.holds
    abel
  rw [hsplit] at ha
  unfold freevm
  simp only [wp_bind]
  refine wp_mono (deallocuvm_spec (.of_le (le_refl KERNBASE)) ha) (fun res s₁ h₁ => ?_)
    fun _ _ h => Pgdir.not_overlaps (le_refl _) h.2
  obtain ⟨-, hcl, ha₁, hk₁, ho₁⟩ := h₁
  have hpages : pages KERNBASE = UPAGES := by
    rw [UPAGES_eq]
    rfl
  rw [hpages] at hcl
  rw [hcl.uses_eq_zero, add_zero, ← hcl.tables] at ha₁
  rw [hcl.uses_eq_zero, add_zero] at hk₁
  have ha₂ : Acct dom s₁.kmem (r + excl d.frame +
      ∑ j ∈ Finset.Ico 0 (0 + NPDENTRIES), (res.2.pde j).elim 0 fun t => excl t.frame) := by
    rw [Nat.zero_add, ← Finset.range_eq_Ico]
    exact ha₁
  refine wp_post (freeTables_spec NPDENTRIES ha₂) fun _ s₂ h₂ => ?_
  refine wp_post (LawfulKalloc.kfree_spec (isClaim_excl _) h₂.1) fun _ s₃ h₃ => ?_
  obtain ⟨ha₃, hk₃, -, ho₃⟩ := h₃
  exact ⟨ha₃, (hk₁.left.left.trans h₂.2.1.left).trans hk₃, ho₃.trans (h₂.2.2.trans ho₁)⟩

end OsLabs.Xv6
