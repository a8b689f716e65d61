import OsLabs.Xv6.Boot

/-!
# Who uses a frame

The ledger of the kernel read as a census of its page tables: the shared claims on a frame are the
present entries below `KERNBASE` that map it (`Kernel.mapCount`), and there is an exclusive claim
exactly where the kernel itself holds the frame (`Kernel.owns`).
-/

namespace OsLabs.Xv6

open Ledger

variable {κ : Type}

/-- The number of present entries of `d` below `KERNBASE` that map `f`. -/
def Pgdir.mapCount (d : Pgdir) (f : ℕ) : ℕ :=
  ((Finset.range UPAGES).filter fun v => (d.ent v).P = true ∧ (d.ent v).ppn = f).card

/-- `f` is the directory itself or one of its page tables. -/
def Pgdir.owns (d : Pgdir) (f : ℕ) : Prop :=
  f = d.frame ∨ ∃ i < NPDENTRIES, ∃ t, d.pde i = some t ∧ f = t.frame

namespace Kernel

/-- The number of present entries below `KERNBASE` that map `f`, over the kernel's directory and
those of all slots in use. -/
def mapCount (k : Kernel κ) (f : ℕ) : ℕ :=
  k.kpgdir.elim 0 (·.mapCount f) +
    ∑ p, if (k.proc p).state = .UNUSED then 0 else (k.pgdir p).elim 0 (·.mapCount f)

/-- The kernel itself holds `f`: as a page directory, a page table or a kernel stack, or for a
pipe or the boot stack of another processor. -/
def owns (k : Kernel κ) (f : ℕ) : Prop :=
  (∃ d, k.kpgdir = some d ∧ d.owns f) ∨ f ∈ k.held ∨
    ∃ p, k.live p ∧ (k.kstack p = some f ∨ ∃ d, k.pgdir p = some d ∧ d.owns f)

end Kernel

theorem excl_fst (f g : ℕ) : (excl f g).1 = 0 := by
  by_cases h : g = f
  · simp [h]
  · simp [excl_ne h]

theorem excl_snd_ne_zero {f g : ℕ} : (excl f g).2 ≠ 0 ↔ g = f := by
  by_cases h : g = f
  · simp [h]
  · simp [excl_ne h, h]

theorem Pgdir.holds_fst_eq (d : Pgdir) (f : ℕ) : (d.holds f).1 = d.mapCount f := by
  rw [Pgdir.holds_fst, Pgdir.refs_uses_eq_card]
  rfl

theorem Pgdir.tables_snd_ne_zero {d : Pgdir} {f : ℕ} :
    (d.tables f).2 ≠ 0 ↔ ∃ i < NPDENTRIES, ∃ t, d.pde i = some t ∧ f = t.frame := by
  unfold tables
  rw [Finset.sum_apply, Prod.snd_sum, ne_eq, Finset.sum_eq_zero_iff]
  push Not
  simp only [Finset.mem_range]
  refine exists_congr fun i => and_congr_right fun _ => ?_
  cases h : d.pde i with
  | none => simp
  | some t => simp only [Option.elim_some, excl_snd_ne_zero, Option.some_inj, exists_eq_left']

theorem Pgdir.holds_snd_ne_zero {d : Pgdir} {f : ℕ} : (d.holds f).2 ≠ 0 ↔ d.owns f := by
  have hsum : (d.holds f).2 = (excl d.frame f).2 + (d.tables f).2 := by
    have := d.uses_snd f
    simp only [holds, Pi.add_apply, Prod.snd_add]
    omega
  rw [hsum, owns, ← Pgdir.tables_snd_ne_zero, ← excl_snd_ne_zero]
  omega

theorem held_fst (l : List ℕ) (f : ℕ) : ((l.map excl).sum f).1 = 0 := by
  induction l with
  | nil => rfl
  | cons a l ih => simp [ih, excl_fst]

theorem held_snd_ne_zero {l : List ℕ} {f : ℕ} : ((l.map excl).sum f).2 ≠ 0 ↔ f ∈ l := by
  induction l with
  | nil => simp
  | cons a l ih =>
    rw [List.mem_cons, ← ih, ← excl_snd_ne_zero, List.map_cons, List.sum_cons, Pi.add_apply,
      Prod.snd_add]
    omega

namespace Kernel

variable {k : Kernel κ}

theorem elim_holds_fst (o : Option Pgdir) (f : ℕ) :
    (o.elim 0 Pgdir.holds f).1 = o.elim 0 (·.mapCount f) := by
  cases o with
  | none => rfl
  | some d => rw [Option.elim_some, Option.elim_some, d.holds_fst_eq]

theorem slotHolds_fst (k : Kernel κ) (p : ProcPtr) (f : ℕ) : (k.slotHolds p f).1 =
    if (k.proc p).state = .UNUSED then 0 else (k.pgdir p).elim 0 (·.mapCount f) := by
  have hstack : ((k.kstack p).elim 0 excl f).1 = 0 := by
    cases k.kstack p with
    | none => rfl
    | some g => exact excl_fst g f
  rw [slotHolds]
  split
  · rfl
  · rw [Pi.add_apply, Prod.fst_add, hstack, zero_add, elim_holds_fst]

/-- The shared claims are the entries that map the frame. -/
theorem total_fst (k : Kernel κ) (f : ℕ) : (k.total f).1 = k.mapCount f := by
  rw [total, ownHolds, Pi.add_apply, Pi.add_apply, Prod.fst_add, Prod.fst_add, held_fst, add_zero,
    elim_holds_fst, Finset.sum_apply, Prod.fst_sum, mapCount]
  simp only [slotHolds_fst]

/-- There is an exclusive claim where the kernel holds the frame. -/
theorem total_snd_ne_zero {f : ℕ} : (k.total f).2 ≠ 0 ↔ k.owns f := by
  have hdir : ∀ o : Option Pgdir, (o.elim 0 Pgdir.holds f).2 ≠ 0 ↔ ∃ d, o = some d ∧ d.owns f := by
    intro o
    cases o with
    | none => simp
    | some d => simpa using Pgdir.holds_snd_ne_zero
  have hstack : ∀ o : Option ℕ, (o.elim 0 excl f).2 ≠ 0 ↔ o = some f := by
    intro o
    cases o with
    | none => simp
    | some g => simpa [eq_comm] using excl_snd_ne_zero (f := g) (g := f)
  have hslot : ∀ p, (k.slotHolds p f).2 ≠ 0 ↔
      k.live p ∧ (k.kstack p = some f ∨ ∃ d, k.pgdir p = some d ∧ d.owns f) := by
    intro p
    rw [slotHolds, ← hdir, ← hstack, live]
    split
    · simp [*]
    · rename_i h
      rw [Pi.add_apply, Prod.snd_add]
      simp only [ne_eq, h, not_false_eq_true, true_and]
      omega
  have hsum : (∑ p, k.slotHolds p f).2 ≠ 0 ↔ ∃ p, (k.slotHolds p f).2 ≠ 0 := by
    rw [Prod.snd_sum, ne_eq, Finset.sum_eq_zero_iff]
    simp
  rw [total, owns, ownHolds, Pi.add_apply, Prod.snd_add, Pi.add_apply, Prod.snd_add,
    Finset.sum_apply, ← hdir, ← held_snd_ne_zero]
  simp only [← hslot, ← hsum]
  omega

end Kernel

end OsLabs.Xv6
