import OsLabs.Lib.Ledger
import OsLabs.Xv6.Layout
import Mathlib.Algebra.BigOperators.Group.Finset.Piecewise
import Mathlib.Algebra.Order.BigOperators.Group.Finset
import Mathlib.Logic.Function.Basic

/-!
# Page directories

A page-table entry is the 32-bit word of `mmu.h` taken apart into its frame number
(`PTE_ADDR`) and its flags (`PTE_FLAGS`); the address bits and the flag bits are disjoint, so
the source's `|` and `& ~` on one part never touch the other. A directory is the two-level tree
the hardware walks: present directory entries point to page tables.

Directories also carry, as a ghost, the entries overwritten since the directory was last loaded
into `cr3`. What a TLB can still hold of a directory is what is in it now or what is recorded
there (`Pgdir.Cached`).

Frames are accounted for by the ledger `Pgdir.holds`: the directory and its page tables are held
exclusively, the frame of a present entry below `KERNBASE` is shared.
-/

namespace OsLabs.Xv6

open Ledger

/-- The flag bits of an entry: `PTE_P`, `PTE_W`, `PTE_U`, the copy-on-write tree's `PTE_CoW` and
the lazy tree's `PTE_LAZY`. -/
structure Flags where
  P : Bool := false
  W : Bool := false
  U : Bool := false
  CoW : Bool := false
  LAZY : Bool := false
  deriving DecidableEq

/-- A page-table entry. -/
structure Pte extends Flags where
  ppn : ℕ := 0
  deriving DecidableEq

/-- The entry `0`. -/
def Pte.zero : Pte := {}

/-- A present entry mapped again with its own flags. -/
theorem Pte.flags_ppn (e : Pte) (h : e.P = true) :
    ({ e.toFlags with ppn := e.ppn, P := true } : Pte) = e := by
  obtain ⟨⟨P, W, U, CoW, LAZY⟩, ppn⟩ := e
  simp_all

/-- A page-table page: its frame and its entries. -/
structure PTable where
  frame : ℕ
  pte : ℕ → Pte

/-- A page directory: its frame, the page tables of its present entries, and the entries
overwritten since the last `lcr3`. -/
structure Pgdir where
  frame : ℕ
  pde : ℕ → Option PTable
  stale : List (ℕ × Pte) := []

namespace Pgdir

/-- The entry for the virtual address `va`, if its page table exists. -/
def find (d : Pgdir) (va : ℕ) : Option Pte := (d.pde (PDX va)).map fun t => t.pte (PTX va)

/-- Store `e` in the entry for `va`, recording what it replaces. -/
def store (d : Pgdir) (va : ℕ) (e : Pte) : Pgdir :=
  match d.pde (PDX va) with
  | none => d
  | some t =>
    { d with
      pde := Function.update d.pde (PDX va)
        (some { t with pte := Function.update t.pte (PTX va) e })
      stale := (va / PGSIZE, t.pte (PTX va)) :: d.stale }

/-- Enter a zeroed page table in frame `f` at the directory index `i`. -/
def addTable (d : Pgdir) (i f : ℕ) : Pgdir :=
  { d with pde := Function.update d.pde i (some ⟨f, fun _ => Pte.zero⟩) }

/-- The page table at index `i` exists. -/
def has (d : Pgdir) (i : ℕ) : Prop := d.pde i ≠ none

/-- The entry of page `v`; zero where the page table is missing. -/
def ent (d : Pgdir) (v : ℕ) : Pte := (d.pde (v / 1024)).elim Pte.zero fun t => t.pte (v % 1024)

/-- Nothing is left of older entries after the directory has been loaded into `cr3`. -/
def flush (d : Pgdir) : Pgdir := { d with stale := [] }

/-- A translation a TLB may hold: an entry that is in the directory, or was since the last
`lcr3`. -/
def Cached (d : Pgdir) (v : ℕ) (e : Pte) : Prop := e.P = true ∧ (d.ent v = e ∨ (v, e) ∈ d.stale)

theorem find_of_has {d : Pgdir} {va : ℕ} (h : va < 2 ^ 32) (hd : d.has (va / 4096 / 1024)) :
    d.find va = some (d.ent (va / 4096)) := by
  obtain ⟨t, ht⟩ := Option.ne_none_iff_exists'.mp hd
  simp [find, ent, PDX_eq h, PTX_eq, ht]

theorem find_page {d : Pgdir} {v : ℕ} (hv : v < 2 ^ 20) (hd : d.has (v / 1024)) :
    d.find (v * 4096) = some (d.ent v) := by
  have h : v * 4096 / 4096 = v := by omega
  rw [find_of_has (by omega) (by rwa [h]), h]

theorem find_of_not_has {d : Pgdir} {va : ℕ} (h : va < 2 ^ 32) (hd : ¬d.has (va / 4096 / 1024)) :
    d.find va = none := by
  simp only [has, ne_eq, not_not] at hd
  simp [find, PDX_eq h, hd]

theorem find_eq_some {d : Pgdir} {va : ℕ} {e : Pte} (h : va < 2 ^ 32) (he : d.find va = some e) :
    d.has (va / 4096 / 1024) ∧ d.ent (va / 4096) = e := by
  by_cases hd : d.has (va / 4096 / 1024)
  · rw [find_of_has h hd] at he
    exact ⟨hd, Option.some.inj he⟩
  · rw [find_of_not_has h hd] at he
    cases he

theorem find_eq_none {d : Pgdir} {va : ℕ} (h : va < 2 ^ 32) (he : d.find va = none) :
    ¬d.has (va / 4096 / 1024) := by
  intro hd
  rw [find_of_has h hd] at he
  cases he

theorem ent_of_not_has {d : Pgdir} {v : ℕ} (hd : ¬d.has (v / 1024)) : d.ent v = Pte.zero := by
  simp only [has, ne_eq, not_not] at hd
  simp [ent, hd]

theorem has_of_ent_ne {d : Pgdir} {v : ℕ} (h : d.ent v ≠ Pte.zero) : d.has (v / 1024) := by
  by_contra hd
  exact h (ent_of_not_has hd)

theorem has_of_P {d : Pgdir} {v : ℕ} (h : (d.ent v).P = true) : d.has (v / 1024) :=
  has_of_ent_ne fun e => by
    rw [e] at h
    cases h

/-! ## Storing an entry -/

section Store

variable {d : Pgdir} {va : ℕ} {e : Pte}

theorem ent_store (h : va < 2 ^ 32) (hd : d.has (va / 4096 / 1024)) (w : ℕ) :
    (d.store va e).ent w = if w = va / 4096 then e else d.ent w := by
  obtain ⟨t, ht⟩ := Option.ne_none_iff_exists'.mp hd
  simp only [store, PDX_eq h, PTX_eq, ht, ent]
  by_cases hi : w / 1024 = va / 4096 / 1024
  · rw [hi, Function.update_self]
    by_cases hj : w % 1024 = va / 4096 % 1024
    · have : w = va / 4096 := by omega
      simp [this]
    · have : w ≠ va / 4096 := fun e => hj (by rw [e])
      simp [this, ht, Function.update_of_ne hj]
  · have : w ≠ va / 4096 := fun e => hi (by rw [e])
    simp [this, Function.update_of_ne hi]

@[simp] theorem frame_store : (d.store va e).frame = d.frame := by
  unfold store
  split <;> rfl

/-- The page tables and their frames stay. -/
theorem pde_store_frame (i : ℕ) :
    ((d.store va e).pde i).map PTable.frame = (d.pde i).map PTable.frame := by
  unfold store
  split
  · rfl
  · rename_i t ht
    by_cases hi : i = PDX va
    · subst hi
      simp [ht]
    · simp [Function.update_of_ne hi]

@[simp] theorem has_store (i : ℕ) : (d.store va e).has i ↔ d.has i := by
  have := @pde_store_frame d va e i
  unfold has
  cases h₁ : (d.store va e).pde i <;> cases h₂ : d.pde i <;> simp_all

theorem stale_store (h : va < 2 ^ 32) (hd : d.has (va / 4096 / 1024)) :
    (d.store va e).stale = (va / 4096, d.ent (va / 4096)) :: d.stale := by
  obtain ⟨t, ht⟩ := Option.ne_none_iff_exists'.mp hd
  simp [store, PDX_eq h, PTX_eq, ht, ent, PGSIZE]

end Store

/-! ## A new page table -/

section AddTable

variable {d : Pgdir} {i f : ℕ}

theorem ent_addTable (hd : ¬d.has i) (v : ℕ) : (d.addTable i f).ent v = d.ent v := by
  simp only [has, ne_eq, not_not] at hd
  unfold addTable ent
  by_cases hi : v / 1024 = i
  · simp [hi, hd]
  · simp [Function.update_of_ne hi]

@[simp] theorem frame_addTable : (d.addTable i f).frame = d.frame := rfl

@[simp] theorem stale_addTable : (d.addTable i f).stale = d.stale := rfl

theorem has_addTable (j : ℕ) : (d.addTable i f).has j ↔ j = i ∨ d.has j := by
  unfold addTable has
  by_cases hj : j = i
  · simp [hj]
  · simp [hj]

end AddTable

/-! ## The frames a directory holds -/

/-- The claim of an entry: the frame it maps, when present. -/
def pteHold (e : Pte) : Ledger ℕ := if e.P then shared e.ppn else 0

/-- The page-table pages. -/
def tables (d : Pgdir) : Ledger ℕ :=
  ∑ i ∈ Finset.range NPDENTRIES, (d.pde i).elim 0 fun t => excl t.frame

/-- The frames mapped by present entries below `KERNBASE`. -/
def uses (d : Pgdir) : Ledger ℕ := ∑ v ∈ Finset.range UPAGES, pteHold (d.ent v)

/-- All frames the directory keeps allocated. -/
def holds (d : Pgdir) : Ledger ℕ := excl d.frame + d.tables + d.uses

theorem uses_congr {d d' : Pgdir} (h : ∀ v < UPAGES, pteHold (d'.ent v) = pteHold (d.ent v)) :
    d'.uses = d.uses :=
  Finset.sum_congr rfl fun v hv => h v (Finset.mem_range.mp hv)

theorem tables_congr {d d' : Pgdir}
    (h : ∀ i, (d'.pde i).map PTable.frame = (d.pde i).map PTable.frame) :
    d'.tables = d.tables := by
  refine Finset.sum_congr rfl fun i _ => ?_
  have := h i
  cases h₁ : d'.pde i <;> cases h₂ : d.pde i <;> simp_all

@[simp] theorem tables_store (d : Pgdir) (va : ℕ) (e : Pte) : (d.store va e).tables = d.tables :=
  tables_congr fun i => pde_store_frame i

theorem tables_addTable {d : Pgdir} {i f : ℕ} (hi : i < NPDENTRIES) (hd : ¬d.has i) :
    (d.addTable i f).tables = d.tables + excl f := by
  simp only [has, ne_eq, not_not] at hd
  unfold tables
  rw [← Finset.add_sum_erase _ _ (Finset.mem_range.mpr hi),
    ← Finset.add_sum_erase (Finset.range NPDENTRIES) (fun i => (d.pde i).elim 0 _)
      (Finset.mem_range.mpr hi)]
  have hsum : ∑ x ∈ (Finset.range NPDENTRIES).erase i,
      ((d.addTable i f).pde x).elim 0 (fun t => excl t.frame) =
      ∑ x ∈ (Finset.range NPDENTRIES).erase i, (d.pde x).elim 0 fun t => excl t.frame := by
    refine Finset.sum_congr rfl fun x hx => ?_
    simp [addTable, Function.update_of_ne (Finset.ne_of_mem_erase hx)]
  rw [hsum]
  simp only [addTable, Function.update_self, Option.elim_some, hd, Option.elim_none, zero_add]
  abel

/-- A new entry below `KERNBASE` exchanges the claim of the old one for its own. -/
theorem uses_replace {d d' : Pgdir} {v : ℕ} {e : Pte} (hv : v < UPAGES)
    (h : ∀ w, d'.ent w = if w = v then e else d.ent w) :
    d'.uses + pteHold (d.ent v) = d.uses + pteHold e := by
  have hv' : v ∈ Finset.range UPAGES := Finset.mem_range.mpr hv
  unfold uses
  rw [← Finset.add_sum_erase _ _ hv',
    ← Finset.add_sum_erase (Finset.range UPAGES) (fun v => pteHold (d.ent v)) hv']
  have hsum : ∑ w ∈ (Finset.range UPAGES).erase v, pteHold (d'.ent w) =
      ∑ w ∈ (Finset.range UPAGES).erase v, pteHold (d.ent w) := by
    refine Finset.sum_congr rfl fun w hw => ?_
    rw [h, if_neg (Finset.ne_of_mem_erase hw)]
  rw [hsum, h, if_pos rfl]
  abel

theorem uses_store {d : Pgdir} {va : ℕ} {e : Pte} (h : va < KERNBASE)
    (hd : d.has (va / 4096 / 1024)) :
    (d.store va e).uses + pteHold (d.ent (va / 4096)) = d.uses + pteHold e := by
  rw [KERNBASE_eq] at h
  refine uses_replace ?_ (ent_store (by omega) hd)
  rw [UPAGES_eq]
  omega

@[simp] theorem holds_flush (d : Pgdir) : d.flush.holds = d.holds := rfl

@[simp] theorem tables_flush (d : Pgdir) : d.flush.tables = d.tables := rfl

@[simp] theorem uses_flush (d : Pgdir) : d.flush.uses = d.uses := rfl

@[simp] theorem ent_flush (d : Pgdir) (v : ℕ) : d.flush.ent v = d.ent v := rfl

@[simp] theorem has_flush (d : Pgdir) (i : ℕ) : d.flush.has i ↔ d.has i := Iff.rfl

theorem pteHold_zero : pteHold Pte.zero = 0 := rfl

theorem pteHold_of_P {e : Pte} (h : e.P = true) : pteHold e = shared e.ppn := by
  simp [pteHold, h]

theorem pteHold_of_not_P {e : Pte} (h : e.P = false) : pteHold e = 0 := by
  simp [pteHold, h]

/-- The frame of a present user page is held. -/
theorem refs_uses_pos {d : Pgdir} {v : ℕ} (hv : v < UPAGES) (hP : (d.ent v).P = true) :
    0 < refs d.uses (d.ent v).ppn := by
  unfold uses
  rw [refs_sum]
  refine Finset.sum_pos' (fun _ _ => Nat.zero_le _) ⟨v, Finset.mem_range.mpr hv, ?_⟩
  simp [pteHold_of_P hP]

/-- A frame in use is the frame of a present user page. -/
theorem exists_of_refs_uses_pos {d : Pgdir} {f : ℕ} (h : 0 < refs d.uses f) :
    ∃ v < UPAGES, (d.ent v).P = true ∧ (d.ent v).ppn = f := by
  unfold uses at h
  rw [refs_sum] at h
  obtain ⟨v, hv, h⟩ := Finset.exists_ne_zero_of_sum_ne_zero (Nat.pos_iff_ne_zero.mp h)
  refine ⟨v, Finset.mem_range.mp hv, ?_⟩
  unfold pteHold at h
  split at h
  · rename_i hP
    refine ⟨hP, ?_⟩
    by_contra hne
    simp [Ne.symm hne] at h
  · simp at h

/-- The claim of a present user page, taken out of the ledger. -/
theorem exists_holds_split {d : Pgdir} {v : ℕ} (hv : v < UPAGES) (hP : (d.ent v).P = true) :
    ∃ u, d.holds = u + shared (d.ent v).ppn := by
  refine ⟨excl d.frame + d.tables + ∑ w ∈ (Finset.range UPAGES).erase v, pteHold (d.ent w), ?_⟩
  rw [holds, uses, ← Finset.sum_erase_add _ _ (Finset.mem_range.mpr hv), pteHold_of_P hP, add_assoc]
  abel

/-- The number of present pages below `KERNBASE` that map `f`. -/
theorem refs_uses_eq_card (d : Pgdir) (f : ℕ) :
    refs d.uses f = ((Finset.range UPAGES).filter
      fun v => (d.ent v).P = true ∧ (d.ent v).ppn = f).card := by
  unfold uses
  rw [refs_sum, Finset.card_filter]
  refine Finset.sum_congr rfl fun v _ => ?_
  unfold pteHold
  by_cases hP : (d.ent v).P = true
  · by_cases hf : f = (d.ent v).ppn
    · simp [hP, hf]
    · simp [hP, hf, Ne.symm hf]
  · simp [hP]

/-- The kernel's part of a directory makes no shared claims. -/
theorem tables_fst (d : Pgdir) (f : ℕ) : (d.tables f).1 = 0 := by
  unfold tables
  rw [Finset.sum_apply, Prod.fst_sum]
  refine Finset.sum_eq_zero fun i _ => ?_
  cases d.pde i with
  | none => rfl
  | some t =>
    by_cases h : f = t.frame
    · subst h; simp
    · simp [excl_ne h]

/-- The user part of a directory makes no exclusive claims. -/
theorem uses_snd (d : Pgdir) (f : ℕ) : (d.uses f).2 = 0 := by
  unfold uses
  rw [Finset.sum_apply, Prod.snd_sum]
  refine Finset.sum_eq_zero fun v _ => ?_
  unfold pteHold
  split
  · by_cases h : f = (d.ent v).ppn
    · subst h; simp
    · simp [shared_ne h]
  · rfl

theorem holds_fst (d : Pgdir) (f : ℕ) : (d.holds f).1 = refs d.uses f := by
  have h₁ := d.tables_fst f
  have h₂ := d.uses_snd f
  have h₃ : (excl d.frame f).1 = 0 := by
    by_cases h : f = d.frame
    · simp [h]
    · simp [excl_ne h]
  simp only [holds, refs, Pi.add_apply, Prod.fst_add]
  omega

end Pgdir

/-! ## Replacing an entry -/

/-- `d'` is `d` with the entry `e` for page `v`. -/
structure Replaced (d d' : Pgdir) (v : ℕ) (e : Pte) : Prop where
  frame : d'.frame = d.frame
  pde : ∀ i, (d'.pde i).map PTable.frame = (d.pde i).map PTable.frame
  ent : ∀ w, d'.ent w = if w = v then e else d.ent w

theorem Replaced.refl (d : Pgdir) (v : ℕ) : Replaced d d v (d.ent v) :=
  ⟨rfl, fun _ => rfl, fun w => by
    split
    · rename_i hw
      rw [hw]
    · rfl⟩

theorem Replaced.store {d d' : Pgdir} {v va : ℕ} {e e' : Pte} (h : Replaced d d' v e)
    (hva : va < 2 ^ 32) (hv : va / 4096 = v) (hd : d'.has (v / 1024)) :
    Replaced d (d'.store va e') v e' := by
  subst hv
  refine ⟨by rw [Pgdir.frame_store, h.frame], fun i => by rw [Pgdir.pde_store_frame, h.pde],
    fun w => ?_⟩
  rw [Pgdir.ent_store hva hd, h.ent]
  split
  · rfl
  · rfl

theorem Replaced.has {d d' : Pgdir} {v : ℕ} {e : Pte} (h : Replaced d d' v e) (i : ℕ) :
    d'.has i ↔ d.has i := by
  have := h.pde i
  unfold Pgdir.has
  cases h₁ : d'.pde i <;> cases h₂ : d.pde i <;> simp_all

/-- The ledger of the new directory. -/
theorem Replaced.holds {d d' : Pgdir} {v : ℕ} {e : Pte} (h : Replaced d d' v e)
    (hv : v < UPAGES) : d'.holds + Pgdir.pteHold (d.ent v) = d.holds + Pgdir.pteHold e := by
  have := Pgdir.uses_replace hv h.ent
  rw [Pgdir.holds, Pgdir.holds, h.frame, Pgdir.tables_congr h.pde, add_assoc, this, ← add_assoc]

/-- An entry of the kernel's part makes no claim, and neither does one that is not present. -/
theorem Replaced.holds_same {d d' : Pgdir} {v : ℕ} {e : Pte} (h : Replaced d d' v e)
    (hv : UPAGES ≤ v ∨ (d.ent v).P = false ∧ e.P = false) : d'.holds = d.holds := by
  have huses : d'.uses = d.uses := Pgdir.uses_congr fun w hw => by
    rw [h.ent]
    split
    · rename_i hwv
      obtain ⟨h₁, h₂⟩ := hv.resolve_left (by omega)
      rw [hwv, Pgdir.pteHold_of_not_P h₁, Pgdir.pteHold_of_not_P h₂]
    · rfl
  rw [Pgdir.holds, Pgdir.holds, h.frame, Pgdir.tables_congr h.pde, huses]

end OsLabs.Xv6
