import OsLabs.Cow.Family

/-!
# What the fault handler acts on

The page-fault branch of `trap` asks `check_CoW_bit_set_or_not` whether it may copy. The answer is
yes for copy-on-write pages, and also where the directory entry is absent; the copy routine then
walks the directory again and reads the entry it does not find.

* `handler_selective_iff`: the handler copies copy-on-write pages only, and kills for all other
  addresses, exactly where the directory entry of the address is present;
* `handler_follows_null`: one of the addresses where it is not.
-/

namespace OsLabs.Cow

open Xv6 StateError Ledger

section Handler

variable [Layout] {k k' : Kernel Kmem} {p : ProcPtr} {d : Pgdir} {va : ℕ}

/-- The page of `va` has a page table and a present entry with `PTE_CoW`. -/
def CowPage (d : Pgdir) (va : ℕ) : Prop :=
  d.has (va / 4096 / 1024) ∧ (d.ent (va / 4096)).P = true ∧ (d.ent (va / 4096)).CoW = true

/-- The process is marked killed; page tables, counts and frames are as before. -/
structure KilledOnly (p : ProcPtr) (k k' : Kernel Kmem) : Prop where
  killed : (k'.proc p).killed = true
  pgdir : k'.pgdir = k.pgdir
  phys : k'.phys = k.phys

/-- What the page-fault branch should do with a fault of `p` at `va`: enter the copy routine only
for a copy-on-write page, and only kill for every other address. Killing `initproc` ends in the
panic of `exit`. -/
structure Selective (k : Kernel Kmem) (p : ProcPtr) (d : Pgdir) (va : ℕ) : Prop where
  copies : check_CoW_bit_set_or_not d va = true → CowPage d va
  kills : ¬CowPage d va → wp (trapPgflt tree p va) (fun goesOn k' => goesOn = false ∧ KilledOnly p k k')
    (fun e k' => e = .initExiting ∧ k.initproc = some p ∧ KilledOnly p k k') k

/-- On a page that the check refuses the process is killed, and nothing else happens to memory. -/
theorem trapPgflt_kills (hd : k.pgdir p = some d) (hk : kills d va) :
    wp (trapPgflt tree p va) (fun goesOn k' => goesOn = false ∧ KilledOnly p k k')
      (fun e k' => e = .initExiting ∧ k.initproc = some p ∧ KilledOnly p k k') k := by
  have hpg : tree.pgflt d va = pure none := by
    rw [kills] at hk
    simp only [tree, pgflt, hk, Bool.false_eq_true, if_false]
  unfold trapPgflt
  simp only [wp_bind, wp_getPgdir hd, wp_onPhys, hpg, wp_pure, wp_setProc, exit, wp_get, wp_ite,
    wp_throw, wp_set]
  refine ⟨fun hi => ⟨trivial, hi, ⟨?_, rfl, rfl⟩⟩, fun _ => ⟨trivial, ⟨?_, rfl, rfl⟩⟩⟩
  · dsimp only
    rw [Table.set_self]
  · dsimp only
    rw [Table.exit_killed, Table.set_self]

/-- Where the directory entry is present, the check finds the copy-on-write pages. -/
theorem Ok.check_iff (h : Ok k) (hl : k.live p) (hd : k.pgdir p = some d) (hva : va < 2 ^ 32)
    (hhas : d.has (va / 4096 / 1024)) :
    check_CoW_bit_set_or_not d va = true ↔ CowPage d va := by
  obtain ⟨-, -, hker⟩ := h.inv.of_live hl hd
  rw [check_eq hva rfl (Pgdir.find_of_has hva hhas)]
  refine ⟨fun hC => ⟨hhas, ?_, hC⟩, fun h => h.2.2⟩
  by_cases hup : va / 4096 < UPAGES
  · rcases h.pages p d hl hd _ hup with hz | ⟨hP, -⟩
    · rw [hz] at hC
      cases hC
    · exact hP
  · rw [(hker _ (Nat.le_of_not_lt hup)).2.1] at hC
    cases hC

/-- The handler acts on copy-on-write pages only, exactly where the directory entry of the
faulting address is present. -/
theorem handler_selective_iff {C : Kernel Kmem → Op → Result → Prop} (h : Reachable tree C k)
    (hp : (k.proc p).state = .RUNNING) (hd : k.pgdir p = some d) (hva : va < 2 ^ 32) :
    Selective k p d va ↔ d.has (va / 4096 / 1024) := by
  have hok := ok_of_reachable h
  have hl := live_of_running hp
  constructor
  · intro hs
    by_contra hhas
    have hcheck : check_CoW_bit_set_or_not d va = true := by
      rw [check_CoW_bit_set_or_not, Pgdir.find_of_not_has hva hhas]
    exact hhas (hs.copies hcheck).1
  · intro hhas
    have hcheck := hok.check_iff hl hd hva hhas
    refine ⟨hcheck.mp, fun hno => trapPgflt_kills hd ?_⟩
    exact Bool.eq_false_iff.mpr fun hc => hno (hcheck.mp hc)

end Handler

/-- Right after boot `init` has one page. -/
theorem handler_selective_init : ∃ (_ : Layout) (k : Kernel Kmem) (p : ProcPtr) (d : Pgdir),
    Reachable tree anyOp k ∧ (k.proc p).state = .RUNNING ∧ k.pgdir p = some d ∧
      Selective k p d 0 := by
  let L := sampleLayout
  obtain ⟨k, d, hr, hk, -⟩ := exists_single (C := anyOp) fun _ _ _ => trivial
  have hhas : d.has (0 / 4096 / 1024) := Pgdir.has_of_ent_ne fun e => by
    have := hk.P
    rw [e] at this
    cases this
  exact ⟨L, k, initSlot, d, hr, hk.running, hk.dir,
    (handler_selective_iff hr hk.running hk.dir (by decide)).mpr hhas⟩

/-- At 4 MB the directory of `init` has no page table. The handler takes the address for a
copy-on-write page and follows the null pointer that the walk returns. -/
theorem handler_follows_null : ∃ (_ : Layout) (k k' : Kernel Kmem) (p : ProcPtr) (d : Pgdir) (va : ℕ),
    Reachable tree anyOp k ∧ (k.proc p).state = .RUNNING ∧ k.pgdir p = some d ∧ va < 2 ^ 32 ∧
      trapPgflt tree p va k = .error .nullDeref k' ∧ ¬Selective k p d va := by
  let L := sampleLayout
  obtain ⟨k, d, hr, hk, -, -, -, hhas, -⟩ := exists_single (C := anyOp) fun _ _ _ => trivial
  have hno : ¬d.has (4194304 / 4096 / 1024) := fun h => absurd (hhas 1 (by decide) h) (by decide)
  have hnone : d.find 4194304 = none := Pgdir.find_of_not_has (by decide) hno
  have hcheck : check_CoW_bit_set_or_not d 4194304 = true := by
    rw [check_CoW_bit_set_or_not, hnone]
  refine ⟨L, k, k, initSlot, d, 4194304, hr, hk.running, hk.dir, by decide, ?_, fun hs => ?_⟩
  · refine eq_error_of_wp ?_
    unfold trapPgflt
    simp only [wp_bind, wp_getPgdir hk.dir, wp_onPhys]
    change wp (pgflt d 4194304) _ _ k.phys
    rw [pgflt, if_pos hcheck, makeCopy, hnone]
    exact ⟨rfl, rfl⟩
  · exact hno (hs.copies hcheck).1

end OsLabs.Cow
