import OsLabs.Xv6.System
import Mathlib.Data.Fintype.BigOperators

/-!
# The accounts of the kernel

`Kernel.total` is the ledger of all frames the kernel has allocated: its own directory and the
frames of other kernel owners, and for every slot in use the kernel stack and what its directory
holds. `InvOf ok x k`: the allocator agrees with this ledger, up to the frames `x` that have been
lost, and every slot in use has its memory, of a size and with a directory that `ok` accepts. A
`Shape` is such a condition that `sbrk` and `exec` keep; `Inv` is the one of the trees in which no
process grows beyond `KERNBASE`.

The specifications of the operations say what each can do to the state. An operation on the
memory of one process ends in a state `k.setMem p s' sz' d'`; `Inv.setMem` is the step from the
accounts of that process to those of the kernel.

* `sys_sbrk_spec`, with the outcomes listed in `SbrkEffect`, and `MemPost.sbrk_inv`.
-/

namespace OsLabs.Xv6

open StateError Ledger

section Ledgers

variable {κ : Type}

namespace Kernel

variable (k : Kernel κ) (p : ProcPtr)

/-- The slot is in use. -/
def live : Prop := (k.proc p).state ≠ .UNUSED

/-- The frames of a slot. -/
def slotHolds : Ledger ℕ :=
  if (k.proc p).state = .UNUSED then 0
  else (k.kstack p).elim 0 excl + (k.pgdir p).elim 0 Pgdir.holds

/-- The frames that belong to no process. -/
def ownHolds : Ledger ℕ := k.kpgdir.elim 0 Pgdir.holds + (k.held.map excl).sum

/-- All allocated frames. -/
def total : Ledger ℕ := k.ownHolds + ∑ p, k.slotHolds p

/-- All allocated frames but those of the directory of `p`. -/
def rest : Ledger ℕ :=
  k.ownHolds + ∑ q ∈ Finset.univ.erase p, k.slotHolds q + (k.kstack p).elim 0 excl

/-- New memory for the process `p`. -/
def setMem (s : Phys κ) (sz : ℕ) (d : Pgdir) : Kernel κ :=
  { k with
    phys := s
    proc := k.proc.set p fun q => { q with sz := sz }
    pgdir := Function.update k.pgdir p (some d) }

variable {k p}

theorem total_eq_rest {d : Pgdir} (hl : k.live p) (hd : k.pgdir p = some d) :
    k.total = k.rest p + d.holds := by
  have hslot : k.slotHolds p = (k.kstack p).elim 0 excl + d.holds := by
    rw [slotHolds, if_neg hl, hd, Option.elim_some]
  rw [total, rest, ← Finset.add_sum_erase _ _ (Finset.mem_univ p), hslot]
  abel

/-- The ledger of the kernel when one slot has changed. -/
theorem total_add_slot {k' : Kernel κ} (hk : k'.kpgdir = k.kpgdir) (hh : k'.held = k.held)
    (hne : ∀ q, q ≠ p → k'.slotHolds q = k.slotHolds q) :
    k'.total + k.slotHolds p = k.total + k'.slotHolds p := by
  rw [total, total, ownHolds, ownHolds, hk, hh, ← Finset.add_sum_erase _ _ (Finset.mem_univ p),
    ← Finset.add_sum_erase Finset.univ k.slotHolds (Finset.mem_univ p),
    Finset.sum_congr rfl fun q hq => hne q (Finset.ne_of_mem_erase hq)]
  abel

theorem total_congr {k' : Kernel κ} (hk : k'.kpgdir = k.kpgdir) (hh : k'.held = k.held)
    (hs : ∀ q, k'.slotHolds q = k.slotHolds q) : k'.total = k.total := by
  rw [total, total, ownHolds, ownHolds, hk, hh, Finset.sum_congr rfl fun q _ => hs q]

section SetMem

variable {s : Phys κ} {sz : ℕ} {d : Pgdir}

/-- New memory of the same size. -/
theorem setMem_sz_self : k.setMem p s (k.proc p).sz d =
    { k with phys := s, pgdir := Function.update k.pgdir p (some d) } := by
  have : (k.proc.set p fun q => { q with sz := (k.proc p).sz }) = k.proc := by
    funext q
    rw [Table.set_apply]
    split
    · rename_i h
      rw [h]
    · rfl
  rw [setMem, this]

theorem live_setMem (q : ProcPtr) : (k.setMem p s sz d).live q ↔ k.live q := by
  unfold live setMem
  by_cases h : q = p
  · subst h; simp
  · simp [Table.set_ne, h]

theorem rest_setMem : (k.setMem p s sz d).rest p = k.rest p := by
  have : ∀ q ∈ Finset.univ.erase p, (k.setMem p s sz d).slotHolds q = k.slotHolds q := by
    intro q hq
    have hne := Finset.ne_of_mem_erase hq
    simp [slotHolds, setMem, Table.set_ne, hne]
  rw [rest, rest, Finset.sum_congr rfl this]
  rfl

theorem total_setMem (hl : k.live p) : (k.setMem p s sz d).total = k.rest p + d.holds := by
  rw [total_eq_rest ((live_setMem p).mpr hl) (d := d) (by simp [setMem]), rest_setMem]

end SetMem

end Kernel

/-- The pids in the table are different, below `nextpid`, and those of slots in use positive. -/
structure PidsOk (t : Table) (nextpid : ℕ) : Prop where
  pos : ∀ p, (t p).state ≠ .UNUSED → 0 < (t p).pid
  lt : ∀ p, (t p).pid < nextpid
  ne : ∀ p q, p ≠ q → (t p).pid ≠ 0 → (t p).pid ≠ (t q).pid

/-- Nothing changed that concerns pids. -/
theorem PidsOk.congr {t t' : Table} {n : ℕ} (h : PidsOk t n) (hp : ∀ p, (t' p).pid = (t p).pid)
    (hs : ∀ p, (t' p).state ≠ .UNUSED → (t p).state ≠ .UNUSED) : PidsOk t' n :=
  ⟨fun p hp' => by rw [hp]; exact h.pos p (hs p hp'), fun p => by rw [hp]; exact h.lt p,
    fun p q hpq => by rw [hp, hp]; exact h.ne p q hpq⟩

/-- A slot is given back. -/
theorem PidsOk.reap {t : Table} {n : ℕ} (h : PidsOk t n) {q : ProcPtr} : PidsOk (t.reap q) n := by
  have hself : (t.reap q q).state = .UNUSED ∧ (t.reap q q).pid = 0 := by simp [Table.reap]
  have hne : ∀ j, j ≠ q → t.reap q j = t j := fun j hj => Table.set_ne _ _ hj
  refine ⟨fun j hj => ?_, fun j => ?_, fun i j hij h0 => ?_⟩
  · have hjq : j ≠ q := fun e => hj (by rw [e]; exact hself.1)
    rw [hne j hjq] at hj ⊢
    exact h.pos j hj
  · by_cases hjq : j = q
    · rw [hjq, hself.2]
      exact Nat.zero_lt_of_lt (h.lt q)
    · rw [hne j hjq]
      exact h.lt j
  · have hiq : i ≠ q := fun e => h0 (by rw [e]; exact hself.2)
    rw [hne i hiq] at h0 ⊢
    by_cases hjq : j = q
    · rwa [hjq, hself.2]
    · rw [hne j hjq]
      exact h.ne i j hij h0

/-- A slot gets the next pid. -/
theorem PidsOk.alloc {t : Table} {n : ℕ} (h : PidsOk t n) (hn : 0 < n) {q : ProcPtr}
    {f : Proc → Proc} (hf : (f (t q)).pid = n) : PidsOk (t.set q f) (n + 1) := by
  have hself : (t.set q f q).pid = n := by rw [Table.set_self, hf]
  have hne : ∀ j, j ≠ q → t.set q f j = t j := fun j hj => Table.set_ne _ _ hj
  refine ⟨fun j hj => ?_, fun j => ?_, fun i j hij h0 => ?_⟩
  · by_cases hjq : j = q
    · rw [hjq, hself]
      exact hn
    · rw [hne j hjq] at hj ⊢
      exact h.pos j hj
  · by_cases hjq : j = q
    · rw [hjq, hself]
      omega
    · rw [hne j hjq]
      exact Nat.lt_succ_of_lt (h.lt j)
  · by_cases hiq : i = q
    · have hjq : j ≠ q := fun e => hij (hiq.trans e.symm)
      rw [hiq, hself, hne j hjq]
      exact Nat.ne_of_gt (h.lt j)
    · rw [hne i hiq] at h0 ⊢
      by_cases hjq : j = q
      · rw [hjq, hself]
        exact Nat.ne_of_lt (h.lt i)
      · rw [hne j hjq]
        exact h.ne i j hij h0

end Ledgers

/-! ## What `sbrk` can do -/

section Sbrk

variable {κ : Type} [Kalloc κ]

/-- What `sbrk` by `n` does to the memory of a process of size `sz` with the directory `d`, where
`r` is the ledger of everything else. -/
inductive SbrkEffect (r : Ledger ℕ) (s : Phys κ) (d : Pgdir) (sz : ℕ) (n : ℤ) :
    Result → Phys κ → ℕ → Pgdir → Prop
  /-- Nothing to do: also where the new size wraps around. -/
  | same (h : n = 0 ∨ sz + n < 0 ∧ 0 < sz ∨ 2 ^ 32 ≤ sz + n) : SbrkEffect r s d sz n (.ret sz) s sz d.flush
  /-- The new size is too large, or there is nothing to give back. -/
  | refused (h : (KERNBASE : ℤ) ≤ sz + n ∨ n < 0 ∧ sz = 0) :
      SbrkEffect r s d sz n (.ret (-1)) s sz d
  /-- The new pages are there. -/
  | grown {s' : Phys κ} {new : ℕ} {d' : Pgdir} (hn : 0 < n) (hnew : (new : ℤ) = sz + n)
      (hlt : new < KERNBASE) (ho : s'.oom = s.oom) (hg : d.Grown d' (pages sz) (pages new))
      (hf : NewPages (r + d.holds) s' d' (pages sz) (pages new)) (hk : Keeps (r + d.uses) s s')
      (hlen : s.free.length + pages sz ≤ s'.free.length + 1024 + pages new) :
      SbrkEffect r s d sz n (.ret sz) s' new d'.flush
  /-- Memory has run out. -/
  | failed {s' : Phys κ} {new : ℕ} {d' : Pgdir} (hn : 0 < n) (hnew : (new : ℤ) = sz + n)
      (hlt : new < KERNBASE) (ho : s'.oom = true) (hu : d.Undone d' (pages sz) (pages new))
      (hk : Keeps (r + d'.uses) s s') (hlen : s.free.length + pages sz ≤ 1024 + pages new) :
      SbrkEffect r s d sz n (.ret (-1)) s' sz d'
  /-- The pages beyond the new size are given back. -/
  | shrunk {s' : Phys κ} {new : ℕ} {d' : Pgdir} (hn : n < 0) (hnew : (new : ℤ) = sz + n)
      (hpos : 0 < new) (ho : s'.oom = s.oom) (hc : d.Cleared d' (pages new) (pages sz))
      (hk : Keeps (r + d'.uses) s s') : SbrkEffect r s d sz n (.ret sz) s' new d'.flush
  /-- All pages are given back, but the new size 0 is taken for an error. -/
  | emptied {s' : Phys κ} {d' : Pgdir} (hn : n < 0) (hz : sz + n = 0) (ho : s'.oom = s.oom)
      (hc : d.Cleared d' 0 (pages sz)) (hk : Keeps (r + d'.uses) s s') :
      SbrkEffect r s d sz n (.ret (-1)) s' sz d'

namespace SbrkEffect

variable {r : Ledger ℕ} {s s' : Phys κ} {d d' : Pgdir} {sz sz' : ℕ} {n : ℤ} {res : Result}

theorem kernelOk (h : SbrkEffect r s d sz n res s' sz' d') (hsz : sz ≤ KERNBASE)
    (hk : d.KernelOk) : d'.KernelOk := by
  have hpg := pages_le_UPAGES hsz
  cases h with
  | same _ => exact hk
  | refused _ => exact hk
  | grown _ hnew hlt _ hg _ _ =>
    have := pages_le_UPAGES (le_of_lt hlt)
    exact hk.congr fun v hv => hg.out v (by omega)
  | failed _ hnew hlt _ hu _ =>
    have := pages_le_UPAGES (le_of_lt hlt)
    exact hk.congr fun v hv => hu.out v (by omega)
  | shrunk _ _ _ _ hc _ =>
    refine hk.congr fun v hv => ?_
    rw [Pgdir.ent_flush, hc.ent, if_neg (by omega)]
  | emptied _ _ _ hc _ =>
    refine hk.congr fun v hv => ?_
    rw [hc.ent, if_neg (by omega)]

theorem sz_le (h : SbrkEffect r s d sz n res s' sz' d') (hsz : sz ≤ KERNBASE) :
    sz' ≤ KERNBASE := by
  cases h with
  | grown _ _ hlt _ _ _ _ => exact le_of_lt hlt
  | shrunk _ hnew _ _ _ _ => omega
  | _ => exact hsz

end SbrkEffect

theorem argint_bounds (n : ℤ) : -2 ^ 31 ≤ argint n ∧ argint n < 2 ^ 31 := by
  have h₁ := Int.le_bmod (x := n) (m := 2 ^ 32) (by decide)
  have h₂ := Int.bmod_lt (x := n) (m := 2 ^ 32) (by decide)
  unfold argint
  omega

end Sbrk

section Invariant

variable {κ : Type} [Kalloc κ] [Layout] [LawfulKalloc κ]

/-- The allocator agrees with the ledger of the kernel and the lost frames `x`, and `ok` holds of
the size and the directory of every slot in use. -/
structure InvOf (ok : ℕ → Pgdir → Prop) (x : Ledger ℕ) (k : Kernel κ) : Prop where
  acct : Acct InRange k.phys.kmem (x + k.total)
  live : ∀ p, k.live p → ∃ d f, k.pgdir p = some d ∧ k.kstack p = some f ∧ ok (k.proc p).sz d
  pids : PidsOk k.proc k.nextpid

/-- The address space of a process ends at `KERNBASE` at the latest. -/
def Small (sz : ℕ) (d : Pgdir) : Prop := sz ≤ KERNBASE ∧ d.KernelOk

/-- The accounts are in order, and all processes are `Small`. -/
abbrev Inv (x : Ledger ℕ) (k : Kernel κ) : Prop := InvOf Small x k

variable {ok : ℕ → Pgdir → Prop} {x : Ledger ℕ} {k : Kernel κ} {p : ProcPtr}

/-- New memory for one process, with its accounts in order. -/
theorem InvOf.setMem {x' : Ledger ℕ} (h : InvOf ok x k) (hl : k.live p) {s : Phys κ} {sz : ℕ}
    {d : Pgdir} (ha : Acct InRange s.kmem (x' + k.rest p + d.holds)) (hok : ok sz d) :
    InvOf ok x' (k.setMem p s sz d) := by
  refine ⟨by rw [Kernel.total_setMem hl, ← add_assoc]; exact ha, fun q hq => ?_, h.pids.congr (fun q => ?_)
    fun q hq => (Kernel.live_setMem q).mp hq⟩
  · obtain ⟨d₀, f, hd, hf, hok₀⟩ := h.live q ((Kernel.live_setMem q).mp hq)
    by_cases hqp : q = p
    · subst hqp
      exact ⟨d, f, by simp [Kernel.setMem], hf, by simpa [Kernel.setMem] using hok⟩
    · exact ⟨d₀, f, by simpa [Kernel.setMem, hqp] using hd, hf,
        by simpa [Kernel.setMem, Table.set_ne, hqp] using hok₀⟩
  · change ((k.proc.set p _) q).pid = _
    rw [Table.set_apply]
    split
    · rename_i hqp
      rw [hqp]
    · rfl

omit [Kalloc κ] [Layout] [LawfulKalloc κ] in
theorem wp_growprocEnd {n : ℤ} {r : ℕ × Pgdir} {s : Phys κ} {Q : Bool → Kernel κ → Prop}
    {E : Panic → Kernel κ → Prop} (hks : k.kstack p ≠ none) :
    wp (growprocEnd p n r) Q E { k with phys := s } ↔
      if n ≠ 0 ∧ r.1 = 0 then Q false (k.setMem p s (k.proc p).sz r.2)
      else Q true (k.setMem p s r.1 r.2.flush) := by
  unfold growprocEnd
  simp only [wp_bind, wp_setPgdir]
  by_cases hc : n ≠ 0 ∧ r.1 = 0
  · rw [if_pos hc, if_pos hc, Kernel.setMem_sz_self, wp_pure]
  · rw [if_neg hc, if_neg hc]
    simp only [wp_bind, wp_setProc, wp_pure]
    refine Iff.trans (wp_switchuvm (d := r.2) (Function.update_self ..) ?_) ?_
    · exact hks
    simp only [Function.update_idem, Kernel.setMem]

/-- What is known after an operation on the memory of `p` by an effect `F`. -/
def MemPost (x : Ledger ℕ) (k : Kernel κ) (p : ProcPtr)
    (F : Result → Phys κ → ℕ → Pgdir → Prop) (res : Result) (k' : Kernel κ) : Prop :=
  ∃ s' sz' d', k' = k.setMem p s' sz' d' ∧ Acct InRange s'.kmem (x + k.rest p + d'.holds) ∧
    Grow (x + k.total) (x + k.rest p + d'.holds) ∧ F res s' sz' d'

/-- How `sbrk` can stop for a process of size `sz`: a page beyond its end is present, or a page of
the kernel below it. -/
def SbrkStop (d : Pgdir) (sz : ℕ) (e : Panic) : Prop :=
  e = .remap ∧ (∃ v, pages sz ≤ v ∧ v < UPAGES ∧ (d.ent v).P = true) ∨
    e = .kfree ∧ d.Overlaps sz

/-- `sbrk` changes the memory of the process as `SbrkEffect` says, or stops. -/
theorem sys_sbrk_spec (h : InvOf ok x k) (hl : k.live p) {d : Pgdir} (hd : k.pgdir p = some d)
    (hb : d.Bounded (k.proc p).sz) {n : ℤ} :
    wp (sys_sbrk p n)
      (MemPost x k p (SbrkEffect (x + k.rest p) k.phys d (k.proc p).sz (argint n)))
      (fun e _ => SbrkStop d (k.proc p).sz e) k := by
  obtain ⟨d₀, f, hd', hf, -⟩ := h.live p hl
  obtain rfl : d₀ = d := Option.some.inj (hd'.symm.trans hd)
  have hks : k.kstack p ≠ none := by simp [hf]
  have hsz := hb.1
  have htot : x + k.total = x + k.rest p + d₀.holds := by
    rw [add_assoc, ← Kernel.total_eq_rest hl hd]
  have hacct : Acct InRange k.phys.kmem (x + k.rest p + d₀.holds) := htot ▸ h.acct
  have hpost : ∀ {s' : Phys κ} {sz' : ℕ} {d' : Pgdir} (ok : Bool),
      Acct InRange s'.kmem (x + k.rest p + d'.holds) →
      Grow (x + k.rest p + d₀.holds) (x + k.rest p + d'.holds) →
      SbrkEffect (x + k.rest p) k.phys d₀ (k.proc p).sz (argint n)
        (if ok then .ret (k.proc p).sz else .ret (-1)) s' sz' d' →
      wp (if ok then pure (.ret (k.proc p).sz) else pure (.ret (-1)) : KM κ Result)
        (MemPost x k p (SbrkEffect (x + k.rest p) k.phys d₀ (k.proc p).sz (argint n)))
        (fun e _ => SbrkStop d₀ (k.proc p).sz e) (k.setMem p s' sz' d') := by
    intro s' sz' d' ok ha hg he
    rw [← htot] at hg
    cases ok with
    | false =>
      simp only [Bool.false_eq_true, if_false, wp_pure] at he ⊢
      exact ⟨s', sz', d', rfl, ha, hg, he⟩
    | true =>
      simp only [if_true, wp_pure] at he ⊢
      exact ⟨s', sz', d', rfl, ha, hg, he⟩
  obtain ⟨hlo, hhi⟩ := argint_bounds n
  simp only [KERNLINK, KERNBASE, EXTMEM, PGSIZE] at hsz
  unfold sys_sbrk growproc
  simp only [wp_bind, wp_get, wp_getPgdir hd, gt_iff_lt]
  by_cases hpos : 0 < argint n
  · have hnew : ((addInt (k.proc p).sz (argint n) : ℕ) : ℤ) = (k.proc p).sz + argint n ∨
        2 ^ 32 ≤ (k.proc p).sz + argint n ∧
          ((addInt (k.proc p).sz (argint n) : ℕ) : ℤ) = (k.proc p).sz + argint n - 2 ^ 32 := by
      unfold addInt
      omega
    rw [if_pos hpos]
    simp only [wp_bind, wp_onPhys, wp_growprocEnd hks]
    rw [Pgdir.add_holds] at hacct
    refine wp_mono (allocuvm_spec hacct) (fun res s' h => ?_) fun e _ he => ?_
    · obtain ⟨ha', hg, h⟩ := h
      obtain ⟨sz', d'⟩ := res
      rcases h with ⟨hbig, hres, rfl⟩ | ⟨-, hless, hres, rfl⟩ | ⟨hlt, hle, hgrew⟩
      · obtain ⟨rfl, rfl⟩ := Prod.mk.inj hres
        rw [if_pos ⟨by omega, rfl⟩]
        exact hpost false (by rwa [Pgdir.add_holds]) (.refl _)
          (.refused (Or.inl (by omega)))
      · -- the new size wraps around to a small one
        obtain ⟨rfl, rfl⟩ := Prod.mk.inj hres
        rw [if_neg fun hc => by have : (k.proc p).sz = 0 := hc.2; omega]
        exact hpost true (by rwa [Pgdir.add_holds]) (.refl _) (.same (Or.inr (Or.inr (by omega))))
      · have hnew : ((addInt (k.proc p).sz (argint n) : ℕ) : ℤ) = (k.proc p).sz + argint n := by
          omega
        rcases hgrew with ⟨hres, ho, hgr, hfresh, hkeep, hlen⟩ | ⟨hres, ho, hun, hkeep, hlen⟩
        · dsimp only at hres ha' hg hgr hfresh hkeep
          rw [← Pgdir.add_holds] at hfresh
          rw [← Pgdir.add_holds, ← hgr.frame, ← Pgdir.add_holds] at hg
          rw [← hgr.frame, ← Pgdir.add_holds] at ha'
          rw [if_neg fun hc => by have : sz' = 0 := hc.2; omega, hres]
          refine hpost true ha' hg (.grown hpos hnew hlt ho hgr hfresh
            (hkeep.of_refs_le fun f => ?_) hlen)
          simp only [refs_add]
          omega
        · dsimp only at hres ha' hg hun hkeep
          rw [← Pgdir.add_holds, ← hun.frame, ← Pgdir.add_holds] at hg
          rw [← hun.frame, ← Pgdir.add_holds] at ha'
          rw [if_pos ⟨by omega, hres⟩]
          refine hpost false ha' hg (.failed hpos hnew hlt ho hun
            (hkeep.of_refs_le fun f => ?_) hlen)
          simp only [refs_add]
          omega
    · obtain ⟨rfl, hlt, v, h₁, h₂, hP⟩ := he
      exact Or.inl ⟨rfl, v, h₁, lt_of_lt_of_le h₂ (pages_le_UPAGES (le_of_lt hlt)), hP⟩
  rw [if_neg hpos]
  by_cases hneg : argint n < 0
  · rw [if_pos hneg]
    simp only [wp_bind, wp_onPhys, wp_growprocEnd hks]
    by_cases hwrap : (k.proc p).sz + argint n < 0
    · -- the new size wraps around to an address above `KERNBASE`
      have hge : addInt (k.proc p).sz (argint n) ≥ (k.proc p).sz := by
        unfold addInt
        omega
      unfold deallocuvm
      rw [if_pos hge, wp_pure]
      by_cases h0 : (k.proc p).sz = 0
      · rw [if_pos ⟨by omega, h0⟩]
        exact hpost false hacct (.refl _) (.refused (Or.inr ⟨hneg, h0⟩))
      · rw [if_neg fun hc => h0 hc.2]
        exact hpost true hacct (.refl _) (.same (Or.inr (Or.inl ⟨hwrap, by omega⟩)))
    have hl' : ∀ d' : Pgdir, d'.frame = d₀.frame → d'.tables = d₀.tables →
        x + k.rest p + d'.holds = x + k.rest p + (excl d₀.frame + d₀.tables) + d'.uses :=
      fun d' h₁ h₂ => by
        rw [Pgdir.holds, h₁, h₂]
        abel
    rw [hl' d₀ rfl rfl] at hacct
    refine wp_mono (deallocuvm_spec hb hacct) (fun res s' h => ?_)
      fun _ _ he => Or.inr he
    obtain ⟨hres, hcl, ha', hkeep, ho⟩ := h
    obtain ⟨sz', d'⟩ := res
    dsimp only at hres hcl ha' hkeep
    have hg : Grow (x + k.rest p + d₀.holds) (x + k.rest p + d'.holds) := by
      rw [hl' d₀ rfl rfl, hl' d' hcl.frame hcl.tables]
      exact hcl.grow _
    rw [← hl' d' hcl.frame hcl.tables] at ha'
    have hkeep' : Keeps (x + k.rest p + d'.uses) k.phys s' := hkeep.of_refs_le fun f => by
      simp only [refs_add]
      omega
    have hnew : ((addInt (k.proc p).sz (argint n) : ℕ) : ℤ) = (k.proc p).sz + argint n := by
      unfold addInt
      omega
    rw [if_neg (by omega)] at hres
    by_cases h0 : sz' = 0
    · rw [if_pos ⟨by omega, h0⟩]
      have hz : pages (addInt (k.proc p).sz (argint n)) = 0 := by
        rw [← hres, h0]
        rfl
      rw [hz] at hcl
      exact hpost false ha' hg (.emptied hneg (by omega) ho hcl hkeep')
    · rw [if_neg fun hc => h0 hc.2]
      rw [← hres] at hcl hnew
      exact hpost true ha' hg (.shrunk hneg hnew (by omega) ho hcl hkeep')
  · have h0 : argint n = 0 := by omega
    rw [if_neg hneg]
    refine (wp_growprocEnd (s := k.phys) hks).mpr ?_
    rw [if_neg fun hc => hc.1 h0]
    exact hpost true hacct (.refl _) (.same (Or.inl h0))

/-- A directory of a slot in use, with the accounts split at it. -/
theorem InvOf.acct_rest (h : InvOf ok x k) (hl : k.live p) {d : Pgdir} (hd : k.pgdir p = some d) :
    Acct InRange k.phys.kmem (x + k.rest p + d.holds) := by
  rw [add_assoc, ← Kernel.total_eq_rest hl hd]
  exact h.acct

/-- The facts about a slot in use whose directory is known. -/
theorem InvOf.of_live (h : InvOf ok x k) (hl : k.live p) {d : Pgdir} (hd : k.pgdir p = some d) :
    k.kstack p ≠ none ∧ ok (k.proc p).sz d := by
  obtain ⟨d₀, f, hd₀, hf, hok⟩ := h.live p hl
  obtain rfl : d₀ = d := Option.some.inj (hd₀.symm.trans hd)
  exact ⟨by simp [hf], hok⟩

/-- A condition on address spaces that `sbrk` keeps and that new images meet. -/
structure Shape (κ : Type) [Kalloc κ] [Layout] (ok : ℕ → Pgdir → Prop) : Prop where
  bounded {sz : ℕ} {d : Pgdir} (h : ok sz d) : d.Bounded sz
  flush {sz : ℕ} {d : Pgdir} (h : ok sz d) : ok sz d.flush
  image {r : Ledger ℕ} {sz : ℕ} {d : Pgdir} (hsz : sz < KERNBASE) (hi : Image r d (pages sz)) :
    ok sz d
  sbrk {r : Ledger ℕ} {s s' : Phys κ} {d d' : Pgdir} {sz sz' : ℕ} {n : ℤ} {res : Result}
    (h : ok sz d) (he : SbrkEffect r s d sz n res s' sz' d') : ok sz' d'

omit [LawfulKalloc κ] in
theorem shape_small : Shape κ Small where
  bounded h := .of_le h.1
  flush h := h
  image hsz hi := ⟨le_of_lt hsz, hi.kernel⟩
  sbrk h he := ⟨he.sz_le h.1, he.kernelOk h.1 h.2⟩

theorem MemPost.sbrk_inv {d : Pgdir} {n : ℤ} {res : Result} {k' : Kernel κ} (hs : Shape κ ok)
    (h : InvOf ok x k) (hl : k.live p) (hd : k.pgdir p = some d)
    (hp : MemPost x k p (SbrkEffect (x + k.rest p) k.phys d (k.proc p).sz n) res k') :
    InvOf ok x k' := by
  obtain ⟨s', sz', d', rfl, ha, -, he⟩ := hp
  exact h.setMem hl ha (hs.sbrk (h.of_live hl hd).2 he)

end Invariant

end OsLabs.Xv6
