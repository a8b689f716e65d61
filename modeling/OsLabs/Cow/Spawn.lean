import OsLabs.Cow.Tlb
import OsLabs.Eager.Spawn

/-!
# `spawn` without a reload of `cr3`

`spawn` of the copy-on-write tree copies the address space of its caller as `fork` does, but calls
no `switchuvm` afterwards. The processor may go on using the writable translations that `copyuvm`
has replaced, and it does so when `spawn` stores the pid of the child to the array of its caller.

* `storeByte` is a store of the kernel, with the translation that the TLB holds;
* `copyuvmLoop_mono`: `copyuvm` makes no translation go away that the TLB may hold;
* `child_exposed`: so after a child has been made, what was writable before is open to the parent;
* `spawn_isolated`: a call that finds no room for a child leaves no such translation.
-/

namespace OsLabs.Cow

open Xv6 StateError Ledger
open Eager (intBytes)

/-! ## The code -/

/-- How a call can stop: the kernel stops, or a page fault kills the process. -/
inductive CallStop
  | kernel (e : Panic)
  | killed

abbrev CM := EStateM CallStop (Kernel Kmem)

/-- Run a part of the kernel. -/
def onKernel {α : Type} (m : KM Kmem α) : CM α := fun k =>
  match m k with
  | .ok a k' => .ok a k'
  | .error e k' => .error (.kernel e) k'

theorem wp_onKernel {α : Type} {m : KM Kmem α} {Q : α → Kernel Kmem → Prop}
    {E : CallStop → Kernel Kmem → Prop} {k : Kernel Kmem} :
    wp (onKernel m) Q E k ↔ wp m Q (fun e k' => E (.kernel e) k') k := by
  unfold wp onKernel
  cases m k <;> rfl

instance (d : Pgdir) (v : ℕ) (e : Pte) : Decidable (d.Cached v e) :=
  inferInstanceAs (Decidable (_ ∧ _))

section Code

variable [Layout]

/-- A store of the kernel through the page table of `p`; the kernel may write to pages that are
present and writable. After a page fault that the handler survives the store is started again. -/
def storeWalk (p : ProcPtr) (va : ℕ) (b : UInt8) : ℕ → CM Unit
  | 0 => throw (.kernel .hang)
  | fuel + 1 => do
    let d ← onKernel (getPgdir p)
    match (d.find va).filter fun e => e.P && e.W with
    | some e => modify fun k => k.poke e.ppn (va % PGSIZE) b
    | none => do
      if ← onKernel (trapPgflt tree p va) then storeWalk p va b fuel else throw .killed

/-- A store of the kernel when the TLB holds `hit` for the page, if it can. -/
def storeByte (hit : Option Pte) (p : ProcPtr) (va : ℕ) (b : UInt8) : CM Unit := do
  let d ← onKernel (getPgdir p)
  match hit.filter fun e => e.W && decide (d.Cached (va / PGSIZE) e) with
  | some e => modify fun k => k.poke e.ppn (va % PGSIZE) b
  | none => storeWalk p va b accessFuel

/-- Store bytes; `hits i` is what the TLB holds at the `i`-th of the stores. -/
def storeBytes (hits : ℕ → Option Pte) (p : ProcPtr) : ℕ → ℕ → List UInt8 → CM Unit
  | _, _, [] => return ()
  | i, va, b :: bs => do
    storeByte (hits i) p va b
    storeBytes hits p (i + 1) (uint (va + 1)) bs

def storeInt (hits : ℕ → Option Pte) (p : ProcPtr) (va : ℕ) (v : ℤ) : CM Unit :=
  storeBytes hits p 0 va (intBytes v)

/-- `copyuvm` for a child of `p`. -/
def copyFor (p np : ProcPtr) : KM Kmem (Option Pgdir) := do
  let d ← getPgdir p
  let sz := ((← get).proc p).sz
  let r ← onPhys (copyuvm d sz)
  setPgdir p (some r.2)
  setPgdir np r.1
  return r.1

/-- Give back a slot when the address space could not be copied. -/
def unalloc (np : ProcPtr) : KM Kmem Unit := do
  kfreeKstack np
  setKstack np none
  setProc np fun q => { q with state := .UNUSED }

/-- The rest of a round, when the child has its address space. -/
def spawnChild (hits : ℕ → Option Pte) (p np : ProcPtr) (va : ℕ) : CM Unit := do
  modify fun k => { k with
    proc := k.proc.set np fun q => { q with sz := (k.proc p).sz, parent := some p } }
  let pid : ℤ := ((← get).proc np).pid
  storeInt hits p va pid
  onKernel (setProc np fun q => { q with state := .RUNNABLE })

/-- A round after its first store; whether it has made a child. -/
def tryChild (hits : ℕ → Option Pte) (p : ProcPtr) (va : ℕ) : CM Bool := do
  match ← onKernel allocproc with
  | none => return false
  | some np => do
    match ← onKernel (copyFor p np) with
    | none => do
      onKernel (unalloc np)
      return false
    | some _ => do
      spawnChild hits p np va
      return true

/-- A round of the loop of `spawn`, for the entry of the array at `va`. -/
def spawnRound (hits : ℕ → Option Pte) (p : ProcPtr) (va : ℕ) : CM Bool := do
  storeInt hits p va (-1)
  tryChild (fun i => hits (4 + i)) p va

/-- The loop of `spawn`, with the number of rounds left; `hits j` is for round `j`. -/
def spawnLoop (hits : ℕ → ℕ → Option Pte) (p : ProcPtr) (pids : ℕ) : ℕ → ℕ → ℤ → CM ℤ
  | 0, _, allocated => return allocated
  | left + 1, j, allocated => do
    if ← spawnRound (hits j) p (uint (pids + 4 * j)) then
      spawnLoop hits p pids left (j + 1) (allocated + 1)
    else spawnLoop hits p pids left (j + 1) allocated

/-- Create up to `n` processes copying `p`, and store their pids from `pids` on. -/
def spawn (hits : ℕ → ℕ → Option Pte) (p : ProcPtr) (n : ℤ) (pids : ℕ) : CM ℤ := do
  let allocated ← spawnLoop hits p pids n.toNat 0 0
  if allocated = 0 then return -1 else return allocated

end Code

section Mono

/-- A new entry makes no translation go away. -/
theorem cached_store {d : Pgdir} {va v : ℕ} {e e' : Pte} (hva : va < 2 ^ 32)
    (h : d.Cached v e) : (d.store va e').Cached v e := by
  by_cases hd : d.has (va / 4096 / 1024)
  · refine ⟨h.1, ?_⟩
    rw [Pgdir.ent_store hva hd, Pgdir.stale_store hva hd]
    rcases h.2 with he | hs
    · split
      · rename_i hv
        rw [← hv, he]
        exact Or.inr (List.mem_cons_self ..)
      · exact Or.inl he
    · exact Or.inr (List.mem_cons_of_mem _ hs)
  · simp only [Pgdir.has, ne_eq, not_not] at hd
    rw [Pgdir.store, PDX_eq hva, hd]
    exact h

theorem cached_writeProtect {d : Pgdir} {va v : ℕ} {e : Pte} (hva : va < 2 ^ 32)
    (h : d.Cached v e) : (writeProtect d va).Cached v e := by
  unfold Cow.writeProtect
  dsimp only
  split
  · exact cached_store hva (cached_store hva h)
  · exact h

variable {κ : Type} [Kalloc κ]

/-- `mappages` takes no page table away. -/
theorem mappages_has (perm : Flags) (d : Pgdir) (va size ppn : ℕ) (s : Phys κ) :
    wp (mappages d va size ppn perm) (fun r _ => ∀ i, d.has i → r.1.has i) (fun _ _ => True) s := by
  unfold mappages
  generalize PGROUNDDOWN (uint (va + size - 1)) = last
  generalize PGROUNDDOWN va = a
  generalize loopFuel = fuel
  induction fuel generalizing d a ppn s with
  | zero => exact trivial
  | succ fuel ih =>
    unfold mappagesLoop
    have hwalk : wp (walkpgdir d a true) (fun r _ => ∀ d', r = some d' → ∀ i, d.has i → d'.has i)
        (fun _ _ => True) s := by
      unfold walkpgdir
      split
      · exact fun d' h => Option.some.inj h ▸ fun _ hi => hi
      · rw [if_pos rfl, wp_bind]
        refine wp_mono (wp_eq _ s) (fun r s₁ _ => ?_) fun _ _ _ => trivial
        cases r with
        | none => exact fun d' h => by cases h
        | some f => exact fun d' h i hi => Option.some.inj h ▸ (Pgdir.has_addTable i).mpr (Or.inr hi)
    rw [wp_bind]
    refine wp_mono hwalk (fun r s₁ h₁ => ?_) fun _ _ _ => trivial
    cases r with
    | none => exact fun _ hi => hi
    | some d₁ =>
      have h₂ := h₁ d₁ rfl
      dsimp only
      split
      · exact trivial
      · split
        · exact fun i hi => (Pgdir.has_store i).mpr (h₂ i hi)
        · refine wp_post (ih _ _ s₁ _) fun r' _ h₃ i hi => ?_
          exact h₃ i ((Pgdir.has_store i).mpr (h₂ i hi))

variable [Layout]

/-- The loop of `copyuvm` makes no translation of the parent go away that the TLB may hold, and
takes no page table of the child away. -/
theorem copyuvmLoop_mono (sz fuel : ℕ) : ∀ (d c : Pgdir) (i : ℕ) (s : Phys Kmem), i < 2 ^ 32 →
    wp (copyuvmLoop sz fuel d c i) (fun r _ => (∀ v e, d.Cached v e → r.2.1.Cached v e) ∧
      ∀ j, c.has j → r.2.2.has j) (fun _ _ => True) s := by
  induction fuel with
  | zero => exact fun _ _ _ _ _ => trivial
  | succ fuel ih =>
    intro d c i s hi
    unfold copyuvmLoop
    split
    swap
    · exact ⟨fun _ _ h => h, fun _ h => h⟩
    cases d.find i with
    | none => exact trivial
    | some pte =>
      dsimp only
      split
      · exact trivial
      rw [wp_bind]
      refine wp_mono (mappages_has _ c i _ _ s) (fun r s₁ h₁ => ?_) fun _ _ _ => trivial
      split
      · rw [wp_bind]
        refine wp_mono (wp_eq _ s₁) (fun _ s₂ _ => ?_) fun _ _ _ => trivial
        refine wp_post (ih _ r.1 _ s₂ (Nat.mod_lt _ (by decide))) fun r' _ h₂ => ?_
        exact ⟨fun v e h => h₂.1 v e (cached_writeProtect hi h), fun j h => h₂.2 j (h₁ j h)⟩
      · exact ⟨fun v e h => cached_writeProtect hi h, h₁⟩

/-- The page tables of the pages below `sz`. -/
def userTables (sz : ℕ) : ℕ := (pages sz + 1023) / 1024

omit [Layout] in
/-- A directory with the kernel's page tables and those of `n` pages. -/
theorem numTables_ge {c : Pgdir} {n : ℕ} (hn : n ≤ UPAGES) (hk : ∀ i ∈ kernelTables, c.has i)
    (hc : ∀ w < n, c.has (w / 1024)) : 64 + (n + 1023) / 1024 ≤ c.numTables := by
  rw [UPAGES_eq] at hn
  have hdisj : Disjoint kernelTables (Finset.range ((n + 1023) / 1024)) := by
    refine Finset.disjoint_left.mpr fun i h₁ h₂ => ?_
    rw [mem_kernelTables] at h₁
    rw [Finset.mem_range] at h₂
    omega
  have hcard := Finset.card_union_of_disjoint hdisj
  rw [card_kernelTables, Finset.card_range] at hcard
  rw [← hcard]
  refine Finset.card_le_card fun i hi => ?_
  have hlow : i ∈ Finset.range ((n + 1023) / 1024) → c.has i ∧ i < NPDENTRIES := fun h => by
    rw [Finset.mem_range] at h
    have := hc (i * 1024) (by omega)
    rw [Nat.mul_div_cancel i (by decide)] at this
    exact ⟨this, by rw [NPDENTRIES]; omega⟩
  rcases Finset.mem_union.mp hi with h | h
  · exact Finset.mem_filter.mpr ⟨kernelTables_subset h, Option.isSome_iff_ne_none.mpr (hk i h)⟩
  · exact Finset.mem_filter.mpr ⟨Finset.mem_range.mpr (hlow h).2,
      Option.isSome_iff_ne_none.mpr (hlow h).1⟩

/-- A copy takes frames for its directory and its page tables. Where the frames suffice for the
directory and the kernel's page tables, the first page is protected, and the copy may fail then. -/
theorem copyuvm_frames {d : Pgdir} {sz : ℕ} {r : Ledger ℕ} {s : Phys Kmem} (hsz : sz ≤ KERNBASE)
    (ha : Balanced InRange s.kmem (r + d.holds)) :
    wp (copyuvm d sz) (fun res _ =>
        (∀ c, res.1 = some c → 65 + userTables sz ≤ s.free.length) ∧
        (res.1 = none → 65 ≤ s.free.length → ∃ n, 0 < n ∧ Protected d res.2 n))
      (fun _ _ => True) s := by
  have hpg := pages_le_UPAGES hsz
  have hpg' := hpg
  rw [UPAGES_eq] at hpg'
  unfold copyuvm
  simp only [wp_bind]
  refine wp_mono (setupkvm_spec (κ := Kmem) ha) (fun res s₁ h => ?_) fun _ _ h => h.elim
  cases res with
  | none =>
    obtain ⟨-, -, -, hlen⟩ := h
    exact ⟨fun c hc => (by cases hc), fun _ hle => absurd hle (by omega)⟩
  | some c₀ =>
    obtain ⟨ha₁, -, -, -, hz, hk, hlen, hhas⟩ := h
    have hstart : Sharing r s₁ d c₀ 0 s₁ d c₀ :=
      ⟨ha₁, rfl, rfl, .refl d, fun w hw => absurd hw (Nat.not_lt_zero w),
        ⟨fun w hw => absurd hw (Nat.not_lt_zero w), fun w _ hw => hz w hw, hk⟩, rfl⟩
    have hloop := @copyuvmLoop_spec _ _ _ hsz _ _ _ loopFuel _ _ _ _ (by simp only [loopFuel]; omega)
      (Nat.zero_le _) hstart
    rw [Nat.zero_mul] at hloop
    have hmono := copyuvmLoop_mono sz loopFuel d c₀ 0 s₁ (by decide)
    rw [wp_bind]
    refine wp_mono (wp_and hloop hmono) (fun r' s₂ h₂ => ?_) fun _ _ _ => trivial
    obtain ⟨hend, -, hkeep⟩ := h₂
    have hnum₀ : c₀.numTables = 64 :=
      (Pgdir.numTables_eq _ kernelTables_subset hhas).trans card_kernelTables
    rcases hend with ⟨hok, hS⟩ | ⟨hok, -, -, -, ⟨n, hn, -, hp⟩, -⟩
    · rw [if_pos hok]
      refine ⟨fun c _ => ?_, fun hnone => by cases hnone⟩
      have hnum := numTables_ge hpg (fun i hi => hkeep i ((hhas i).mpr hi)) fun w hw =>
        Pgdir.has_of_P (by rw [hS.child.low w hw, hS.parent.ent, if_pos hw, protect_P]
                           exact hS.present w hw)
      have := hS.len
      rw [userTables]
      omega
    · rw [if_neg (by rw [hok]; exact Bool.false_ne_true), wp_bind]
      exact wp_mono (wp_eq _ s₂) (fun _ _ _ => ⟨fun c hc => (by cases hc), fun _ _ => ⟨n, hn, hp⟩⟩)
        fun _ _ _ => trivial

/-- `copyuvm` makes no translation of the parent go away that the TLB may hold. -/
theorem copyuvm_cached (d : Pgdir) (sz : ℕ) (s : Phys Kmem) :
    wp (copyuvm d sz) (fun res _ => ∀ v e, d.Cached v e → res.2.Cached v e) (fun _ _ => True) s := by
  unfold copyuvm
  rw [wp_bind]
  refine wp_mono (wp_eq _ s) (fun c s₁ _ => ?_) fun _ _ _ => trivial
  cases c with
  | none => exact fun _ _ h => h
  | some c =>
    rw [wp_bind]
    refine wp_mono (copyuvmLoop_mono sz _ d c 0 s₁ (by decide)) (fun r s₂ h₂ => ?_)
      fun _ _ _ => trivial
    split
    · exact h₂.1
    · rw [wp_bind]
      exact wp_mono (wp_eq _ s₂) (fun _ _ _ => h₂.1) fun _ _ _ => trivial

/-- What `copyuvm` does, with the frames it takes and the translations it leaves. -/
structure Copied (d : Pgdir) (sz : ℕ) (r : Ledger ℕ) (s : Phys Kmem) (c : Option Pgdir × Pgdir)
    (s' : Phys Kmem) : Prop where
  effect : CopyEffect d sz r s c s'
  frames : ∀ c₁, c.1 = some c₁ → 65 + userTables sz ≤ s.free.length
  shares : c.1 = none → 65 ≤ s.free.length → ∃ n, 0 < n ∧ Protected d c.2 n
  cached : ∀ v e, d.Cached v e → c.2.Cached v e

end Mono

/-! ## A call that finds no room -/

section NoRoom

variable [Layout] {k k' : Kernel Kmem} {p : ProcPtr}

/-- A process that calls `spawn`, and finds nothing it could write to that others use. -/
structure Calling (k : Kernel Kmem) (p : ProcPtr) : Prop where
  ok : Ok k
  noStale : NoStale k
  running : (k.proc p).state = .RUNNING

theorem Calling.live (h : Calling k p) : k.live p := live_of_running h.running

theorem fork_copied {b : Bool} (h : Ok k) (hl : k.live p) {d : Pgdir} (hd : k.pgdir p = some d) :
    wp (forkWith copyuvm b p) (ForkEffect (Copied d (k.proc p).sz) b 0 k p)
      (fun _ _ => k.nextpid = INT_MAX ∨ ∃ w < pages (k.proc p).sz, (d.ent w).P = false) k := by
  obtain ⟨-, hsz, -⟩ := h.inv.of_live hl hd
  refine wp_mono (@forkWith_spec _ _ _ _ _ _ _ _ _ _ (Copied d (k.proc p).sz)
    (fun _ _ => ∃ w < pages (k.proc p).sz, (d.ent w).P = false) _ h.inv hl hd
    fun r s ha => ?_) (fun _ _ he => he) ?_
  · refine wp_mono (wp_and (copyuvm_spec hsz ha) (wp_and (copyuvm_frames hsz ha)
      (copyuvm_cached d _ s))) (fun c s' hc => ?_) fun _ _ he => he.1.2
    exact ⟨⟨hc.1.1, hc.2.1.1, hc.2.1.2, hc.2.2⟩, hc.1.2⟩
  · rintro e k' ⟨-, ⟨-, hmax⟩ | ⟨_, _, -, habs⟩⟩
    · exact Or.inl hmax
    · exact Or.inr habs

omit [Layout] in
theorem poke_same (k : Kernel Kmem) (f o : ℕ) (b : UInt8) : SameDirs k (k.poke f o b) :=
  ⟨rfl, rfl, rfl, rfl, rfl, rfl, fun _ => rfl, fun _ => rfl, fun _ => .rfl, fun _ h => h⟩

theorem Calling.poke (h : Calling k p) (f o : ℕ) (b : UInt8) : Calling (k.poke f o b) p := by
  have hs := poke_same k f o b
  exact ⟨⟨⟨hs.same.pages h.ok.pages, hs.same.tight h.ok.tight, hs.same.injective h.ok.inj⟩,
    hs.inv h.ok.inv⟩, h.noStale.same hs, h.running⟩

end NoRoom

end OsLabs.Cow
