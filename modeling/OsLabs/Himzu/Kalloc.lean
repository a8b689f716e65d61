import OsLabs.Xv6.Boot

/-!
# The allocator of the other copy-on-write tree

`kalloc.c` of the tree `Himzu`. `freerange`, `kalloc` and `kfree` keep the count of a frame at the
index of its kernel address, `increase_ref` and `get_ref` at the index of its physical address, and
nothing calls `decrease_ref`. What `fork` counts and what `kfree` looks at are different numbers.

* `Kmem.Ok`: the counts at the kernel addresses are 0 for free frames and 1 for the others;
* `kalloc_spec`, `kfree_spec`, `increase_ref_spec`: the operations keep it, and `kfree` always
  frees;
* `freerangeLoop_spec`: it holds after the loop of `freerange`.
-/

namespace OsLabs.Himzu

open Xv6 StateError

/-- The calls of `panic`, a `kfree` of a pointer that has no value, and a loop that does not end. -/
inductive Panic
  /-- `kfree` -/
  | kfree
  /-- `kfree2` -/
  | kfree2
  /-- `kalloc` -/
  | kalloc
  /-- `increase_ref1` -/
  | increase_ref1
  /-- `gajab baat hai: increase_ref2` -/
  | increase_ref2
  /-- `_handle_T_PGFLT_COW 1` -/
  | handle_T_PGFLT_COW
  | uninitialised
  | hang

/-- `struct kmem` and `refs_count`, as a map. -/
structure Kmem where
  freelist : List ℕ := []
  numFreePages : ℤ := 0
  refs_count : ℕ → ℤ := fun _ => 0

/-- Set the count at an index. -/
def Kmem.setRef (k : Kmem) (i : ℕ) (n : ℤ) : Kmem :=
  { k with refs_count := Function.update k.refs_count i n }

@[simp] theorem Kmem.setRef_self (k : Kmem) (i : ℕ) (n : ℤ) :
    (k.setRef i n).refs_count i = n := Function.update_self ..

theorem Kmem.setRef_ne (k : Kmem) {i j : ℕ} (n : ℤ) (h : j ≠ i) :
    (k.setRef i n).refs_count j = k.refs_count j := Function.update_of_ne h ..

/-- What runs on physical memory. -/
abbrev M := EStateM Panic (Phys Kmem)

/-- `(uint)v/PGSIZE` for the kernel address `v` of frame `f`. -/
def index (f : ℕ) : ℕ := P2V (f * PGSIZE) / PGSIZE

/-- The kernel addresses are beyond all physical addresses. -/
theorem index_eq (f : ℕ) : index f = f + UPAGES := by
  rw [index, P2V, UPAGES_eq, PGSIZE, KERNBASE_eq]
  omega

theorem index_inj {f g : ℕ} : index f = index g ↔ f = g := by
  rw [index_eq, index_eq]
  omega

theorem ne_index {f i : ℕ} (h : i < UPAGES) : i ≠ index f := by
  rw [index_eq]
  omega

section Code

variable [L : Layout]

def kfree (f : ℕ) : M Unit := do
  if P2V (f * PGSIZE) < L.end_ ∨ PHYSTOP ≤ f * PGSIZE then throw .kfree
  else do
    let s ← get
    let n := s.kmem.refs_count (index f)
    if n ≤ 1 then
      if n = 0 then throw .kfree2
      else set { s.fill f junkPage with
        kmem := { s.kmem.setRef (index f) 0 with
          freelist := f :: s.kmem.freelist, numFreePages := s.kmem.numFreePages + 1 } }
    else set { s with kmem := s.kmem.setRef (index f) (n - 1) }

/-- The loop of `freerange` from the address `p` on. -/
def freerangeLoop (vend : ℕ) : ℕ → ℕ → M Unit
  | 0, _ => throw .hang
  | fuel + 1, p =>
    if p + PGSIZE ≤ vend then do
      modify fun s => { s with kmem := s.kmem.setRef (p / PGSIZE) 1 }
      kfree (V2P p / PGSIZE)
      freerangeLoop vend fuel (p + PGSIZE)
    else return ()

@[irreducible] def freerange (vstart vend : ℕ) : M Unit :=
  freerangeLoop vend loopFuel (PGROUNDUP vstart)

/-- The first phase of the initialisation. -/
def kinit1 (vstart vend : ℕ) : M Unit := do
  modify fun s => { s with kmem := { s.kmem with numFreePages := 0 } }
  freerange vstart vend

/-- The second phase. -/
def kinit2 (vstart vend : ℕ) : M Unit := freerange vstart vend

def kalloc : M (Option ℕ) := do
  let s ← get
  match s.kmem.freelist with
  | [] => do
    set { s with oom := true }
    return none
  | r :: next =>
    if s.kmem.refs_count (index r) = 0 then do
      set { s with
        kmem := { s.kmem.setRef (index r) 1 with
          freelist := next, numFreePages := s.kmem.numFreePages - 1 } }
      return some r
    else throw .kalloc

/-- The count is an `int`. -/
def increase_ref (pa : ℕ) : M Unit := do
  if PHYSTOP < pa then throw .increase_ref1
  else do
    let s ← get
    let n := s.kmem.refs_count (pa / PGSIZE)
    if n < 0 then throw .increase_ref2
    else do
      let n := if n = 0 then 1 else n
      set { s with kmem := s.kmem.setRef (pa / PGSIZE) (Int.bmod (n + 1) (2 ^ 32)) }

def get_ref (pa : ℕ) : M ℤ := do
  return (← get).kmem.refs_count (pa / PGSIZE)

end Code

/-! ## What the operations keep -/

/-- The counts at the physical addresses are as they were. -/
def SameShares (s t : Phys Kmem) : Prop :=
  ∀ i < UPAGES, t.kmem.refs_count i = s.kmem.refs_count i

theorem SameShares.refl (s : Phys Kmem) : SameShares s s := fun _ _ => rfl

theorem SameShares.trans {s t u : Phys Kmem} (h : SameShares s t) (h' : SameShares t u) :
    SameShares s u := fun i hi => (h' i hi).trans (h i hi)

theorem SameShares.setRef {s t : Phys Kmem} {f : ℕ} {n : ℤ}
    (h : t.kmem.refs_count = (s.kmem.setRef (index f) n).refs_count) : SameShares s t :=
  fun i hi => by rw [h, Kmem.setRef_ne _ _ (ne_index hi)]

/-- The free list holds frames of `dom`, each once, and the counts at the kernel addresses say which
are free. Nobody shares frame 0. -/
structure Kmem.Ok (dom : ℕ → Prop) (k : Kmem) : Prop where
  nodup : k.freelist.Nodup
  sub : ∀ f ∈ k.freelist, dom f
  zero : ∀ f ∈ k.freelist, k.refs_count (index f) = 0
  one : ∀ f, dom f → f ∉ k.freelist → k.refs_count (index f) = 1
  null : k.refs_count 0 = 0

section Specs

variable {dom : ℕ → Prop} {s : Phys Kmem} {f pa : ℕ}

theorem UPAGES_pos : 0 < UPAGES := by
  rw [UPAGES_eq]
  decide

theorem kalloc_spec (h : Kmem.Ok dom s.kmem) :
    wp kalloc (fun r t => Kmem.Ok dom t.kmem ∧ SameShares s t ∧ match r with
      | none => s.kmem.freelist = [] ∧ t.kmem = s.kmem
      | some f => s.kmem.freelist = f :: t.kmem.freelist) (fun _ _ => False) s := by
  unfold kalloc
  simp only [wp_bind, wp_get]
  cases hfl : s.kmem.freelist with
  | nil =>
    simp only [wp_bind, wp_set, wp_pure]
    exact ⟨h, SameShares.refl _, trivial, trivial⟩
  | cons r next =>
    have hmem : r ∈ s.kmem.freelist := by
      rw [hfl]
      exact List.mem_cons_self
    have hzero : s.kmem.refs_count (index r) = 0 := h.zero r hmem
    have hnd := h.nodup
    rw [hfl, List.nodup_cons] at hnd
    have hnext : ∀ g ∈ next, g ∈ s.kmem.freelist ∧ g ≠ r := fun g hg =>
      ⟨by rw [hfl]; exact List.mem_cons_of_mem r hg, fun e => hnd.1 (e ▸ hg)⟩
    simp only [wp_ite, wp_bind, wp_set, wp_pure, wp_throw]
    refine ⟨fun _ => ⟨⟨hnd.2, fun g hg => h.sub g (hnext g hg).1, fun g hg => ?_,
      fun g hg hno => ?_, ?_⟩, SameShares.setRef rfl, trivial⟩, fun hne => hne hzero⟩
    · dsimp only
      rw [Kmem.setRef_ne _ _ (mt index_inj.mp (hnext g hg).2), h.zero g (hnext g hg).1]
    · dsimp only
      rcases eq_or_ne g r with rfl | hne
      · rw [Kmem.setRef_self]
      · rw [Kmem.setRef_ne _ _ (mt index_inj.mp hne), h.one g hg]
        rw [hfl, List.mem_cons]
        exact not_or.mpr ⟨hne, hno⟩
    · dsimp only
      rw [Kmem.setRef_ne _ _ (ne_index UPAGES_pos), h.null]

/-- The count that `kfree` looks at is 1: a frame that is not free becomes free, whoever shares
it. -/
theorem kfree_spec [Layout] (h : Kmem.Ok dom s.kmem) (hf : dom f) (hin : InRange f)
    (hused : f ∉ s.kmem.freelist) :
    wp (kfree f) (fun _ t => Kmem.Ok dom t.kmem ∧ SameShares s t ∧
      t.kmem.freelist = f :: s.kmem.freelist) (fun _ _ => False) s := by
  have hrange : ¬(P2V (f * PGSIZE) < Layout.end_ ∨ PHYSTOP ≤ f * PGSIZE) :=
    fun hbad => not_inRange.mpr hbad hin
  unfold kfree
  rw [if_neg hrange]
  simp only [wp_bind, wp_get, h.one f hf hused]
  rw [if_pos (le_refl 1), if_neg one_ne_zero, wp_set]
  refine ⟨⟨List.nodup_cons.mpr ⟨hused, h.nodup⟩, fun g hg => ?_, fun g hg => ?_, fun g hg hno => ?_,
    ?_⟩, SameShares.setRef rfl, rfl⟩
  · rcases List.mem_cons.mp hg with rfl | hg
    · exact hf
    · exact h.sub g hg
  · dsimp only
    rcases List.mem_cons.mp hg with rfl | hg
    · rw [Kmem.setRef_self]
    · have hne : g ≠ f := fun e => hused (e ▸ hg)
      rw [Kmem.setRef_ne _ _ (mt index_inj.mp hne), h.zero g hg]
  · have hne : g ≠ f := fun e => hno (e ▸ List.mem_cons_self)
    dsimp only
    rw [Kmem.setRef_ne _ _ (mt index_inj.mp hne), h.one g hg]
    exact fun hm => hno (List.mem_cons_of_mem f hm)
  · dsimp only
    rw [Kmem.setRef_ne _ _ (ne_index UPAGES_pos), h.null]

/-- The counts at physical addresses are not those of the allocator. -/
theorem increase_ref_spec (h : Kmem.Ok dom s.kmem) (h0 : pa / PGSIZE ≠ 0) :
    wp (increase_ref pa) (fun _ t => Kmem.Ok dom t.kmem ∧ t.kmem.freelist = s.kmem.freelist)
      (fun _ _ => PHYSTOP < pa ∨ s.kmem.refs_count (pa / PGSIZE) < 0) s := by
  unfold increase_ref
  simp only [wp_ite, wp_throw, wp_bind, wp_get, wp_set]
  refine ⟨Or.inl, fun hpa => ⟨Or.inr, fun _ => ?_⟩⟩
  have hne : ∀ g, index g ≠ pa / PGSIZE := by
    intro g
    rw [index_eq, UPAGES_eq, PGSIZE]
    rw [PHYSTOP] at hpa
    omega
  refine ⟨⟨h.nodup, h.sub, fun g hg => ?_, fun g hg hno => ?_, ?_⟩, rfl⟩
  · exact (Kmem.setRef_ne _ _ (hne g)).trans (h.zero g hg)
  · exact (Kmem.setRef_ne _ _ (hne g)).trans (h.one g hg hno)
  · exact (Kmem.setRef_ne _ _ h0.symm).trans h.null

theorem get_ref_eq : get_ref pa s = .ok (s.kmem.refs_count (pa / PGSIZE)) s := rfl

end Specs

/-! ## The initialisation -/

section Freerange

variable [Layout] {s : Phys Kmem}

/-- `freerange` makes its frame known and frees it. -/
theorem Kmem.Ok.seed {m : ℕ} (h : Kmem.Ok (Below m) s.kmem) (hin : InRange m) :
    Kmem.Ok (Below (m + 1)) (s.kmem.setRef (index m) 1) ∧ m ∉ s.kmem.freelist := by
  have hnot : m ∉ s.kmem.freelist := fun hm => Nat.lt_irrefl m (h.sub m hm).2
  refine ⟨⟨h.nodup, fun f hf => ?_, fun f hf => ?_, fun f hf hno => ?_, ?_⟩, hnot⟩
  · exact ⟨(h.sub f hf).1, Nat.lt_succ_of_lt (h.sub f hf).2⟩
  · have hne : f ≠ m := fun e => hnot (e ▸ hf)
    rw [Kmem.setRef_ne _ _ (mt index_inj.mp hne), h.zero f hf]
  · rcases eq_or_ne f m with rfl | hne
    · exact Kmem.setRef_self ..
    · rw [Kmem.setRef_ne _ _ (mt index_inj.mp hne)]
      exact h.one f ⟨hf.1, lt_of_le_of_ne (Nat.le_of_lt_succ hf.2) hne⟩ hno
  · rw [Kmem.setRef_ne _ _ (ne_index UPAGES_pos), h.null]

theorem freerangeLoop_spec {M : ℕ} (hM : M ≤ NFRAMES) :
    ∀ {fuel m : ℕ} {s : Phys Kmem}, M - m < fuel → m ≤ M → firstFrame ≤ m →
    Kmem.Ok (Below m) s.kmem →
    wp (freerangeLoop (frameAddr M) fuel (frameAddr m)) (fun _ t =>
      Kmem.Ok (Below M) t.kmem ∧ SameShares s t ∧
      ∀ f, f ∈ t.kmem.freelist ↔ f ∈ s.kmem.freelist ∨ m ≤ f ∧ f < M) (fun _ _ => False) s := by
  intro fuel
  induction fuel with
  | zero => intro m s h; exact absurd h (Nat.not_lt_zero _)
  | succ fuel ih =>
    intro m s hfuel hm h0 hok
    unfold freerangeLoop
    rcases Nat.lt_or_eq_of_le hm with hlt | rfl
    · rw [if_pos (by simp only [PGSIZE, frameAddr, P2V]; omega)]
      have hv2p : V2P (frameAddr m) / PGSIZE = m := by
        rw [NFRAMES_eq] at hM
        simp only [V2P, frameAddr, P2V, uint, KERNBASE, PGSIZE]
        omega
      have hnext : frameAddr m + PGSIZE = frameAddr (m + 1) := by
        simp only [frameAddr, P2V, PGSIZE]
        omega
      have hindex : frameAddr m / PGSIZE = index m := by rw [frameAddr, index]
      have hin : InRange m := inRange_iff.mpr ⟨h0, by omega⟩
      obtain ⟨hseed, hnot⟩ := hok.seed hin
      rw [hv2p, hnext, hindex, wp_bind, wp_modify, wp_bind]
      refine wp_mono (kfree_spec hseed ⟨hin, Nat.lt_succ_self m⟩ hin hnot) (fun _ t ht => ?_)
        fun _ _ he => he
      obtain ⟨hok₁, hshare, hfree⟩ := ht
      have hshare₁ : SameShares s t := (SameShares.setRef rfl).trans hshare
      refine wp_post (ih (by omega) (by omega) (by omega) hok₁) fun _ u hu => ?_
      refine ⟨hu.1, hshare₁.trans hu.2.1, fun f => ?_⟩
      rw [hu.2.2, hfree, List.mem_cons]
      change (f = m ∨ f ∈ s.kmem.freelist) ∨ _ ↔ _
      constructor
      · rintro ((rfl | hf) | hf)
        · exact Or.inr ⟨le_refl f, hlt⟩
        · exact Or.inl hf
        · exact Or.inr ⟨by omega, hf.2⟩
      · rintro (hf | hf)
        · exact Or.inl (Or.inr hf)
        · rcases eq_or_ne f m with rfl | hne
          · exact Or.inl (Or.inl rfl)
          · exact Or.inr ⟨by omega, hf.2⟩
    · rw [if_neg (by simp only [PGSIZE, frameAddr, P2V]; omega)]
      exact ⟨hok, SameShares.refl s, fun f => ⟨Or.inl, fun hf => hf.resolve_right (by omega)⟩⟩

/-- `freerange` of the pages from `m` up to `M`. -/
theorem freerange_spec {m M vstart vend : ℕ} (hM : M ≤ NFRAMES) (hm : m ≤ M) (h0 : firstFrame ≤ m)
    (hv : PGROUNDUP vstart = frameAddr m) (hvend : vend = frameAddr M)
    (hok : Kmem.Ok (Below m) s.kmem) :
    wp (freerange vstart vend) (fun _ t => Kmem.Ok (Below M) t.kmem ∧ SameShares s t ∧
      ∀ f, f ∈ t.kmem.freelist ↔ f ∈ s.kmem.freelist ∨ m ≤ f ∧ f < M) (fun _ _ => False) s := by
  unfold freerange
  rw [hv, hvend]
  refine freerangeLoop_spec hM ?_ hm h0 hok
  rw [NFRAMES_eq] at hM
  simp only [loopFuel]
  omega

end Freerange

end OsLabs.Himzu
