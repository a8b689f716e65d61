import OsLabs.Xv6.Boot
import OsLabs.Cow.Kalloc

/-!
# The second allocator of the copy-on-write tree

`correct_kalloc.c` does the work of `kalloc.c` with unsigned counts, a counter of the free pages
next to the free list, and range checks where the counts are changed. It overwrites the count of a
page it allocates, where `kalloc.c` panics if the count is not 0.

`Agree` relates the two: the same free list, the same counts, and a counter that is the length of
the list. `allocators_agree`: whatever sequence of calls `kalloc.c` survives, without a page freed
twice and without a count below zero, `correct_kalloc.c` survives too, with the same results.
-/

namespace OsLabs.Cow.CorrectKalloc

open Xv6 StateError Ledger

/-- `struct kmem` of `correct_kalloc.c`; `uint`s are numbers modulo `2 ^ 32`. -/
structure Kmem where
  freelist : List ℕ := []
  num_free_pages : ℕ := 0
  page_refC : ℕ → ℕ := fun _ => 0

/-- Set the count of frame `f`. -/
def setRef (k : Kmem) (f n : ℕ) : Kmem := { k with page_refC := Function.update k.page_refC f n }

section Code

variable [L : Layout]

/-- Drop a reference to the frame, and put it on the free list when none is left. -/
def kfree (f : ℕ) : EStateM Panic (Phys Kmem) Unit := do
  if f * PGSIZE + KERNBASE < L.end_ ∨ PHYSTOP ≤ f * PGSIZE then throw .kfree
  else do
    let s ← get
    let n := s.kmem.page_refC f
    let n := if n > 0 then uint (n + 2 ^ 32 - 1) else n
    let k := setRef s.kmem f n
    if n = 0 then
      set { s.fill f junkPage with kmem := { k with
        num_free_pages := uint (k.num_free_pages + 1)
        freelist := f :: k.freelist } }
    else set { s with kmem := k }

/-- Pop the first free frame; its count is 1, whatever it was. -/
def kalloc : EStateM Panic (Phys Kmem) (Option ℕ) := do
  let s ← get
  match s.kmem.freelist with
  | [] => do
    set { s with oom := true }
    return none
  | r :: next => do
    set { s with kmem := { setRef s.kmem r 1 with
      freelist := next
      num_free_pages := uint (s.kmem.num_free_pages + 2 ^ 32 - 1) } }
    return some r

def increment_refC (pa : ℕ) : EStateM Panic (Phys Kmem) Unit := do
  if pa ≥ PHYSTOP ∨ pa < V2P L.end_ then throw .incrementReferenceCount
  else modify fun s => { s with
    kmem := setRef s.kmem (pa / PGSIZE) (uint (s.kmem.page_refC (pa / PGSIZE) + 1)) }

def decrement_refC (pa : ℕ) : EStateM Panic (Phys Kmem) Unit := do
  if pa ≥ PHYSTOP ∨ pa < V2P L.end_ then throw .decrementReferenceCount
  else modify fun s => { s with
    kmem := setRef s.kmem (pa / PGSIZE) (uint (s.kmem.page_refC (pa / PGSIZE) + 2 ^ 32 - 1)) }

def num_of_FreePages (k : Kmem) : ℕ := k.num_free_pages

def get_count_of_free_pages_right_now (k : Kmem) : ℕ := k.freelist.length

/-- The loop of `freerange` from the address `p` on: the count of a page is cleared before the page
is freed. -/
def freerangeLoop (vend : ℕ) : ℕ → ℕ → EStateM Panic (Phys Kmem) Unit
  | 0, _ => throw .hang
  | fuel + 1, p =>
    if p + PGSIZE ≤ vend then do
      modify fun s => { s with kmem := setRef s.kmem (V2P p / PGSIZE) 0 }
      kfree (V2P p / PGSIZE)
      freerangeLoop vend fuel (p + PGSIZE)
    else return ()

def freerange (vstart vend : ℕ) : EStateM Panic (Phys Kmem) Unit :=
  freerangeLoop vend loopFuel (PGROUNDUP vstart)

/-- The first phase of the initialisation. -/
def kinit1 (vstart vend : ℕ) : EStateM Panic (Phys Kmem) Unit := do
  modify fun s => { s with kmem := { s.kmem with num_free_pages := 0 } }
  freerange vstart vend

/-- The second phase. -/
def kinit2 (vstart vend : ℕ) : EStateM Panic (Phys Kmem) Unit := freerange vstart vend

end Code

/-! ## Sequences of calls -/

/-- The calls to an allocator. -/
inductive Call
  | kalloc
  | kfree (f : ℕ)
  | increment (pa : ℕ)
  | decrement (pa : ℕ)

section Calls

variable [L : Layout]

/-- A call to `kalloc.c`, with the page it returns. -/
def Call.run : Call → EStateM Panic (Phys Cow.Kmem) (Option ℕ)
  | .kalloc => Cow.kalloc
  | .kfree f => do
    Cow.kfree f
    return none
  | .increment pa => do
    increase_refcount (pa / PGSIZE)
    return none
  | .decrement pa => do
    decrease_refcount (pa / PGSIZE)
    return none

/-- The same call to `correct_kalloc.c`. -/
def Call.correct : Call → EStateM Panic (Phys Kmem) (Option ℕ)
  | .kalloc => CorrectKalloc.kalloc
  | .kfree f => do
    CorrectKalloc.kfree f
    return none
  | .increment pa => do
    increment_refC pa
    return none
  | .decrement pa => do
    decrement_refC pa
    return none

/-- The calls of a sequence to `correct_kalloc.c`, with the pages they return. -/
def runCorrect : List Call → EStateM Panic (Phys Kmem) (List (Option ℕ))
  | [] => return []
  | c :: cs => do
    let r ← c.correct
    let rs ← runCorrect cs
    return r :: rs

/-- No page is freed that is free, and counts are changed for frames of the allocator only. -/
def Call.Proper (s : Phys Cow.Kmem) : Call → Prop
  | .kalloc => True
  | .kfree f => f ∉ s.kmem.freelist
  | .increment pa => V2P L.end_ ≤ pa ∧ pa < PHYSTOP
  | .decrement pa => V2P L.end_ ≤ pa ∧ pa < PHYSTOP

/-- No count is below zero, read as the `int` it is. -/
def NonNegative (s : Phys Cow.Kmem) : Prop :=
  ∀ f, 0 ≤ Int.bmod (s.kmem.refcount_list f) (2 ^ 32)

/-- `calls` run on `kalloc.c` from `s` to `s'` with the results `rs`, without a panic, and no count
is taken below zero. -/
inductive Run : Phys Cow.Kmem → List Call → List (Option ℕ) → Phys Cow.Kmem → Prop
  | nil {s : Phys Cow.Kmem} : Run s [] [] s
  | cons {s s₁ s' : Phys Cow.Kmem} {c : Call} {cs : List Call} {r : Option ℕ}
      {rs : List (Option ℕ)} (hc : c.Proper s) (hs : c.run s = .ok r s₁) (hn : NonNegative s₁)
      (h : Run s₁ cs rs s') : Run s (c :: cs) (r :: rs) s'

/-- What `kfree` of `kalloc.c` does to frame `f` when it returns. -/
def Freed (s : Phys Cow.Kmem) (f : ℕ) (s' : Phys Cow.Kmem) : Prop :=
  InRange f ∧
    (s.kmem.refcount_list f ≤ 1 ∧ s' = { s.fill f junkPage with
        kmem := { s.kmem.setRef f 0 with freelist := f :: s.kmem.freelist } } ∨
      1 < s.kmem.refcount_list f ∧
        s' = { s with kmem := s.kmem.setRef f (s.kmem.refcount_list f - 1) })

theorem kfree_freed {s : Phys Cow.Kmem} {f : ℕ} :
    wp (Cow.kfree f) (fun _ s' => Freed s f s') (fun _ _ => True) s := by
  unfold Cow.kfree
  simp only [wp_ite, wp_throw, wp_bind, wp_get, wp_set]
  refine ⟨fun _ => trivial, fun hin => ⟨fun _ => trivial, fun hneg => ?_⟩⟩
  have hr : InRange f := ⟨by omega, by omega⟩
  generalize hn : (if s.kmem.refcount_list f > 0 then s.kmem.refcount_list f - 1
    else s.kmem.refcount_list f) = n
  refine ⟨fun h0 => ⟨hr, Or.inl ⟨?_, ?_⟩⟩, fun h0 => ⟨hr, Or.inr ⟨?_, ?_⟩⟩⟩
  · split at hn <;> omega
  · rw [h0]
    rfl
  · split at hn <;> omega
  · rw [← hn, if_pos (by split at hn <;> omega)]

omit L in
/-- What `kalloc` of `kalloc.c` does when it returns. -/
theorem kalloc_taken {s : Phys Cow.Kmem} :
    wp Cow.kalloc (fun r s' => match s.kmem.freelist with
      | [] => r = none ∧ s' = { s with oom := true }
      | f :: next => r = some f ∧
          s' = { s with kmem := { s.kmem.setRef f 1 with freelist := next } })
      (fun _ _ => True) s := by
  unfold Cow.kalloc
  simp only [wp_bind, wp_get]
  cases s.kmem.freelist with
  | nil => simp only [wp_bind, wp_set, wp_pure, and_self]
  | cons f next =>
    simp only [wp_ite, wp_throw, wp_bind, wp_set, wp_pure, and_self, implies_true]

/-! ## The relation between the two -/

/-- The two allocators are in step. -/
structure Agree (s : Phys Cow.Kmem) (t : Phys Kmem) : Prop where
  freelist : t.kmem.freelist = s.kmem.freelist
  count : ∀ f, s.kmem.refcount_list f = t.kmem.page_refC f
  small : ∀ f, t.kmem.page_refC f < 2 ^ 31
  nodup : s.kmem.freelist.Nodup
  range : ∀ f ∈ s.kmem.freelist, f < NFRAMES
  num : t.kmem.num_free_pages = s.kmem.freelist.length
  mem : t.mem = s.mem

namespace Agree

variable {s s' : Phys Cow.Kmem} {t : Phys Kmem} {f : ℕ}

omit L in
/-- The free list is shorter than a `uint` can count. -/
theorem length_le (h : Agree s t) : s.kmem.freelist.length ≤ NFRAMES := by
  have hsub : s.kmem.freelist.toFinset ⊆ Finset.range NFRAMES := fun f hf =>
    Finset.mem_range.mpr (h.range f (List.mem_toFinset.mp hf))
  have hcard := Finset.card_le_card hsub
  rwa [List.toFinset_card_of_nodup h.nodup, Finset.card_range] at hcard

omit L in
/-- A count that is not below zero as an `int`, next to one that fits, fits. -/
theorem fits {x : ℤ} (h : 0 ≤ Int.bmod x (2 ^ 32)) (hl : -1 ≤ x) (hu : x ≤ 2 ^ 31) :
    0 ≤ x ∧ x < 2 ^ 31 := by
  rw [Int.bmod_def] at h
  split at h <;> omega

omit L in
/-- Both allocators set the count of `f` to `n`. -/
theorem setCount (h : Agree s t) {m : ℤ} {n : ℕ} (hm : m = n) (hn : n < 2 ^ 31) :
    Agree { s with kmem := s.kmem.setRef f m } { t with kmem := setRef t.kmem f n } := by
  subst hm
  refine { h with count := fun g => ?_, small := fun g => ?_ }
  · change (s.kmem.setRef f n).refcount_list g = (Function.update t.kmem.page_refC f n g : ℕ)
    rw [Kmem.setRef_apply, Function.update_apply]
    split
    · rfl
    · exact h.count g
  · change Function.update t.kmem.page_refC f n g < 2 ^ 31
    rw [Function.update_apply]
    split
    · exact hn
    · exact h.small g

/-- Both allocators put `f` on the free list. -/
theorem push (h : Agree s t) (hf : f ∉ s.kmem.freelist) (hin : InRange f) :
    Agree { s.fill f junkPage with kmem := { s.kmem with freelist := f :: s.kmem.freelist } }
      { t.fill f junkPage with kmem := { t.kmem with
        num_free_pages := uint (t.kmem.num_free_pages + 1)
        freelist := f :: t.kmem.freelist } } := by
  have hlen := h.length_le
  refine ⟨?_, h.count, h.small, List.nodup_cons.mpr ⟨hf, h.nodup⟩, ?_, ?_, ?_⟩
  · exact congrArg (f :: ·) h.freelist
  · intro g hg
    rcases List.mem_cons.mp hg with rfl | hg
    · exact (inRange_iff.mp hin).2
    · exact h.range g hg
  · change uint (t.kmem.num_free_pages + 1) = (f :: s.kmem.freelist).length
    rw [NFRAMES_eq] at hlen
    rw [h.num, List.length_cons, uint]
    omega
  · change Function.update t.mem f junkPage = Function.update s.mem f junkPage
    rw [h.mem]

/-- `kfree`: the same page freed, or the same count dropped. -/
theorem kfree_step (h : Agree s t) (hf : f ∉ s.kmem.freelist) (hs : Freed s f s') :
    ∃ t', CorrectKalloc.kfree f t = .ok () t' ∧ Agree s' t' := by
  obtain ⟨hin, hs⟩ := hs
  have hcnt := h.count f
  have hsm := h.small f
  have hguard : ¬(f * PGSIZE + KERNBASE < L.end_ ∨ PHYSTOP ≤ f * PGSIZE) := fun hbad => by
    have h₁ := hin.1
    have h₂ := hin.2
    omega
  refine ok_of_wp ?_
  unfold CorrectKalloc.kfree
  simp only [wp_ite, wp_throw, wp_bind, wp_get, wp_set]
  refine ⟨fun hbad => hguard hbad, fun _ => ?_⟩
  rcases hs with ⟨h1, rfl⟩ | ⟨h1, rfl⟩
  · have hn : (if t.kmem.page_refC f > 0 then uint (t.kmem.page_refC f + 2 ^ 32 - 1)
        else t.kmem.page_refC f) = 0 := by
      rw [uint]
      split <;> omega
    rw [hn]
    have hzero := h.setCount (f := f) (m := 0) (n := 0) rfl (by omega)
    exact ⟨fun _ => ⟨trivial, hzero.push hf hin⟩, fun h0 => absurd rfl h0⟩
  · have hn : (if t.kmem.page_refC f > 0 then uint (t.kmem.page_refC f + 2 ^ 32 - 1)
        else t.kmem.page_refC f) = t.kmem.page_refC f - 1 := by
      rw [uint, if_pos (by omega)]
      omega
    rw [hn]
    exact ⟨fun h0 => by omega, fun _ => ⟨trivial, h.setCount (by omega) (by omega)⟩⟩

omit L in
/-- `kalloc`: the same page. -/
theorem kalloc_step {r : Option ℕ} (h : Agree s t) (hs : Cow.kalloc s = .ok r s') :
    ∃ t', CorrectKalloc.kalloc t = .ok r t' ∧ Agree s' t' := by
  have hlen := h.length_le
  have hnum := h.num
  rw [NFRAMES_eq] at hlen
  have hrun := of_ok kalloc_taken hs
  refine ok_of_wp ?_
  unfold CorrectKalloc.kalloc
  simp only [wp_bind, wp_get, h.freelist]
  cases hfl : s.kmem.freelist with
  | nil =>
    rw [hfl] at hrun
    obtain ⟨rfl, rfl⟩ := hrun
    simp only [wp_bind, wp_set, wp_pure]
    exact ⟨trivial, { h with }⟩
  | cons f next =>
    rw [hfl] at hrun
    obtain ⟨rfl, rfl⟩ := hrun
    have hset := h.setCount (f := f) (m := 1) (n := 1) rfl (by omega)
    rw [hfl] at hnum hlen
    simp only [wp_bind, wp_set, wp_pure]
    refine ⟨trivial, { hset with freelist := rfl, nodup := ?_, range := ?_, num := ?_ }⟩
    · exact (List.nodup_cons.mp (hfl ▸ h.nodup)).2
    · exact fun g hg => h.range g (hfl ▸ List.mem_cons_of_mem f hg)
    · change uint (t.kmem.num_free_pages + 2 ^ 32 - 1) = next.length
      rw [hnum, List.length_cons] at *
      rw [uint]
      omega

omit L in
/-- Both allocators change the count of `f` by one, and it does not go below zero. -/
theorem count_step (h : Agree s t) {m : ℤ} {n : ℕ} (hm : m = s.kmem.refcount_list f + 1 ∧
      n = uint (t.kmem.page_refC f + 1) ∨ m = s.kmem.refcount_list f - 1 ∧
      n = uint (t.kmem.page_refC f + 2 ^ 32 - 1))
    (hn : NonNegative { s with kmem := s.kmem.setRef f m }) :
    Agree { s with kmem := s.kmem.setRef f m } { t with kmem := setRef t.kmem f n } := by
  have hcnt := h.count f
  have hsm := h.small f
  have hf : 0 ≤ Int.bmod m (2 ^ 32) := by
    have := hn f
    rwa [Kmem.setRef_apply, if_pos rfl] at this
  obtain ⟨h0, h1⟩ := fits hf (by omega) (by omega)
  simp only [uint] at hm
  exact h.setCount (by omega) (by omega)

/-- Any call: the same result, and the two stay in step. -/
theorem step {c : Call} {r : Option ℕ} (h : Agree s t) (hc : c.Proper s) (hs : c.run s = .ok r s')
    (hn : NonNegative s') : ∃ t', c.correct t = .ok r t' ∧ Agree s' t' := by
  refine ok_of_wp ?_
  cases c with
  | kalloc =>
    obtain ⟨t', ht, hag⟩ := h.kalloc_step hs
    exact wp_of_eq ht ⟨rfl, hag⟩
  | kfree f =>
    have hrun : wp (Call.kfree f).run (fun r' s' => r' = none ∧ Freed s f s')
        (fun _ _ => True) s := by
      unfold Call.run
      simp only [wp_bind, wp_pure, true_and]
      exact kfree_freed
    obtain ⟨rfl, hf⟩ := of_ok hrun hs
    obtain ⟨t', ht, hag⟩ := h.kfree_step hc hf
    unfold Call.correct
    simp only [wp_bind, wp_pure]
    exact wp_of_eq ht ⟨trivial, hag⟩
  | increment pa =>
    obtain ⟨rfl, rfl⟩ := EStateM.Result.ok.inj hs
    have hpa : ¬(pa ≥ PHYSTOP ∨ pa < V2P L.end_) := fun hbad => by
      have h₁ := hc.1
      have h₂ := hc.2
      omega
    unfold Call.correct increment_refC
    simp only [wp_bind, wp_ite, wp_throw, wp_modify, wp_pure]
    exact ⟨fun hbad => hpa hbad, fun _ => ⟨trivial, h.count_step (Or.inl ⟨rfl, rfl⟩) hn⟩⟩
  | decrement pa =>
    obtain ⟨rfl, rfl⟩ := EStateM.Result.ok.inj hs
    have hpa : ¬(pa ≥ PHYSTOP ∨ pa < V2P L.end_) := fun hbad => by
      have h₁ := hc.1
      have h₂ := hc.2
      omega
    unfold Call.correct decrement_refC
    simp only [wp_bind, wp_ite, wp_throw, wp_modify, wp_pure]
    exact ⟨fun hbad => hpa hbad, fun _ => ⟨trivial, h.count_step (Or.inr ⟨rfl, rfl⟩) hn⟩⟩

/-- Any sequence of calls: the same results, and the two stay in step. -/
theorem run {cs : List Call} {rs : List (Option ℕ)} (h : Agree s t) (hr : Run s cs rs s') :
    ∃ t', runCorrect cs t = .ok rs t' ∧ Agree s' t' := by
  induction hr generalizing t with
  | nil => exact ⟨t, rfl, h⟩
  | cons hc hs hn _ ih =>
    obtain ⟨t₁, ht₁, h₁⟩ := h.step hc hs hn
    obtain ⟨t', ht', h'⟩ := ih h₁
    exact ⟨t', (ok_bind ht₁).trans ((ok_bind ht').trans rfl), h'⟩

end Agree

/-! ## The initialisation -/

section Kinit

variable {s s' : Phys Cow.Kmem} {t : Phys Kmem}

/-- The pages of `[p, vend)`, by frame. -/
def Within (p vend f : ℕ) : Prop := p ≤ P2V (f * PGSIZE) ∧ P2V (f * PGSIZE) + PGSIZE ≤ vend

/-- The loop of `freerange` on frames that are not on the free list, while no count is set. -/
theorem freerangeLoop_agree {vend : ℕ} : ∀ {fuel p : ℕ} {s : Phys Cow.Kmem} {t : Phys Kmem},
    p % PGSIZE = 0 → p < 2 ^ 32 → Agree s t → (∀ f, s.kmem.refcount_list f = 0) →
    (∀ f ∈ s.kmem.freelist, ¬Within p vend f) →
    Xv6.freerangeLoop vend fuel p s = .ok () s' →
    ∃ t', freerangeLoop vend fuel p t = .ok () t' ∧ Agree s' t' ∧
      (∀ f, s'.kmem.refcount_list f = 0) ∧
      ∀ f ∈ s'.kmem.freelist, f ∈ s.kmem.freelist ∨ Within p vend f := by
  intro fuel
  induction fuel with
  | zero => 
    intro p s t _ _ _ _ _ hs
    exact nomatch hs
  | succ fuel ih =>
    intro p s t hp hlt h h0 hfree hs
    unfold Xv6.freerangeLoop at hs
    unfold freerangeLoop
    by_cases hle : p + PGSIZE ≤ vend
    · rw [if_pos hle] at hs ⊢
      obtain ⟨_, s₁, hs₁, hs₂⟩ := bind_ok hs
      have hfreed := of_ok kfree_freed hs₁
      have hf : V2P p / PGSIZE * PGSIZE + KERNBASE = p := by
        have hin := hfreed.1.2
        simp only [V2P, uint, PGSIZE, KERNBASE, PHYSTOP] at hin hp ⊢
        omega
      have hnext : p + PGSIZE < 2 ^ 32 := by
        have hin := hfreed.1.2
        simp only [PGSIZE, KERNBASE, PHYSTOP] at hin hf ⊢
        omega
      generalize V2P p / PGSIZE = f at hs₁ hfreed hf ⊢
      have hwithin : Within p vend f := ⟨by rw [P2V, hf], by rw [P2V, hf]; exact hle⟩
      have hnot : f ∉ s.kmem.freelist := fun hmem => hfree f hmem hwithin
      have hclear : Agree s { t with kmem := setRef t.kmem f 0 } := by
        have hzero := h.setCount (f := f) (m := s.kmem.refcount_list f) (n := 0) (h0 f) (by omega)
        rwa [Kmem.setRef, Function.update_eq_self] at hzero
      obtain ⟨t₁, ht₁, h₁⟩ := hclear.kfree_step hnot hfreed
      obtain ⟨-, ⟨-, rfl⟩ | ⟨hbad, -⟩⟩ := hfreed
      · have hp' : (p + PGSIZE) % PGSIZE = 0 := by rwa [Nat.add_mod_right]
        have h0' : ∀ g, (s.kmem.setRef f 0).refcount_list g = 0 := fun g => by
          rw [Kmem.setRef_apply, h0 g, ite_self]
        have hfree' : ∀ g ∈ f :: s.kmem.freelist, ¬Within (p + PGSIZE) vend g := by
          intro g hg hw
          have hge := hw.1
          rcases List.mem_cons.mp hg with rfl | hg
          · simp only [P2V, PGSIZE] at hge hf
            omega
          · exact hfree g hg ⟨by omega, hw.2⟩
        obtain ⟨t', ht', h', hz, hl⟩ := ih hp' hnext h₁ h0' hfree' hs₂
        refine ⟨t', ?_, h', hz, fun g hg => ?_⟩
        · exact (ok_bind rfl).trans ((ok_bind ht₁).trans ht')
        · rcases hl g hg with hg | hg
          · rcases List.mem_cons.mp hg with rfl | hg
            · exact Or.inr hwithin
            · exact Or.inl hg
          · exact Or.inr ⟨by have := hg.1; omega, hg.2⟩
      · rw [h0 f] at hbad
        omega
    · rw [if_neg hle] at hs ⊢
      obtain ⟨-, rfl⟩ := EStateM.Result.ok.inj hs
      exact ⟨t, rfl, h, h0, fun f hf => Or.inl hf⟩

/-- `freerange` on pages that are not on the free list, while no count is set. -/
theorem freerange_agree {vstart vend : ℕ} (h : Agree s t) (h0 : ∀ f, s.kmem.refcount_list f = 0)
    (hfree : ∀ f ∈ s.kmem.freelist, ¬Within (PGROUNDUP vstart) vend f)
    (hs : Xv6.freerange vstart vend s = .ok () s') :
    ∃ t', freerange vstart vend t = .ok () t' ∧ Agree s' t' ∧
      (∀ f, s'.kmem.refcount_list f = 0) ∧
      ∀ f ∈ s'.kmem.freelist, f ∈ s.kmem.freelist ∨ Within (PGROUNDUP vstart) vend f := by
  unfold Xv6.freerange at hs
  refine freerangeLoop_agree ?_ ?_ h h0 hfree hs
  · simp only [PGROUNDUP, PGSIZE, uint]
    omega
  · simp only [PGROUNDUP, PGSIZE, uint]
    omega

/-- The zeroed data both allocators start with. -/
theorem agree_init (M : ℕ → Page) :
    Agree ⟨Kalloc.init, M, false⟩ ⟨({} : Kmem), M, false⟩ :=
  ⟨rfl, fun _ => rfl, fun _ => Nat.two_pow_pos 31, List.nodup_nil,
    fun _ h => (List.not_mem_nil h).elim, rfl, rfl⟩

end Kinit

/-- The two page allocators agree. `kinit1` and `kinit2` are called on two ranges with no page in
common, and `kalloc.c` gets through both and through the calls `cs` without a panic, without a
count below zero and without a free page freed. Then `correct_kalloc.c` gets through them too, with
the same results and the same counts, and its counter of free pages is the length of either list. -/
theorem allocators_agree {M : ℕ → Page} {vstart₁ vend₁ vstart₂ vend₂ : ℕ}
    (hapart : vend₁ ≤ PGROUNDUP vstart₂ ∨ vend₂ ≤ PGROUNDUP vstart₁)
    {s₁ s₂ s : Phys Cow.Kmem} {cs : List Call} {rs : List (Option ℕ)}
    (h₁ : Xv6.freerange vstart₁ vend₁ ⟨Kalloc.init, M, false⟩ = .ok () s₁)
    (h₂ : Xv6.freerange vstart₂ vend₂ s₁ = .ok () s₂) (hr : Run s₂ cs rs s) :
    ∃ t₁ t₂ t : Phys Kmem, kinit1 vstart₁ vend₁ ⟨{}, M, false⟩ = .ok () t₁ ∧
      kinit2 vstart₂ vend₂ t₁ = .ok () t₂ ∧ runCorrect cs t₂ = .ok rs t ∧
      (∀ f, s.kmem.refcount_list f = t.kmem.page_refC f) ∧
      get_count_of_free_pages_right_now t.kmem =
        Cow.get_count_of_free_pages_right_now s.kmem ∧
      num_of_FreePages t.kmem = Cow.get_count_of_free_pages_right_now s.kmem := by
  obtain ⟨t₁, ht₁, ha₁, h0₁, hl₁⟩ := freerange_agree (agree_init M) (fun _ => rfl)
    (fun _ h => (List.not_mem_nil h).elim) h₁
  obtain ⟨t₂, ht₂, ha₂, -, -⟩ := freerange_agree ha₁ h0₁ (fun f hf hw => by
    rcases hl₁ f hf with hf | hf
    · exact (List.not_mem_nil hf).elim
    · have hw₁ := hf.1
      have hw₂ := hf.2
      have hw₃ := hw.1
      have hw₄ := hw.2
      simp only [PGSIZE] at hw₁ hw₂ hw₃ hw₄
      omega) h₂
  obtain ⟨t, ht, ha⟩ := ha₂.run hr
  refine ⟨t₁, t₂, t, ?_, ht₂, ht, ha.count, congrArg List.length ha.freelist, ha.num⟩
  exact ht₁

/-- Counts that are numbers of a few claims are not negative. -/
theorem nonNegative {dom : ℕ → Prop} {s : Phys Cow.Kmem} {o : Ledger ℕ}
    (h : Balanced dom s.kmem o) (ho : ∀ f, refs o f ≤ 2) : NonNegative s := by
  intro f
  have hf := ho f
  rw [h.count f, Int.bmod_def]
  split <;> omega

/-- A page is allocated, shared, and released once. -/
theorem run_shared {s : Phys Cow.Kmem} (hb : Balanced InRange s.kmem 0)
    (hne : s.kmem.freelist ≠ []) : ∃ (f : ℕ) (s' : Phys Cow.Kmem),
      Run s [.kalloc, .increment (f * PGSIZE), .kfree f] [some f, none, none] s' := by
  obtain ⟨r, s₁, hs₁, h₁⟩ := wp_ok (kalloc_spec hb)
  rcases r with _ | f
  · exact absurd h₁.2 hne
  obtain ⟨-, hclaim, -, -, -⟩ := h₁
  have hb₁ := hclaim _ (isClaim_shared f)
  have hf₁ : ((0 + shared f : Ledger ℕ) f).1 ≠ 0 := by simp
  obtain ⟨_, s₂, hs₂, hb₂, -, -, hfl₂⟩ := wp_ok (increase_refcount_spec hb₁ hf₁)
  obtain ⟨_, s₃, hs₃, hb₃, -⟩ := wp_ok (kfree_spec (isClaim_shared f) hb₂)
  have hheld : (0 + shared f : Ledger ℕ) f ≠ 0 := fun h => hf₁ (congrArg Prod.fst h)
  have hin : InRange f := hb₁.inRange f (hb₁.exact.held_dom f hheld)
  have hpa : f * PGSIZE / PGSIZE = f := Nat.mul_div_cancel f (by decide)
  have hrefs : ∀ g, refs (shared f) g ≤ 1 := fun g => by
    rw [refs_shared]
    split <;> omega
  refine ⟨f, s₃, .cons trivial hs₁ (nonNegative hb₁ fun g => ?_) (.cons ?_ ?_
    (nonNegative hb₂ fun g => ?_) (.cons ?_ (ok_bind hs₃) (nonNegative hb₃ fun g => ?_) .nil))⟩
  · have := hrefs g
    rw [refs_add, refs_zero]
    omega
  · refine ⟨?_, hin.2⟩
    have h₁ := hin.1
    have h₂ := layout_bounds
    simp only [V2P, uint, PGSIZE, KERNBASE] at *
    omega
  · refine @ok_bind _ _ _ _ _ _ _ () s₂ ?_
    rwa [hpa]
  · have := hrefs g
    rw [refs_add, refs_add, refs_zero]
    omega
  · exact fun hmem => hheld (hb₁.exact.free_unheld f (hfl₂ ▸ hmem))
  · have := hrefs g
    rw [refs_add, refs_zero]
    omega

end Calls

/-- A sequence with a page shared and released again, after the calls `main` makes. -/
theorem allocators_agree_shared : ∃ (_ : Layout) (f : ℕ) (s₁ s₂ s : Phys Cow.Kmem)
    (t₁ t₂ t : Phys Kmem),
    Xv6.freerange Layout.end_ (P2V INITSTOP) ⟨Kalloc.init, fun _ => zeroPage, false⟩ =
      .ok () s₁ ∧ Xv6.freerange (P2V INITSTOP) (P2V PHYSTOP) s₁ = .ok () s₂ ∧
      Run s₂ [.kalloc, .increment (f * PGSIZE), .kfree f] [some f, none, none] s ∧
      kinit1 Layout.end_ (P2V INITSTOP) ⟨{}, fun _ => zeroPage, false⟩ = .ok () t₁ ∧
      kinit2 (P2V INITSTOP) (P2V PHYSTOP) t₁ = .ok () t₂ ∧
      runCorrect [.kalloc, .increment (f * PGSIZE), .kfree f] t₂ = .ok [some f, none, none] t ∧
      s.kmem.refcount_list f = t.kmem.page_refC f ∧
      num_of_FreePages t.kmem = Cow.get_count_of_free_pages_right_now s.kmem := by
  let L := sampleLayout
  obtain ⟨_, s₁, hs₁, ha₁, -, hl₁⟩ := wp_ok (kinit1_spec (κ := Cow.Kmem)
    (s := ⟨Kalloc.init, fun _ => zeroPage, false⟩) LawfulKalloc.acct_init)
  obtain ⟨_, s₂, hs₂, ha₂, -, hl₂⟩ := wp_ok (kinit2_spec ha₁)
  have hne : s₂.kmem.freelist ≠ [] := fun hnil => by
    have hlen : s₂.free.length = 0 := by
      rw [Phys.free]
      exact congrArg List.length hnil
    rw [EFRAMES_eq, NFRAMES_eq, hlen] at hl₂
    omega
  obtain ⟨f, s, hrun⟩ := run_shared ha₂ hne
  obtain ⟨t₁, t₂, t, h₁, h₂, h₃, hc, -, hn⟩ :=
    allocators_agree (Or.inl (by decide)) hs₁ hs₂ hrun
  exact ⟨L, f, s₁, s₂, s, t₁, t₂, t, hs₁, hs₂, hrun, h₁, h₂, h₃, hc f, hn⟩

end OsLabs.Cow.CorrectKalloc
